import Sigil.Proofs.Machine.Moves
import Sigil.Proofs.Machine.Visits

/-!
Calls and results balance: the first machine after a call that has as many frames as the caller has
the caller's frames, and goes on behind the call, whatever the code in between did.
-/
namespace Sigil.Machine

variable {code : Code} {config : Config} {m t t' u : Machine} {limit n : Nat}

/-- The machine after `n` steps, those that fault among them. -/
def stepped (code : Code) (m : Machine) : Nat → Machine
  | 0 => m
  | n + 1 => after (step code) (stepped code m n)

theorem Visited.stepped (h : Visited code config m) (n : Nat) :
    Visited code config (stepped code m n) := by
  induction n with
  | zero => exact h
  | succ n ih => exact ih.use .step

structure Inside (m t : Machine) : Prop where
  bases : ∃ inner, t.stack.bases = m.stack.bases ++ m.stack.height :: inner
  returns : ∃ inner, t.returns = inner ++ (m.pc + 1) :: m.returns

structure Resumed (m t : Machine) : Prop where
  base : t.stack.base = m.stack.base
  height : t.stack.height = m.stack.height
  saved : t.stack.saved = m.stack.saved
  returns : t.returns = m.returns
  pc : t.pc = m.pc + 1

theorem Inside.deeper (h : Inside m t) : m.stack.saved.size < t.stack.saved.size := by
  obtain ⟨inner, hi⟩ := h.bases
  have := congrArg List.length hi
  simp only [Stack.length_bases, List.length_append, List.length_cons] at this
  omega

theorem Inside.stays (h : Inside m t) (hs : Stays t t') : Inside m t' where
  bases := by
    simp only [Stack.bases, hs.saved, hs.base]
    exact h.bases
  returns := by
    rw [hs.returns]
    exact h.returns

theorem inside_of_enters (hs : t.stack = m.stack.pushFrame)
    (hr : t.returns = (m.pc + 1) :: m.returns) : Inside m t :=
  ⟨⟨[], by rw [hs, Stack.bases_pushFrame]⟩, ⟨[], hr⟩⟩

theorem Inside.enters (h : Inside m t) (hs : t'.stack = t.stack.pushFrame)
    (hr : t'.returns = (t.pc + 1) :: t.returns) : Inside m t' where
  bases := by
    obtain ⟨inner, hi⟩ := h.bases
    exact ⟨inner ++ [t.stack.height], by rw [hs, Stack.bases_pushFrame, hi]; simp⟩
  returns := by
    obtain ⟨inner, hi⟩ := h.returns
    exact ⟨(t.pc + 1) :: inner, by rw [hr, hi]; rfl⟩

/-- A result ends the call, or a call made inside of it. -/
theorem Inside.leaves {base : Nat} (h : Inside m t) (hm : Nested limit m) (ht : Nested limit t)
    (hb : t.stack.saved.back? = some base) (hs : t'.stack = t.stack.popFrame base)
    (hr : t.returns = t'.pc :: t'.returns) : Inside m t' ∨ Resumed m t' := by
  obtain ⟨inner, hi⟩ := h.bases
  obtain ⟨addresses, ha⟩ := h.returns
  -- as many return addresses are to come as frames
  have hlength : addresses.length = inner.length := by
    have h1 := congrArg List.length hi
    have h2 := congrArg List.length ha
    simp only [Stack.length_bases, List.length_append, List.length_cons] at h1 h2
    have h3 := hm.balanced
    have h4 := ht.balanced
    omega
  have hbases : t'.stack.bases = (m.stack.bases ++ m.stack.height :: inner).dropLast := by
    rw [hs, Stack.bases_popFrame hb, hi]
  rw [hr] at ha
  cases inner with
  | nil =>
    obtain rfl := List.length_eq_zero_iff.1 hlength
    obtain ⟨hpc, hreturns⟩ := List.cons.inj ha
    rw [List.dropLast_concat] at hbases
    obtain ⟨hsaved, hbase⟩ := List.append_inj' hbases rfl
    have hlast : t.stack.base = m.stack.height := List.singleton_inj.1 (List.append_inj' hi rfl).2
    refine .inr ⟨List.singleton_inj.1 hbase, ?_, Array.toList_inj.1 hsaved, hreturns, hpc⟩
    rw [hs, Stack.height_popFrame, Nat.min_eq_left ht.base_le, hlast]
  | cons b inner =>
    cases addresses with
    | nil => cases hlength
    | cons pc addresses =>
      refine .inl ⟨⟨(b :: inner).dropLast, ?_⟩, ⟨addresses, (List.cons.inj ha).2⟩⟩
      rw [hbases, List.dropLast_append_of_ne_nil (List.cons_ne_nil _ _), List.dropLast_cons_cons]

theorem Inside.shifts (h : Inside m t) (hm : Nested limit m) (ht : Nested limit t)
    (hs : Shifts t t') : Inside m t' ∨ Resumed m t' := by
  cases hs with
  | stays hs => exact .inl (h.stays hs)
  | enters _ hs hr => exact .inl (h.enters hs hr)
  | leaves hb hs hr => exact h.leaves hm ht hb hs hr

theorem inside_of_call {target : Nat} (hcall : code.get? m.pc = some (.call target))
    (hok : step code m = .ok () u) : Inside m u := by
  rw [step_of_upcoming ((upcoming?_of_step hok).trans hcall)] at hok
  by_cases hroom : m.stack.hasRoom
  · have hexecute : execute (.call target) m.fetched = .ok () (m.called target) := if_pos hroom
    rw [hexecute] at hok
    cases hok
    exact inside_of_enters rfl rfl
  · have hexecute : execute (.call target) m.fetched =
        .error (.stackOverflow m.stack.limit) m.fetched := if_neg hroom
    rw [hexecute] at hok
    cases hok

/-- Until a machine has as many frames as the caller, it is inside the call; then it has resumed. -/
theorem resumed_of_inside (hm : Visited code config m) (h : Inside m (stepped code m 1))
    (hn : 0 < n) (hback : (stepped code m n).stack.saved.size = m.stack.saved.size)
    (hfirst : ∀ k < n, 0 < k → (stepped code m k).stack.saved.size ≠ m.stack.saved.size) :
    Resumed m (stepped code m n) := by
  have hinside : ∀ k, k < n →
      Inside m (stepped code m (k + 1)) ∨ Resumed m (stepped code m (k + 1)) := by
    intro k
    induction k with
    | zero => exact fun _ => .inl h
    | succ k ih =>
      intro hk
      rcases ih (by omega) with hi | hr
      · have ht := (hm.stepped (k + 1)).nested
        exact hi.shifts hm.nested ht (shifts_step code ht.balanced)
      · exact absurd (congrArg Array.size hr.saved) (hfirst (k + 1) hk (by omega))
  obtain ⟨k, rfl⟩ : ∃ k, n = k + 1 := ⟨n - 1, by omega⟩
  exact (hinside k (by omega)).resolve_left fun hi => absurd hback (Nat.ne_of_gt hi.deeper)

theorem resumed_of_call {target : Nat} (hm : Visited code config m)
    (hcall : code.get? m.pc = some (.call target)) (hok : step code m = .ok () u) (hn : 0 < n)
    (hback : (stepped code m n).stack.saved.size = m.stack.saved.size)
    (hfirst : ∀ k < n, 0 < k → (stepped code m k).stack.saved.size ≠ m.stack.saved.size) :
    Resumed m (stepped code m n) := by
  have hu : stepped code m 1 = u := after_of_ok hok
  exact resumed_of_inside hm (hu ▸ inside_of_call hcall hok) hn hback hfirst

def untidy : Code where
  instructions :=
    #[.push (.constant .zero), .call 3, .exit .accumulator,
      .push (.constant .zero), .call 6, .result (.stack 0),
      .push (.constant .zero), .move (.stack (-2)) (.constant (.string "a")), .result (.stack (-2))]
  labels := []

theorem resumed_untidy : ∃ m u, Visited untidy ⟨5, none⟩ m ∧
    untidy.get? m.pc = some (.call 3) ∧ step untidy m = .ok () u ∧
    (stepped untidy m 7).stack.saved.size = m.stack.saved.size ∧
    (∀ k < 7, 0 < k → (stepped untidy m k).stack.saved.size ≠ m.stack.saved.size) ∧
    Resumed m (stepped untidy m 7) :=
  have h : Visited untidy ⟨5, none⟩ _ := .use .start .step
  have hfirst : ∀ k < 7, 0 < k → (stepped untidy _ k).stack.saved.size ≠ _ := by decide
  ⟨_, _, h, rfl, rfl, rfl, hfirst, resumed_of_call h rfl rfl (by decide) rfl hfirst⟩

end Sigil.Machine
