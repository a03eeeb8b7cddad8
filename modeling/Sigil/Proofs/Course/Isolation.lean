import Sigil.Proofs.Course.Standing

/-!
Callers are isolated from the functions they call: a function gets a copy of its arguments right below
its frame, and whatever it and the functions it calls do, nothing below that copy changes.
-/
namespace Sigil

open Machine
open Relation (ReflTransGen)

variable {p : Program} {code : Code} {entry : String → Nat} {sections : List Section}
  {a b c : Activation} {config : Config} {m t u : Machine}

/-- From a call on, as long as no machine has come back to the frame of the caller. The first one that
has is the last. -/
def Machine.UpToReturn (code : Code) (m : Machine) (n : Nat) : Prop :=
  ∀ k < n, 0 < k → (stepped code m k).status = .running →
    (stepped code m k).stack.saved.size ≠ m.stack.saved.size

theorem Machine.UpToReturn.pred {n : Nat} (h : UpToReturn code m (n + 1)) : UpToReturn code m n :=
  fun k hk => h k (Nat.lt_succ_of_lt hk)

/-- The function at an address is the one that has its label there. -/
theorem Program.Sectioned.label_iff {s : Section} {f : Function} {name : String}
    (h : p.Sectioned code entry sections) (hs : s ∈ sections) (hf : s.part = .function f) :
    (s.start, name) ∈ code.labels ↔ name = f.name := by
  rw [h.mem_labels]
  constructor
  · rintro ⟨u, hu, g, hg, hstart, rfl⟩
    have hfirst : ∀ u ∈ sections, u.Has u.start := fun u hu =>
      (u.knows_start (h.draft_ne_nil hu)).has
    obtain rfl := h.consecutive.eq_of_has hu hs (hstart ▸ hfirst u hu) (hfirst s hs)
    rw [hf] at hg
    cases hg
    rfl
  · rintro rfl
    exact ⟨s, hs, f, hf, rfl, rfl⟩

namespace Activation

theorem Calls.exists_function (h : a.Calls sections b) :
    ∃ f, b.home ∈ sections ∧ b.home.part = .function f := by
  obtain ⟨s, f, x, y, hx, hs, hf⟩ := h
  exact ⟨f, hs, hf⟩

theorem Active.reaches (hb : b.Active sections) (hbc : ReflTransGen (Calls sections) b c) :
    c.Active sections := by
  obtain ⟨s, hs, hpart, hcalls⟩ := hb
  exact ⟨s, hs, hpart, hcalls.trans hbc⟩

/-- The parameters of a function lie no deeper than those of the functions it is called from. -/
theorem Active.floor_le (h : p.Sectioned code entry sections) (hb : b.Active sections)
    (hbc : ReflTransGen (Calls sections) b c) :
    b.base + c.home.part.arity ≤ c.base + b.home.part.arity := by
  induction hbc with
  | refl => exact Nat.le_refl _
  | tail hc hcd ih =>
    have := h.room (hb.reaches hc).home_mem hcd
    omega

end Activation

structure Guarded (sections : List Section) (b : Activation) (m t : Machine) : Prop where
  cells : ∀ i, i + b.home.part.arity < b.base → t.stack.cells[i]? = m.stack.cells[i]?
  inside : t.status = .running → t.stack.saved.size ≠ m.stack.saved.size →
    ∃ c, ReflTransGen (Activation.Calls sections) b c ∧ Stands sections t c

theorem Guarded.refl (sections : List Section) (b : Activation) (m : Machine) :
    Guarded sections b m m :=
  ⟨fun _ _ => rfl, fun _ hne => absurd rfl hne⟩

/-- A run that ends leaves the stack as it is. -/
theorem Guarded.stop (ht : Guarded sections b m t) (hstack : u.stack = t.stack)
    (hs : u.status ≠ .running) : Guarded sections b m u :=
  ⟨fun i hi => hstack ▸ ht.cells i hi, fun hr => absurd hr hs⟩

/-- What a step within the call does. -/
theorem Guarded.turn (h : p.Sectioned code entry sections) (hm : Stands sections m a)
    (hab : a.Calls sections b) (ht : Guarded sections b m t) (hr : t.status = .running)
    (hsize : t.stack.saved.size ≠ m.stack.saved.size) :
    Guarded sections b m (after (step code) t) := by
  obtain ⟨c, hbc, hc⟩ := ht.inside hr hsize
  have hb := hm.active.calls hab
  have hfloor := hb.floor_le h hbc
  have hturn := hc.turn h hr
  unfold after
  generalize step code t = r at hturn ⊢
  cases hturn with
  | goes hc' _ hcells =>
    refine ⟨fun i hi => ?_, fun _ _ => ⟨c, hbc, hc'⟩⟩
    rw [hcells i (by omega), ht.cells i hi]
  | enters hcd hd _ hcells =>
    refine ⟨fun i hi => ?_, fun _ _ => ⟨_, hbc.tail hcd, hd⟩⟩
    rw [hcells, ht.cells i hi]
  | leaves _ hcallers _ hcells =>
    refine ⟨fun i hi => ?_, fun _ hne => ?_⟩
    · rw [hcells i (by omega), ht.cells i hi]
    · rcases hbc.cases_tail with rfl | ⟨d, hbd, hdc⟩
      -- the function that `m` called returns
      · have ha := hcallers a hm.active hab
        have hsaved := congrArg List.length (ha.saved.trans hm.saved.symm)
        simp only [List.length_reverse, Array.length_toList] at hsaved
        exact absurd hsaved hne
      · exact ⟨d, hbd, hcallers d (hb.reaches hbd) hdc⟩
  | exits hs _ hstack => exact ht.stop hstack (by simp [hs])
  | faults hs hstack _ _ _ => exact ht.stop hstack (by simp [hs])

theorem guarded_of_call {target : Nat} (hr : m.status = .running)
    (hcall : code.get? m.pc = some (.call target)) (hb : Stands sections (m.called target) b) :
    Guarded sections b m (after (step code) m) := by
  cases hx : m.exhausted? with
  | some limit =>
    rw [after_of_error (step_exhausted hr hx)]
    exact (Guarded.refl sections b m).stop rfl (by simp)
  | none =>
    have hstep := step_of_allowed code hr hx
    simp only [hcall, execute_call] at hstep
    split at hstep
    · rw [after_of_ok hstep]
      exact ⟨fun _ _ => rfl, fun _ _ => ⟨b, .refl, hb⟩⟩
    · rw [after_of_error hstep]
      exact (Guarded.refl sections b m).stop rfl (by simp)

/-- Until the call has returned, and right after that, the cells below the parameters are as they
were. -/
theorem guarded_stepped {target : Nat} (h : p.Sectioned code entry sections)
    (hm : Stands sections m a) (hr : m.status = .running)
    (hcall : code.get? m.pc = some (.call target)) (hab : a.Calls sections b)
    (hb : Stands sections (m.called target) b) (n : Nat) (hn : UpToReturn code m (n + 1)) :
    Guarded sections b m (stepped code m (n + 1)) := by
  induction n with
  | zero => exact guarded_of_call hr hcall hb
  | succ n ih =>
    have ht := ih hn.pred
    by_cases hs : (stepped code m (n + 1)).status = .running
    · exact ht.turn h hm hab hs (hn (n + 1) (Nat.lt_succ_self _) (Nat.succ_pos n) hs)
    · have hstep : step code (stepped code m (n + 1)) = .error .notRunning _ := if_neg hs
      rw [stepped, after_of_error hstep]
      exact ht

/-- The frame that the next instruction opens, if there is room for it. -/
theorem Stands.callee {target : Nat} (h : p.Sectioned code entry sections)
    (hm : Stands sections m a) (hcall : code.get? m.pc = some (.call target)) :
    ∃ b, a.Calls sections b ∧ b.home.start = target ∧ Stands sections (m.called target) b := by
  obtain ⟨P, ⟨x, d, y, hdraft, hpc, rfl⟩, hP⟩ := hm.place
  have hd : code.get? m.pc = some (d.link entry) := hpc ▸ h.get hm.active.home_mem hdraft
  have hlink := Option.some.inj (hd.symm.trans hcall)
  cases h.spot hm.active.home_mem hdraft with
  | last _ => cases hpart : a.home.part <;> rw [hpart] at hlink <;> cases hlink
  | inner hd _ _ =>
    cases hd with
    | call hb harity _ =>
      cases hlink
      exact hm.enters h hdraft hpc hP hb harity
    | _ => cases hlink

/-- Whatever a called function does, the cells of the callers, and the first copy of the arguments
among them, are what they were. -/
theorem Program.callers_isolated {target : Nat} (h : p.compile = .ok code)
    (hm : Reachable code config m) (hr : m.status = .running)
    (hcall : code.get? m.pc = some (.call target)) :
    ∃ f ∈ p.functions, (∀ name, (target, name) ∈ code.labels ↔ name = f.name) ∧
      m.stack.base + 2 * f.parameters.length ≤ m.stack.height ∧
      ∀ n, UpToReturn code m n → ∀ i < m.stack.height - f.parameters.length,
        (stepped code m n).stack.cells[i]? = m.stack.cells[i]? := by
  obtain ⟨entry, sections, hp⟩ := sectioned_of_compile h
  obtain ⟨a, ha⟩ := stands_of_reachable hp hm hr
  obtain ⟨b, hab, rfl, hb⟩ := ha.callee hp hcall
  obtain ⟨f, hs, hf⟩ := hab.exists_function
  have hbase : m.stack.height = b.base := hb.base
  have hroom := hp.room ha.active.home_mem hab
  have harity : b.home.part.arity = f.parameters.length := by rw [hf, Part.arity]
  rw [harity, ← hbase, ← ha.base] at hroom
  refine ⟨f, hp.mem_functions hs hf, fun name => hp.label_iff hs hf, hroom, fun n hn i hi => ?_⟩
  cases n with
  | zero => rfl
  | succ n => exact (guarded_stepped hp ha hr hcall hab hb n hn).cells i (by omega)

def Program.overwriting : Program :=
  ⟨[⟨"overwrite", ["x"], .assign "x" (.literal (.string "b"))⟩],
    .letIn ["x"] [.literal (.string "a")] (.call "overwrite" [.variable "x"])⟩

def Code.overwriting : Code where
  instructions :=
    #[.move .accumulator (.constant (.string "a")), .push .accumulator,
      .move .accumulator (.stack 0), .push .accumulator, .push (.stack 1), .call 9, .drop 2, .drop 1,
      .exit .accumulator,
      .move .accumulator (.constant (.string "b")), .move (.stack (-1)) .accumulator,
      .result .accumulator]
  labels := [(9, "overwrite")]

def Machine.overwriting : Machine where
  stack := ⟨#[.string "a", .string "a", .string "a"], 0, #[], 4⟩
  heap := []
  pc := 5
  returns := []
  accumulator := .string "a"
  status := .running
  stepLimit := none
  steps := 5

/-- The second copy of the argument is overwritten, and nothing else. -/
theorem Program.isolated_overwriting : Reachable .overwriting ⟨4, none⟩ .overwriting ∧
    (stepped .overwriting .overwriting 4).pc = 6 ∧
    (stepped .overwriting .overwriting 4).stack.cells =
      #[.string "a", .string "a", .string "b"] ∧
    ∃ f ∈ overwriting.functions, 2 * f.parameters.length ≤ 3 ∧ ∀ i < 3 - f.parameters.length,
      (stepped .overwriting .overwriting 4).stack.cells[i]? = Machine.overwriting.stack.cells[i]? := by
  have h : Reachable .overwriting ⟨4, none⟩ .overwriting :=
    .next (.next (.next (.next (.next .init rfl) rfl) rfl) rfl) rfl
  have hback : ∀ k < 4, 0 < k → (stepped .overwriting .overwriting k).status = .running →
      (stepped .overwriting .overwriting k).stack.saved.size ≠ 0 := by decide
  obtain ⟨f, hf, -, hroom, hcells⟩ := callers_isolated (p := overwriting) rfl h rfl rfl
  exact ⟨h, rfl, rfl, f, hf, Nat.zero_add (2 * _) ▸ hroom, hcells 4 hback⟩

end Sigil
