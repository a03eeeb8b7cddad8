import Sigil.Proofs.Simulation.Forms

/-! The forms that keep values on the stack: bindings and concatenations. -/
namespace Sigil

open Machine

theorem Layout.nodup_slots (L : Layout) (k : Nat) : (L.slots k).Nodup := by
  refine List.pairwise_map.2 (List.nodup_range.imp ?_)
  intro i j hij h
  exact hij (by omega)

theorem sublist_map_snd_zip {α β : Type} (xs : List α) (ys : List β) :
    ((xs.zip ys).map Prod.snd).Sublist ys := by
  induction xs generalizing ys with
  | nil => exact List.nil_sublist ys
  | cons x xs ih =>
    cases ys with
    | nil => exact List.nil_sublist []
    | cons y ys => exact (ih ys).cons_cons y

theorem Stored.zip {s : Stack} {names : List String} {slots : List Int} {vs : List Value}
    (h : ∀ (i : Nat) t v, slots[i]? = some t → vs[i]? = some v → s.get? t = some v)
    (hl : slots.length = vs.length) : Stored s (names.zip slots) (names.zip vs) := by
  induction names generalizing slots vs with
  | nil => exact .nil
  | cons name names ih =>
    cases slots with
    | nil =>
      cases vs with
      | nil => exact .nil
      | cons v vs => cases hl
    | cons t slots =>
      cases vs with
      | nil => cases hl
      | cons v vs =>
        exact .cons ⟨rfl, h 0 t v rfl rfl⟩ (ih (fun i => h (i + 1)) (Nat.succ.inj hl))

theorem Scoped.bind {arity? : String → Option Nat} {L : Layout} {Γ : List (String × Int)} {k : Nat}
    {names : List String} (h : Scoped arity? L Γ) :
    Scoped arity? ((L.raised k).bind names (L.slots k)) (names.zip (L.slots k) ++ Γ) := by
  have hmem : ∀ t ∈ (names.zip (L.slots k)).map Prod.snd, t ∈ L.slots k := by
    intro t ht
    obtain ⟨e, he, rfl⟩ := List.mem_map.1 ht
    exact (List.of_mem_zip he).2
  refine ⟨h.arity, ?_, ?_, ?_⟩
  · intro x t ht
    simp only [Layout.bind] at ht
    rw [List.lookup_append]
    by_cases hx : x ∈ names
    · rw [if_pos hx] at ht
      simp [ht]
    · rw [if_neg hx] at ht
      have hnone : (names.zip (L.slots k)).lookup x = none := lookup_zip_of_not_mem hx
      rw [hnone]
      exact h.slot x t ht
  · rw [List.map_append, List.nodup_append]
    refine ⟨?_, h.nodup, ?_⟩
    · exact (L.nodup_slots k).sublist (sublist_map_snd_zip names _)
    · intro t ht u hu
      have := (Layout.mem_slots (hmem t ht)).1
      have := h.below u hu
      omega
  · intro t ht
    rw [List.map_append, List.mem_append] at ht
    rcases ht with ht | ht
    · exact (Layout.mem_slots (hmem t ht)).2
    · exact (h.raised k).below t ht

theorem Evaluation.within_eq (bindings : Env) (body : Evaluation Value) (ρ : Env) :
    within bindings body ρ =
      (body >>= fun v ρ' => (pure v : Evaluation Value) (ρ'.drop bindings.length)) (bindings ++ ρ) :=
  rfl

theorem Block.length_join (cell : Nat) (slots : List Int) : (join cell slots).length = slots.length := by
  simp [join]

namespace Simulation

variable {code : Code} {entry : String → Nat} {arity? : String → Option Nat} {n : Nat}

theorem simulates_letIn {values : List Block} {es : List (Evaluation Value)} {body : Block}
    {e : Evaluation Value} (names : List String)
    (hv : List.Forall₂ (Simulates code entry arity? n) values es)
    (hb : Simulates code entry arity? n body e) :
    Simulates code entry arity? n (Block.letIn names values body) (Evaluation.letIn names es e) := by
  intro L Γ ρ m b hblock hs ha hc
  obtain ⟨pushes, hpushes, -, b, hb', rfl⟩ := Block.letIn_eq_some.1 hblock
  obtain ⟨hc12, hc3⟩ := Code.holds_append.1 hc
  obtain ⟨hc1, hc2⟩ := Code.holds_append.1 hc12
  refine Meets.bind (meets_values hv hpushes hs ha hc1) fun vs ρ1 m1 h1 => ?_
  have hslots : (L.slots values.length).length = vs.length := by rw [Layout.length_slots, h1.length]
  have hstored : Stored m1.stack (names.zip (L.slots values.length) ++ Γ) (names.zip vs ++ ρ1) :=
    List.rel_append (Stored.zip h1.get hslots) h1.here.stored
  have ha1 : At (names.zip (L.slots values.length) ++ Γ) (names.zip vs ++ ρ1)
      (L.start + pushes.length) (L.offset + values.length) m1 := { h1.here with stored := hstored }
  have hs1 : Scoped arity? (((L.behind pushes).raised values.length).bind names
      (L.slots values.length)) (names.zip (L.slots values.length) ++ Γ) := (hs.behind pushes).bind
  rw [Evaluation.within_eq]
  refine Meets.bind (hb _ _ _ m1 b hb' hs1 ha1 hc2) fun v ρ2 m2 h2 => ?_
  have hzip : (names.zip (L.slots values.length)).length = (names.zip vs).length := by
    simp only [List.length_zip, hslots]
  have ha2 : At Γ (ρ2.drop (names.zip vs).length) (L.start + (pushes ++ b).length)
      (L.offset + values.length) m2 := by
    have hdrop := List.forall₂_drop (names.zip (L.slots values.length)).length h2.here.stored
    rw [List.drop_left, hzip] at hdrop
    exact { h2.here.cast (by simp [Layout.behind, Layout.bind, Layout.raised]; omega) rfl with
      stored := hdrop }
  have hf : Frame (Γ.map Prod.snd) m m2 := by
    refine h1.frame.trans h2.frame fun t ht => ?_
    rw [List.map_append, List.mem_append] at ht
    rcases ht with ht | ht
    · have := (Layout.mem_slots ((sublist_map_snd_zip _ _).subset ht)).1
      have := ha.height
      exact .inr (by omega)
    · exact .inl ht
  exact meets_drop hs ha ha2 h2.accumulator hf hc3 (by simp; omega)

structure Joins (Γ : List (String × Int)) (ρ : Env) (pc : Nat) (offset : Int) (cell : Nat) (s : String)
    (m : Machine) : Prop where
  here : At Γ ρ pc offset { m with heap := [] }
  heap : m.heap = [(cell, .string s)]

variable {Γ : List (String × Int)} {ρ : Env} {pc cell : Nat} {offset : Int} {s s' : String}
  {m : Machine}

theorem Joins.get {j : Instruction} (h : Joins Γ ρ pc offset cell s m)
    (hc : code.get? pc = some j) : code.get? m.pc = some j := h.here.get hc

theorem Joins.allocated (h : Joins Γ ρ pc offset cell s m) (s' : String) :
    Joins Γ ρ (pc + 1) offset cell s' (m.allocated [(cell, .string s')]) :=
  ⟨⟨h.here.running, rfl, congrArg (· + 1) h.here.pc, h.here.height, h.here.nonneg, h.here.stored⟩, rfl⟩

/-- A cell is taken, and holds the empty string. -/
theorem leads_begin (h : At Γ ρ pc offset m) (hn : code.get? pc = some (.new cell))
    (hm : code.get? (pc + 1) = some (.move (.heap cell) (.constant (.string "")))) :
    ∃ m', Leads code 2 m m' ∧ Joins Γ ρ (pc + 2) offset cell "" m' ∧ m'.stack = m.stack ∧
      m'.returns = m.returns := by
  have h1 := leads_new h.running (h.get hn) h.heap
  have hget : code.get? (m.allocated [(cell, .zero)]).pc =
      some (.move (.heap cell) (.constant (.string ""))) := by
    rw [← hm, ← h.pc]
    rfl
  have h2 := leads_storeHeap (m := m.allocated [(cell, .zero)]) h.running hget rfl rfl
  exact ⟨_, h1.trans h2,
    ⟨⟨h.running, rfl, congrArg (· + 2) h.pc, h.height, h.nonneg, h.stored⟩, rfl⟩, rfl, rfl⟩

/-- The cell is given back, and the accumulator has its string. -/
theorem leads_end (h : Joins Γ ρ pc offset cell s m)
    (hm : code.get? pc = some (.move .accumulator (.heap cell)))
    (hr : code.get? (pc + 1) = some (.release cell)) :
    ∃ m', Leads code 2 m m' ∧ At Γ ρ (pc + 2) offset m' ∧ m'.accumulator = .string s ∧
      m'.stack = m.stack ∧ m'.returns = m.returns := by
  have h1 := leads_accumulate (m := m) h.here.running (h.get hm) (read_heap h.heap)
  have hget : code.get? (m.accumulated (.string s)).pc = some (.release cell) := by
    rw [← hr, ← h.here.pc]
    rfl
  have h2 := leads_release (m := m.accumulated (.string s)) h.here.running hget h.heap
  exact ⟨_, h1.trans h2,
    ⟨h.here.running, rfl, congrArg (· + 2) h.here.pc, h.here.height, h.here.nonneg, h.here.stored⟩,
    rfl, rfl, rfl⟩

theorem leads_join {slots : List Int} {vs : List Value} (h : Joins Γ ρ pc offset cell s m)
    (hl : slots.length = vs.length)
    (hget : ∀ (i : Nat) t v, slots[i]? = some t → vs[i]? = some v → m.stack.get? t = some v)
    (hc : code.Holds entry pc (Block.join cell slots)) :
    ∃ k m', Leads code k m m' ∧
      Joins Γ ρ (pc + slots.length) offset cell (s ++ String.join (vs.map Value.render)) m' ∧
      m'.stack = m.stack ∧ m'.returns = m.returns := by
  induction slots generalizing vs pc s m with
  | nil =>
    cases vs with
    | nil => exact ⟨0, m, .refl code m, by simpa using h, rfl, rfl⟩
    | cons v vs => cases hl
  | cons t slots ih =>
    cases vs with
    | nil => cases hl
    | cons v vs =>
      obtain ⟨hc1, hc2⟩ := Code.holds_cons.1 hc
      have hstep := leads_binaryHeap (m := m) (b := v) h.here.running (h.get hc1) h.heap
        (read_stack (hget 0 t v rfl rfl)) rfl
      obtain ⟨k, m', hk, hm', hstack, hreturns⟩ := ih (h.allocated (s ++ v.render))
        (Nat.succ.inj hl) (fun i => hget (i + 1)) hc2
      refine ⟨1 + k, m', hstep.trans hk, ?_, hstack, hreturns⟩
      rw [List.map_cons, String.join_cons, ← String.append_assoc, List.length_cons,
        Nat.add_comm slots.length, ← Nat.add_assoc]
      exact hm'

theorem simulates_concat {parts : List Block} {es : List (Evaluation Value)}
    (hp : List.Forall₂ (Simulates code entry arity? n) parts es) :
    Simulates code entry arity? n (Block.concat parts) (Evaluation.concat es) := by
  intro L Γ ρ m b hb hs ha hc
  obtain ⟨pushes, hpushes, rfl⟩ := Block.concat_eq_some.1 hb
  obtain ⟨hc1, hc2⟩ := Code.holds_append.1 hc
  obtain ⟨hnew, hc3⟩ := Code.holds_cons.1 hc2
  obtain ⟨hempty, hc4⟩ := Code.holds_cons.1 hc3
  obtain ⟨hjoin, hc5⟩ := Code.holds_append.1 hc4
  obtain ⟨hload, hc6⟩ := Code.holds_cons.1 hc5
  obtain ⟨hrelease, hdrop⟩ := Code.holds_cons.1 hc6
  refine Meets.bind (meets_values hp hpushes hs ha hc1) fun vs ρ1 m1 h1 => ?_
  obtain ⟨m2, hk2, h2, hstack2, hreturns2⟩ := leads_begin h1.here hnew hempty
  have hget : ∀ (i : Nat) t v, (L.slots parts.length)[i]? = some t → vs[i]? = some v →
      m2.stack.get? t = some v := by
    rw [hstack2]
    exact h1.get
  obtain ⟨k, m3, hk3, h3, hstack3, hreturns3⟩ := leads_join h2 (by simp [h1.length]) hget hjoin
  rw [Block.length_join] at hload hrelease hdrop
  obtain ⟨m4, hk4, h4, hv4, hstack4, hreturns4⟩ := leads_end h3 hload hrelease
  refine Meets.step ((hk2.trans hk3).trans hk4) ?_
  have hf : Frame (Γ.map Prod.snd) m m4 := h1.frame.congr (hstack4.trans (hstack3.trans hstack2))
    (hreturns4.trans (hreturns3.trans hreturns2))
  refine meets_drop hs ha h4 ?_ hf hdrop ?_
  · rw [hv4, String.empty_append]
  · simp [Block.length_join]
    omega

end Simulation
end Sigil
