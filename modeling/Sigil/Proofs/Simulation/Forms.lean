import Sigil.Proofs.Simulation.Meets

/-!
The draft of an expression does what its evaluation says: each form does so if its parts do.
-/
namespace Sigil

open Machine

structure Scoped (arity? : String → Option Nat) (L : Layout) (Γ : List (String × Int)) : Prop where
  arity : L.arity? = arity?
  slot : ∀ x t, L.slot? x = some t → Γ.lookup x = some t
  nodup : (Γ.map Prod.snd).Nodup
  below : ∀ t ∈ Γ.map Prod.snd, t < L.offset

structure Lands (L : Layout) (Γ : List (String × Int)) (b : List Draft) (m : Machine)
    (r : Value × Env) (m' : Machine) : Prop where
  here : At Γ r.2 (L.start + b.length) L.offset m'
  accumulator : m'.accumulator = r.1
  frame : Frame (Γ.map Prod.snd) m m'

theorem Layout.getElem?_slots (L : Layout) (k i : Nat) (hi : i < k) :
    (L.slots k)[i]? = some (L.offset + i) := by
  simp [slots, hi]

section

variable {arity? : String → Option Nat} {L : Layout} {Γ : List (String × Int)} {b : List Draft}

theorem Scoped.behind (h : Scoped arity? L Γ) (b : List Draft) : Scoped arity? (L.behind b) Γ :=
  ⟨h.arity, h.slot, h.nodup, h.below⟩

theorem Scoped.raised (h : Scoped arity? L Γ) (n : Nat) : Scoped arity? (L.raised n) Γ where
  arity := h.arity
  slot := h.slot
  nodup := h.nodup
  below := by
    intro t ht
    have := h.below t ht
    show t < L.offset + n
    omega

theorem mem_slots_of_lookup {x : String} {t : Int} (h : Γ.lookup x = some t) : t ∈ Γ.map Prod.snd :=
  List.mem_map.2 ⟨_, mem_of_lookup h, rfl⟩

theorem Scoped.not_mem (h : Scoped arity? L Γ) {t : Int} (ht : L.offset ≤ t) :
    t ∉ Γ.map Prod.snd := by
  intro hm
  have := h.below t hm
  omega

end

namespace Simulation

variable {code : Code} {entry : String → Nat} {arity? : String → Option Nat} {n : Nat}

variable (code entry arity? n) in
/-- Wherever the block is placed in the code, a machine that starts there does what the evaluation
says, with at least `n` steps where it has no outcome. -/
def Simulates (block : Block) (e : Evaluation Value) : Prop :=
  ∀ L Γ ρ m b, block L = some b → Scoped arity? L Γ → At Γ ρ L.start L.offset m →
    code.Holds entry L.start b → Meets code n m (e ρ) (Lands L Γ b m)

theorem simulates_literal (v : Value) :
    Simulates code entry arity? n (Block.literal v) (return v) := by
  intro L Γ ρ m b hb hs ha hc
  cases hb
  have hget := (Code.holds_cons.1 hc).1
  refine Meets.step (leads_accumulate ha.running (ha.get hget) rfl) (Meets.pure ?_)
  exact ⟨ha.accumulated v, rfl, frame_accumulated _ m v⟩

theorem simulates_lookup (x : String) :
    Simulates code entry arity? n (Block.lookup x) (Evaluation.lookup x) := by
  intro L Γ ρ m b hb hs ha hc
  obtain ⟨t, ht, rfl⟩ := Option.map_eq_some_iff.1 hb
  obtain ⟨v, hv, hget⟩ := ha.stored.lookup (hs.slot x t ht)
  have he : Evaluation.lookup x ρ = (Pure.pure v : Evaluation Value) ρ := by
    simp only [Evaluation.lookup, hv]
    rfl
  rw [he]
  refine Meets.step (leads_accumulate ha.running (ha.get (Code.holds_cons.1 hc).1)
    (read_stack hget)) (Meets.pure ?_)
  exact ⟨ha.accumulated v, rfl, frame_accumulated _ m v⟩

theorem simulates_assign {block : Block} {e : Evaluation Value} (x : String)
    (h : Simulates code entry arity? n block e) :
    Simulates code entry arity? n (Block.assign x block) (Evaluation.assign x e) := by
  intro L Γ ρ m _ hblock hs ha hc
  obtain ⟨t, ht, b, hb, rfl⟩ := Block.assign_eq_some.1 hblock
  obtain ⟨hcb, hcs⟩ := Code.holds_append.1 hc
  refine Meets.bind (h L Γ ρ m b hb hs ha hcb) fun v ρ' m1 h1 => ?_
  obtain ⟨w, -, hw⟩ := h1.here.stored.lookup (hs.slot x t ht)
  obtain ⟨i, hi⟩ := Stack.index?_of_get? hw
  have hstep := leads_store h1.here.running (h1.here.get (Code.holds_cons.1 hcs).1) hi
  rw [h1.accumulator] at hstep
  refine Meets.step hstep (Meets.pure (a := v) ⟨?_, h1.accumulator, ?_⟩)
  · exact (h1.here.updated hi hs.nodup (hs.slot x t ht) v).cast (by simp; omega) rfl
  · exact h1.frame.written hi (.inl (mem_slots_of_lookup (hs.slot x t ht))) v

theorem simulates_not {block : Block} {e : Evaluation Value}
    (h : Simulates code entry arity? n block e) :
    Simulates code entry arity? n (Block.not block) (Evaluation.not e) := by
  intro L Γ ρ m _ hblock hs ha hc
  obtain ⟨b, hb, rfl⟩ := Block.not_eq_some.1 hblock
  obtain ⟨hcb, hcs⟩ := Code.holds_append.1 hc
  refine Meets.bind (h L Γ ρ m b hb hs ha hcb) fun v ρ' m1 h1 => ?_
  have hstep := leads_not h1.here.running (h1.here.get (Code.holds_cons.1 hcs).1)
  rw [h1.accumulator] at hstep
  refine Meets.step hstep (Meets.pure ⟨?_, rfl, ?_⟩)
  · exact (h1.here.accumulated _).cast (by simp; omega) rfl
  · exact h1.frame.accumulated _

theorem meets_push {block : Block} {e : Evaluation Value} (h : Simulates code entry arity? n block e)
    {L : Layout} {Γ : List (String × Int)} {ρ : Env} {m : Machine} {b : List Draft}
    (hb : block L = some b) (hs : Scoped arity? L Γ) (ha : At Γ ρ L.start L.offset m)
    (hc : code.Holds entry L.start (b ++ [Draft.push])) :
    Meets code n m (e ρ) fun r m' =>
      At Γ r.2 (L.start + (b ++ [Draft.push]).length) (L.offset + 1) m' ∧
        m'.stack.get? L.offset = some r.1 ∧ Frame (Γ.map Prod.snd) m m' := by
  obtain ⟨hc1, hc2⟩ := Code.holds_append.1 hc
  refine (h L Γ ρ m b hb hs ha hc1).andThen fun r m1 h1 => ?_
  have hget := (Code.holds_cons.1 hc2).1
  refine ⟨1, _, leads_push h1.here.running (h1.here.get hget) rfl, ?_, ?_, ?_⟩
  · exact (h1.here.pushed _).cast (by simp; omega) rfl
  · exact (h1.here.top _).trans (congrArg some h1.accumulator)
  · exact h1.frame.pushed _

structure LandsAll (L : Layout) (Γ : List (String × Int)) (b : List Draft) (k : Nat) (m : Machine)
    (r : List Value × Env) (m' : Machine) : Prop where
  here : At Γ r.2 (L.start + b.length) (L.offset + k) m'
  length : r.1.length = k
  cells : ∀ (i : Nat) v, r.1[i]? = some v → m'.stack.get? (L.offset + i) = some v
  frame : Frame (Γ.map Prod.snd) m m'

theorem LandsAll.get {L : Layout} {Γ : List (String × Int)} {b : List Draft} {k : Nat} {m m' : Machine}
    {r : List Value × Env} (h : LandsAll L Γ b k m r m') (i : Nat) (t : Int) (v : Value)
    (ht : (L.slots k)[i]? = some t) (hv : r.1[i]? = some v) : m'.stack.get? t = some v := by
  have hi : i < k := by simpa using (List.getElem?_eq_some_iff.1 ht).1
  rw [Layout.getElem?_slots L k i hi] at ht
  cases ht
  exact h.cells i v hv

theorem meets_values {blocks : List Block} {es : List (Evaluation Value)}
    (h : List.Forall₂ (Simulates code entry arity? n) blocks es) {L : Layout}
    {Γ : List (String × Int)} {ρ : Env} {m : Machine} {b : List Draft}
    (hb : Block.values blocks L = some b) (hs : Scoped arity? L Γ) (ha : At Γ ρ L.start L.offset m)
    (hc : code.Holds entry L.start b) :
    Meets code n m (Evaluation.values es ρ) (LandsAll L Γ b blocks.length m) := by
  induction h generalizing L ρ m b with
  | nil =>
    cases hb
    exact Meets.pure ⟨ha.cast rfl (by simp), rfl, by simp, .refl _ m⟩
  | @cons block e blocks es hblock _ ih =>
    obtain ⟨first, hfirst, rest, hrest, rfl⟩ := Block.values_cons_eq_some.1 hb
    obtain ⟨hc1, hc2⟩ := Code.holds_append.1 hc
    refine Meets.bind (meets_push hblock hfirst hs ha hc1) fun v ρ1 m1 h1 => ?_
    obtain ⟨ha1, htop, hf1⟩ := h1
    refine Meets.bind (ih hrest ((hs.behind _).raised 1) ha1 hc2) fun vs ρ2 m2 h2 => Meets.pure ?_
    refine ⟨?_, congrArg (· + 1) h2.length, ?_, hf1.trans_same h2.frame⟩
    · refine h2.here.cast ?_ ?_
      · simp [Layout.behind, Layout.raised]
        omega
      · simp [Layout.behind, Layout.raised]
        omega
    · intro i w hw
      cases i with
      | zero =>
        cases hw
        simpa using h2.frame.get? htop (hs.not_mem (Int.le_refl _))
      | succ i =>
        have := h2.cells i w hw
        simp only [Layout.behind, Layout.raised] at this
        rw [← this]
        congr 1
        omega

/-- Values that are no longer needed are dropped at the end of a form. -/
theorem meets_drop {L : Layout} {Γ : List (String × Int)} {ρ ρ' : Env} {m m' : Machine}
    {b : List Draft} {v : Value} {k pc start : Nat} (hs : Scoped arity? L Γ)
    (ha : At Γ ρ start L.offset m) (ha' : At Γ ρ' pc (L.offset + k) m') (hv : m'.accumulator = v)
    (hf : Frame (Γ.map Prod.snd) m m') (hc : code.Holds entry pc (Draft.drop k))
    (hpc : pc + (Draft.drop k).length = L.start + b.length) :
    Meets code n m' ((Pure.pure v : Evaluation Value) ρ') (Lands L Γ b m) := by
  by_cases hk : k = 0
  · subst hk
    exact Meets.pure ⟨ha'.cast hpc (by omega), hv, hf⟩
  · simp only [Draft.drop, hk, if_false, List.length_singleton] at hc hpc
    have hheight := ha.height
    have hheight' := ha'.height
    have hbase := hf.base
    have h0 := ha.nonneg
    refine Meets.step (leads_drop ha'.running (ha'.get (Code.holds_cons.1 hc).1) (by omega))
      (Meets.pure ⟨(ha'.dropped h0 hs.below).cast hpc rfl, hv, hf.dropped (by omega)⟩)

theorem apply_operation_eq_error {op : Operator} {a b : Value} {cause : TypeMismatch}
    (h : op.operation.apply a b = .error cause) :
    cause.operation = op.operation ∧ op.operation.Checked := by
  cases op <;> cases a <;> cases b <;> cases h <;> exact ⟨rfl, trivial⟩

theorem target_cases {op : Operator} {left : Expr} {L : Layout} {slot : Option Int}
    (h : Block.updateTarget op left L = some slot) :
    (slot = none ∧ Expr.updated? op left = none) ∨
      ∃ x t, slot = some t ∧ Expr.updated? op left = some x ∧ L.slot? x = some t := by
  unfold Block.updateTarget at h
  by_cases hop : op.isUpdate
  · simp only [hop, if_true] at h
    cases left with
    | «variable» x =>
      obtain ⟨t, ht, rfl⟩ := Option.map_eq_some_iff.1 h
      exact .inr ⟨x, t, rfl, by simp [Expr.updated?, hop], ht⟩
    | _ => cases h
  · simp only [hop] at h
    cases h
    refine .inl ⟨rfl, ?_⟩
    cases left <;> simp [Expr.updated?, hop]

theorem simulates_binary {l r : Block} {el er : Evaluation Value} (op : Operator) (left : Expr)
    (hl : Simulates code entry arity? n l el) (hr : Simulates code entry arity? n r er) :
    Simulates code entry arity? n (Block.binary op (Block.updateTarget op left) l r)
      (Evaluation.binary op (Expr.updated? op left) el er) := by
  intro L Γ ρ m b hb hs ha hc
  obtain ⟨slot, hslot, a, hl', b, hr', rfl⟩ := Block.binary_eq_some.1 hb
  obtain ⟨hc12, hc3⟩ := Code.holds_append.1 hc
  obtain ⟨hc1, hc2⟩ := Code.holds_append.1 hc12
  obtain ⟨hbinary, hc4⟩ := Code.holds_cons.1 hc3
  obtain ⟨hload, hc5⟩ := Code.holds_cons.1 hc4
  obtain ⟨hstore, hdrop⟩ := Code.holds_append.1 hc5
  refine Meets.bind (meets_push hl hl' hs ha hc1) fun v ρ1 m1 h1 => ?_
  obtain ⟨ha1, htop1, hf1⟩ := h1
  refine Meets.bind (meets_push hr hr' ((hs.behind _).raised 1) ha1 hc2) fun w ρ2 m2 h2 => ?_
  obtain ⟨ha2, htop2, hf2⟩ := h2
  have hfree : L.offset ∉ Γ.map Prod.snd := hs.not_mem (Int.le_refl _)
  have hleft := hf2.get? htop1 hfree
  obtain ⟨i, hi⟩ := Stack.index?_of_get? hleft
  have ha2' : At Γ ρ2 (L.start + (a ++ [Draft.push] ++ (b ++ [Draft.push])).length) (L.offset + 2)
      m2 := ha2.cast (by simp [Layout.behind, Layout.raised]; omega)
    (by simp [Layout.behind, Layout.raised]; omega)
  have htop2' : m2.stack.get? (L.offset + 1) = some w := htop2
  cases hv : op.operation.apply v w with
  | error cause =>
    obtain ⟨hop, hchecked⟩ := apply_operation_eq_error hv
    rw [Evaluation.bind_eq, Evaluation.apply, hv]
    exact ⟨0, m2, .refl code m2, mismatches_binary ha2'.running (ha2'.get hbinary) hleft
      (read_stack htop2') hi hop hchecked hv⟩
  | ok u =>
    rw [Evaluation.bind_eq, Evaluation.apply, hv]
    refine Meets.step (leads_binary ha2'.running (ha2'.get hbinary) hleft (read_stack htop2') hi hv) ?_
    have ha3 := ha2'.written hi hfree u
    have hget3 : (m2.written i u).stack.get? L.offset = some u := Stack.get?_set_same hi u
    refine Meets.step (leads_accumulate ha3.running (ha3.get hload) (read_stack hget3)) ?_
    have ha4 := ha3.accumulated u
    have hf4 : Frame (Γ.map Prod.snd) m ((m2.written i u).accumulated u) := by
      have hheight := ha.height
      exact ((hf1.trans_same hf2).written hi (.inr (by omega)) u).accumulated u
    rcases target_cases hslot with ⟨rfl, ht⟩ | ⟨x, t, rfl, ht, hx⟩
    · rw [ht]
      refine meets_drop hs ha (ha4.cast rfl (by simp)) rfl hf4 hdrop ?_
      simp
      omega
    · rw [ht]
      obtain ⟨_, -, hget⟩ := ha4.stored.lookup (hs.slot x t hx)
      obtain ⟨j, hj⟩ := Stack.index?_of_get? hget
      refine Meets.step (leads_store ha4.running (ha4.get (Code.holds_cons.1 hstore).1) hj) ?_
      have ha5 := ha4.updated hj hs.nodup (hs.slot x t hx) u
      refine meets_drop hs ha (ha5.cast rfl (by simp)) rfl
        (hf4.written hj (.inl (mem_slots_of_lookup (hs.slot x t hx))) u) hdrop ?_
      simp
      omega

end Simulation
end Sigil
