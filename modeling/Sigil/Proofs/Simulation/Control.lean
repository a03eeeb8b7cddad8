import Sigil.Proofs.Draft.Bounds
import Sigil.Proofs.Simulation.Binding

/-! The forms that jump: selections and loops, with a slot for the result. -/
namespace Sigil

open Machine

namespace Simulation

variable {code : Code} {entry : String → Nat} {arity? : String → Option Nat} {n : Nat}

structure Keeps (Γ : List (String × Int)) (result : Int) (exit : Nat) (offset : Int) (m : Machine)
    (r : Value × Env) (m' : Machine) : Prop where
  here : At Γ r.2 exit offset m'
  kept : m'.stack.get? result = some r.1
  frame : Frame (result :: Γ.map Prod.snd) m m'

theorem Keeps.behind {Γ : List (String × Int)} {result offset : Int} {exit : Nat} {m u m' : Machine}
    {r : Value × Env} (h : Keeps Γ result exit offset u r m')
    (hf : Frame (result :: Γ.map Prod.snd) m u) : Keeps Γ result exit offset m r m' :=
  { h with frame := hf.trans_same h.frame }

/-- A condition, and the jump that skips what depends on it. -/
theorem meets_test {block : Block} {e : Evaluation Value} (h : Simulates code entry arity? n block e)
    {L : Layout} {Γ : List (String × Int)} {ρ : Env} {m : Machine} {test : List Draft} {target : Nat}
    (hb : block L = some test) (hs : Scoped arity? L Γ) (ha : At Γ ρ L.start L.offset m)
    (hc : code.Holds entry L.start (test ++ [Draft.jumpUnless target])) :
    Meets code n m (e ρ) fun r m' =>
      At Γ r.2 (if r.1.isTruthy then (L.behind (test ++ [Draft.jumpUnless 0])).start else target)
        L.offset m' ∧ Frame (Γ.map Prod.snd) m m' := by
  obtain ⟨hc1, hc2⟩ := Code.holds_append.1 hc
  refine (h L Γ ρ m test hb hs ha hc1).andThen fun r m1 h1 => ?_
  have hstep := leads_jumpUnless h1.here.running (h1.here.get (Code.holds_cons.1 hc2).1)
  rw [h1.accumulator, h1.here.pc] at hstep
  refine ⟨1, _, hstep, (h1.here.jumped _).cast ?_ rfl, h1.frame.jumped _⟩
  simp [Layout.behind, Nat.add_assoc]

/-- What depends on a condition, with its value kept in the result slot. -/
theorem meets_kept {block : Block} {e : Evaluation Value} (h : Simulates code entry arity? n block e)
    {L : Layout} {Γ : List (String × Int)} {ρ : Env} {m : Machine} {b : List Draft} {result : Int}
    {last : Value} (hb : block L = some b) (hs : Scoped arity? L Γ) (hr : result ∉ Γ.map Prod.snd)
    (ha : At Γ ρ L.start L.offset m) (hlast : m.stack.get? result = some last)
    (hc : code.Holds entry L.start b)
    (hstore : code.get? (L.start + b.length) = some (.move (.stack result) .accumulator)) :
    Meets code n m (e ρ) (Keeps Γ result (L.start + b.length + 1) L.offset m) := by
  refine (h L Γ ρ m b hb hs ha hc).andThen fun r m1 h1 => ?_
  obtain ⟨i, hi⟩ := Stack.index?_of_get? (h1.frame.get? hlast hr)
  have hstep := leads_store h1.here.running (h1.here.get hstore) hi
  rw [h1.accumulator] at hstep
  exact ⟨1, _, hstep, h1.here.written hi hr _, Stack.get?_set_same hi _,
    (h1.frame.mono (List.subset_cons_self _ _)).written hi (.inl List.mem_cons_self) _⟩

theorem meets_arms {mode : Mode} {result : Int} {cs bs : List Block} {ecs ebs : List (Evaluation Value)}
    (hc : List.Forall₂ (Simulates code entry arity? n) cs ecs)
    (hb : List.Forall₂ (Simulates code entry arity? n) bs ebs) {L : Layout} {Γ : List (String × Int)}
    {ρ : Env} {m : Machine} {last : Value} {arms : Nat → List Draft} {exit : Nat}
    (harms : Block.arms mode result cs bs L = some arms) (hs : Scoped arity? L Γ)
    (hr : result ∉ Γ.map Prod.snd) (ha : At Γ ρ L.start L.offset m)
    (hlast : m.stack.get? result = some last) (hcode : code.Holds entry L.start (arms exit))
    (hexit : exit = L.start + (arms exit).length) :
    Meets code n m (Evaluation.select mode last ecs ebs ρ) (Keeps Γ result exit L.offset m) := by
  induction hc generalizing bs ebs L ρ m last arms with
  | nil =>
    simp only [Block.arms, Option.some.injEq] at harms
    subst harms
    simp only [Evaluation.select]
    exact Meets.pure ⟨ha.cast (by simpa using hexit.symm) rfl, hlast, .refl _ m⟩
  | @cons c ec cs ecs hcond _ ih =>
    cases hb with
    | nil =>
      simp only [Block.arms, Option.some.injEq] at harms
      subst harms
      simp only [Evaluation.select]
      exact Meets.pure ⟨ha.cast (by simpa using hexit.symm) rfl, hlast, .refl _ m⟩
    | @cons b eb bs ebs hbranch hbs =>
      obtain ⟨test, htest, b, hb, rest, hrest, rfl⟩ := Block.arms_cons_eq_some.1 harms
      obtain ⟨hc12, hc3⟩ := Code.holds_append.1 hcode
      obtain ⟨hc1, hc2⟩ := Code.holds_append.1 hc12
      have htest' : ∀ k, L.start + (test ++ [Draft.jumpUnless k]).length =
          (L.behind (test ++ [Draft.jumpUnless 0])).start := by
        simp [Layout.behind]
      have hnext : ∀ k, L.start + (test ++ [Draft.jumpUnless k] ++
          (b ++ Block.leave mode result exit)).length =
          (L.behind (test ++ [Draft.jumpUnless 0] ++ (b ++ Block.leave mode result 0))).start := by
        cases mode <;> simp [Layout.behind, Block.leave]
      rw [htest'] at hc2
      rw [hnext] at hc3
      rw [List.length_append, ← Nat.add_assoc, hnext] at hexit
      obtain ⟨hc2, hleave⟩ := Code.holds_append.1 hc2
      obtain ⟨hstore, hgoto⟩ := Code.holds_cons.1 hleave
      refine Meets.bind (meets_test hcond htest hs ha hc1) fun v ρ1 m1 h => ?_
      obtain ⟨h1, hf1⟩ := h
      have hlast1 := hf1.get? hlast hr
      have hf1' := hf1.mono (List.subset_cons_self result _)
      cases hv : v.isTruthy with
      | true =>
        simp only [hv, if_true] at h1 ⊢
        refine Meets.bind (meets_kept hbranch hb (hs.behind _) hr h1 hlast1 hc2 hstore)
          fun w ρ2 m2 h2 => ?_
        have h2' := h2.behind hf1'
        by_cases hm : mode = .first
        · simp only [hm, if_true]
          simp only [hm, if_true] at hgoto
          have hstep := leads_goto h2.here.running (h2.here.get (Code.holds_cons.1 hgoto).1)
          exact Meets.step hstep (Meets.pure ⟨h2.here.jumped exit, h2.kept, h2'.frame.jumped exit⟩)
        · simp only [hm, if_false]
          have hpc : (L.behind (test ++ [Draft.jumpUnless 0])).start + b.length + 1 =
              (L.behind (test ++ [Draft.jumpUnless 0] ++ (b ++ Block.leave mode result 0))).start := by
            simp [Layout.behind, Block.leave, hm]
            omega
          exact (ih hbs hrest (hs.behind _) (h2.here.cast hpc rfl) h2.kept hc3 hexit).andThen
            fun r m' h' => ⟨0, m', .refl code m', h'.behind h2'.frame⟩
      | false =>
        simp only [hv] at h1 ⊢
        exact (ih hbs hrest (hs.behind _) h1 hlast1 hc3 hexit).andThen fun r m' h' =>
          ⟨0, m', .refl code m', h'.behind hf1'⟩

/-- A selection or a loop: zero is pushed, the result kept in its place, and taken off at the end. -/
theorem meets_result {L : Layout} {Γ : List (String × Int)} {ρ : Env} {m : Machine}
    {b : List Draft} {exit : Nat} {o : Outcome (Value × Env)} (hs : Scoped arity? L Γ)
    (ha : At Γ ρ L.start L.offset m) (hzero : code.get? L.start = some (.push (.constant .zero)))
    (hend : code.Holds entry exit (Draft.load L.offset :: Draft.drop 1))
    (hexit : exit + 2 = L.start + b.length)
    (h : At Γ ρ (L.start + 1) (L.offset + 1) (m.pushed .zero) →
      (m.pushed .zero).stack.get? L.offset = some .zero →
      Meets code n (m.pushed .zero) o (Keeps Γ L.offset exit (L.offset + 1) (m.pushed .zero))) :
    Meets code n m o (Lands L Γ b m) := by
  refine Meets.step (leads_push ha.running (ha.get hzero) rfl)
    ((h (ha.pushed .zero) (ha.top .zero)).andThen fun r m1 h1 => ?_)
  obtain ⟨hload, hdrop⟩ := Code.holds_cons.1 hend
  have hstep := leads_accumulate h1.here.running (h1.here.get hload) (read_stack h1.kept)
  have hf : Frame (Γ.map Prod.snd) m m1 := by
    refine (frame_pushed _ m .zero).trans h1.frame fun t ht => ?_
    rcases List.mem_cons.1 ht with rfl | ht
    · exact .inr (Int.le_of_eq ha.height)
    · exact .inl ht
  exact Meets.step hstep (meets_drop (n := n) hs ha ((h1.here.accumulated r.1).cast rfl (by simp)) rfl
    (hf.accumulated r.1) hdrop hexit)

theorem simulates_select {cs bs : List Block} {ecs ebs : List (Evaluation Value)} (mode : Mode)
    (hc : List.Forall₂ (Simulates code entry arity? n) cs ecs)
    (hb : List.Forall₂ (Simulates code entry arity? n) bs ebs) :
    Simulates code entry arity? n (Block.select mode cs bs) (Evaluation.select mode .zero ecs ebs) := by
  intro L Γ ρ m b hblock hs ha hcode
  obtain ⟨arms, harms, rfl⟩ := Block.select_eq_some.1 hblock
  obtain ⟨hzero, hcode⟩ := Code.holds_cons.1 hcode
  obtain ⟨hcode, hend⟩ := Code.holds_append.1 hcode
  have hexit : L.start + 1 + (arms (((L.behind [Block.pushZero]).raised 1).start +
      (arms 0).length)).length = ((L.behind [Block.pushZero]).raised 1).start + (arms 0).length := by
    rw [Block.length_arms harms _ 0]
    rfl
  rw [hexit] at hend
  refine meets_result hs ha hzero hend ?_ fun ha1 hlast =>
    meets_arms hc hb harms ((hs.behind _).raised 1) (hs.not_mem (Int.le_refl _)) ha1 hlast hcode
      hexit.symm
  simp [Block.length_arms harms _ 0, Layout.behind, Layout.raised, Draft.drop]
  omega

/-- Induction on the rounds that are left. -/
theorem meets_rounds {c b : Block} {ec eb : Evaluation Value} (hc : Simulates code entry arity? n c ec)
    (hb : Simulates code entry arity? n b eb) {L : Layout} {Γ : List (String × Int)} {ρ : Env}
    {m : Machine} {result : Int} {last : Value} {test body : List Draft} {exit rounds : Nat}
    (htest : c L = some test) (hbody : b (L.behind (test ++ [Draft.jumpUnless 0])) = some body)
    (hs : Scoped arity? L Γ) (hr : result ∉ Γ.map Prod.snd) (ha : At Γ ρ L.start L.offset m)
    (hlast : m.stack.get? result = some last) (hrounds : rounds ≤ n)
    (hcode : code.Holds entry L.start (test ++ [Draft.jumpUnless exit] ++
      (body ++ [Draft.store result, .fixed (.goto L.start)]))) :
    Meets code rounds m (Evaluation.loop ec eb rounds last ρ) (Keeps Γ result exit L.offset m) := by
  induction rounds generalizing ρ m last with
  | zero => exact ⟨0, m, Nat.le_refl 0, .refl code m⟩
  | succ rounds ih =>
    obtain ⟨hc1, hc2⟩ := Code.holds_append.1 hcode
    have htest' : L.start + (test ++ [Draft.jumpUnless exit]).length =
        (L.behind (test ++ [Draft.jumpUnless 0])).start := by
      simp [Layout.behind]
    rw [htest'] at hc2
    obtain ⟨hc2, hc3⟩ := Code.holds_append.1 hc2
    obtain ⟨hstore, hgoto⟩ := Code.holds_cons.1 hc3
    simp only [Evaluation.loop]
    refine Meets.bind ((meets_test hc htest hs ha hc1).mono hrounds) fun v ρ1 m1 h => ?_
    obtain ⟨h1, hf1⟩ := h
    have hlast1 := hf1.get? hlast hr
    have hf1' := hf1.mono (List.subset_cons_self result _)
    cases hv : v.isTruthy with
    | true =>
      simp only [hv, if_true] at h1 ⊢
      refine Meets.bind ((meets_kept hb hbody (hs.behind _) hr h1 hlast1 hc2 hstore).mono hrounds)
        fun w ρ2 m2 h2 => ?_
      have hstep := leads_goto h2.here.running (h2.here.get (Code.holds_cons.1 hgoto).1)
      refine Meets.count hstep ((ih (h2.here.jumped _) h2.kept (Nat.le_of_succ_le hrounds)).andThen
        fun r m' h' => ⟨0, m', .refl code m', ?_⟩)
      exact h'.behind ((h2.behind hf1').frame.jumped _)
    | false =>
      simp only [hv] at h1 ⊢
      exact Meets.pure ⟨h1, hlast1, hf1'⟩

theorem simulates_loop {c b : Block} {ec eb : Evaluation Value} (hc : Simulates code entry arity? n c ec)
    (hb : Simulates code entry arity? n b eb) :
    Simulates code entry arity? n (Block.loop c b) (Evaluation.loop ec eb n .zero) := by
  intro L Γ ρ m b' hblock hs ha hcode
  obtain ⟨test, htest, body, hbody, rfl⟩ := Block.loop_eq_some.1 hblock
  obtain ⟨hzero, hcode⟩ := Code.holds_cons.1 hcode
  obtain ⟨hcode, hend⟩ := Code.holds_append.1 hcode
  have hexit : ∀ k, L.start + 1 + (test ++ [Draft.jumpUnless k] ++ (body ++
      [Draft.store L.offset, .fixed (.goto ((L.behind [Block.pushZero]).raised 1).start)])).length =
      (((L.behind [Block.pushZero]).raised 1).behind (test ++ [Draft.jumpUnless 0])).start +
        body.length + 2 := by
    intro k
    simp [Layout.behind, Layout.raised]
    omega
  rw [hexit] at hend
  refine meets_result hs ha hzero hend ?_ fun ha1 hlast =>
    meets_rounds hc hb htest hbody ((hs.behind _).raised 1) (hs.not_mem (Int.le_refl _)) ha1 hlast
      (Nat.le_refl n) hcode
  simp [Layout.behind, Layout.raised, Draft.drop]
  omega

end Simulation
end Sigil
