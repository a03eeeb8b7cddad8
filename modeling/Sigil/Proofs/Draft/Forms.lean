import Sigil.Proofs.Draft.Lowering
import Sigil.Proofs.Draft.Scope

/-!
The forms with scopes, heap cells, jumps and calls, and with them the lowering of expressions.
-/
namespace Sigil.Lowering

open Operand (accumulator)
open Draft (fixed)

variable {s t u : Lowering} {n : Int} {a b : List Draft}

theorem lowers_letIn {values : List (Lower Unit)} {vs : List Block} {body : Lower Unit}
    {block : Block} (names : List String) (hv : List.Forall₂ Lowers values vs)
    (hb : Lowers body block) : Lowers (letIn names values body) (Block.letIn names vs block) := by
  intro s t hs h
  simp only [letIn, bind_eq_ok] at h
  obtain ⟨slots, s1, h1, ids, s2, h2, _, s3, h3, _, s4, h4, _, s5, h5, h6⟩ := h
  obtain ⟨pushes, hpushes, g1, rfl⟩ := pushValues_eq_ok hv hs h1
  obtain ⟨hn, rfl⟩ := pushScope_bindSlots h2 h3
  obtain ⟨code, hcode, g4⟩ := hb _ _ ((g1.keyed hs).bound _ _) h4
  rw [bound_layout (g1.keyed hs) hn, g1.layout hs] at hcode
  have g6 := (g4.unbound h5).trans (drop_eq_ok h6)
  refine ⟨pushes ++ code ++ Draft.drop values.length, ?_, ?_⟩
  · simp only [hv.length_eq] at hcode
    simp [Block.letIn, hpushes, hn, guard, hcode, hv.length_eq]
  · exact (g1.trans g6).cast (by omega) (by simp)

theorem join_eq_ok {cell : Nat} {slots : List Int}
    (h : (slots.forM fun slot => emit (.binary .concat (.heap cell) (.stack slot))) s = .ok () t) :
    Grows s 0 (Block.join cell slots) t := by
  induction slots generalizing s t with
  | nil =>
    cases h
    exact Grows.refl s
  | cons slot slots ih =>
    obtain ⟨_, s1, h1, h2⟩ := bind_eq_ok.1 h
    exact (emit_eq_ok h1 rfl).trans (ih h2)

theorem new_eq_ok {cell : Nat} (h : freshHeap s = .ok cell t) (g : emit (.new cell) t = .ok () u) :
    cell = s.nextHeap ∧ Grows s 0 [fixed (.new cell)] u := by
  cases h
  cases g
  exact ⟨rfl, .one rfl rfl (List.append_nil _).symm rfl rfl (Int.add_zero _).symm rfl⟩

theorem lowers_concat {parts : List (Lower Unit)} {blocks : List Block}
    (hp : List.Forall₂ Lowers parts blocks) : Lowers (concat parts) (Block.concat blocks) := by
  intro s t hs h
  simp only [concat, bind_eq_ok] at h
  obtain ⟨slots, s1, h1, cell, s2, h2, _, s3, h3, _, s4, h4, _, s5, h5, _, s6, h6, _, s7, h7, h8⟩ := h
  obtain ⟨pushes, hpushes, g1, rfl⟩ := pushValues_eq_ok hp hs h1
  obtain ⟨rfl, g3⟩ := new_eq_ok h2 h3
  have g8 := (g3.trans (emit_eq_ok h4 rfl)).trans ((join_eq_ok h5).trans
    ((emit_eq_ok h6 rfl).trans ((emit_eq_ok h7 rfl).trans (drop_eq_ok h8))))
  refine ⟨_, ?_, (g1.trans g8).cast (by omega) rfl⟩
  have hcell : s1.nextHeap = (s.layout.behind pushes).cell := g1.nextHeap
  simp [Block.concat, hpushes, hcell, hp.length_eq]

/-- With the target of a jump, only the jump changes. -/
theorem behind_jumpUnless (L : Layout) (a b : List Draft) (k : Nat) :
    L.behind (a ++ [Draft.jumpUnless k] ++ b) = L.behind (a ++ [Draft.jumpUnless 0] ++ b) := by
  simp [Layout.behind, Draft.jumpUnless, Draft.isNew]

def Leaves (start : Nat) (exits : List Nat) (code : Nat → List Draft) : Prop :=
  ∀ s n a b t u, start = s.code.size + a.length → Grows s n (a ++ code 0 ++ b) t →
    exits.forM patchHere t = .ok () u → Grows s n (a ++ code t.code.size ++ b) u

theorem leaves_nil (start : Nat) : Leaves start [] fun _ => [] := by
  intro s n a b t u _ g h
  cases h
  exact g

theorem Leaves.behind {start stop : Nat} {exits : List Nat} {code whole : Nat → List Draft}
    (h : Leaves stop exits code) (x : List Draft) (hstop : stop = start + x.length)
    (hwhole : ∀ exit, whole exit = x ++ code exit) : Leaves start exits whole := by
  intro s n a b t u hstart g hp
  have hstart' : stop = s.code.size + (a ++ x).length := by
    rw [List.length_append]
    omega
  have g' := h s n (a ++ x) b t u hstart' (g.cast rfl (by simp [hwhole])) hp
  exact g'.cast rfl (by simp [hwhole])

theorem Leaves.goto {start : Nat} {exits : List Nat} {code : Nat → List Draft}
    (h : Leaves (start + 1) exits code) :
    Leaves start (start :: exits) fun exit => fixed (.goto exit) :: code exit := by
  intro s n a b t u hstart g hp
  obtain ⟨_, t', h1, h2⟩ := bind_eq_ok.1 hp
  have g' : Grows s n (a ++ fixed (.goto 0) :: (code 0 ++ b)) t := g.cast rfl (by simp)
  have g1 := patchHere_eq_ok g' hstart rfl h1
  have hsize : t'.code.size = t.code.size := by
    rw [g1.size, g'.size]
    simp
  have hstart' : start + 1 = s.code.size + (a ++ [fixed (.goto t.code.size)]).length := by
    rw [List.length_append, List.length_singleton]
    omega
  have g2 := h s n _ b t' u hstart' (g1.cast rfl (by simp)) h2
  rw [hsize] at g2
  exact g2.cast rfl (by simp)

def arm (mode : Mode) (result : Int) (condition branch : Lower Unit) : Lower Nat := do
  condition
  let skip ← here
  emit (.jumpUnless accumulator 0)
  branch
  store result
  let leave ← here
  if mode = .first then emit (.goto 0)
  patchHere skip
  return leave

theorem arms_cons (mode : Mode) (result : Int) (condition branch : Lower Unit)
    (conditions branches : List (Lower Unit)) :
    arms mode result (condition :: conditions) (branch :: branches) = do
      let leave ← arm mode result condition branch
      let exits ← arms mode result conditions branches
      return if mode = .first then leave :: exits else exits := by
  by_cases hm : mode = .first <;> simp [arms, arm, hm]

/-- An arm skips to the address behind it, wherever its condition does not hold. -/
theorem arm_eq_ok {mode : Mode} {result : Int} {condition branch : Lower Unit} {c b : Block}
    {leave : Nat} (hc : Lowers condition c) (hb : Lowers branch b) (hs : s.Keyed)
    (h : arm mode result condition branch s = .ok leave t) :
    ∃ test code, c s.layout = some test ∧
      b (s.layout.behind (test ++ [Draft.jumpUnless 0])) = some code ∧
      leave = s.code.size + (test ++ Draft.jumpUnless 0 :: (code ++ [Draft.store result])).length ∧
      Grows s 0 (test ++ [Draft.jumpUnless t.code.size] ++ (code ++ Block.leave mode result 0)) t := by
  simp only [arm, bind_eq_ok] at h
  obtain ⟨_, _, h1, skip, s1, h2, _, s3, h3, _, s4, h4, _, _, h5, leave, s5, h6, h⟩ := h
  obtain ⟨rfl, rfl⟩ := here_eq_ok h2
  obtain ⟨rfl, rfl⟩ := here_eq_ok h6
  obtain ⟨test, htest, g1⟩ := hc _ _ hs h1
  have g3 : Grows s 0 (test ++ [Draft.jumpUnless 0]) s3 :=
    (g1.trans (emit_eq_ok h3 rfl)).cast (by omega) rfl
  obtain ⟨code, hcode, g4⟩ := hb _ _ (g3.keyed hs) h4
  have g5 := g3.trans (g4.trans (store_eq_ok h5))
  rw [g3.layout hs, Layout.raised_zero] at hcode
  obtain ⟨s6, s7, g6, h7, h8⟩ : ∃ s6 s7, Grows s4 0 (Block.leave mode result 0) s6 ∧
      patchHere s1.code.size s6 = .ok () s7 ∧
      (pure s5.code.size : Lower Nat) s7 = .ok leave t := by
    by_cases hm : mode = .first
    · simp only [hm, if_true, bind_eq_ok] at h ⊢
      obtain ⟨_, s6, h6, _, s7, h7, h8⟩ := h
      exact ⟨s6, s7, (store_eq_ok h5).trans (emit_eq_ok h6 rfl), h7, h8⟩
    · simp only [hm, if_false, bind_eq_ok] at h ⊢
      obtain ⟨_, s7, h7, h8⟩ := h
      refine ⟨s5, s7, ?_, h7, h8⟩
      simpa only [Block.leave, hm, if_false] using store_eq_ok h5
  cases h8
  have g6' : Grows s 0 (test ++ Draft.jumpUnless 0 :: (code ++ Block.leave mode result 0)) s6 :=
    (g3.trans (g4.trans g6)).cast (by omega) (by simp [Draft.jumpUnless])
  have g7 : Grows s 0
      (test ++ [Draft.jumpUnless s6.code.size] ++ (code ++ Block.leave mode result 0)) t :=
    (patchHere_eq_ok g6' g1.size rfl h7).cast rfl (by simp [Draft.jumpUnless])
  have hsize : t.code.size = s6.code.size := by
    rw [g7.size, g6'.size]
    simp
  exact ⟨test, code, htest, hcode, g5.size.trans (by simp), hsize ▸ g7⟩

theorem arms_eq_ok {mode : Mode} {result : Int} {conditions branches : List (Lower Unit)}
    {cs bs : List Block} {exits : List Nat} (hc : List.Forall₂ Lowers conditions cs)
    (hb : List.Forall₂ Lowers branches bs) (hs : s.Keyed)
    (h : arms mode result conditions branches s = .ok exits t) :
    ∃ code, Block.arms mode result cs bs s.layout = some code ∧ Grows s 0 (code 0) t ∧
      Leaves s.code.size exits code := by
  induction hc generalizing s t branches bs exits with
  | nil =>
    cases h
    exact ⟨fun _ => [], by simp [Block.arms], Grows.refl s, leaves_nil _⟩
  | @cons condition c conditions cs hcond _ ih =>
    cases hb with
    | nil =>
      cases h
      exact ⟨fun _ => [], by simp [Block.arms], Grows.refl s, leaves_nil _⟩
    | @cons branch b branches bs hbranch hbs =>
      simp only [arms_cons, bind_eq_ok] at h
      obtain ⟨leave, s1, h1, exits, s2, h2, h3⟩ := h
      cases h3
      obtain ⟨test, code, htest, hcode, rfl, g1⟩ := arm_eq_ok hcond hbranch hs h1
      obtain ⟨rest, hrest, g2, hleaves⟩ := ih hbs (g1.keyed hs) h2
      have hfit : s1.code.size = (s.layout.behind
          (test ++ [Draft.jumpUnless 0] ++ (code ++ Block.leave mode result 0))).start := by
        rw [g1.size]
        simp [Layout.behind]
      rw [g1.layout hs, Layout.raised_zero, behind_jumpUnless] at hrest
      refine ⟨fun exit => test ++ [Draft.jumpUnless s1.code.size] ++
        (code ++ Block.leave mode result exit) ++ rest exit, ?_, ?_, ?_⟩
      · rw [hfit]
        simp only [Block.arms, htest, hcode, hrest, Option.bind_eq_bind, Option.bind_some,
          Option.pure_def]
      · exact (g1.trans g2).cast (by omega) rfl
      · have hsize := g1.size
        by_cases hm : mode = .first
        · have hlast : s1.code.size = s.code.size +
              (test ++ Draft.jumpUnless 0 :: (code ++ [Draft.store result])).length + 1 := by
            rw [hsize]
            simp [Block.leave, hm]
            omega
          rw [hlast] at hleaves
          rw [if_pos hm]
          refine hleaves.goto.behind (test ++ [Draft.jumpUnless s1.code.size] ++
            (code ++ [Draft.store result])) (by simp) fun exit => ?_
          simp [Block.leave, hm]
        · rw [if_neg hm]
          exact hleaves.behind _ hsize fun exit => by simp [Block.leave, hm]

theorem pushZero_eq_ok {slot : Int} (h : push (.constant .zero) s = .ok slot t) :
    slot = s.offset ∧ Grows s 1 [Block.pushZero] t := push_eq_ok h

theorem lowers_select {conditions branches : List (Lower Unit)} {cs bs : List Block} (mode : Mode)
    (hc : List.Forall₂ Lowers conditions cs) (hb : List.Forall₂ Lowers branches bs) :
    Lowers (select mode conditions branches) (Block.select mode cs bs) := by
  intro s t hs h
  simp only [select, bind_eq_ok] at h
  obtain ⟨_, s1, h1, exits, s2, h2, _, s3, h3, _, s4, h4, h5⟩ := h
  obtain ⟨rfl, g1⟩ := pushZero_eq_ok h1
  obtain ⟨code, hcode, g2, hleaves⟩ := arms_eq_ok hc hb (g1.keyed hs) h2
  have g2' : Grows s 1 ([Block.pushZero] ++ code 0 ++ []) s2 :=
    (g1.trans g2).cast (by omega) (by simp)
  have g3 := hleaves s 1 _ _ s2 s3 g1.size g2' h3
  have hexit : s2.code.size =
      ((s.layout.behind [Block.pushZero]).raised 1).start + (code 0).length := by
    rw [g2.size, g1.size]
    rfl
  rw [hexit] at g3
  rw [g1.layout hs] at hcode
  have hcode' : Block.arms mode s.offset cs bs ((s.layout.behind [Block.pushZero]).raised 1) =
      some code := hcode
  refine ⟨_, ?_, ((g3.trans (load_eq_ok h4)).trans (drop_eq_ok h5)).cast (by omega) rfl⟩
  simp [Block.select, hcode']

theorem lowers_loop {condition body : Lower Unit} {c b : Block} (hc : Lowers condition c)
    (hb : Lowers body b) : Lowers (loop condition body) (Block.loop c b) := by
  intro s t hs h
  simp only [loop, bind_eq_ok] at h
  obtain ⟨_, _, h1, top, s1, h2, _, _, h3, exit, s2, h4, _, s3, h5, _, s4, h6, _, s5, h7, _, s6, h8,
    _, s7, h9, _, s8, h10, h11⟩ := h
  obtain ⟨rfl, rfl⟩ := here_eq_ok h2
  obtain ⟨rfl, rfl⟩ := here_eq_ok h4
  obtain ⟨rfl, g1⟩ := pushZero_eq_ok h1
  obtain ⟨test, htest, g2⟩ := hc _ _ (g1.keyed hs) h3
  have g3 : Grows s1 0 (test ++ [Draft.jumpUnless 0]) s3 :=
    (g2.trans (emit_eq_ok h5 rfl)).cast (by omega) rfl
  obtain ⟨code, hcode, g4⟩ := hb _ _ (g3.keyed (g1.keyed hs)) h6
  have g5 : Grows s3 0 (code ++ [Draft.store s.offset, fixed (.goto s1.code.size)]) s6 :=
    (g4.trans ((store_eq_ok h7).trans (emit_eq_ok h8 rfl))).cast (by omega) rfl
  have g6 : Grows s 1 (Block.pushZero :: test ++ Draft.jumpUnless 0 ::
      (code ++ [Draft.store s.offset, fixed (.goto s1.code.size)])) s6 :=
    (g1.trans (g3.trans g5)).cast (by omega) (by simp)
  have hexit : s2.code.size = s.code.size + (Block.pushZero :: test).length := by
    rw [(g1.trans g2).size]
    rfl
  have hfit : s6.code.size = s3.code.size + code.length + 2 := by
    rw [g5.size, List.length_append]
    rfl
  have g7 : Grows s 1 (Block.pushZero :: test ++ Draft.jumpUnless s6.code.size ::
      (code ++ [Draft.store s.offset, fixed (.goto s1.code.size)])) s7 :=
    patchHere_eq_ok g6 hexit rfl h9
  have g8 := (g7.trans (load_eq_ok h10)).trans (drop_eq_ok h11)
  rw [g3.layout (g1.keyed hs), g1.layout hs, Layout.raised_zero] at hcode
  rw [g1.layout hs] at htest
  have hround : s3.code.size = (((s.layout.behind [Block.pushZero]).raised 1).behind
      (test ++ [Draft.jumpUnless 0])).start := by
    rw [g3.size, g1.size]
    rfl
  have htop : s1.code.size = ((s.layout.behind [Block.pushZero]).raised 1).start := g1.size
  rw [hfit, hround, htop] at g8
  refine ⟨_, ?_, g8.cast (by omega) rfl⟩
  simp [Block.loop, htest, hcode]

theorem checkArity_eq_ok {name : String} {found : Nat} (h : checkArity name found s = .ok () t) :
    t = s ∧ s.symbols.arity? name = some found := by
  obtain ⟨_, _, hg, h⟩ := bind_eq_ok.1 h
  cases hg
  cases hname : s.symbols.arity? name with
  | none =>
    simp only [hname] at h
    cases h
  | some expected =>
    simp only [hname] at h
    by_cases he : expected = found
    · simp only [he, ne_eq, not_true_eq_false, if_false] at h
      cases h
      exact ⟨rfl, by rw [he]⟩
    · simp only [ne_eq, he, not_false_eq_true, if_true] at h
      cases h

/-- The window of the called function. -/
theorem pushSlots_eq_ok {slots : List Int}
    (h : (slots.forM fun slot => do let _ ← push (.stack slot)) s = .ok () t) :
    Grows s slots.length (slots.map fun slot => fixed (.push (.stack slot))) t := by
  induction slots generalizing s t with
  | nil =>
    cases h
    exact Grows.refl s
  | cons slot slots ih =>
    obtain ⟨_, s1, h1, h2⟩ := bind_eq_ok.1 h
    obtain ⟨_, _, h3, h4⟩ := bind_eq_ok.1 h1
    cases h4
    have g := (push_eq_ok h3).2.trans (ih h2)
    exact g.cast (by simp only [List.length_cons]; omega) rfl

theorem lowers_call {arguments : List (Lower Unit)} {blocks : List Block} (name : String)
    (ha : List.Forall₂ Lowers arguments blocks) :
    Lowers (callWith name arguments) (Block.call name blocks) := by
  intro s t hs h
  simp only [callWith, bind_eq_ok] at h
  obtain ⟨_, _, h1, slots, s1, h2, _, s2, h3, _, s3, h4, h5⟩ := h
  obtain ⟨rfl, harity⟩ := checkArity_eq_ok h1
  obtain ⟨pushes, hpushes, g2, rfl⟩ := pushValues_eq_ok ha hs h2
  have g5 := (pushSlots_eq_ok h3).trans ((call_eq_ok h4).trans (drop_eq_ok h5))
  refine ⟨_, ?_, (g2.trans g5).cast ?_ rfl⟩
  · simp [Block.call, harity, ha.length_eq, guard, hpushes]
  · rw [Layout.length_slots]
    omega

mutual

theorem lowers_expr : ∀ e : Expr, Lowers e.lower e.block
  | .literal v => lowers_constant v
  | .variable x => lowers_loadVariable x
  | .assign x value => lowers_assign x (lowers_expr value)
  | .letIn names values body => lowers_letIn names (lowers_all values) (lowers_expr body)
  | .loop condition body => lowers_loop (lowers_expr condition) (lowers_expr body)
  | .select mode conditions branches =>
    lowers_select mode (lowers_all conditions) (lowers_all branches)
  | .call name arguments => lowers_call name (lowers_all arguments)
  | .not operand => lowers_not (lowers_expr operand)
  | .concat parts => lowers_concat (lowers_all parts)
  | .binary op left right => lowers_binary op left (lowers_expr left) (lowers_expr right)

theorem lowers_all : ∀ es : List Expr, List.Forall₂ Lowers (Expr.lowerAll es) (Expr.blocks es)
  | [] => .nil
  | e :: es => .cons (lowers_expr e) (lowers_all es)

end

end Sigil.Lowering
