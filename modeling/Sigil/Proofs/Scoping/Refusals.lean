import Sigil.Proofs.Draft.Forms

/-!
Lowering fails only where there is no draft, and never for a reason that only linking could have.
-/
namespace Sigil

def SemanticError.Linking : SemanticError → Prop
  | .link _ => True
  | _ => False

theorem Symbols.bindNames_eq_error {scope : List (String × Nat)} {names : List String}
    {y y' : Symbols} {e : SemanticError} (h : bindNames scope names y = .error e y') :
    (names.Nodup → ∃ x ∈ names, (scope.lookup x).isSome) ∧ ¬ e.Linking := by
  -- the names bound so far join the scope
  induction names generalizing scope y with
  | nil => cases h
  | cons name names ih =>
    by_cases hname : (scope.lookup name).isSome
    · simp only [bindNames, hname, if_true] at h
      cases h
      exact ⟨fun _ => ⟨name, List.mem_cons_self, hname⟩, id⟩
    · rw [bindNames_cons names y hname] at h
      obtain ⟨hbound, he⟩ := ih h
      refine ⟨fun hn => ?_, he⟩
      obtain ⟨hnot, hn⟩ := List.nodup_cons.1 hn
      obtain ⟨x, hx, hsome⟩ := hbound hn
      have hne : (x == name) = false := by
        simp only [beq_eq_false_iff_ne, ne_eq]
        rintro rfl
        exact hnot hx
      rw [List.lookup_cons, hne] at hsome
      exact ⟨x, List.mem_cons_of_mem _ hx, hsome⟩

theorem Symbols.pushScope_eq_error {names : List String} {y y' : Symbols} {e : SemanticError}
    (h : pushScope names y = .error e y') : ¬ names.Nodup ∧ ¬ e.Linking := by
  rcases bind_eq_error.1 h with h | ⟨_, _, _, h⟩
  · obtain ⟨hbound, he⟩ := bindNames_eq_error h
    refine ⟨fun hn => ?_, he⟩
    obtain ⟨x, -, hx⟩ := hbound hn
    cases hx
  · cases h

namespace Lowering

open Operand (accumulator)
open Draft (fixed)

variable {α : Type} {s t : Lowering} {e : SemanticError}

@[simp] theorem pure_ne_error (a : α) : (pure a : Lower α) s ≠ .error e t := nofun

@[simp] theorem emit_ne_error (i : Instruction) : emit i s ≠ .error e t := nofun

@[simp] theorem load_ne_error (slot : Int) : load slot s ≠ .error e t := nofun

@[simp] theorem store_ne_error (slot : Int) : store slot s ≠ .error e t := nofun

@[simp] theorem push_ne_error (source : Operand) : push source s ≠ .error e t := nofun

@[simp] theorem here_ne_error : here s ≠ .error e t := nofun

@[simp] theorem patchHere_ne_error (address : Nat) : patchHere address s ≠ .error e t := nofun

@[simp] theorem bindSlots_ne_error (bindings : List (Nat × Int)) :
    bindSlots bindings s ≠ .error e t := nofun

@[simp] theorem popScope_ne_error : popScope s ≠ .error e t := nofun

@[simp] theorem freshHeap_ne_error : freshHeap s ≠ .error e t := nofun

@[simp] theorem call_ne_error (name : String) : call name s ≠ .error e t := nofun

@[simp] theorem drop_ne_error (n : Nat) : drop n s ≠ .error e t := by
  unfold drop
  split <;> exact nofun

theorem forM_ne_error {xs : List α} {f : α → Lower Unit} (hf : ∀ a s e t, f a s ≠ .error e t) :
    xs.forM f s ≠ .error e t := by
  induction xs generalizing s with
  | nil => exact nofun
  | cons x xs ih =>
    intro h
    rcases bind_eq_error.1 h with h | ⟨_, _, _, h⟩
    · exact hf _ _ _ _ h
    · exact ih h

theorem slot_eq_error {x : String} (h : slot x s = .error e t) :
    s.slot? x = none ∧ ¬ e.Linking := by
  rcases bind_eq_error.1 h with h | ⟨_, _, hg, h⟩
  · cases h
  · cases hg
    cases hx : s.slot? x with
    | none =>
      simp only [hx] at h
      cases h
      exact ⟨rfl, id⟩
    | some k =>
      simp only [hx] at h
      cases h

theorem pushScope_eq_error {names : List String} (h : pushScope names s = .error e t) :
    ¬ names.Nodup ∧ ¬ e.Linking := by
  unfold pushScope onSymbols at h
  cases hscope : Symbols.pushScope names s.symbols with
  | error e' y =>
    simp only [hscope] at h
    cases h
    exact Symbols.pushScope_eq_error hscope
  | ok ids y =>
    simp only [hscope] at h
    cases h

theorem checkArity_eq_error {name : String} {found : Nat}
    (h : checkArity name found s = .error e t) :
    s.symbols.arity? name ≠ some found ∧ ¬ e.Linking := by
  rcases bind_eq_error.1 h with h | ⟨_, _, hg, h⟩
  · cases h
  · cases hg
    cases hname : s.symbols.arity? name with
    | none =>
      simp only [hname] at h
      cases h
      exact ⟨nofun, id⟩
    | some expected =>
      simp only [hname] at h
      split at h
      · cases h
        exact ⟨by simpa, id⟩
      · cases h

def Refuses (part : Lower Unit) (block : Block) : Prop :=
  ∀ s e t, s.Keyed → part s = .error e t → block s.layout = none ∧ ¬ e.Linking

theorem refuses_constant (v : Value) : Refuses (constant v) (Block.literal v) :=
  fun _ _ _ _ h => absurd h (emit_ne_error _)

theorem refuses_loadVariable (x : String) : Refuses (loadVariable x) (Block.lookup x) := by
  intro s e t _ h
  simp only [loadVariable, bind_eq_error, load_ne_error, and_false, exists_false, or_false] at h
  obtain ⟨hx, he⟩ := slot_eq_error h
  exact ⟨by simp [Block.lookup, hx], he⟩

theorem refuses_assign {value : Lower Unit} {block : Block} (x : String)
    (hv : Refuses value block) : Refuses (assign x value) (Block.assign x block) := by
  intro s e t hs h
  simp only [assign, bind_eq_error, store_ne_error, and_false, exists_false, or_false] at h
  rcases h with h | ⟨_, s1, h1, h⟩
  · obtain ⟨hx, he⟩ := slot_eq_error h
    exact ⟨by simp [Block.assign, hx], he⟩
  · obtain ⟨rfl, hx⟩ := slot_eq_ok h1
    obtain ⟨hvalue, he⟩ := hv _ _ _ hs h
    exact ⟨by simp [Block.assign, hvalue], he⟩

theorem refuses_not {operand : Lower Unit} {block : Block} (ho : Refuses operand block) :
    Refuses (Lowering.not operand) (Block.not block) := by
  intro s e t hs h
  simp only [Lowering.not, bind_eq_error, emit_ne_error, and_false, exists_false, or_false] at h
  obtain ⟨hoperand, he⟩ := ho _ _ _ hs h
  exact ⟨by simp [Block.not, hoperand], he⟩

theorem pushValues_eq_error {parts : List (Lower Unit)} {blocks : List Block}
    (hp : List.Forall₂ Lowers parts blocks) (hr : List.Forall₂ Refuses parts blocks) (hs : s.Keyed)
    (h : pushValues parts s = .error e t) : Block.values blocks s.layout = none ∧ ¬ e.Linking := by
  induction hp generalizing s with
  | nil => cases h
  | @cons part block parts blocks hpart _ ih =>
    obtain ⟨hrefuses, hr⟩ := List.forall₂_cons.1 hr
    simp only [pushValues, bind_eq_error, push_ne_error, pure_ne_error, and_false, exists_false,
      or_false, false_or] at h
    rcases h with h | ⟨_, s1, h1, _, s2, h2, h⟩
    · obtain ⟨hfirst, he⟩ := hrefuses _ _ _ hs h
      exact ⟨by simp [Block.values, hfirst], he⟩
    · obtain ⟨first, hfirst, g1⟩ := hpart _ _ hs h1
      have g2 := g1.trans (pushAccumulator_eq_ok h2).2
      obtain ⟨hrest, he⟩ := ih hr (g2.keyed hs) h
      rw [g2.layout hs] at hrest
      have hrest' : Block.values blocks ((s.layout.behind (first ++ [Draft.push])).raised 1) = none :=
        hrest
      exact ⟨by simp [Block.values, hfirst, hrest'], he⟩

theorem updateTarget_eq_error {op : Operator} {left : Expr}
    (h : updateTarget op left s = .error e t) :
    Block.updateTarget op left s.layout = none ∧ ¬ e.Linking := by
  unfold updateTarget at h
  by_cases hop : op.isUpdate
  · simp only [hop, if_true] at h
    cases left with
    | «variable» x =>
      obtain ⟨hx, he⟩ := slot_eq_error (map_eq_error.1 h)
      exact ⟨by simp [Block.updateTarget, hop, hx], he⟩
    | _ =>
      cases h
      exact ⟨by simp [Block.updateTarget, hop], id⟩
  · simp only [hop] at h
    cases h

theorem refuses_binary {left right : Lower Unit} {l r : Block} (op : Operator) (e : Expr)
    (hl : Lowers left l) (hleft : Refuses left l) (hright : Refuses right r) :
    Refuses (binary op (updateTarget op e) left right)
      (Block.binary op (Block.updateTarget op e) l r) := by
  intro s err t hs h
  simp only [binary, bind_eq_error, emit_ne_error, load_ne_error, push_ne_error, false_or] at h
  rcases h with h | ⟨target, s0, h0, h | ⟨_, s1, h1, _, s2, h2, h | ⟨_, s3, _, _, s4, _, _, _, _, _,
    _, _, h⟩⟩⟩
  · obtain ⟨htarget, he⟩ := updateTarget_eq_error h
    exact ⟨by simp [Block.binary, htarget], he⟩
  · obtain ⟨rfl, htarget⟩ := updateTarget_eq_ok h0
    obtain ⟨ha, he⟩ := hleft _ _ _ hs h
    exact ⟨by simp [Block.binary, ha], he⟩
  · obtain ⟨rfl, htarget⟩ := updateTarget_eq_ok h0
    obtain ⟨a, ha, g1⟩ := hl _ _ hs h1
    have g2 := g1.trans (pushAccumulator_eq_ok h2).2
    obtain ⟨hb, he⟩ := hright _ _ _ (g2.keyed hs) h
    rw [g2.layout hs] at hb
    have hb' : r ((s0.layout.behind (a ++ [Draft.push])).raised 1) = none := hb
    exact ⟨by simp [Block.binary, ha, hb'], he⟩
  · cases target <;> simp [bind_eq_error] at h

theorem refuses_letIn {values : List (Lower Unit)} {vs : List Block} {body : Lower Unit}
    {block : Block} (names : List String) (hv : List.Forall₂ Lowers values vs)
    (hvalues : List.Forall₂ Refuses values vs) (hbody : Refuses body block) :
    Refuses (letIn names values body) (Block.letIn names vs block) := by
  intro s e t hs h
  simp only [letIn, bind_eq_error, bindSlots_ne_error, popScope_ne_error, drop_ne_error, and_false,
    exists_false, or_false, false_or] at h
  rcases h with h | ⟨slots, s1, h1, h | ⟨ids, s2, h2, _, s3, h3, h⟩⟩
  · obtain ⟨hpushes, he⟩ := pushValues_eq_error hv hvalues hs h
    exact ⟨by simp [Block.letIn, hpushes], he⟩
  · obtain ⟨pushes, hpushes, -⟩ := pushValues_eq_ok hv hs h1
    obtain ⟨hn, he⟩ := pushScope_eq_error h
    have hguard : (guard names.Nodup : Option Unit) = none := if_neg hn
    exact ⟨by simp [Block.letIn, hpushes, hguard], he⟩
  · obtain ⟨pushes, hpushes, g1, rfl⟩ := pushValues_eq_ok hv hs h1
    obtain ⟨hn, rfl⟩ := pushScope_bindSlots h2 h3
    obtain ⟨hcode, he⟩ := hbody _ _ _ ((g1.keyed hs).bound _ _) h
    rw [bound_layout (g1.keyed hs) hn, g1.layout hs, hv.length_eq] at hcode
    exact ⟨by simp [Block.letIn, hpushes, hn, guard, hcode], he⟩

theorem refuses_concat {parts : List (Lower Unit)} {blocks : List Block}
    (hp : List.Forall₂ Lowers parts blocks) (hparts : List.Forall₂ Refuses parts blocks) :
    Refuses (concat parts) (Block.concat blocks) := by
  intro s e t hs h
  have hjoin : ∀ (cell : Nat) (slots : List Int) u,
      (slots.forM fun slot => emit (.binary .concat (.heap cell) (.stack slot))) u ≠ .error e t :=
    fun _ _ _ => forM_ne_error fun _ _ _ _ => emit_ne_error _
  simp only [concat, bind_eq_error, freshHeap_ne_error, emit_ne_error, hjoin, drop_ne_error,
    and_false, exists_false, or_false] at h
  obtain ⟨hpushes, he⟩ := pushValues_eq_error hp hparts hs h
  exact ⟨by simp [Block.concat, hpushes], he⟩

theorem arm_eq_error {mode : Mode} {result : Int} {condition branch : Lower Unit}
    (h : arm mode result condition branch s = .error e t) :
    condition s = .error e t ∨ ∃ u, condition s = .ok () u ∧
      ∃ v, emit (.jumpUnless accumulator 0) u = .ok () v ∧ branch v = .error e t := by
  simp only [arm, bind_eq_error, here_ne_error, emit_ne_error, store_ne_error, false_or] at h
  rcases h with h | ⟨_, u, h1, _, _, h2, _, v, h3, h | ⟨_, _, _, _, _, _, h⟩⟩
  · exact .inl h
  · obtain ⟨rfl, -⟩ := here_eq_ok h2
    exact .inr ⟨_, h1, v, h3, h⟩
  · split at h <;> simp [bind_eq_error, map_eq_error] at h

theorem arms_eq_error {mode : Mode} {result : Int} {conditions branches : List (Lower Unit)}
    {cs bs : List Block} (hc : List.Forall₂ Lowers conditions cs)
    (hb : List.Forall₂ Lowers branches bs) (hconditions : List.Forall₂ Refuses conditions cs)
    (hbranches : List.Forall₂ Refuses branches bs) (hs : s.Keyed)
    (h : arms mode result conditions branches s = .error e t) :
    Block.arms mode result cs bs s.layout = none ∧ ¬ e.Linking := by
  induction hc generalizing s branches bs with
  | nil => cases h
  | @cons condition c conditions cs hcond _ ih =>
    cases hb with
    | nil => cases h
    | @cons branch b branches bs hbranch hb =>
      obtain ⟨hcondition, hconditions⟩ := List.forall₂_cons.1 hconditions
      obtain ⟨hthen, hbranches⟩ := List.forall₂_cons.1 hbranches
      simp only [arms_cons, bind_eq_error, pure_ne_error, and_false, exists_false, or_false] at h
      rcases h with h | ⟨leave, s1, h1, h⟩
      · rcases arm_eq_error h with h | ⟨u, hu, v, hv, h⟩
        · obtain ⟨htest, he⟩ := hcondition _ _ _ hs h
          exact ⟨by simp [Block.arms, htest], he⟩
        · obtain ⟨test, htest, g1⟩ := hcond _ _ hs hu
          have g2 : Grows s 0 (test ++ [Draft.jumpUnless 0]) v :=
            (g1.trans (emit_eq_ok hv rfl)).cast (by omega) rfl
          obtain ⟨hcode, he⟩ := hthen _ _ _ (g2.keyed hs) h
          rw [g2.layout hs, Layout.raised_zero] at hcode
          exact ⟨by simp [Block.arms, htest, hcode], he⟩
      · obtain ⟨test, code, htest, hcode, -, g1⟩ := arm_eq_ok hcond hbranch hs h1
        obtain ⟨hrest, he⟩ := ih hb hconditions hbranches (g1.keyed hs) h
        rw [g1.layout hs, Layout.raised_zero, behind_jumpUnless] at hrest
        exact ⟨by simp only [Block.arms, htest, hcode, hrest, Option.bind_eq_bind, Option.bind_some,
          Option.bind_none], he⟩

theorem refuses_select {conditions branches : List (Lower Unit)} {cs bs : List Block} (mode : Mode)
    (hc : List.Forall₂ Lowers conditions cs) (hb : List.Forall₂ Lowers branches bs)
    (hconditions : List.Forall₂ Refuses conditions cs)
    (hbranches : List.Forall₂ Refuses branches bs) :
    Refuses (select mode conditions branches) (Block.select mode cs bs) := by
  intro s e t hs h
  have hexits : ∀ (exits : List Nat) u, exits.forM patchHere u ≠ .error e t :=
    fun _ _ => forM_ne_error fun _ _ _ _ => patchHere_ne_error _
  simp only [select, bind_eq_error, push_ne_error, hexits, load_ne_error, drop_ne_error, and_false,
    exists_false, or_false, false_or] at h
  obtain ⟨_, s1, h1, h⟩ := h
  obtain ⟨rfl, g1⟩ := pushZero_eq_ok h1
  obtain ⟨hcode, he⟩ := arms_eq_error hc hb hconditions hbranches (g1.keyed hs) h
  rw [g1.layout hs] at hcode
  have hcode' : Block.arms mode s.offset cs bs ((s.layout.behind [Block.pushZero]).raised 1) = none :=
    hcode
  exact ⟨by simp [Block.select, hcode'], he⟩

theorem refuses_loop {condition body : Lower Unit} {c b : Block} (hc : Lowers condition c)
    (hcondition : Refuses condition c) (hbody : Refuses body b) :
    Refuses (loop condition body) (Block.loop c b) := by
  intro s e t hs h
  simp only [loop, bind_eq_error, push_ne_error, here_ne_error, emit_ne_error, store_ne_error,
    patchHere_ne_error, load_ne_error, drop_ne_error, and_false, exists_false, or_false,
    false_or] at h
  obtain ⟨_, _, h1, _, s1, h2, h⟩ := h
  obtain ⟨rfl, -⟩ := here_eq_ok h2
  obtain ⟨rfl, g1⟩ := pushZero_eq_ok h1
  rcases h with h | ⟨_, _, h3, _, _, h4, _, s3, h5, h⟩
  · obtain ⟨htest, he⟩ := hcondition _ _ _ (g1.keyed hs) h
    rw [g1.layout hs] at htest
    exact ⟨by simp [Block.loop, htest], he⟩
  · obtain ⟨rfl, -⟩ := here_eq_ok h4
    obtain ⟨test, htest, g2⟩ := hc _ _ (g1.keyed hs) h3
    have g3 : Grows _ 0 (test ++ [Draft.jumpUnless 0]) s3 :=
      (g2.trans (emit_eq_ok h5 rfl)).cast (by omega) rfl
    obtain ⟨hcode, he⟩ := hbody _ _ _ (g3.keyed (g1.keyed hs)) h
    rw [g3.layout (g1.keyed hs), g1.layout hs, Layout.raised_zero] at hcode
    rw [g1.layout hs] at htest
    exact ⟨by simp [Block.loop, htest, hcode], he⟩

theorem refuses_call {arguments : List (Lower Unit)} {blocks : List Block} (name : String)
    (ha : List.Forall₂ Lowers arguments blocks) (harguments : List.Forall₂ Refuses arguments blocks) :
    Refuses (callWith name arguments) (Block.call name blocks) := by
  intro s e t hs h
  have hpush : ∀ (slots : List Int) u,
      (slots.forM fun slot => do let _ ← push (.stack slot)) u ≠ .error e t :=
    fun _ _ => forM_ne_error fun _ _ _ _ => by simp [map_eq_error]
  simp only [callWith, bind_eq_error, hpush, call_ne_error, drop_ne_error, and_false, exists_false,
    or_false] at h
  rcases h with h | ⟨_, s1, h1, h⟩
  · obtain ⟨harity, he⟩ := checkArity_eq_error h
    refine ⟨?_, he⟩
    rw [ha.length_eq] at harity
    cases hname : s.symbols.arity? name with
    | none => simp [Block.call, hname]
    | some arity =>
      have hne : arity ≠ blocks.length := fun heq => harity (by rw [hname, heq])
      simp [Block.call, hname, guard, hne]
  · obtain ⟨rfl, -⟩ := checkArity_eq_ok h1
    obtain ⟨hpushes, he⟩ := pushValues_eq_error ha harguments hs h
    exact ⟨by simp [Block.call, hpushes], he⟩

mutual

theorem refuses_expr : ∀ e : Expr, Refuses e.lower e.block
  | .literal v => refuses_constant v
  | .variable x => refuses_loadVariable x
  | .assign x value => refuses_assign x (refuses_expr value)
  | .letIn names values body =>
    refuses_letIn names (lowers_all values) (refuses_all values) (refuses_expr body)
  | .loop condition body =>
    refuses_loop (lowers_expr condition) (refuses_expr condition) (refuses_expr body)
  | .select mode conditions branches =>
    refuses_select mode (lowers_all conditions) (lowers_all branches) (refuses_all conditions)
      (refuses_all branches)
  | .call name arguments => refuses_call name (lowers_all arguments) (refuses_all arguments)
  | .not operand => refuses_not (refuses_expr operand)
  | .concat parts => refuses_concat (lowers_all parts) (refuses_all parts)
  | .binary op left right =>
    refuses_binary op left (lowers_expr left) (refuses_expr left) (refuses_expr right)

theorem refuses_all : ∀ es : List Expr, List.Forall₂ Refuses (Expr.lowerAll es) (Expr.blocks es)
  | [] => .nil
  | e :: es => .cons (refuses_expr e) (refuses_all es)

end

end Lowering
end Sigil
