import Mathlib.Data.List.Forall2
import Sigil.Proofs.Draft.Basic
import Sigil.Proofs.Lookup

/-!
Well-scoped programs, said of the trees alone, and that they are those that have a draft.
-/
namespace Sigil

inductive Expr.Paired : Expr → Prop
  | literal {v : Value} : Paired (.literal v)
  | variable {x : String} : Paired (.variable x)
  | assign {x : String} {value : Expr} (hv : Paired value) : Paired (.assign x value)
  | letIn {names : List String} {values : List Expr} {body : Expr}
      (hlength : names.length = values.length) (hv : ∀ e ∈ values, Paired e) (hb : Paired body) :
      Paired (.letIn names values body)
  | loop {condition body : Expr} (hc : Paired condition) (hb : Paired body) :
      Paired (.loop condition body)
  | select {mode : Mode} {conditions branches : List Expr}
      (hlength : conditions.length = branches.length) (hc : ∀ e ∈ conditions, Paired e)
      (hb : ∀ e ∈ branches, Paired e) : Paired (.select mode conditions branches)
  | call {name : String} {arguments : List Expr} (ha : ∀ e ∈ arguments, Paired e) :
      Paired (.call name arguments)
  | not {operand : Expr} (ho : Paired operand) : Paired (.not operand)
  | concat {parts : List Expr} (hp : ∀ e ∈ parts, Paired e) : Paired (.concat parts)
  | binary {op : Operator} {left right : Expr} (hl : Paired left) (hr : Paired right) :
      Paired (.binary op left right)

structure Program.Paired (p : Program) : Prop where
  functions : ∀ f ∈ p.functions, f.body.Paired
  body : p.body.Paired

/-- In a scope of variables and with some functions, every variable that is used is in scope, and
every function that is called is there and has that many parameters. Names that are bound are in
scope in the body of the binding, and not in its values. -/
inductive Expr.WellScoped (fs : List Function) : List String → Expr → Prop
  | literal {scope : List String} {v : Value} : WellScoped fs scope (.literal v)
  | variable {scope : List String} {x : String} (hx : x ∈ scope) : WellScoped fs scope (.variable x)
  | assign {scope : List String} {x : String} {value : Expr} (hx : x ∈ scope)
      (hv : WellScoped fs scope value) : WellScoped fs scope (.assign x value)
  | letIn {scope names : List String} {values : List Expr} {body : Expr} (hn : names.Nodup)
      (hv : ∀ e ∈ values, WellScoped fs scope e) (hb : WellScoped fs (names ++ scope) body) :
      WellScoped fs scope (.letIn names values body)
  | loop {scope : List String} {condition body : Expr} (hc : WellScoped fs scope condition)
      (hb : WellScoped fs scope body) : WellScoped fs scope (.loop condition body)
  | select {scope : List String} {mode : Mode} {conditions branches : List Expr}
      (hc : ∀ e ∈ conditions, WellScoped fs scope e) (hb : ∀ e ∈ branches, WellScoped fs scope e) :
      WellScoped fs scope (.select mode conditions branches)
  | call {scope : List String} {f : Function} {arguments : List Expr} (hf : f ∈ fs)
      (hlength : f.parameters.length = arguments.length)
      (ha : ∀ e ∈ arguments, WellScoped fs scope e) : WellScoped fs scope (.call f.name arguments)
  | not {scope : List String} {operand : Expr} (ho : WellScoped fs scope operand) :
      WellScoped fs scope (.not operand)
  | concat {scope : List String} {parts : List Expr} (hp : ∀ e ∈ parts, WellScoped fs scope e) :
      WellScoped fs scope (.concat parts)
  | binary {scope : List String} {op : Operator} {left right : Expr}
      (htarget : op.isUpdate → ∃ x, left = .variable x) (hl : WellScoped fs scope left)
      (hr : WellScoped fs scope right) : WellScoped fs scope (.binary op left right)

structure Program.WellScoped (p : Program) : Prop where
  names : (p.functions.map Function.name).Nodup
  parameters : ∀ f ∈ p.functions, f.parameters.Nodup
  functions : ∀ f ∈ p.functions, f.body.WellScoped p.functions f.parameters
  body : p.body.WellScoped p.functions []

variable {fs : List Function} {scope : List String} {L : Layout}

structure Layout.Sees (fs : List Function) (scope : List String) (L : Layout) : Prop where
  slots : ∀ x, (∃ slot, L.slot? x = some slot) ↔ x ∈ scope
  arities : ∀ name n, L.arity? name = some n ↔ ∃ f ∈ fs, f.name = name ∧ f.parameters.length = n

theorem Layout.Sees.behind (h : L.Sees fs scope) (code : List Draft) :
    (L.behind code).Sees fs scope := ⟨h.slots, h.arities⟩

theorem Layout.Sees.raised (h : L.Sees fs scope) (n : Int) : (L.raised n).Sees fs scope :=
  ⟨h.slots, h.arities⟩

theorem Layout.Sees.bind {names : List String} {slots : List Int} (h : L.Sees fs scope)
    (hlength : names.length = slots.length) : (L.bind names slots).Sees fs (names ++ scope) where
  slots := by
    intro x
    by_cases hx : x ∈ names
    · simpa [Layout.bind, hx] using exists_lookup_zip hlength hx
    · simpa [Layout.bind, hx] using h.slots x
  arities := h.arities

namespace Block

def Resolves (fs : List Function) (block : Block) (e : Expr) : Prop :=
  ∀ scope L, L.Sees fs scope → ((∃ code, block L = some code) ↔ e.WellScoped fs scope)

theorem resolves_literal (v : Value) : Resolves fs (literal v) (.literal v) :=
  fun _ _ _ => ⟨fun _ => .literal, fun _ => ⟨_, rfl⟩⟩

theorem resolves_lookup (x : String) : Resolves fs (lookup x) (.variable x) := by
  intro scope L hL
  constructor
  · rintro ⟨code, h⟩
    obtain ⟨slot, hslot, -⟩ := Option.map_eq_some_iff.1 h
    exact .variable ((hL.slots x).1 ⟨slot, hslot⟩)
  · intro h
    cases h with
    | «variable» hx =>
      obtain ⟨slot, hslot⟩ := (hL.slots x).2 hx
      exact ⟨_, Option.map_eq_some_iff.2 ⟨slot, hslot, rfl⟩⟩

theorem resolves_assign {block : Block} {value : Expr} (x : String) (hv : Resolves fs block value) :
    Resolves fs (assign x block) (.assign x value) := by
  intro scope L hL
  simp only [assign_eq_some]
  constructor
  · rintro ⟨_, slot, hslot, code, hcode, -⟩
    exact .assign ((hL.slots x).1 ⟨slot, hslot⟩) ((hv scope L hL).1 ⟨code, hcode⟩)
  · intro h
    cases h with
    | assign hx h =>
      obtain ⟨slot, hslot⟩ := (hL.slots x).2 hx
      obtain ⟨code, hcode⟩ := (hv scope L hL).2 h
      exact ⟨_, slot, hslot, code, hcode, rfl⟩

theorem resolves_not {block : Block} {operand : Expr} (ho : Resolves fs block operand) :
    Resolves fs (Block.not block) (.not operand) := by
  intro scope L hL
  simp only [not_eq_some]
  constructor
  · rintro ⟨_, code, hcode, -⟩
    exact .not ((ho scope L hL).1 ⟨code, hcode⟩)
  · intro h
    cases h with
    | not h =>
      obtain ⟨code, hcode⟩ := (ho scope L hL).2 h
      exact ⟨_, code, hcode, rfl⟩

theorem resolves_values {blocks : List Block} {es : List Expr}
    (hp : List.Forall₂ (Resolves fs) blocks es) (hL : L.Sees fs scope) :
    (∃ code, values blocks L = some code) ↔ ∀ e ∈ es, e.WellScoped fs scope := by
  induction hp generalizing L with
  | nil => exact ⟨fun _ => nofun, fun _ => ⟨[], rfl⟩⟩
  | @cons block e blocks es hblock _ ih =>
    simp only [values_cons_eq_some, List.forall_mem_cons]
    constructor
    · rintro ⟨_, first, hfirst, rest, hrest, -⟩
      exact ⟨(hblock scope L hL).1 ⟨first, hfirst⟩, (ih ((hL.behind _).raised 1)).1 ⟨rest, hrest⟩⟩
    · rintro ⟨he, hes⟩
      obtain ⟨first, hfirst⟩ := (hblock scope L hL).2 he
      obtain ⟨rest, hrest⟩ := (ih ((hL.behind (first ++ [Draft.push])).raised 1)).2 hes
      exact ⟨_, first, hfirst, rest, hrest, rfl⟩

theorem resolves_updateTarget {l : Expr} (op : Operator) (hL : L.Sees fs scope)
    (hl : l.WellScoped fs scope) :
    (∃ target, updateTarget op l L = some target) ↔ (op.isUpdate → ∃ x, l = .variable x) := by
  unfold updateTarget
  by_cases hop : op.isUpdate
  · simp only [hop, if_true, true_implies]
    cases hl with
    | @«variable» _ x hx =>
      obtain ⟨slot, hslot⟩ := (hL.slots x).2 hx
      simp [hslot]
    | _ => simp
  · simp [hop]

theorem resolves_binary {l r : Block} {left right : Expr} (op : Operator)
    (hl : Resolves fs l left) (hr : Resolves fs r right) :
    Resolves fs (binary op (updateTarget op left) l r) (.binary op left right) := by
  intro scope L hL
  simp only [binary_eq_some]
  constructor
  · rintro ⟨_, target, htarget, a, ha, b, hb, -⟩
    have hleft := (hl scope L hL).1 ⟨a, ha⟩
    exact .binary ((resolves_updateTarget op hL hleft).1 ⟨target, htarget⟩) hleft
      ((hr scope _ ((hL.behind _).raised 1)).1 ⟨b, hb⟩)
  · intro h
    cases h with
    | binary htarget hleft hright =>
      obtain ⟨target, htarget⟩ := (resolves_updateTarget op hL hleft).2 htarget
      obtain ⟨a, ha⟩ := (hl scope L hL).2 hleft
      obtain ⟨b, hb⟩ := (hr scope _ ((hL.behind (a ++ [Draft.push])).raised 1)).2 hright
      exact ⟨_, target, htarget, a, ha, b, hb, rfl⟩

theorem resolves_letIn {blocks : List Block} {values : List Expr} {block : Block} {body : Expr}
    {names : List String} (hlength : names.length = values.length)
    (hv : List.Forall₂ (Resolves fs) blocks values) (hb : Resolves fs block body) :
    Resolves fs (letIn names blocks block) (.letIn names values body) := by
  intro scope L hL
  -- the values are placed in the scope outside, the body where the names are bound
  have hbind : ∀ vs, (((L.behind vs).raised blocks.length).bind names (L.slots blocks.length)).Sees
      fs (names ++ scope) := fun vs =>
    ((hL.behind vs).raised _).bind (by rw [Layout.length_slots, hlength, hv.length_eq])
  simp only [letIn_eq_some]
  constructor
  · rintro ⟨_, vs, hvs, hn, code, hcode, -⟩
    exact .letIn hn ((resolves_values hv hL).1 ⟨vs, hvs⟩)
      ((hb _ _ (hbind vs)).1 ⟨code, hcode⟩)
  · intro h
    cases h with
    | letIn hn hvalues hbody =>
      obtain ⟨vs, hvs⟩ := (resolves_values hv hL).2 hvalues
      obtain ⟨code, hcode⟩ := (hb _ _ (hbind vs)).2 hbody
      exact ⟨_, vs, hvs, hn, code, hcode, rfl⟩

theorem resolves_concat {blocks : List Block} {parts : List Expr}
    (hp : List.Forall₂ (Resolves fs) blocks parts) :
    Resolves fs (concat blocks) (.concat parts) := by
  intro scope L hL
  simp only [concat_eq_some]
  constructor
  · rintro ⟨_, vs, hvs, -⟩
    exact .concat ((resolves_values hp hL).1 ⟨vs, hvs⟩)
  · intro h
    cases h with
    | concat hparts =>
      obtain ⟨vs, hvs⟩ := (resolves_values hp hL).2 hparts
      exact ⟨_, vs, hvs, rfl⟩

theorem resolves_arms {cs bs : List Block} {conditions branches : List Expr} (mode : Mode)
    (result : Int) (hlength : conditions.length = branches.length)
    (hc : List.Forall₂ (Resolves fs) cs conditions) (hb : List.Forall₂ (Resolves fs) bs branches)
    (hL : L.Sees fs scope) :
    (∃ code, arms mode result cs bs L = some code) ↔
      (∀ e ∈ conditions, e.WellScoped fs scope) ∧ ∀ e ∈ branches, e.WellScoped fs scope := by
  induction hc generalizing L bs branches with
  | nil =>
    obtain rfl := List.length_eq_zero_iff.1 hlength.symm
    cases hb
    simp [arms]
  | @cons c condition cs conditions hcondition _ ih =>
    cases hb with
    | nil => cases hlength
    | @cons b branch bs branches hbranch hb =>
      simp only [arms_cons_eq_some, List.forall_mem_cons]
      constructor
      · rintro ⟨_, test, htest, code, hcode, rest, hrest, -⟩
        obtain ⟨hcs, hbs⟩ := (ih (Nat.succ.inj hlength) hb (hL.behind _)).1 ⟨rest, hrest⟩
        exact ⟨⟨(hcondition scope L hL).1 ⟨test, htest⟩, hcs⟩,
          (hbranch scope _ (hL.behind _)).1 ⟨code, hcode⟩, hbs⟩
      · rintro ⟨⟨hcond, hcs⟩, hbr, hbs⟩
        obtain ⟨test, htest⟩ := (hcondition scope L hL).2 hcond
        obtain ⟨code, hcode⟩ :=
          (hbranch scope _ (hL.behind (test ++ [Draft.jumpUnless 0]))).2 hbr
        obtain ⟨rest, hrest⟩ := (ih (Nat.succ.inj hlength) hb (hL.behind
          (test ++ [Draft.jumpUnless 0] ++ (code ++ leave mode result 0)))).2 ⟨hcs, hbs⟩
        exact ⟨_, test, htest, code, hcode, rest, hrest, rfl⟩

theorem resolves_select {cs bs : List Block} {conditions branches : List Expr} (mode : Mode)
    (hlength : conditions.length = branches.length)
    (hc : List.Forall₂ (Resolves fs) cs conditions) (hb : List.Forall₂ (Resolves fs) bs branches) :
    Resolves fs (select mode cs bs) (.select mode conditions branches) := by
  intro scope L hL
  have harms := resolves_arms mode L.offset hlength hc hb ((hL.behind [pushZero]).raised 1)
  simp only [select_eq_some]
  constructor
  · rintro ⟨_, code, hcode, -⟩
    obtain ⟨hconditions, hbranches⟩ := harms.1 ⟨code, hcode⟩
    exact .select hconditions hbranches
  · intro h
    cases h with
    | select hconditions hbranches =>
      obtain ⟨code, hcode⟩ := harms.2 ⟨hconditions, hbranches⟩
      exact ⟨_, code, hcode, rfl⟩

theorem resolves_loop {c b : Block} {condition body : Expr} (hc : Resolves fs c condition)
    (hb : Resolves fs b body) : Resolves fs (loop c b) (.loop condition body) := by
  intro scope L hL
  have htop := (hL.behind [pushZero]).raised 1
  simp only [loop_eq_some]
  constructor
  · rintro ⟨_, test, htest, code, hcode, -⟩
    exact .loop ((hc scope _ htop).1 ⟨test, htest⟩) ((hb scope _ (htop.behind _)).1 ⟨code, hcode⟩)
  · intro h
    cases h with
    | loop hcondition hbody =>
      obtain ⟨test, htest⟩ := (hc scope _ htop).2 hcondition
      obtain ⟨code, hcode⟩ := (hb scope _ (htop.behind (test ++ [Draft.jumpUnless 0]))).2 hbody
      exact ⟨_, test, htest, code, hcode, rfl⟩

theorem resolves_call {blocks : List Block} {arguments : List Expr} (name : String)
    (ha : List.Forall₂ (Resolves fs) blocks arguments) :
    Resolves fs (call name blocks) (.call name arguments) := by
  intro scope L hL
  simp only [call_eq_some]
  constructor
  · rintro ⟨_, harity, vs, hvs, -⟩
    obtain ⟨f, hf, rfl, hn⟩ := (hL.arities name _).1 harity
    exact .call hf (by rw [hn, ha.length_eq]) ((resolves_values ha hL).1 ⟨vs, hvs⟩)
  · intro h
    cases h with
    | @call _ f _ hf hlength harguments =>
      obtain ⟨vs, hvs⟩ := (resolves_values ha hL).2 harguments
      exact ⟨_, (hL.arities _ _).2 ⟨f, hf, rfl, hlength.trans ha.length_eq.symm⟩, vs, hvs, rfl⟩

end Block

mutual

theorem Expr.resolves_block (fs : List Function) :
    ∀ e : Expr, e.Paired → Block.Resolves fs e.block e
  | .literal v, _ => Block.resolves_literal v
  | .variable x, _ => Block.resolves_lookup x
  | .assign x value, .assign hv => Block.resolves_assign x (resolves_block fs value hv)
  | .letIn _ values body, .letIn hlength hv hb =>
    Block.resolves_letIn hlength (resolves_blocks fs values hv) (resolves_block fs body hb)
  | .loop condition body, .loop hc hb =>
    Block.resolves_loop (resolves_block fs condition hc) (resolves_block fs body hb)
  | .select mode conditions branches, .select hlength hc hb =>
    Block.resolves_select mode hlength (resolves_blocks fs conditions hc)
      (resolves_blocks fs branches hb)
  | .call name arguments, .call ha => Block.resolves_call name (resolves_blocks fs arguments ha)
  | .not operand, .not ho => Block.resolves_not (resolves_block fs operand ho)
  | .concat parts, .concat hp => Block.resolves_concat (resolves_blocks fs parts hp)
  | .binary op left right, .binary hl hr =>
    Block.resolves_binary op (resolves_block fs left hl) (resolves_block fs right hr)

theorem Expr.resolves_blocks (fs : List Function) : ∀ es : List Expr, (∀ e ∈ es, e.Paired) →
    List.Forall₂ (Block.Resolves fs) (Expr.blocks es) es
  | [], _ => .nil
  | e :: es, h =>
    .cons (resolves_block fs e (h e List.mem_cons_self))
      (resolves_blocks fs es fun x hx => h x (List.mem_cons_of_mem _ hx))

end

end Sigil
