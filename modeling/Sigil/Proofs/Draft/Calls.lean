import Mathlib.Data.List.Forall2
import Sigil.Proofs.Draft.Basic

/-! The calls of a draft are those of the tree, in the order in which they are made. -/
namespace Sigil

open Draft (fixed)

mutual

/-- The functions that an expression calls, in the order of its code. A selection without as many
branches as conditions has only the calls of those that are paired. -/
def Expr.callees : Expr → List String
  | .literal _ | .variable _ => []
  | .assign _ value => value.callees
  | .letIn _ values body => (Expr.calleesOf values).flatten ++ body.callees
  | .loop condition body => condition.callees ++ body.callees
  | .select _ conditions branches =>
    (List.zipWith (· ++ ·) (Expr.calleesOf conditions) (Expr.calleesOf branches)).flatten
  | .call name arguments => (Expr.calleesOf arguments).flatten ++ [name]
  | .not operand => operand.callees
  | .concat parts => (Expr.calleesOf parts).flatten
  | .binary _ left right => left.callees ++ right.callees

def Expr.calleesOf : List Expr → List (List String)
  | [] => []
  | e :: es => e.callees :: Expr.calleesOf es

end

def Program.callees (p : Program) : List String :=
  p.body.callees ++ p.functions.flatMap fun f => f.body.callees

namespace Draft

def callee? : Draft → Option String
  | fixed _ => none
  | call name => some name

def callees (code : List Draft) : List String := code.filterMap callee?

variable {code : List Draft}

theorem mem_callees {name : String} : name ∈ callees code ↔ Draft.call name ∈ code := by
  rw [callees, List.mem_filterMap]
  constructor
  · rintro ⟨d, hd, h⟩
    cases d with
    | fixed i => cases h
    | call callee =>
      cases h
      exact hd
  · exact fun h => ⟨_, h, rfl⟩

@[simp] theorem callees_nil : callees [] = [] := rfl

@[simp] theorem callees_append (a b : List Draft) : callees (a ++ b) = callees a ++ callees b :=
  List.filterMap_append

@[simp] theorem callees_fixed (i : Instruction) : callees (fixed i :: code) = callees code := rfl

@[simp] theorem callees_call (name : String) : callees (call name :: code) = name :: callees code := rfl

@[simp] theorem callees_load (slot : Int) : callees (load slot :: code) = callees code := rfl

@[simp] theorem callees_store (slot : Int) : callees (store slot :: code) = callees code := rfl

@[simp] theorem callees_push : callees (push :: code) = callees code := rfl

@[simp] theorem callees_pushZero : callees (Block.pushZero :: code) = callees code := rfl

@[simp] theorem callees_jumpUnless (target : Nat) :
    callees (jumpUnless target :: code) = callees code := rfl

@[simp] theorem callees_drop (n : Nat) : callees (drop n) = [] := by
  unfold drop
  split <;> rfl

@[simp] theorem callees_map_fixed {α : Type} (f : α → Instruction) (xs : List α) :
    callees (xs.map fun x => fixed (f x)) = [] := by
  rw [callees, List.filterMap_map]
  exact List.filterMap_eq_nil_iff.2 fun _ _ => rfl

end Draft

namespace Block

def Calls (block : Block) (names : List String) : Prop :=
  ∀ L code, block L = some code → Draft.callees code = names

variable {block c b : Block} {blocks : List Block} {names xs ys : List String}
  {namess : List (List String)}

theorem calls_literal (v : Value) : Calls (literal v) [] := by
  rintro L _ ⟨⟩
  rfl

theorem calls_lookup (x : String) : Calls (lookup x) [] := by
  intro L code h
  obtain ⟨slot, -, rfl⟩ := Option.map_eq_some_iff.1 h
  rfl

theorem calls_assign (x : String) (hv : Calls block names) : Calls (assign x block) names := by
  intro L _ h
  obtain ⟨slot, -, code, hcode, rfl⟩ := assign_eq_some.1 h
  simp [hv _ _ hcode]

theorem calls_not (ho : Calls block names) : Calls (Block.not block) names := by
  intro L _ h
  obtain ⟨code, hcode, rfl⟩ := not_eq_some.1 h
  simp [ho _ _ hcode]

theorem calls_values (hb : List.Forall₂ Calls blocks namess) :
    Calls (values blocks) namess.flatten := by
  induction hb with
  | nil =>
    rintro L _ ⟨⟩
    rfl
  | cons hfirst _ ih =>
    intro L _ h
    obtain ⟨first, h1, rest, h2, rfl⟩ := values_cons_eq_some.1 h
    simp [hfirst _ _ h1, ih _ _ h2]

theorem calls_binary (op : Operator) (target : Layout → Option (Option Int)) (hl : Calls c xs)
    (hr : Calls b ys) : Calls (binary op target c b) (xs ++ ys) := by
  intro L _ h
  obtain ⟨slot, -, x, hx, y, hy, rfl⟩ := binary_eq_some.1 h
  cases slot <;> simp [hl _ _ hx, hr _ _ hy]

theorem calls_letIn (bound : List String) (hv : List.Forall₂ Calls blocks namess)
    (hb : Calls block names) : Calls (letIn bound blocks block) (namess.flatten ++ names) := by
  intro L _ h
  obtain ⟨vs, hvs, -, code, hcode, rfl⟩ := letIn_eq_some.1 h
  simp [calls_values hv _ _ hvs, hb _ _ hcode]

theorem calls_concat (hp : List.Forall₂ Calls blocks namess) :
    Calls (concat blocks) namess.flatten := by
  intro L _ h
  obtain ⟨vs, hvs, rfl⟩ := concat_eq_some.1 h
  simp [calls_values hp _ _ hvs, join]

theorem callees_leave (mode : Mode) (result : Int) (exit : Nat) :
    Draft.callees (leave mode result exit) = [] := by
  unfold leave
  split <;> rfl

theorem calls_arms {mode : Mode} {result : Int} {conditions branches : List Block}
    {xss yss : List (List String)} {L : Layout} {code : Nat → List Draft}
    (hc : List.Forall₂ Calls conditions xss) (hb : List.Forall₂ Calls branches yss)
    (h : arms mode result conditions branches L = some code) (exit : Nat) :
    Draft.callees (code exit) = (List.zipWith (· ++ ·) xss yss).flatten := by
  induction hc generalizing branches yss L code with
  | nil =>
    simp only [arms, Option.some.injEq] at h
    subst h
    rfl
  | cons hcondition _ ih =>
    cases hb with
    | nil =>
      simp only [arms, Option.some.injEq] at h
      subst h
      rfl
    | cons hbranch hb =>
      obtain ⟨test, htest, body, hbody, rest, hrest, rfl⟩ := arms_cons_eq_some.1 h
      simp [hcondition _ _ htest, hbranch _ _ hbody, ih hb hrest, callees_leave]

theorem calls_select {conditions branches : List Block} {xss yss : List (List String)} (mode : Mode)
    (hc : List.Forall₂ Calls conditions xss) (hb : List.Forall₂ Calls branches yss) :
    Calls (select mode conditions branches) (List.zipWith (· ++ ·) xss yss).flatten := by
  intro L _ h
  obtain ⟨code, hcode, rfl⟩ := select_eq_some.1 h
  simp [calls_arms hc hb hcode]

theorem calls_loop (hc : Calls c xs) (hb : Calls b ys) : Calls (loop c b) (xs ++ ys) := by
  intro L _ h
  obtain ⟨test, htest, body, hbody, rfl⟩ := loop_eq_some.1 h
  simp [hc _ _ htest, hb _ _ hbody]

theorem calls_call (name : String) (ha : List.Forall₂ Calls blocks namess) :
    Calls (call name blocks) (namess.flatten ++ [name]) := by
  intro L _ h
  obtain ⟨-, vs, hvs, rfl⟩ := call_eq_some.1 h
  simp [calls_values ha _ _ hvs]

end Block

mutual

theorem Expr.calls_block : ∀ e : Expr, e.block.Calls e.callees
  | .literal v => Block.calls_literal v
  | .variable x => Block.calls_lookup x
  | .assign x value => Block.calls_assign x (calls_block value)
  | .letIn names values body => Block.calls_letIn names (calls_blocks values) (calls_block body)
  | .loop condition body => Block.calls_loop (calls_block condition) (calls_block body)
  | .select mode conditions branches =>
    Block.calls_select mode (calls_blocks conditions) (calls_blocks branches)
  | .call name arguments => Block.calls_call name (calls_blocks arguments)
  | .not operand => Block.calls_not (calls_block operand)
  | .concat parts => Block.calls_concat (calls_blocks parts)
  | .binary op left right =>
    Block.calls_binary op (Block.updateTarget op left) (calls_block left) (calls_block right)

theorem Expr.calls_blocks : ∀ es : List Expr,
    List.Forall₂ Block.Calls (Expr.blocks es) (Expr.calleesOf es)
  | [] => .nil
  | e :: es => .cons (calls_block e) (calls_blocks es)

end

theorem Function.calls_block (f : Function) : f.block.Calls f.body.callees := by
  intro L _ h
  obtain ⟨-, code, hcode, rfl⟩ := block_eq_some.1 h
  simp [f.body.calls_block _ _ hcode]

theorem Function.calls_blocks {fs : List Function} {L : Layout} {entries : List (String × Nat)}
    {code : List Draft} (h : Function.blocks fs L = some (entries, code)) :
    Draft.callees code = fs.flatMap fun f => f.body.callees := by
  induction fs generalizing L entries code with
  | nil =>
    cases h
    rfl
  | cons f fs ih =>
    obtain ⟨first, hfirst, entries', rest, hrest, -, rfl⟩ := blocks_cons_eq_some.1 h
    simp [f.calls_block _ _ hfirst, ih hrest]

end Sigil
