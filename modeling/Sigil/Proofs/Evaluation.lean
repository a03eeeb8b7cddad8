import Sigil.Expr.Basic

/-!
Evaluation of trees, strict and from left to right, on environments of named values in which the
innermost binding of a name comes first. The fuel bounds the depth of calls and the rounds of every loop;
without enough of it there is no outcome.
-/
namespace Sigil

abbrev Env := List (String × Value)

def Env.update (x : String) (v : Value) : Env → Env
  | [] => []
  | (y, w) :: ρ => if x = y then (y, v) :: ρ else (y, w) :: update x v ρ

abbrev Outcome (α : Type) := Option (Except TypeMismatch α)

abbrev Evaluation := StateT Env (ExceptT TypeMismatch Option)

namespace Evaluation

def ofOutcome {α : Type} (o : Outcome α) : Evaluation α :=
  fun ρ => o.map fun r => r.map fun a => (a, ρ)

def lookup (x : String) : Evaluation Value := fun ρ => ofOutcome ((ρ.lookup x).map .ok) ρ

def store (x : String) (v : Value) : Evaluation Unit := modify (Env.update x v)

def apply (op : Operation) (a b : Value) : Evaluation Value := ofOutcome (some (op.apply a b))

def values : List (Evaluation Value) → Evaluation (List Value)
  | [] => return []
  | e :: es => do
    let v ← e
    let vs ← values es
    return v :: vs

def assign (x : String) (value : Evaluation Value) : Evaluation Value := do
  let v ← value
  store x v
  return v

def not (operand : Evaluation Value) : Evaluation Value := do
  let v ← operand
  return .ofBool !v.isTruthy

def binary (op : Operator) (target : Option String) (left right : Evaluation Value) :
    Evaluation Value := do
  let a ← left
  let b ← right
  let v ← apply op.operation a b
  if let some x := target then store x v
  return v

def within (bindings : Env) (body : Evaluation Value) : Evaluation Value := do
  modify fun ρ => bindings ++ ρ
  let v ← body
  modify fun ρ => ρ.drop bindings.length
  return v

def letIn (names : List String) (values : List (Evaluation Value)) (body : Evaluation Value) :
    Evaluation Value := do
  let vs ← Evaluation.values values
  within (names.zip vs) body

def concat (parts : List (Evaluation Value)) : Evaluation Value := do
  let vs ← values parts
  return .string (String.join (vs.map Value.render))

def select (mode : Mode) (last : Value) :
    List (Evaluation Value) → List (Evaluation Value) → Evaluation Value
  | condition :: conditions, branch :: branches => do
    let c ← condition
    if c.isTruthy then
      let v ← branch
      if mode = .first then return v else select mode v conditions branches
    else select mode last conditions branches
  | _, _ => return last

def loop (condition body : Evaluation Value) : Nat → Value → Evaluation Value
  | 0, _ => ofOutcome none
  | rounds + 1, last => do
    let c ← condition
    if c.isTruthy then
      let v ← body
      loop condition body rounds v
    else return last

def call (callee : List Value → Outcome Value) (arguments : List (Evaluation Value)) :
    Evaluation Value := do
  let vs ← values arguments
  ofOutcome (callee vs)

end Evaluation

def Expr.updated? (op : Operator) (left : Expr) : Option String :=
  match left with
  | .variable x => if op.isUpdate then some x else none
  | _ => none

mutual

/-- The evaluation of an expression, given what calls of functions come to. -/
def Expr.eval (callee : String → List Value → Outcome Value) (fuel : Nat) : Expr → Evaluation Value
  | .literal v => return v
  | .variable x => Evaluation.lookup x
  | .assign x value => Evaluation.assign x (value.eval callee fuel)
  | .letIn names values body =>
    Evaluation.letIn names (Expr.evalAll callee fuel values) (body.eval callee fuel)
  | .loop condition body =>
    Evaluation.loop (condition.eval callee fuel) (body.eval callee fuel) fuel .zero
  | .select mode conditions branches =>
    Evaluation.select mode .zero (Expr.evalAll callee fuel conditions)
      (Expr.evalAll callee fuel branches)
  | .call name arguments => Evaluation.call (callee name) (Expr.evalAll callee fuel arguments)
  | .not operand => Evaluation.not (operand.eval callee fuel)
  | .concat parts => Evaluation.concat (Expr.evalAll callee fuel parts)
  | .binary op left right =>
    Evaluation.binary op (Expr.updated? op left) (left.eval callee fuel) (right.eval callee fuel)

def Expr.evalAll (callee : String → List Value → Outcome Value) (fuel : Nat) :
    List Expr → List (Evaluation Value)
  | [] => []
  | e :: es => e.eval callee fuel :: Expr.evalAll callee fuel es

end

namespace Program

def call (p : Program) : Nat → String → List Value → Outcome Value
  | 0, _, _ => none
  | fuel + 1, name, arguments =>
    match p.functions.find? (·.name = name) with
    | none => none
    | some f => (f.body.eval (p.call fuel) fuel).run' (f.parameters.zip arguments)

def eval (p : Program) (fuel : Nat) : Outcome Value :=
  (p.body.eval (p.call fuel) fuel).run' []

def Evaluates (p : Program) (o : Except TypeMismatch Value) : Prop := ∃ fuel, p.eval fuel = some o

end Program
end Sigil
