import Sigil.Lowering.Forms

/-!
Lowering of whole programs. The code of the body comes first and ends in an exit; the functions
follow in the order of their declaration, each ending in a result.
-/
namespace Sigil

mutual

def Expr.lower : Expr → Lower Unit
  | .literal v => Lowering.constant v
  | .variable name => Lowering.loadVariable name
  | .assign name value => Lowering.assign name value.lower
  | .letIn names values body => Lowering.letIn names (Expr.lowerAll values) body.lower
  | .loop condition body => Lowering.loop condition.lower body.lower
  | .select mode conditions branches =>
    Lowering.select mode (Expr.lowerAll conditions) (Expr.lowerAll branches)
  | .call name arguments => Lowering.callWith name (Expr.lowerAll arguments)
  | .not operand => Lowering.not operand.lower
  | .concat parts => Lowering.concat (Expr.lowerAll parts)
  | .binary op left right =>
    Lowering.binary op (Lowering.updateTarget op left) left.lower right.lower

def Expr.lowerAll : List Expr → List (Lower Unit)
  | [] => []
  | e :: es => e.lower :: Expr.lowerAll es

end

def parameterSlots (arity : Nat) : List Int :=
  (List.range arity).map fun (i : Nat) => (i : Int) - arity

def Function.lower (f : Function) : Lower Unit := do
  Lowering.startBlock f.name
  modify fun s => { s with offset := 0 }
  let ids ← Lowering.pushScope f.parameters
  Lowering.bindSlots (ids.zip (parameterSlots f.parameters.length))
  f.body.lower
  Lowering.popScope
  Lowering.emit (.result .accumulator)

def Function.register (f : Function) : Lower Unit := do
  let _ ← Lowering.onSymbols (Symbols.register f.name f.parameters.length)

def Program.lower (p : Program) : Lower Code := do
  p.functions.forM Function.register
  p.body.lower
  Lowering.emit (.exit .accumulator)
  p.functions.forM Function.lower
  Lowering.link
  Lowering.takeCode

def Program.compile (p : Program) : Except SemanticError Code :=
  match p.lower .start with
  | .ok code _ => .ok code
  | .error e _ => .error e

end Sigil
