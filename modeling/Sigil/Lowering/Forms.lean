import Sigil.Lowering.Basic

/-!
Code for the forms of expressions, put together from the code of their parts. The code of an
expression leaves its value in the accumulator and the stack as high as it found it.
-/
namespace Sigil.Lowering

open Operand (accumulator)

def pushValues : List (Lower Unit) → Lower (List Int)
  | [] => return []
  | part :: parts => do
    part
    let slot ← push accumulator
    let slots ← pushValues parts
    return slot :: slots

def constant (v : Value) : Lower Unit := emit (.move accumulator (.constant v))

def load (slot : Int) : Lower Unit := emit (.move accumulator (.stack slot))

def store (slot : Int) : Lower Unit := emit (.move (.stack slot) accumulator)

def loadVariable (name : String) : Lower Unit := do
  load (← slot name)

def assign (name : String) (value : Lower Unit) : Lower Unit := do
  let slot ← slot name
  value
  store slot

def not (operand : Lower Unit) : Lower Unit := do
  operand
  emit (.not accumulator)

def updateTarget (op : Operator) (left : Expr) : Lower (Option Int) :=
  if op.isUpdate then
    match left with
    | .variable name => some <$> slot name
    | _ => throw (.invalidTarget op)
  else return none

def binary (op : Operator) (target : Lower (Option Int)) (left right : Lower Unit) :
    Lower Unit := do
  let target ← target
  left
  let a ← push accumulator
  right
  let b ← push accumulator
  emit (.binary op.operation (.stack a) (.stack b))
  load a
  if let some slot := target then store slot
  drop 2

def letIn (names : List String) (values : List (Lower Unit)) (body : Lower Unit) :
    Lower Unit := do
  let slots ← pushValues values
  let ids ← pushScope names
  bindSlots (ids.zip slots)
  body
  popScope
  drop values.length

def concat (parts : List (Lower Unit)) : Lower Unit := do
  let slots ← pushValues parts
  let buffer ← freshHeap
  emit (.new buffer)
  emit (.move (.heap buffer) (.constant (.string "")))
  slots.forM fun slot => emit (.binary .concat (.heap buffer) (.stack slot))
  emit (.move accumulator (.heap buffer))
  emit (.release buffer)
  drop parts.length

def arms (mode : Mode) (result : Int) : List (Lower Unit) → List (Lower Unit) → Lower (List Nat)
  | condition :: conditions, branch :: branches => do
    condition
    let skip ← here
    emit (.jumpUnless accumulator 0)
    branch
    store result
    let leave ← here
    if mode = .first then emit (.goto 0)
    patchHere skip
    let exits ← arms mode result conditions branches
    return if mode = .first then leave :: exits else exits
  | _, _ => return []

def select (mode : Mode) (conditions branches : List (Lower Unit)) : Lower Unit := do
  let result ← push (.constant .zero)
  let exits ← arms mode result conditions branches
  exits.forM patchHere
  load result
  drop 1

def loop (condition body : Lower Unit) : Lower Unit := do
  let result ← push (.constant .zero)
  let top ← here
  condition
  let exit ← here
  emit (.jumpUnless accumulator 0)
  body
  store result
  emit (.goto top)
  patchHere exit
  load result
  drop 1

def checkArity (name : String) (found : Nat) : Lower Unit := do
  match (← get).symbols.arity? name with
  | none => throw (.unknownFunction name)
  | some expected => if expected ≠ found then throw (.arityMismatch name expected found)

/-- A second copy of the arguments, on top of the first, is the window of the called function. -/
def callWith (name : String) (arguments : List (Lower Unit)) : Lower Unit := do
  checkArity name arguments.length
  let slots ← pushValues arguments
  slots.forM fun slot => do let _ ← push (.stack slot)
  call name
  drop (2 * arguments.length)

end Sigil.Lowering
