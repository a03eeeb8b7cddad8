import Sigil.Expr.Basic
import Sigil.Scope.Symbols

/-!
The state of a lowering from trees to code, and its elementary actions. A failure keeps the state
it was met in.
-/
namespace Sigil

/-- The offset is the distance from the frame base to the top of the stack at the point where code
is emitted. Slots are the frame offsets of variables, by their ids. -/
structure Lowering where
  code : Code
  linker : Linker
  symbols : Symbols
  slots : List (Nat × Int)
  offset : Int
  nextHeap : Nat

abbrev Lower := EStateM SemanticError Lowering

namespace Lowering

def start : Lowering := ⟨.empty, .empty, .empty, [], 0, 0⟩

def emit (i : Instruction) : Lower Unit :=
  modify fun s => { s with code := s.code.emit i }

def here : Lower Nat := return (← get).code.size

def patchHere (address : Nat) : Lower Unit :=
  modify fun s => { s with code := (s.code.patch? address s.code.size).getD s.code }

def push (source : Operand) : Lower Int := do
  let slot := (← get).offset
  emit (.push source)
  modify fun s => { s with offset := s.offset + 1 }
  return slot

def drop (n : Nat) : Lower Unit := do
  if n ≠ 0 then
    emit (.drop n)
    modify fun s => { s with offset := s.offset - n }

def slot? (s : Lowering) (name : String) : Option Int :=
  (s.symbols.binding? name).bind fun id => s.slots.lookup id

def slot (name : String) : Lower Int := do
  match (← get).slot? name with
  | some slot => return slot
  | none => throw (.undefinedVariable name)

def onSymbols {α : Type} (update : Symbols.Update α) : Lower α := fun s =>
  match update s.symbols with
  | .ok a symbols => .ok a { s with symbols }
  | .error e symbols => .error e { s with symbols }

def pushScope (names : List String) : Lower (List Nat) := onSymbols (Symbols.pushScope names)

def popScope : Lower Unit := modify fun s => { s with symbols := s.symbols.popScope }

def bindSlots (bindings : List (Nat × Int)) : Lower Unit :=
  modify fun s => { s with slots := bindings ++ s.slots }

def freshHeap : Lower Nat := do
  let address := (← get).nextHeap
  modify fun s => { s with nextHeap := s.nextHeap + 1 }
  return address

def call (name : String) : Lower Unit :=
  modify fun s =>
    let (linker, code) := s.linker.call s.code name
    { s with linker, code }

def startBlock (name : String) : Lower Unit :=
  modify fun s =>
    { s with
      linker := s.linker.bind name s.code.size
      code := s.code.label s.code.size name }

def link : Lower Unit := fun s =>
  match Linker.link (s.linker, s.code) with
  | .ok _ (linker, code) => .ok () { s with linker, code }
  | .error e (linker, code) => .error (.link e) { s with linker, code }

def takeCode : Lower Code := do
  let code := (← get).code
  modify fun s => { s with code := .empty }
  return code

end Lowering
end Sigil
