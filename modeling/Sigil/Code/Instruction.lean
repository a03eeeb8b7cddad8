import Sigil.Value
import Sigil.Text.Column

/-! Instructions of the stack machine and their assembly text. -/
namespace Sigil

inductive Operand where
  /-- counted from the base of the current frame -/
  | stack (offset : Int)
  | heap (address : Nat)
  | register (id : Nat)
  /-- can only be read -/
  | constant (value : Value)

def Operand.accumulator : Operand := .register 0

inductive Instruction where
  | move (target source : Operand)
  | push (source : Operand)
  | pop (target : Operand)
  | drop (n : Nat)
  /-- combines both operands into the first -/
  | binary (op : Operation) (target source : Operand)
  | not (target : Operand)
  | call (target : Nat)
  | result (source : Operand)
  | exit (source : Operand)
  | goto (target : Nat)
  | jumpUnless (source : Operand) (target : Nat)
  | new (address : Nat)
  | release (address : Nat)

def Operand.render : Operand → String
  | stack offset =>
    if offset < 0 then "BP-" ++ Text.hexadecimal offset.natAbs
    else "BP+" ++ Text.hexadecimal offset.natAbs
  | heap address => "M(" ++ Text.hexadecimal address ++ ")"
  | register id => "%" ++ Text.decimal id
  | constant (.number x) => "#" ++ Number.render x
  | constant (.string s) => "'" ++ s ++ "'"

namespace Instruction

def mnemonic : Instruction → String
  | move _ _ => "Mov"
  | push _ => "Push"
  | pop _ => "Pop"
  | drop _ => "Drop"
  | binary op _ _ => op.mnemonic
  | not _ => "Not"
  | call _ => "Call"
  | result _ => "Result"
  | exit _ => "Exit"
  | goto _ => "Goto"
  | jumpUnless _ _ => "JumpUnless"
  | new _ => "New"
  | release _ => "Release"

def operands : Instruction → String
  | move a b | binary _ a b => a.render ++ "," ++ b.render
  | push a | pop a | not a | result a | exit a => a.render
  | drop n => Text.decimal n
  | call target | goto target => Text.hexadecimal target
  | jumpUnless a target => a.render ++ "," ++ Text.hexadecimal target
  | new address | release address => (Operand.heap address).render

def render (i : Instruction) : String := i.mnemonic ++ "\t" ++ i.operands

def retarget? (target : Nat) : Instruction → Option Instruction
  | call _ => some (call target)
  | goto _ => some (goto target)
  | jumpUnless a _ => some (jumpUnless a target)
  | _ => none

end Instruction
end Sigil
