import Sigil.Value
import Sigil.Text.Column

/-! Why a machine cannot go on. -/
namespace Sigil

inductive Fault where
  | typeMismatch (cause : TypeMismatch)
  | constantAssignment
  | stackOverflow (limit : Nat)
  | stackUnderflow
  | stackOutOfBounds (offset : Int)
  | doubleAllocation (address : Nat)
  | invalidRelease (address : Nat)
  | useAfterRelease (address : Nat)
  | invalidRegister (id : Nat)
  | pcOutOfBounds (pc : Nat)
  | returnOutsideFunction
  | stepLimitExceeded (limit : Nat)
  | notRunning
deriving DecidableEq, Repr

def Fault.message : Fault → String
  | typeMismatch cause => cause.message
  | constantAssignment => "Cannot reassign a constant accessor"
  | stackOverflow limit => "Stack overflow (" ++ Text.decimal limit ++ " entries)"
  | stackUnderflow => "Stack underflow"
  | stackOutOfBounds offset =>
    "Stack offset " ++ Text.signed offset ++ " is outside the current frame"
  | doubleAllocation address =>
    "Heap address " ++ Text.hexadecimal address ++ " is already allocated"
  | invalidRelease address =>
    "Heap address " ++ Text.hexadecimal address ++ " is not allocated and cannot be released"
  | useAfterRelease address =>
    "Heap address " ++ Text.hexadecimal address ++ " used after release"
  | invalidRegister id => "Register %" ++ Text.decimal id ++ " does not exist"
  | pcOutOfBounds pc => "Program counter " ++ Text.address pc ++ " is outside the program"
  | returnOutsideFunction => "Result executed outside of a function call"
  | stepLimitExceeded limit => "Step limit of " ++ Text.decimal limit ++ " instructions exceeded"
  | notRunning => "Virtual machine is not running"

end Sigil
