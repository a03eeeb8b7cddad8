import Sigil.Operator
import Sigil.Code.Linker

/-! Why a program that can be read has no meaning. -/
namespace Sigil

inductive SemanticError where
  | undefinedVariable (name : String)
  | unknownFunction (name : String)
  | arityMismatch (name : String) (expected found : Nat)
  | functionRedeclared (name : String)
  | duplicateBinding (name : String)
  | invalidTarget (op : Operator)
  | link (cause : LinkError)
deriving DecidableEq, Repr

def SemanticError.message : SemanticError → String
  | undefinedVariable name => "Undefined variable \"" ++ name ++ "\""
  | unknownFunction name => "Function not found: " ++ name
  | arityMismatch name expected found =>
    "Function not found: " ++ name ++ " takes " ++ Text.decimal expected ++
      " arguments but was called with " ++ Text.decimal found
  | functionRedeclared name => "Function " ++ name ++ " is declared more than once"
  | duplicateBinding name => "Variable " ++ name ++ " is bound more than once in the same scope"
  | invalidTarget op => "Left side of " ++ op.symbol ++ " must be a variable"
  | link cause => cause.message

end Sigil
