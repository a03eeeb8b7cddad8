import Sigil.Operator
import Sigil.Number.Numeral
import Sigil.Number.Remainder

/-!
Values of the language: numbers and strings. The operations on them are total up to a mismatch of
types, which names the operation and what it was given.
-/
namespace Sigil

inductive Value where
  | number (x : Float)
  | string (s : String)

inductive ValueType where
  | number | string
deriving DecidableEq, Repr

def ValueType.name : ValueType → String
  | number => "number"
  | string => "string"

structure TypeMismatch where
  operation : Operation
  left : ValueType
  right : ValueType
deriving DecidableEq, Repr

def Operation.demand : Operation → String
  | concat => "a string destination"
  | order _ => "2 numbers or 2 strings"
  | _ => "2 numbers"

def TypeMismatch.message (m : TypeMismatch) : String :=
  m.operation.mnemonic ++ " requires " ++ m.operation.demand ++ ", found " ++ m.left.name ++
    " and " ++ m.right.name

namespace Value

instance : Inhabited Value := ⟨number 0⟩

def zero : Value := default

def type : Value → ValueType
  | number _ => .number
  | string _ => .string

def render : Value → String
  | number x => Number.render x
  | string s => s

def isTruthy : Value → Bool
  | number x => !(x == 0)
  | string s => s ≠ ""

def ofBool (b : Bool) : Value := number (if b then 1 else 0)

def beq : Value → Value → Bool
  | number x, number y => x == y
  | string s, string t => s = t
  | _, _ => false

instance : BEq Value := ⟨beq⟩

end Value

def Arithmetic.eval : Arithmetic → Float → Float → Float
  | add, x, y => x + y
  | subtract, x, y => x - y
  | multiply, x, y => x * y
  | divide, x, y => x / y
  | modulo, x, y => Number.remainder x y

def Order.onNumbers : Order → Float → Float → Bool
  | less, x, y => x < y
  | lessEqual, x, y => x ≤ y
  | greater, x, y => y < x
  | greaterEqual, x, y => y ≤ x

def Order.onStrings : Order → String → String → Bool
  | less, s, t => s < t
  | lessEqual, s, t => ¬ t < s
  | greater, s, t => t < s
  | greaterEqual, s, t => ¬ s < t

namespace Operation

def apply (op : Operation) (a b : Value) : Except TypeMismatch Value :=
  match op, a, b with
  | arithmetic f, .number x, .number y => .ok (.number (f.eval x y))
  | order r, .number x, .number y => .ok (.ofBool (r.onNumbers x y))
  | order r, .string s, .string t => .ok (.ofBool (r.onStrings s t))
  | concat, .string s, _ => .ok (.string (s ++ b.render))
  | equal, _, _ => .ok (.ofBool (a == b))
  | notEqual, _, _ => .ok (.ofBool (!(a == b)))
  | and, _, _ => .ok (.ofBool (a.isTruthy && b.isTruthy))
  | or, _, _ => .ok (.ofBool (a.isTruthy || b.isTruthy))
  | _, _, _ => .error ⟨op, a.type, b.type⟩

end Operation
end Sigil
