import Sigil.Number.Shortest

/-!
Numbers as text. `render` writes the shortest digits that read back, positionally and without an
exponent; `read?` accepts decimal numerals with sign, point and exponent, and the names of the
values that have no digits.
-/
namespace Sigil.Number

def dropTrailingZeros (digits : List Char) : List Char :=
  (digits.reverse.dropWhile (· = '0')).reverse

def padLeft (width : Nat) (fill : Char) (text : List Char) : List Char :=
  List.replicate (width - text.length) fill ++ text

def fractionDigits (n places : Nat) : List Char :=
  match dropTrailingZeros (padLeft places '0' (Nat.toDigits 10 (n % Nat.pow 10 places))) with
  | [] => []
  | digits => '.' :: digits

def Decimal.render (d : Decimal) : List Char :=
  let places := (-d.exponent).toNat
  let whole := d.digits * Nat.pow 10 d.exponent.toNat / Nat.pow 10 places
  Nat.toDigits 10 whole ++ fractionDigits d.digits places

def sign (negative : Bool) : String := if negative then "-" else ""

def render (x : Float) : String :=
  match shape x with
  | .nan => "NaN"
  | .infinite negative => sign negative ++ "inf"
  | .finite negative magnitude =>
    if magnitude.significand = 0 then sign negative ++ "0"
    else sign negative ++ String.ofList magnitude.shortest.render

def digitValue (c : Char) : Nat := c.toNat - '0'.toNat

def digitsValue (digits : List Char) : Nat :=
  digits.foldl (fun n c => 10 * n + digitValue c) 0

def ofDecimal (negative : Bool) (digits : List Char) (exponent : Int) : Float :=
  let n := digitsValue digits
  let size := ((Nat.toDigits 10 n).length : Int) + exponent
  -- so far out on either side the answer is known without the power
  if n = 0 ∨ size < -400 then ofRatio negative 0 1
  else if 400 < size then infinity negative
  else ofRatio negative (n * Nat.pow 10 exponent.toNat) (Nat.pow 10 (-exponent).toNat)

def splitSign : List Char → Bool × List Char
  | '-' :: text => (true, text)
  | '+' :: text => (false, text)
  | text => (false, text)

def exponent? : List Char → Option Int
  | [] => some 0
  | c :: text =>
    let (negative, digits) := splitSign text
    if (c = 'e' ∨ c = 'E') ∧ digits ≠ [] ∧ digits.all Char.isDigit then
      some (if negative then -(digitsValue digits : Int) else digitsValue digits)
    else none

def unsigned? (negative : Bool) (text : List Char) : Option Float :=
  let whole := text.takeWhile Char.isDigit
  let rest := text.dropWhile Char.isDigit
  let pointed := rest.head? = some '.'
  let fraction := if pointed then rest.tail.takeWhile Char.isDigit else []
  let rest := if pointed then rest.tail.dropWhile Char.isDigit else rest
  if whole = [] ∧ fraction = [] then none
  else (exponent? rest).map fun e => ofDecimal negative (whole ++ fraction) (e - fraction.length)

def read? (text : String) : Option Float :=
  let (negative, rest) := splitSign text.toList
  let word := String.ofList (rest.map Char.toLower)
  if word = "inf" ∨ word = "infinity" then some (infinity negative)
  else if word = "nan" then some nan
  else unsigned? negative rest

end Sigil.Number
