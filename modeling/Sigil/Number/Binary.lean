/-!
Numbers are binary floats. A float is not a number, infinite, or `± significand · 2 ^ exponent`;
`ofRatio` goes back, from an exact quotient of naturals to the float nearest to it.
-/
namespace Sigil.Number

structure Binary where
  significand : Nat
  exponent : Int
deriving DecidableEq

inductive Shape where
  | nan
  | infinite (negative : Bool)
  | finite (negative : Bool) (magnitude : Binary)

def leastExponent : Int := -1074

def magnitudeOfBits (bits : Nat) : Binary :=
  let exponent : Nat := bits / Nat.pow 2 52
  let fraction : Nat := bits % Nat.pow 2 52
  if exponent = 0 then ⟨fraction, leastExponent⟩
  else ⟨Nat.pow 2 52 + fraction, leastExponent + exponent - 1⟩

def infinityBits : Nat := 2047 * Nat.pow 2 52

def shape (x : Float) : Shape :=
  let bits := x.toBits.toNat
  let negative := Nat.pow 2 63 ≤ bits
  let rest := bits % Nat.pow 2 63
  if rest < infinityBits then .finite negative (magnitudeOfBits rest)
  else if rest = infinityBits then .infinite negative
  else .nan

def isFinite (x : Float) : Bool :=
  match shape x with
  | .finite _ _ => true
  | _ => false

def roundHalfEven (num den : Nat) : Nat :=
  let below := num / den
  let rest := num % den
  if 2 * rest < den then below
  else if den < 2 * rest then below + 1
  else below + below % 2

def binaryLog (num den : Nat) : Int :=
  let guess : Int := (num.log2 : Int) - den.log2
  if den * Nat.pow 2 guess.toNat ≤ num * Nat.pow 2 (-guess).toNat then guess else guess - 1

/-- The bits of the float nearest to `num / den`. A significand that rounds up to `2 ^ 53` carries
into the exponent field by itself, and what lies beyond the largest float is infinite. -/
def ratioBits (num den : Nat) : Nat :=
  if num = 0 ∨ den = 0 then 0
  else
    let exponent := max (binaryLog num den - 52) leastExponent
    let significand :=
      roundHalfEven (num * Nat.pow 2 (-exponent).toNat) (den * Nat.pow 2 exponent.toNat)
    min ((exponent - leastExponent).toNat * Nat.pow 2 52 + significand) infinityBits

def signBit (negative : Bool) : Nat := if negative then Nat.pow 2 63 else 0

def ofRatio (negative : Bool) (num den : Nat) : Float :=
  Float.ofBits (UInt64.ofNat (signBit negative + ratioBits num den))

def infinity (negative : Bool) : Float :=
  Float.ofBits (UInt64.ofNat (signBit negative + infinityBits))

def nan : Float :=
  Float.ofBits (UInt64.ofNat (infinityBits + Nat.pow 2 51))

end Sigil.Number
