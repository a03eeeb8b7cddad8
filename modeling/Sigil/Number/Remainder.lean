import Sigil.Number.Binary

/-! The remainder of truncated division, computed exactly on the scaled significands. -/
namespace Sigil.Number

def remainder (x y : Float) : Float :=
  match shape x, shape y with
  | .finite negative a, .finite _ b =>
    if b.significand = 0 then nan
    else
      let exponent := min a.exponent b.exponent
      let dividend := a.significand * Nat.pow 2 (a.exponent - exponent).toNat
      let divisor := b.significand * Nat.pow 2 (b.exponent - exponent).toNat
      let rest := dividend % divisor
      ofRatio negative (rest * Nat.pow 2 exponent.toNat) (Nat.pow 2 (-exponent).toNat)
  | .finite _ _, .infinite _ => x
  | _, _ => nan

end Sigil.Number
