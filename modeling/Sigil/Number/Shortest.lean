import Sigil.Number.Binary

/-!
The shortest decimal of a float: the fewest digits among the decimals that round to it, and of
those the nearest. All comparisons are exact, on naturals.
-/
namespace Sigil.Number

structure Decimal where
  digits : Nat
  exponent : Int
deriving DecidableEq

def Binary.gapBelow (b : Binary) : Nat :=
  -- in quarters of the last place; below a power of two the floats are twice as dense
  if b.significand = Nat.pow 2 52 ∧ leastExponent < b.exponent then 1 else 2

def Binary.within (b : Binary) (low point high : Nat) : Bool :=
  if b.significand % 2 = 0 then low ≤ point ∧ point ≤ high else low < point ∧ point < high

/-- The multiple of `10 ^ grid` that rounds to `b`, the nearer one if both neighbours do; a tie
goes up. Scaled by `up`, a quarter of the last place is `up` and one step of the grid is `step`. -/
def Binary.onGrid? (b : Binary) (grid : Int) : Option Decimal :=
  let quarter := b.exponent - 2
  let up := Nat.pow 2 quarter.toNat * Nat.pow 10 (-grid).toNat
  let step := Nat.pow 2 (-quarter).toNat * Nat.pow 10 grid.toNat
  let value := 4 * b.significand * up
  let low := (4 * b.significand - b.gapBelow) * up
  let high := (4 * b.significand + 2) * up
  let below := value / step
  let belowFits := b.within low (below * step) high
  let aboveFits := b.within low ((below + 1) * step) high
  let nearer := if 2 * value < (2 * below + 1) * step then below else below + 1
  if belowFits ∧ aboveFits then some ⟨nearer, grid⟩
  else if belowFits then some ⟨below, grid⟩
  else if aboveFits then some ⟨below + 1, grid⟩
  else none

def Binary.coarsest (b : Binary) : Nat :=
  (Nat.toDigits 10
    (b.significand * Nat.pow 2 b.exponent.toNat / Nat.pow 2 (-b.exponent).toNat)).length

def Binary.shortest (b : Binary) : Decimal :=
  -- from coarse to fine; every float has a decimal on the grid `10 ^ -324`
  let hit := (List.range (b.coarsest + 325)).findSome? fun (i : Nat) => b.onGrid? ((b.coarsest : Int) - i)
  hit.getD ⟨0, 0⟩

end Sigil.Number
