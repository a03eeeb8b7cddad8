import Sigil.Proofs.Number.Rounding

/-! The shortest decimal of a float rounds to the float. -/
namespace Sigil.Number

def Decimal.toRat (d : Decimal) : ℚ := d.digits * 10 ^ d.exponent

theorem attracts_of_within {b : Binary} {q : ℚ} {up point : ℕ} (hm : 0 < b.significand) (hup : 0 < up)
    (hq : 4 * (q / 2 ^ b.exponent) = point / up)
    (h : b.within ((4 * b.significand - b.gapBelow) * up) point ((4 * b.significand + 2) * up)) :
    b.Attracts q := by
  have hup' : (0 : ℚ) < up := by exact_mod_cast hup
  have hgap : b.gapBelow ≤ 4 * b.significand := (gapBelow_le b).trans (by omega)
  have hlow : (4 * b.significand - b.gapBelow : ℚ) = (4 * b.significand - b.gapBelow : ℕ) := by
    push_cast [hgap]
    rfl
  have hhigh : (4 * b.significand + 2 : ℚ) = (4 * b.significand + 2 : ℕ) := by
    push_cast
    rfl
  unfold Binary.within at h
  split at h
  case isTrue heven =>
    obtain ⟨h1, h2⟩ := of_decide_eq_true h
    refine ⟨?_, ?_, fun hodd => absurd heven (by omega)⟩
    · rw [hq, hlow, le_div_iff₀ hup']
      exact_mod_cast h1
    · rw [hq, hhigh, div_le_iff₀ hup']
      exact_mod_cast h2
  case isFalse =>
    obtain ⟨h1, h2⟩ := of_decide_eq_true h
    have hlow' : (4 * b.significand - b.gapBelow : ℚ) < 4 * (q / 2 ^ b.exponent) := by
      rw [hq, hlow, lt_div_iff₀ hup']
      exact_mod_cast h1
    have hhigh' : 4 * (q / 2 ^ b.exponent) < (4 * b.significand + 2 : ℚ) := by
      rw [hq, hhigh, div_lt_iff₀ hup']
      exact_mod_cast h2
    exact ⟨hlow'.le, hhigh'.le, fun _ => ⟨hlow', hhigh'⟩⟩

/-- The steps of a grid of powers of ten, in quarters of the last place of a float. -/
theorem grid_scaled (quarter grid : ℤ) :
    ((2 ^ (-quarter).toNat * 10 ^ grid.toNat : ℕ) : ℚ) / (2 ^ quarter.toNat * 10 ^ (-grid).toNat : ℕ) =
      10 ^ grid / 2 ^ quarter := by
  rw [zpow_eq_div 10, zpow_eq_div 2]
  push_cast
  field_simp

theorem attracts_of_onGrid? {b : Binary} {grid : ℤ} {d : Decimal} (hm : 0 < b.significand)
    (h : b.onGrid? grid = some d) : b.Attracts d.toRat := by
  have hup : 0 < 2 ^ (b.exponent - 2).toNat * 10 ^ (-grid).toNat := by positivity
  have hq : ∀ n : ℕ, 4 * (Decimal.toRat ⟨n, grid⟩ / 2 ^ b.exponent) =
      (n * (2 ^ (-(b.exponent - 2)).toNat * 10 ^ grid.toNat) : ℕ) /
        (2 ^ (b.exponent - 2).toNat * 10 ^ (-grid).toNat : ℕ) := by
    intro n
    rw [Nat.cast_mul, mul_div_assoc, grid_scaled, Decimal.toRat, zpow_sub₀ two_ne_zero]
    field_simp
    ring
  unfold Binary.onGrid? at h
  simp only at h
  split at h
  case isTrue hfits =>
    cases h
    split
    · exact attracts_of_within hm hup (hq _) hfits.1
    · exact attracts_of_within hm hup (hq _) hfits.2
  case isFalse =>
    split at h
    case isTrue hfits =>
      cases h
      exact attracts_of_within hm hup (hq _) hfits
    case isFalse =>
      split at h
      case isTrue hfits =>
        cases h
        exact attracts_of_within hm hup (hq _) hfits
      case isFalse => cases h

/-- The multiple of the step behind a value is close enough if the step is no longer than `up`. -/
theorem within_above {b : Binary} {up step : ℕ} (hstep : 0 < step)
    (hle : step ≤ up) :
    b.within ((4 * b.significand - b.gapBelow) * up) ((4 * b.significand * up / step + 1) * step)
      ((4 * b.significand + 2) * up) := by
  have hdiv := Nat.div_add_mod (4 * b.significand * up) step
  have hmod := Nat.mod_lt (4 * b.significand * up) hstep
  have hlow : (4 * b.significand - b.gapBelow) * up ≤ 4 * b.significand * up :=
    Nat.mul_le_mul_right up (Nat.sub_le _ _)
  have hpoint : (4 * b.significand * up / step + 1) * step =
      step * (4 * b.significand * up / step) + step := by ring
  have hhigh : (4 * b.significand + 2) * up = 4 * b.significand * up + 2 * up := by ring
  rw [hpoint, hhigh]
  generalize step * (4 * b.significand * up / step) = below at hdiv ⊢
  generalize 4 * b.significand * up = value at hdiv hmod hlow ⊢
  unfold Binary.within
  split
  · exact decide_eq_true ⟨by omega, by omega⟩
  · exact decide_eq_true ⟨by omega, by omega⟩

/-- The finest grid has steps shorter than a quarter of any float's last place. -/
theorem step_le_up {e grid : ℤ} (he : leastExponent ≤ e) (hgrid : grid = -324) :
    2 ^ (-(e - 2)).toNat * 10 ^ grid.toNat ≤ 2 ^ (e - 2).toNat * 10 ^ (-grid).toNat := by
  have hfine : 2 ^ (-(e - 2)).toNat ≤ 2 ^ 1076 := by
    apply Nat.pow_le_pow_right (by decide)
    unfold leastExponent at he
    omega
  have hpowers : 2 ^ 1076 ≤ 10 ^ 324 := by decide +kernel
  have hcoarse : grid.toNat = 0 := by omega
  have hplaces : (-grid).toNat = 324 := by omega
  rw [hcoarse, hplaces, Nat.pow_zero, Nat.mul_one]
  exact (hfine.trans hpowers).trans (Nat.le_mul_of_pos_left _ (by positivity))

theorem onGrid?_finest {b : Binary} {grid : ℤ} (he : leastExponent ≤ b.exponent)
    (hgrid : grid = -324) : b.onGrid? grid ≠ none := by
  have hfits := within_above (b := b) (by positivity) (step_le_up he hgrid)
  unfold Binary.onGrid?
  simp only [Nat.pow_eq, hfits, and_true, if_true]
  split
  · exact Option.some_ne_none _
  · exact Option.some_ne_none _

/-- The decimal that is printed for a float rounds to the float. -/
theorem attracts_shortest {b : Binary} (hm : 0 < b.significand) (hb : b.Canonical) :
    b.Attracts b.shortest.toRat := by
  unfold Binary.shortest
  cases h : (List.range (b.coarsest + 325)).findSome? fun (i : ℕ) =>
      b.onGrid? ((b.coarsest : ℤ) - i) with
  | some d =>
    obtain ⟨i, -, hd⟩ := List.exists_of_findSome?_eq_some h
    exact attracts_of_onGrid? hm hd
  | none =>
    have hfinest := List.findSome?_eq_none_iff.1 h (b.coarsest + 324) (List.mem_range.2 (by omega))
    have hgrid : (b.coarsest : ℤ) - (b.coarsest + 324 : ℕ) = -324 := by omega
    exact absurd hfinest (onGrid?_finest hb.exponent_ge hgrid)

end Sigil.Number
