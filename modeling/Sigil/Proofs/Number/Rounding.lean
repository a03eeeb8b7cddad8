import Mathlib.Algebra.Order.Field.Power
import Mathlib.Tactic.FieldSimp
import Mathlib.Tactic.Linarith
import Mathlib.Tactic.Ring
import Sigil.Number.Shortest

/-! Rounding: a quotient between the midpoints around a float gives the bits of the float. -/
namespace Sigil.Number

/-- A power of an integer as the quotient of natural powers that exact comparisons use. -/
theorem zpow_eq_div (b : ℚ) (e : ℤ) : b ^ e = b ^ e.toNat / b ^ (-e).toNat := by
  obtain ⟨n, rfl | rfl⟩ := e.eq_nat_or_neg
  · simp
  · simp

/-- The quotient scaled down by a power of two. -/
theorem scaled_eq (num den : ℕ) (e : ℤ) :
    ((num * 2 ^ (-e).toNat : ℕ) : ℚ) / (den * 2 ^ e.toNat : ℕ) = num / den / 2 ^ e := by
  rw [zpow_eq_div]
  push_cast
  field_simp

theorem binaryLog_spec {num den : ℕ} (hn : num ≠ 0) (hd : den ≠ 0) :
    (2 : ℚ) ^ binaryLog num den ≤ num / den ∧ (num : ℚ) / den < 2 ^ (binaryLog num den + 1) := by
  have hd' : (0 : ℚ) < den := by positivity
  have hn1 : (2 : ℚ) ^ (num.log2 : ℤ) ≤ num := by
    rw [zpow_natCast]
    exact_mod_cast Nat.log2_self_le hn
  have hn2 : (num : ℚ) < 2 ^ (num.log2 + 1 : ℤ) := by
    have := Nat.lt_log2_self (n := num)
    exact_mod_cast this
  have hd1 : (2 : ℚ) ^ (den.log2 : ℤ) ≤ den := by
    rw [zpow_natCast]
    exact_mod_cast Nat.log2_self_le hd
  have hd2 : (den : ℚ) < 2 ^ (den.log2 + 1 : ℤ) := by
    have := Nat.lt_log2_self (n := den)
    exact_mod_cast this
  have hguess : den * 2 ^ ((num.log2 : ℤ) - den.log2).toNat ≤
      num * 2 ^ (-((num.log2 : ℤ) - den.log2)).toNat ↔
      (2 : ℚ) ^ ((num.log2 : ℤ) - den.log2) ≤ num / den := by
    rw [zpow_eq_div, div_le_div_iff₀ (by positivity) hd', ← Nat.cast_le (α := ℚ)]
    push_cast
    rw [mul_comm (den : ℚ)]
  have hupper : (num : ℚ) / den < 2 ^ ((num.log2 : ℤ) - den.log2 + 1) := by
    rw [div_lt_iff₀ hd']
    calc
      (num : ℚ) < 2 ^ (num.log2 + 1 : ℤ) := hn2
      _ = 2 ^ ((num.log2 : ℤ) - den.log2 + 1) * 2 ^ (den.log2 : ℤ) := by
        rw [← zpow_add₀ two_ne_zero]
        congr 1
        ring
      _ ≤ 2 ^ ((num.log2 : ℤ) - den.log2 + 1) * den :=
        mul_le_mul_of_nonneg_left hd1 (by positivity)
  have hlower : (2 : ℚ) ^ ((num.log2 : ℤ) - den.log2 - 1) ≤ num / den := by
    rw [le_div_iff₀ hd']
    calc
      (2 : ℚ) ^ ((num.log2 : ℤ) - den.log2 - 1) * den ≤
          2 ^ ((num.log2 : ℤ) - den.log2 - 1) * 2 ^ (den.log2 + 1 : ℤ) :=
        mul_le_mul_of_nonneg_left hd2.le (by positivity)
      _ = 2 ^ (num.log2 : ℤ) := by
        rw [← zpow_add₀ two_ne_zero]
        congr 1
        ring
      _ ≤ num := hn1
  unfold binaryLog
  simp only [Nat.pow_eq]
  split
  case isTrue h => exact ⟨hguess.1 h, hupper⟩
  case isFalse h => 
    refine ⟨hlower, ?_⟩
    rw [sub_add_cancel]
    exact lt_of_not_ge fun hle => h (hguess.2 hle)

/-- Rounding gives the natural that is at most a half away; at a half it has to be even. -/
theorem roundHalfEven_eq {num den m : ℕ} (hd : 0 < den) (hlow : (2 * m - 1 : ℚ) ≤ 2 * (num / den))
    (hhigh : 2 * (num / den : ℚ) ≤ 2 * m + 1)
    (htie : m % 2 = 1 → (2 * m - 1 : ℚ) < 2 * (num / den) ∧ 2 * (num / den : ℚ) < 2 * m + 1) :
    roundHalfEven num den = m := by
  have hd' : (0 : ℚ) < den := by positivity
  rw [← mul_div_assoc, le_div_iff₀ hd'] at hlow
  rw [← mul_div_assoc, div_le_iff₀ hd'] at hhigh
  rw [← mul_div_assoc, lt_div_iff₀ hd', div_lt_iff₀ hd'] at htie
  have hlow' : 2 * m * den ≤ 2 * num + den := by
    have : (2 * m * den : ℚ) ≤ 2 * num + den := by linarith
    exact_mod_cast this
  have hhigh' : 2 * num ≤ 2 * m * den + den := by
    have : (2 * num : ℚ) ≤ 2 * m * den + den := by linarith
    exact_mod_cast this
  have htie' : m % 2 = 1 → 2 * m * den < 2 * num + den ∧ 2 * num < 2 * m * den + den := by
    intro h
    have h1 : (2 * m * den : ℚ) < 2 * num + den := by linarith [htie h]
    have h2 : (2 * num : ℚ) < 2 * m * den + den := by linarith [htie h]
    exact ⟨by exact_mod_cast h1, by exact_mod_cast h2⟩
  have hrest : num % den < den := Nat.mod_lt num hd
  have hnum : num = num / den * den + num % den := by
    rw [Nat.mul_comm]
    exact (Nat.div_add_mod num den).symm
  unfold roundHalfEven
  simp only
  generalize num / den = below at hnum ⊢
  generalize num % den = rest at hnum hrest ⊢
  have hle : below ≤ m := by
    by_contra hlt
    have := Nat.mul_le_mul_right den (show m + 1 ≤ below by omega)
    linarith
  have hge : m ≤ below + 1 := by
    by_contra hlt
    have := Nat.mul_le_mul_right den (show below + 2 ≤ m by omega)
    linarith
  have hmul : 2 * m * den = 2 * (m * den) := Nat.mul_assoc 2 m den
  obtain rfl | rfl : m = below ∨ m = below + 1 := by omega
  · split
    · rfl
    · split
      · omega
      · omega
  · rw [Nat.add_mul, Nat.one_mul] at hmul
    split
    · omega
    · split
      · rfl
      · omega

structure Binary.Canonical (b : Binary) : Prop where
  significand_lt : b.significand < 2 ^ 53
  exponent_ge : leastExponent ≤ b.exponent
  full : 2 ^ 52 ≤ b.significand ∨ b.exponent = leastExponent

def Binary.bits (b : Binary) : ℕ := (b.exponent - leastExponent).toNat * 2 ^ 52 + b.significand

theorem canonical_magnitudeOfBits (bits : ℕ) : (magnitudeOfBits bits).Canonical := by
  have hfraction : bits % 2 ^ 52 < 2 ^ 52 := Nat.mod_lt bits (by decide)
  unfold magnitudeOfBits
  simp only [Nat.pow_eq]
  split
  case isTrue => exact ⟨by simp only; omega, le_refl _, .inr rfl⟩
  case isFalse h => exact ⟨by simp only; omega, by simp only; omega, .inl (Nat.le_add_right _ _)⟩

theorem bits_magnitudeOfBits (bits : ℕ) : (magnitudeOfBits bits).bits = bits := by
  unfold magnitudeOfBits Binary.bits
  simp only [Nat.pow_eq]
  split
  case isTrue h => simp only; omega
  case isFalse h => simp only; omega

/-- What rounds to the magnitude: the quotients between the midpoints to its neighbours, and the
midpoints too if its significand is even. -/
structure Binary.Attracts (b : Binary) (q : ℚ) : Prop where
  low : (4 * b.significand - b.gapBelow : ℚ) ≤ 4 * (q / 2 ^ b.exponent)
  high : 4 * (q / 2 ^ b.exponent) ≤ 4 * b.significand + 2
  odd : b.significand % 2 = 1 → (4 * b.significand - b.gapBelow : ℚ) < 4 * (q / 2 ^ b.exponent) ∧
    4 * (q / 2 ^ b.exponent) < 4 * b.significand + 2

theorem gapBelow_le (b : Binary) : b.gapBelow ≤ 2 := by
  unfold Binary.gapBelow
  split <;> omega

/-- The exponent that rounding chooses. -/
theorem exponent_eq {num den : ℕ} (hn : num ≠ 0) (hd : den ≠ 0) {e : ℤ}
    (he : leastExponent ≤ e) (hlow : 2 ^ 52 ≤ (num / den : ℚ) / 2 ^ e ∨ e = leastExponent)
    (hhigh : (num / den : ℚ) / 2 ^ e < 2 ^ 53) :
    max (binaryLog num den - 52) leastExponent = e := by
  obtain ⟨h1, h2⟩ := binaryLog_spec hn hd
  have hle : binaryLog num den < e + 53 := by
    rw [div_lt_iff₀ (by positivity), ← zpow_natCast, ← zpow_add₀ two_ne_zero] at hhigh
    have := (zpow_lt_zpow_iff_right₀ (one_lt_two (α := ℚ))).1 (h1.trans_lt hhigh)
    push_cast at this
    omega
  rcases hlow with hlow | hlow
  · rw [le_div_iff₀ (by positivity), ← zpow_natCast, ← zpow_add₀ two_ne_zero] at hlow
    have := (zpow_lt_zpow_iff_right₀ (one_lt_two (α := ℚ))).1 (hlow.trans_lt h2)
    push_cast at this
    omega
  · omega

theorem ratioBits_eq_of_exponent {num den : ℕ} (hn : num ≠ 0) (hd : den ≠ 0) {e : ℤ} {m : ℕ}
    (he : max (binaryLog num den - 52) leastExponent = e)
    (hm : roundHalfEven (num * 2 ^ (-e).toNat) (den * 2 ^ e.toNat) = m) :
    ratioBits num den = min ((e - leastExponent).toNat * 2 ^ 52 + m) infinityBits := by
  unfold ratioBits
  rw [if_neg (by omega)]
  simp only [Nat.pow_eq, he, hm]

theorem Binary.Attracts.lt {b : Binary} {q : ℚ} (h : b.Attracts q) (hb : b.Canonical) :
    q / 2 ^ b.exponent < 2 ^ 53 := by
  have hlt := hb.significand_lt
  by_cases hodd : b.significand % 2 = 1
  · have hm : (b.significand + 1 : ℚ) ≤ 2 ^ 53 := by exact_mod_cast hlt
    linarith [(h.odd hodd).2]
  · have hm : (b.significand + 2 : ℚ) ≤ 2 ^ 53 := by
      have : b.significand + 2 ≤ 2 ^ 53 := by omega
      exact_mod_cast this
    linarith [h.high]

theorem Binary.Attracts.round {b : Binary} {num den : ℕ} (hd : den ≠ 0)
    (h : b.Attracts (num / den)) :
    roundHalfEven (num * 2 ^ (-b.exponent).toNat) (den * 2 ^ b.exponent.toNat) = b.significand := by
  have hgap : (b.gapBelow : ℚ) ≤ 2 := by exact_mod_cast gapBelow_le b
  apply roundHalfEven_eq (by positivity)
  · rw [scaled_eq]
    linarith [h.low]
  · rw [scaled_eq]
    linarith [h.high]
  · intro hodd
    rw [scaled_eq]
    obtain ⟨hlow, hhigh⟩ := h.odd hodd
    exact ⟨by linarith, by linarith⟩

/-- Only below a power of two is there a quotient that rounds up into the next range. -/
theorem Binary.Attracts.power {b : Binary} {q : ℚ} (h : b.Attracts q) (hb : b.Canonical)
    (hq : q / 2 ^ b.exponent < 2 ^ 52) (he : leastExponent < b.exponent) :
    b.significand = 2 ^ 52 ∧ b.gapBelow = 1 := by
  have hgap : (b.gapBelow : ℚ) ≤ 2 := by exact_mod_cast gapBelow_le b
  have hfull : 2 ^ 52 ≤ b.significand := hb.full.resolve_right (ne_of_gt he)
  have hm : b.significand = 2 ^ 52 := by
    by_contra hne
    have hm : (2 ^ 52 + 1 : ℚ) ≤ b.significand := by
      have : 2 ^ 52 + 1 ≤ b.significand := by omega
      exact_mod_cast this
    linarith [h.low]
  exact ⟨hm, if_pos ⟨hm, he⟩⟩

/-- A quotient that a finite magnitude attracts rounds to its bits. -/
theorem ratioBits_eq {num den : ℕ} (hn : num ≠ 0) (hd : den ≠ 0) {b : Binary} (hb : b.Canonical)
    (hbits : b.bits < infinityBits) (h : b.Attracts (num / den)) : ratioBits num den = b.bits := by
  by_cases hbelow : (num / den : ℚ) / 2 ^ b.exponent < 2 ^ 52 ∧ leastExponent < b.exponent
  · obtain ⟨hq, he⟩ := hbelow
    obtain ⟨hm, hgap⟩ := h.power hb hq he
    have hlow := h.low
    rw [hm, hgap] at hlow
    have hhalf : (num / den : ℚ) / 2 ^ (b.exponent - 1) = 2 * (num / den / 2 ^ b.exponent) := by
      rw [zpow_sub_one₀ two_ne_zero]
      field_simp
    have hexponent : max (binaryLog num den - 52) leastExponent = b.exponent - 1 := by
      refine exponent_eq hn hd (by omega) (.inl ?_) ?_
      · rw [hhalf]
        push_cast at hlow
        linarith
      · rw [hhalf]
        linarith
    have hround : roundHalfEven (num * 2 ^ (-(b.exponent - 1)).toNat)
        (den * 2 ^ (b.exponent - 1).toNat) = 2 ^ 53 := by
      push_cast at hlow
      apply roundHalfEven_eq (by positivity)
      · rw [scaled_eq, hhalf]
        push_cast
        linarith
      · rw [scaled_eq, hhalf]
        push_cast
        linarith
      · intro hodd
        cases hodd
    rw [ratioBits_eq_of_exponent hn hd hexponent hround]
    unfold Binary.bits at hbits ⊢
    omega
  · have hexponent : max (binaryLog num den - 52) leastExponent = b.exponent := by
      refine exponent_eq hn hd hb.exponent_ge ?_ (h.lt hb)
      by_cases he : b.exponent = leastExponent
      · exact .inr he
      · refine .inl (le_of_not_gt fun hq => hbelow ⟨hq, ?_⟩)
        have := hb.exponent_ge
        omega
    rw [ratioBits_eq_of_exponent hn hd hexponent (h.round hd)]
    exact Nat.min_eq_left (Nat.le_of_lt hbits)

end Sigil.Number
