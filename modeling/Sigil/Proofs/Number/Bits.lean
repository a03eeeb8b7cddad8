import Mathlib.Algebra.GroupWithZero.Nat
import Sigil.Number.Binary

/-! Floats and their bits: apart from the bits of what is no number, one determines the other. -/
namespace Sigil.Number

open Float.Model (Format UnpackedFloat)
open Float.Model.UnpackedFloat

theorem infinityBits_eq : infinityBits = 2047 * 2 ^ 52 := rfl

theorem toBitVec_ofBitVec (b : BitVec 1) : (Sign.ofBitVec b).toBitVec = b := by
  rcases BitVec.eq_zero_or_eq_one b with rfl | rfl <;> rfl

theorem pack_finite (sign : Sign) {n : Nat} (e : Int) (hn : 0 < n) :
    pack Format.binary64 (.finite sign n e hn) =
      if 2 ^ Format.binary64.exponentBits ≤ (e + Format.binary64.exponentBias +
          Format.binary64.mantissaBitsWithoutImplicit).toNat + 1 then
        packedInfinity Format.binary64 sign
      else if n.log2 + 1 = 53 then
        packComponents Format.binary64 sign (BitVec.ofNat _ (e + Format.binary64.exponentBias +
          Format.binary64.mantissaBitsWithoutImplicit).toNat) (BitVec.ofNat _ n)
      else packComponents Format.binary64 sign 0#_ (BitVec.ofNat _ n) := rfl

/-- The fields of a word, put together again. -/
theorem packComponents_fields (b : BitVec Format.binary64.numBits) :
    packComponents Format.binary64 (Sign.ofBitVec (unpackSign b)) (unpackExponent b)
      (unpackMantissa b) = b := by
  rw [packComponents, toBitVec_ofBitVec]
  apply BitVec.eq_of_getLsbD_eq
  intro i hi
  unfold unpackSign unpackExponent unpackMantissa
  simp only [BitVec.getLsbD_append, BitVec.getLsbD_cast, BitVec.getLsbD_extractLsb]
  have hi : i < 64 := hi
  by_cases hm : i < 52
  · simp [hm]
  · by_cases he : i < 63
    · have hi11 : i - 52 < 11 := by omega
      have hback : 52 + (i - 52) = i := by omega
      simp [hm, hi11, hback]
    · have hi63 : i = 63 := by omega
      simp only [hi63]
      simp
      rfl

theorem pack_subnormal {b : BitVec Format.binary64.numBits} (he : unpackExponent b = 0#_)
    (hm : 0 < (unpackMantissa b).toNat) {e : Int} (hexp : e = -1074) :
    pack Format.binary64 (.finite (Sign.ofBitVec (unpackSign b)) (unpackMantissa b).toNat e hm) =
      b := by
  have hlt : (unpackMantissa b).toNat < 2 ^ 52 := (unpackMantissa b).isLt
  have hlog : (unpackMantissa b).toNat.log2 < 52 := (Nat.log2_lt (by omega)).2 hlt
  rw [pack_finite, if_neg (by subst hexp; decide), if_neg (by omega), BitVec.ofNat_toNat,
    BitVec.setWidth_eq, ← he]
  exact packComponents_fields b

theorem pack_normal {b : BitVec Format.binary64.numBits} (hfull : unpackExponent b ≠ -1#_)
    {n : Nat} (hn : n = 2 ^ 52 + (unpackMantissa b).toNat) (hpos : 0 < n) {e : Int}
    (hexp : e = (unpackExponent b).toNat - 1075) :
    pack Format.binary64 (.finite (Sign.ofBitVec (unpackSign b)) n e hpos) = b := by
  have hlt : (unpackMantissa b).toNat < 2 ^ 52 := (unpackMantissa b).isLt
  have hlog : n.log2 = 52 := by
    rw [Nat.log2_eq_iff (by omega)]
    omega
  have hbiased : (e + Format.binary64.exponentBias + Format.binary64.mantissaBitsWithoutImplicit).toNat =
      (unpackExponent b).toNat := by
    have : (Format.binary64.exponentBias : Int) +
        Format.binary64.mantissaBitsWithoutImplicit = 1075 := by
      decide
    omega
  have hexponent : ¬ 2 ^ Format.binary64.exponentBits ≤ (unpackExponent b).toNat + 1 := by
    intro h
    apply hfull
    apply BitVec.eq_of_toNat_eq
    have := (unpackExponent b).isLt
    simp at h this ⊢
    omega
  have hmantissa : BitVec.ofNat 52 n = unpackMantissa b := by
    apply BitVec.eq_of_toNat_eq
    rw [BitVec.toNat_ofNat, hn]
    omega
  rw [pack_finite, hbiased, if_neg hexponent, if_pos (by omega)]
  rw [show BitVec.ofNat Format.binary64.mantissaBitsWithoutImplicit n = unpackMantissa b from hmantissa,
    BitVec.ofNat_toNat, BitVec.setWidth_eq]
  exact packComponents_fields b

/-- Words whose exponent field is not full belong to numbers, of the others the one without a
fraction. -/
theorem pack_unpack {b : BitVec Format.binary64.numBits}
    (h : unpackExponent b = -1#_ → unpackMantissa b = 0#_) :
    pack Format.binary64 (UnpackedFloat.unpack Format.binary64 b) = b := by
  unfold UnpackedFloat.unpack
  dsimp only
  by_cases hfull : unpackExponent b = -1#_
  · rw [if_pos hfull, if_pos (h hfull)]
    show packComponents Format.binary64 _ (-1#_) 0 = b
    rw [← hfull]
    exact (congrArg _ (h hfull).symm).trans (packComponents_fields b)
  rw [if_neg hfull]
  by_cases he : unpackExponent b = 0#_
  · rw [if_pos he]
    by_cases hm : unpackMantissa b = 0#_
    · rw [dif_pos hm]
      have hfields := packComponents_fields b
      rw [he, hm] at hfields
      exact hfields
    · rw [dif_neg hm]
      refine pack_subnormal he _ ?_
      rw [he]
      decide
  · have happend : (1#1 ++ unpackMantissa b).toNat = 2 ^ 52 + (unpackMantissa b).toNat := by
      have hlt : (unpackMantissa b).toNat < 2 ^ 52 := (unpackMantissa b).isLt
      rw [BitVec.toNat_append, ← Nat.shiftLeft_add_eq_or_of_lt hlt]
      rfl
    rw [if_neg he]
    exact pack_normal hfull happend _ rfl

/-- The fraction field is empty in the word of an infinity. -/
theorem unpackMantissa_eq_zero {b : BitVec Format.binary64.numBits} (hb : b.toNat ≤ infinityBits)
    (he : unpackExponent b = -1#_) : unpackMantissa b = 0#_ := by
  have hexponent : b.toNat / 2 ^ 52 % 2 ^ 11 = 2047 := by
    have := congrArg BitVec.toNat he
    rw [unpackExponent, BitVec.toNat_cast, BitVec.extractLsb_toNat, Nat.shiftRight_eq_div_pow] at this
    exact this
  apply BitVec.eq_of_toNat_eq
  rw [unpackMantissa, BitVec.toNat_cast, BitVec.extractLsb_toNat, Nat.shiftRight_eq_div_pow]
  show b.toNat / 2 ^ 0 % 2 ^ 52 = 0
  rw [infinityBits_eq] at hb
  omega

theorem toBits_ofBits {u : UInt64} (h : u.toNat ≤ infinityBits) : (Float.ofBits u).toBits = u := by
  show UInt64.ofBitVec (pack Format.binary64 (UnpackedFloat.unpack Format.binary64 u.toBitVec)) = u
  rw [pack_unpack (unpackMantissa_eq_zero h)]

theorem eq_of_toBits_eq {x y : Float} (h : x.toBits = y.toBits) : x = y := by
  obtain ⟨⟨u, hu⟩⟩ := x
  obtain ⟨⟨v, hv⟩⟩ := y
  cases (show u = v from h)
  rfl

theorem ofBits_toBits {x : Float} (h : x.toBits.toNat ≤ infinityBits) :
    Float.ofBits x.toBits = x :=
  eq_of_toBits_eq (toBits_ofBits h)

end Sigil.Number
