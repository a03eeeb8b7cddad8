import Sigil.Number.Numeral
import Sigil.Proofs.Number.Bits
import Sigil.Proofs.Number.Shortest

/-! Printed numbers are numerals without sign and exponent, and read back as themselves. -/
namespace Sigil.Number

inductive Numeral : List Char → List Char → List Char → Prop
  | whole {w : List Char} (hne : w ≠ []) (hw : ∀ c ∈ w, c.isDigit) : Numeral w w []
  | pointed {w f : List Char} (hne : w ≠ []) (hw : ∀ c ∈ w, c.isDigit) (hfne : f ≠ [])
      (hf : ∀ c ∈ f, c.isDigit) : Numeral (w ++ '.' :: f) w f

theorem takeWhile_until {p : Char → Bool} {a : List Char} (ha : ∀ c ∈ a, p c = true)
    (rest : List Char) (hrest : ∀ c, rest.head? = some c → p c = false) :
    (a ++ rest).takeWhile p = a := by
  rw [List.takeWhile_append_of_pos ha]
  cases rest with
  | nil => exact List.append_nil a
  | cons c rest => rw [List.takeWhile_cons_of_neg (by simp [hrest c rfl]), List.append_nil]

theorem dropWhile_until {p : Char → Bool} {a : List Char} (ha : ∀ c ∈ a, p c = true)
    (rest : List Char) (hrest : ∀ c, rest.head? = some c → p c = false) :
    (a ++ rest).dropWhile p = rest := by
  rw [List.dropWhile_append_of_pos ha]
  cases rest with
  | nil => rfl
  | cons c rest => rw [List.dropWhile_cons_of_neg (by simp [hrest c rfl])]

theorem unsigned?_numeral {text w f : List Char} (h : Numeral text w f) (negative : Bool) :
    unsigned? negative text = some (ofDecimal negative (w ++ f) (-f.length)) := by
  cases h with
  | whole hne hw =>
    have htake := takeWhile_until hw [] nofun
    have hdrop := dropWhile_until hw [] nofun
    rw [List.append_nil] at htake hdrop
    simp [unsigned?, htake, hdrop, hne, exponent?]
  | pointed hne hw hfne hf =>
    have hpoint : ∀ c, ('.' :: f).head? = some c → c.isDigit = false := by
      rintro c ⟨⟩
      rfl
    have htake := takeWhile_until hf [] nofun
    have hdrop := dropWhile_until hf [] nofun
    rw [List.append_nil] at htake hdrop
    simp [unsigned?, takeWhile_until hw _ hpoint, dropWhile_until hw _ hpoint, htake, hdrop, hne,
      exponent?]

theorem Numeral.head {text w f : List Char} (h : Numeral text w f) :
    ∃ c rest, text = c :: rest ∧ c.isDigit := by
  cases h with
  | whole hne hw =>
    obtain ⟨c, rest, rfl⟩ := List.exists_cons_of_ne_nil hne
    exact ⟨c, rest, rfl, hw c List.mem_cons_self⟩
  | pointed hne hw =>
    obtain ⟨c, rest, rfl⟩ := List.exists_cons_of_ne_nil hne
    exact ⟨c, _, rfl, hw c List.mem_cons_self⟩

theorem splitSign_digit {c : Char} (hc : c.isDigit) (rest : List Char) :
    splitSign (c :: rest) = (false, c :: rest) := by
  unfold splitSign
  split
  case h_1 heq =>
    cases heq
    cases hc
  case h_2 heq =>
    cases heq
    cases hc
  case h_3 => rfl

theorem toLower_digit {c : Char} (hc : c.isDigit) : c.toLower = c := by
  simp only [Char.isDigit, Bool.and_eq_true, decide_eq_true_eq] at hc
  unfold Char.toLower
  exact dif_neg fun h => absurd (UInt32.le_trans h.1 hc.2) (by decide)

/-- A word that begins with a digit is not the name of a value. -/
theorem ofList_ne {c : Char} (hc : c.isDigit) {rest : List Char} {d : Char} {name : List Char}
    (hd : d.isDigit = false) :
    String.ofList ((c :: rest).map Char.toLower) ≠ String.ofList (d :: name) := by
  intro h
  have := String.ofList_injective h
  rw [List.map_cons, toLower_digit hc] at this
  cases this
  rw [hc] at hd
  cases hd

theorem read?_numeral {text w f : List Char} (h : Numeral text w f) :
    read? (String.ofList text) = some (ofDecimal false (w ++ f) (-f.length)) := by
  obtain ⟨c, rest, rfl, hc⟩ := h.head
  have hinf : String.ofList ((c :: rest).map Char.toLower) ≠ "inf" := ofList_ne hc rfl
  have hinfinity : String.ofList ((c :: rest).map Char.toLower) ≠ "infinity" := ofList_ne hc rfl
  have hnan : String.ofList ((c :: rest).map Char.toLower) ≠ "nan" := ofList_ne hc rfl
  unfold read?
  rw [String.toList_ofList, splitSign_digit hc]
  simp only [hinf, hinfinity, hnan, or_self, if_false]
  exact unsigned?_numeral h false

theorem digitsValue_append (a b : List Char) :
    digitsValue (a ++ b) = 10 ^ b.length * digitsValue a + digitsValue b := by
  rw [digitsValue, List.foldl_append]
  exact Nat.ofDigitChars_eq_ofDigitChars_zero

theorem digitsValue_toDigits (n : ℕ) : digitsValue (Nat.toDigits 10 n) = n :=
  Nat.ofDigitChars_ten_toDigits

theorem digitsValue_replicate (n : ℕ) : digitsValue (List.replicate n '0') = 0 :=
  Nat.ofDigitChars_replicate_zero.trans (Nat.mul_zero _)

theorem digitsValue_padLeft (width n : ℕ) :
    digitsValue (padLeft width '0' (Nat.toDigits 10 n)) = n := by
  rw [padLeft, digitsValue_append, digitsValue_replicate, digitsValue_toDigits, Nat.mul_zero,
    Nat.zero_add]

theorem length_padLeft {width n : ℕ} (hw : 0 < width) (hn : n < 10 ^ width) :
    (padLeft width '0' (Nat.toDigits 10 n)).length = width := by
  have := (Nat.length_toDigits_le_iff (by decide) hw).2 hn
  rw [padLeft, List.length_append, List.length_replicate]
  omega

theorem isDigit_toDigits (n : ℕ) : ∀ c ∈ Nat.toDigits 10 n, c.isDigit :=
  fun _ hc => Nat.isDigit_of_mem_toDigits (by decide) (by decide) hc

theorem isDigit_padLeft (width n : ℕ) :
    ∀ c ∈ padLeft width '0' (Nat.toDigits 10 n), c.isDigit := by
  intro c hc
  rcases List.mem_append.1 hc with hc | hc
  · rw [List.eq_of_mem_replicate hc]
    rfl
  · exact isDigit_toDigits n c hc

/-- What is dropped are zeros. -/
theorem dropTrailingZeros_append (digits : List Char) :
    ∃ k, digits = dropTrailingZeros digits ++ List.replicate k '0' := by
  refine ⟨(digits.reverse.takeWhile (· = '0')).length, ?_⟩
  have hzeros : (digits.reverse.takeWhile (· = '0')).reverse =
      List.replicate (digits.reverse.takeWhile (· = '0')).length '0' := by
    rw [List.eq_replicate_iff]
    refine ⟨List.length_reverse, fun c hc => ?_⟩
    have hall := List.all_eq_true.1 (List.all_takeWhile (l := digits.reverse) (p := (· = '0')))
    exact of_decide_eq_true (hall c (List.mem_reverse.1 hc))
  rw [← hzeros, dropTrailingZeros, ← List.reverse_append, List.takeWhile_append_dropWhile,
    List.reverse_reverse]

theorem isDigit_dropTrailingZeros {digits : List Char} (h : ∀ c ∈ digits, c.isDigit) :
    ∀ c ∈ dropTrailingZeros digits, c.isDigit := by
  intro c hc
  obtain ⟨k, hk⟩ := dropTrailingZeros_append digits
  refine h c ?_
  rw [hk]
  exact List.mem_append_left _ hc

/-- As a fraction, digits are worth the same with zeros behind them. -/
theorem digitsValue_dropTrailingZeros (digits : List Char) :
    (digitsValue (dropTrailingZeros digits) : ℚ) / 10 ^ (dropTrailingZeros digits).length =
      digitsValue digits / 10 ^ digits.length := by
  obtain ⟨k, hk⟩ := dropTrailingZeros_append digits
  have hlength : digits.length = (dropTrailingZeros digits).length + k := by
    have := congrArg List.length hk
    rwa [List.length_append, List.length_replicate] at this
  have hvalue : digitsValue digits = 10 ^ k * digitsValue (dropTrailingZeros digits) := by
    have := congrArg digitsValue hk
    rwa [digitsValue_append, List.length_replicate, digitsValue_replicate, Nat.add_zero] at this
  rw [hvalue, hlength, pow_add]
  push_cast
  field_simp

def Decimal.whole (d : Decimal) : List Char :=
  Nat.toDigits 10 (d.digits * 10 ^ d.exponent.toNat / 10 ^ (-d.exponent).toNat)

def Decimal.fraction (d : Decimal) : List Char :=
  dropTrailingZeros (padLeft (-d.exponent).toNat '0'
    (Nat.toDigits 10 (d.digits % 10 ^ (-d.exponent).toNat)))

theorem Decimal.render_of_nil {d : Decimal} (h : d.fraction = []) : d.render = d.whole := by
  unfold Decimal.fraction at h
  unfold Decimal.render fractionDigits Decimal.whole
  simp only [Nat.pow_eq, h, List.append_nil]

theorem Decimal.render_of_cons {d : Decimal} {c : Char} {rest : List Char}
    (h : d.fraction = c :: rest) : d.render = d.whole ++ '.' :: c :: rest := by
  unfold Decimal.fraction at h
  unfold Decimal.render fractionDigits Decimal.whole
  simp only [Nat.pow_eq, h]

theorem Decimal.render_numeral (d : Decimal) : Numeral d.render d.whole d.fraction := by
  have hfraction : ∀ c ∈ d.fraction, c.isDigit := isDigit_dropTrailingZeros (isDigit_padLeft _ _)
  cases h : d.fraction with
  | nil =>
    rw [render_of_nil h]
    exact .whole Nat.toDigits_ne_nil (isDigit_toDigits _)
  | cons c rest =>
    rw [h] at hfraction
    rw [render_of_cons h]
    exact .pointed Nat.toDigits_ne_nil (isDigit_toDigits _) (List.cons_ne_nil c rest) hfraction

/-- The digits that are printed for a decimal are worth the decimal. -/
theorem Decimal.toRat_eq (d : Decimal) :
    d.toRat = digitsValue (d.whole ++ d.fraction) / 10 ^ d.fraction.length := by
  rw [digitsValue_append, Nat.cast_add, add_div, Nat.cast_mul, Nat.cast_pow, Nat.cast_ofNat,
    mul_div_cancel_left₀ _ (by positivity), Decimal.fraction, digitsValue_dropTrailingZeros,
    digitsValue_padLeft, Decimal.whole, digitsValue_toDigits, Decimal.toRat]
  obtain ⟨n, hn | hn⟩ := d.exponent.eq_nat_or_neg
  · simp [hn, Nat.mod_one]
  · cases n with
    | zero => simp [hn, Nat.mod_one]
    | succ n =>
      have hlt : d.digits % 10 ^ (n + 1) < 10 ^ (n + 1) := Nat.mod_lt _ (by positivity)
      have hplaces : (-d.exponent).toNat = n + 1 := by omega
      have hup : d.exponent.toNat = 0 := by omega
      have hvalue : (d.digits : ℚ) =
          10 ^ (n + 1) * (d.digits / 10 ^ (n + 1) : ℕ) + (d.digits % 10 ^ (n + 1) : ℕ) := by
        exact_mod_cast (Nat.div_add_mod d.digits (10 ^ (n + 1))).symm
      rw [hplaces, length_padLeft (Nat.succ_pos n) hlt, hup, hn, zpow_neg, zpow_natCast, Nat.pow_zero,
        Nat.mul_one, ← div_eq_mul_inv, hvalue]
      field_simp

theorem Binary.Attracts.ge {b : Binary} {q : ℚ} (h : b.Attracts q) (hb : b.Canonical)
    (hm : 0 < b.significand) : 1 ≤ 2 * q * 2 ^ 1074 := by
  have hgap : (b.gapBelow : ℚ) ≤ 2 := by exact_mod_cast gapBelow_le b
  have hm' : (1 : ℚ) ≤ b.significand := by exact_mod_cast hm
  have hq : (2 : ℚ) ^ b.exponent ≤ 2 * q := by
    have := h.low
    rw [← mul_div_assoc, le_div_iff₀ (by positivity)] at this
    nlinarith [zpow_pos (two_pos (α := ℚ)) b.exponent]
  have hle : (2 : ℚ) ^ (-1074 : ℤ) ≤ 2 ^ b.exponent :=
    zpow_le_zpow_right₀ one_le_two hb.exponent_ge
  have hleast : (2 : ℚ) ^ (-1074 : ℤ) = 1 / 2 ^ 1074 := by
    rw [one_div]
    exact zpow_neg 2 1074
  rw [hleast, div_le_iff₀ (by positivity)] at hle
  exact hle.trans (mul_le_mul_of_nonneg_right hq (by positivity))

theorem Binary.Attracts.lt_top {b : Binary} {q : ℚ} (h : b.Attracts q) (hb : b.Canonical)
    (hbits : b.bits < infinityBits) : q < 2 ^ 1024 := by
  have hexponent : b.exponent + 53 ≤ 1024 := by
    have := hb.full
    rw [infinityBits_eq] at hbits
    unfold Binary.bits leastExponent at *
    omega
  have hlt := h.lt hb
  rw [div_lt_iff₀ (by positivity), ← zpow_natCast, ← zpow_add₀ two_ne_zero] at hlt
  refine hlt.trans_le ?_
  rw [← zpow_natCast]
  exact zpow_le_zpow_right₀ one_le_two (by push_cast; omega)

theorem pow_length_le {n : ℕ} (hn : n ≠ 0) : 10 ^ ((Nat.toDigits 10 n).length - 1) ≤ n := by
  by_cases h : (Nat.toDigits 10 n).length - 1 = 0
  · rw [h]
    exact Nat.one_le_iff_ne_zero.2 hn
  · by_contra hlt
    have := (Nat.length_toDigits_le_iff (by decide) (Nat.pos_of_ne_zero h)).2 (Nat.lt_of_not_le hlt)
    have := Nat.length_toDigits_pos (b := 10) (n := n)
    omega

theorem lt_pow_length (n : ℕ) : n < 10 ^ (Nat.toDigits 10 n).length :=
  (Nat.length_toDigits_le_iff (by decide) Nat.length_toDigits_pos).1 (le_refl _)

/-- What a finite float attracts is neither so long nor so short that it is not rounded. -/
theorem size_bounds {n places : ℕ} (hn : n ≠ 0) (hlow : (1 : ℚ) ≤ 2 * (n / 10 ^ places) * 2 ^ 1074)
    (hhigh : (n : ℚ) / 10 ^ places < 2 ^ 1024) :
    -400 ≤ ((Nat.toDigits 10 n).length : ℤ) + -places ∧
      ((Nat.toDigits 10 n).length : ℤ) + -places ≤ 400 := by
  have hfine : 2 * 2 ^ 1074 ≤ 10 ^ 400 := by decide +kernel
  have hpos : 0 < 10 ^ 400 := by decide +kernel
  have hgreat : 2 ^ 1024 ≤ 10 ^ 399 := by decide +kernel
  have hlow' : 10 ^ places ≤ n * (2 * 2 ^ 1074) := by
    rw [mul_div_assoc', div_mul_eq_mul_div, le_div_iff₀ (by positivity), one_mul, mul_comm 2,
      mul_assoc] at hlow
    exact_mod_cast hlow
  have hhigh' : n < 2 ^ 1024 * 10 ^ places := by
    rw [div_lt_iff₀ (by positivity)] at hhigh
    exact_mod_cast hhigh
  have hlength := lt_pow_length n
  have hlength' := pow_length_le hn
  constructor
  · have hlt : 10 ^ places < 10 ^ ((Nat.toDigits 10 n).length + 400) := by
      rw [pow_add]
      exact (hlow'.trans (Nat.mul_le_mul_left n hfine)).trans_lt
        (Nat.mul_lt_mul_of_pos_right hlength hpos)
    have := (Nat.pow_lt_pow_iff_right (by decide)).1 hlt
    omega
  · have hlt : 10 ^ ((Nat.toDigits 10 n).length - 1) < 10 ^ (399 + places) := by
      rw [pow_add]
      exact (hlength'.trans_lt hhigh').trans_le (Nat.mul_le_mul_right _ hgreat)
    have := (Nat.pow_lt_pow_iff_right (by decide)).1 hlt
    omega

theorem shape_of_isFinite {x : Float} (h : isFinite x = true) (hsign : x.toBits.toNat < 2 ^ 63) :
    x.toBits.toNat < infinityBits ∧ shape x = .finite false (magnitudeOfBits x.toBits.toNat) := by
  have hrest : x.toBits.toNat % 2 ^ 63 = x.toBits.toNat := Nat.mod_eq_of_lt hsign
  have hnegative : decide (2 ^ 63 ≤ x.toBits.toNat) = false := decide_eq_false (Nat.not_le.2 hsign)
  have hshape : shape x = if x.toBits.toNat < infinityBits then
      .finite false (magnitudeOfBits x.toBits.toNat)
    else if x.toBits.toNat = infinityBits then .infinite false else .nan := by
    simp only [shape, Nat.pow_eq, hrest, hnegative]
  unfold isFinite at h
  rw [hshape] at h ⊢
  split
  case isTrue hlt => exact ⟨hlt, rfl⟩
  case isFalse hlt =>
    rw [if_neg hlt] at h
    split at h
    case h_1 heq =>
      split at heq
      · cases heq
      · cases heq
    case h_2 => cases h

/-- Digits whose value a float attracts are read as the float. -/
theorem ofDecimal_eq {x : Float} (hx : x.toBits.toNat < infinityBits) {digits : List Char}
    {places : ℕ} (hm : 0 < (magnitudeOfBits x.toBits.toNat).significand)
    (h : (magnitudeOfBits x.toBits.toNat).Attracts (digitsValue digits / 10 ^ places)) :
    ofDecimal false digits (-places) = x := by
  have hb := canonical_magnitudeOfBits x.toBits.toNat
  have hbits := bits_magnitudeOfBits x.toBits.toNat
  rw [← hbits] at hx
  have hlow := h.ge hb hm
  have hn : digitsValue digits ≠ 0 := by
    intro h0
    rw [h0] at hlow
    norm_num at hlow
  obtain ⟨hmin, hmax⟩ := size_bounds hn hlow (h.lt_top hb hx)
  have hratio : ratioBits (digitsValue digits) (10 ^ places) = x.toBits.toNat := by
    rw [ratioBits_eq hn (by positivity) hb hx (by push_cast; exact h), hbits]
  unfold ofDecimal
  simp only
  rw [if_neg (by omega), if_neg (by omega)]
  have hup : (-(places : ℤ)).toNat = 0 := by omega
  have hdown : (-(-(places : ℤ))).toNat = places := by omega
  rw [Nat.pow_eq, Nat.pow_eq, hup, hdown, Nat.pow_zero, Nat.mul_one, ofRatio, hratio, signBit,
    if_neg Bool.false_ne_true, Nat.zero_add, UInt64.ofNat_toNat]
  exact ofBits_toBits (Nat.le_of_lt (by rwa [hbits] at hx))

theorem ofDecimal_zero {digits : List Char} (h : digitsValue digits = 0) (e : ℤ) :
    ofDecimal false digits e = Float.ofBits 0 := by
  unfold ofDecimal
  simp only [h, true_or, if_true]
  rfl

/-- A finite number without sign is printed as a numeral that is worth it. -/
theorem render_numeral {x : Float} (h : isFinite x = true) (hsign : x.toBits.toNat < 2 ^ 63) :
    ∃ text w f, render x = String.ofList text ∧ Numeral text w f ∧
      ofDecimal false (w ++ f) (-f.length) = x := by
  obtain ⟨hbits, hshape⟩ := shape_of_isFinite h hsign
  have hb := canonical_magnitudeOfBits x.toBits.toNat
  unfold render
  rw [hshape]
  simp only
  by_cases hm : (magnitudeOfBits x.toBits.toNat).significand = 0
  · have hzero : x.toBits.toNat = 0 := by
      have hfull := hb.full
      have hwhole := bits_magnitudeOfBits x.toBits.toNat
      unfold Binary.bits at hwhole
      omega
    refine ⟨['0'], ['0'], [], if_pos hm, .whole (List.cons_ne_nil _ _) (by simp), ?_⟩
    rw [ofDecimal_zero rfl, ← ofBits_toBits (Nat.le_of_lt hbits)]
    exact congrArg Float.ofBits (UInt64.toNat_inj.1 hzero.symm)
  · have hvalue := attracts_shortest (Nat.pos_of_ne_zero hm) hb
    rw [Decimal.toRat_eq] at hvalue
    exact ⟨_, _, _, (if_neg hm).trans (String.empty_append), Decimal.render_numeral _,
      ofDecimal_eq hbits (Nat.pos_of_ne_zero hm) hvalue⟩

theorem ratioBits_le (num den : ℕ) : ratioBits num den ≤ infinityBits := by
  unfold ratioBits
  split
  · exact Nat.zero_le _
  · exact Nat.min_le_right _ _

theorem toBits_ofBits_lt {n : ℕ} (h : n ≤ infinityBits) :
    (Float.ofBits (UInt64.ofNat n)).toBits.toNat < 2 ^ 63 := by
  have hn : (UInt64.ofNat n).toNat = n := by
    rw [UInt64.toNat_ofNat', Nat.mod_eq_of_lt]
    rw [infinityBits_eq] at h
    omega
  rw [toBits_ofBits (hn.trans_le h), hn]
  rw [infinityBits_eq] at h
  omega

/-- Digits without a sign are read as a number without sign. -/
theorem toBits_ofDecimal_lt (digits : List Char) (e : ℤ) :
    (ofDecimal false digits e).toBits.toNat < 2 ^ 63 := by
  have hratio : ∀ num den, (ofRatio false num den).toBits.toNat < 2 ^ 63 := by
    intro num den
    rw [ofRatio, signBit, if_neg Bool.false_ne_true, Nat.zero_add]
    exact toBits_ofBits_lt (ratioBits_le num den)
  have hinfinity : (infinity false).toBits.toNat < 2 ^ 63 := by
    rw [infinity, signBit, if_neg Bool.false_ne_true, Nat.zero_add]
    exact toBits_ofBits_lt (le_refl _)
  unfold ofDecimal
  simp only
  split
  · exact hratio _ _
  · split
    · exact hinfinity
    · exact hratio _ _

end Sigil.Number
