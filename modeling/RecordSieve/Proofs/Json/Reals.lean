import RecordSieve.Proofs.Json.Range

/-! # Real numbers read back

Reading the text of a finite number gives a finite number again. What the digits are taken in as is
no greater than the decimal, and near the end of the range only three numbers are left, whose
decimals are read one by one. It need not be the same number.
-/

namespace RecordSieve

open Binary64

namespace Scientific

def toRat (d : Scientific) : ℚ := d.coefficient * 10 ^ d.exponent

variable {d : Scientific} {units j : Nat}

theorem exists_ratio (hu : Representable units) (h0 : units ≠ 0) (h : d.denotes units) :
    ∃ n k : Nat, 0 < k ∧ (n : ℚ) / k = d.toRat * stepsInOne ∧ roundSteps n k = units := by
  have h := (denotes_iff hu).mp h
  have hzero (h : zero false = finite false units hu) : False := by
    cases h
    exact h0 rfl
  unfold ofDecimal at h
  split at h
  · exact (hzero h).elim
  split at h
  · cases h
  split at h
  · exact (hzero h).elim
  split at h
  · rename_i he
    obtain ⟨k, hk⟩ := Int.eq_ofNat_of_zero_le he
    refine ⟨_, 1, Nat.one_pos, ?_, (ofSteps_eq_finite_iff.mp h).2⟩
    rw [Nat.cast_mul, cast_stepsInOne, Nat.cast_one, div_one, toRat, hk, zpow_natCast]
    push_cast
    rfl
  · rename_i he
    have hk : d.exponent = -((-d.exponent).toNat : Int) := by omega
    generalize (-d.exponent).toNat = k at h hk
    refine ⟨_, 10 ^ k, Nat.pow_pos (by decide), ?_, (ofSteps_eq_finite_iff.mp h).2⟩
    rw [Nat.cast_mul, cast_stepsInOne, toRat, hk, zpow_neg, zpow_natCast, ← div_eq_mul_inv,
      mul_div_right_comm]
    push_cast
    rfl

theorem half_le_toRat (hu : Representable units) (h0 : units ≠ 0) (h : d.denotes units) :
    1 / 2 ≤ d.toRat * stepsInOne := by
  obtain ⟨n, k, hk, hq, hr⟩ := exists_ratio hu h0 h
  rw [← hq]
  apply half_le_of_roundSteps_ne_zero hk
  rwa [hr]

theorem toRat_lt (hu : Representable units) (h0 : units ≠ 0) (h : d.denotes units)
    (hj : j ≤ 2 ^ 53) (hlt : units < j * lastSpacing) :
    d.toRat * stepsInOne < (j * lastSpacing : ℕ) := by
  obtain ⟨n, k, hk, hq, hr⟩ := exists_ratio hu h0 h
  rw [← hq]
  apply lt_of_roundSteps_lt hk (spacing_dvd_mul hj)
  rwa [hr]

/-- The leading digit gives the size of a decimal. -/
theorem toRat_mem (h0 : d.coefficient ≠ 0) :
    (10 : ℚ) ^ d.leading ≤ d.toRat ∧ d.toRat < 10 ^ (d.leading + 1) := by
  obtain ⟨m, hm⟩ := Nat.exists_eq_succ_of_ne_zero (List.length_pos_of_ne_nil digits_ne_nil).ne'
  have hhi : d.coefficient < 10 ^ (m + 1) :=
    (Nat.length_toDigits_le_iff (by decide) (Nat.succ_pos m)).mp hm.le
  have hlo : 10 ^ m ≤ d.coefficient := by
    by_contra hc
    by_cases hm0 : m = 0
    · subst hm0
      omega
    · have hlen := (Nat.length_toDigits_le_iff (by decide) (Nat.pos_of_ne_zero hm0)).mpr
        (not_le.mp hc)
      exact absurd hlen (by rw [← digits, hm]; omega)
  have hten : (0 : ℚ) < 10 ^ d.exponent := by positivity
  have hleading : d.leading = (m : Int) + d.exponent := by
    rw [leading, hm]
    push_cast
    ring
  have hzpow (k : Nat) : (10 : ℚ) ^ ((k : Int) + d.exponent) = (10 ^ k : ℕ) * 10 ^ d.exponent := by
    rw [zpow_add₀ (by norm_num), zpow_natCast, Nat.cast_pow, Nat.cast_ofNat]
  rw [hleading, show (m : Int) + d.exponent + 1 = ((m + 1 : ℕ) : Int) + d.exponent by
    push_cast; ring, hzpow, hzpow]
  constructor
  · exact mul_le_mul_of_nonneg_right (Nat.cast_le.mpr hlo) hten.le
  · exact mul_lt_mul_of_pos_right (Nat.cast_lt.mpr hhi) hten

theorem two_mul_two_pow_le {k : Nat} (hk : k ≠ 0) : 2 * 2 ^ k ≤ (10 : ℚ) ^ k :=
  calc 2 * 2 ^ k ≤ (2 : ℚ) ^ k * 2 ^ k :=
        mul_le_mul_of_nonneg_right (le_self_pow₀ one_le_two hk) (by positivity)
    _ = (2 * 2) ^ k := (mul_pow 2 2 k).symm
    _ ≤ (10 : ℚ) ^ k := pow_le_pow_left₀ (by norm_num) (by norm_num) k

theorem coefficient_ne_zero (hu : Representable units) (h0 : units ≠ 0) (h : d.denotes units) :
    d.coefficient ≠ 0 := by
  intro hc
  have hhalf := half_le_toRat hu h0 h
  rw [toRat, hc, Nat.cast_zero, zero_mul, zero_mul] at hhalf
  norm_num at hhalf

theorem leading_lt (hu : Representable units) (h0 : units ≠ 0) (h : d.denotes units) :
    d.leading.natAbs < 2 ^ 31 := by
  have hS := stepsInOne_pos
  have hhalf := half_le_toRat hu h0 h
  have hend := toRat_lt hu h0 h le_rfl hu.lt_mul
  obtain ⟨hlo, hhi⟩ := toRat_mem (coefficient_ne_zero hu h0 h)
  have hhigh : d.leading < 309 := by
    by_contra hle
    have hpow : (10 : ℚ) ^ 309 ≤ 10 ^ d.leading := by
      rw [← zpow_natCast]
      exact zpow_le_zpow_right₀ (by norm_num) (not_lt.mp hle)
    have hmul := mul_le_mul_of_nonneg_right (hpow.trans hlo) hS.le
    exact absurd (hmul.trans_lt hend) (lt_ten_pow_mul (by decide)).not_gt
  have hlow : -1075 < d.leading := by
    by_contra hle
    have hpow : (10 : ℚ) ^ (d.leading + 1) ≤ (10 ^ 1074)⁻¹ := by
      rw [← zpow_natCast, ← zpow_neg]
      exact zpow_le_zpow_right₀ (by norm_num) (by omega)
    have hmul := mul_lt_mul_of_pos_right (hhi.trans_le hpow) hS
    have htwo : 2 * stepsInOne ≤ (10 : ℚ) ^ 1074 := by
      rw [stepsInOne]
      exact two_mul_two_pow_le (by decide)
    have hten : (0 : ℚ) < 10 ^ 1074 := by positivity
    rw [inv_mul_eq_div, lt_div_iff₀ hten] at hmul
    have hlow := mul_le_mul_of_nonneg_right hhalf hten.le
    generalize (10 : ℚ) ^ 1074 = ten at hmul htwo hlow
    linarith
  omega

end Scientific

namespace Json

theorem mul_pow_le_ofDigitChars (v : Nat) (ds : List Char) :
    v * 10 ^ ds.length ≤ Nat.ofDigitChars 10 ds v := by
  induction ds generalizing v with
  | nil => simp
  | cons c ds ih =>
    rw [List.length_cons, Nat.pow_succ', ← Nat.mul_assoc, Nat.ofDigitChars_cons]
    exact (Nat.mul_le_mul_right _ (by omega)).trans (ih _)

namespace Significand

variable {v w : Nat} {e : Int} {c : Char} {ds : List Char} {s : Significand}

theorem push?_eq_some (h : push? v c = some w) :
    w = 10 * v + (c.toNat - '0'.toNat) ∧ w < 2 ^ 64 := by
  unfold push? at h
  dsimp only at h
  split at h
  · rename_i hlt
    cases h
    exact ⟨by rw [Nat.mul_comm], hlt⟩
  · cases h

theorem value_fraction_lt (h : s.value < 2 ^ 64) : (s.fraction ds).value < 2 ^ 64 := by
  induction ds generalizing s with
  | nil => exact h
  | cons c ds ih =>
    rw [fraction]
    split
    · rename_i w hw
      exact ih (push?_eq_some hw).2
    · exact h

/-- Leaving digits out never makes the number greater. -/
theorem toRat_fraction_le (v : Nat) (e : Int) (ds : List Char) :
    (fraction ⟨v, e⟩ ds).toRat ≤ Nat.ofDigitChars 10 ds v * 10 ^ (e - ds.length) := by
  induction ds generalizing v e with
  | nil => simp [fraction, toRat]
  | cons c ds ih =>
    have hexp : e - (c :: ds).length = e - 1 - ds.length := by
      rw [List.length_cons]
      omega
    rw [fraction, Nat.ofDigitChars_cons, hexp]
    split
    · rename_i w hw
      rw [← (push?_eq_some hw).1]
      exact ih _ _
    · have hle : (v * 10 ^ (ds.length + 1) : ℕ) ≤
          Nat.ofDigitChars 10 ds (10 * v + (c.toNat - '0'.toNat)) := by
        have h := mul_pow_le_ofDigitChars v (c :: ds)
        rwa [Nat.ofDigitChars_cons] at h
      have hten : (10 : ℚ) ^ e = (10 ^ (ds.length + 1) : ℕ) * 10 ^ (e - 1 - ds.length) := by
        rw [Nat.cast_pow, Nat.cast_ofNat, ← zpow_natCast, ← zpow_add₀ (by norm_num)]
        congr 1
        push_cast
        ring
      rw [toRat, hten, ← mul_assoc, ← Nat.cast_mul]
      exact mul_le_mul_of_nonneg_right (Nat.cast_le.mpr hle) (by positivity)

end Significand

namespace Numeral

variable {t : Numeral} {d : Scientific} {zeros : Nat}

theorem value_significand_lt (h : t.Proper) : t.significand.value < 2 ^ 64 :=
  Significand.value_fraction_lt h.whole_lt

theorem digits_eq (t : Numeral) :
    t.digits = Nat.ofDigitChars 10 t.fraction (Nat.ofDigitChars 10 t.whole 0) :=
  Nat.ofDigitChars_append 0

theorem significand_eq (h : t.digits < 2 ^ 64) : t.significand = ⟨t.digits, t.exponent⟩ := by
  rw [digits_eq] at h ⊢
  simp only [significand, Significand.fraction_eq h, exponent]
  congr 1
  omega

theorem toRat_significand_le (h : t.IsOf d zeros) : t.significand.toRat ≤ d.toRat := by
  obtain ⟨hdigits, hexp⟩ := h
  have hten : (10 : ℚ) ≠ 0 := by norm_num
  have hle := Significand.toRat_fraction_le (Nat.ofDigitChars 10 t.whole 0) 0 t.fraction
  rw [← digits_eq] at hle
  calc t.significand.toRat
      = (Significand.fraction ⟨Nat.ofDigitChars 10 t.whole 0, 0⟩ t.fraction).toRat *
          10 ^ t.exponent?.getD 0 := by
        rw [significand, Significand.toRat, Significand.toRat, zpow_add₀ hten, mul_assoc]
    _ ≤ t.digits * 10 ^ (0 - (t.fraction.length : Int)) * 10 ^ t.exponent?.getD 0 :=
        mul_le_mul_of_nonneg_right hle (by positivity)
    _ = t.digits * 10 ^ t.exponent := by
        rw [mul_assoc, ← zpow_add₀ hten, exponent]
        congr 2
        omega
    _ = d.toRat := by
        rw [hdigits, hexp, Scientific.toRat, zpow_sub₀ hten, zpow_natCast]
        push_cast
        field_simp

end Numeral

/-- What the digits of a decimal and its power of ten give when they are multiplied. -/
def product (d : Scientific) : Binary64 := (ofInt d.coefficient).mul (ofDecimal false 1 d.exponent)

/-- A large decimal whose digits all fit and whose product is in range. -/
def FitsWhole (d : Scientific) : Prop :=
  d.coefficient < 2 ^ 64 ∧ 0 ≤ d.exponent ∧ d.exponent ≤ 308 ∧ 15 < d.leading ∧
    (product d).isFinite

instance : DecidablePred FitsWhole := fun _ => inferInstanceAs (Decidable (_ ∧ _))

/-- The shortest decimals of the greatest numbers, each with its place before the end. -/
def lastDecimals : List (Nat × Scientific) :=
  [(1, ⟨17976931348623157, 292⟩), (2, ⟨17976931348623155, 292⟩), (3, ⟨17976931348623153, 292⟩)]

theorem shortest_last : ∀ p ∈ lastDecimals,
    Scientific.shortest .even ((2 ^ 53 - p.1) * lastSpacing) = p.2 ∧ FitsWhole p.2 := by
  simp only [lastDecimals, List.forall_mem_cons, lastSpacing, lastExponent_eq]
  refine ⟨?_, ?_, ?_, fun _ hp => absurd hp List.not_mem_nil⟩
  · decide +kernel
  · decide +kernel
  · decide +kernel

theorem fitsWhole_shortest {m : Nat} (hlo : 2 ^ 53 - 3 ≤ m) (hhi : m < 2 ^ 53) :
    FitsWhole (.shortest .even (m * lastSpacing)) := by
  obtain ⟨p, hp, hm⟩ : ∃ p ∈ lastDecimals, m = 2 ^ 53 - p.1 := by
    simp only [lastDecimals, List.mem_cons, exists_eq_or_imp, List.not_mem_nil, false_and,
      exists_false]
    omega
  obtain ⟨heq, hfits⟩ := shortest_last p hp
  rw [hm, heq]
  exact hfits

open Reader (Spells)

variable {units v : Nat} {s : Bool} {hv : Representable v}

/-- A large decimal is read as its product. -/
theorem toBinary64?_of_fitsWhole {t : Numeral} {d : Scientific} (hof : t.IsOf d 0)
    (h : FitsWhole d) (hp : product d = .finite s v hv) (negative : Bool) :
    t.significand.toBinary64? negative = some (.finite negative v hv) := by
  obtain ⟨hdigits, hexp⟩ := hof
  rw [pow_zero, mul_one] at hdigits
  rw [Nat.cast_zero, sub_zero] at hexp
  obtain ⟨hlt, he, hle, -, -⟩ := h
  obtain ⟨k, hk⟩ := Int.eq_ofNat_of_zero_le he
  rw [product, hk] at hp
  rw [Numeral.significand_eq (by rwa [hdigits]), hdigits, hexp, Significand.toBinary64?]
  simp only
  rw [hk, Significand.scale?_of_nonneg (by omega), hp]

theorem exists_toBinary64?_of_le {t : Numeral} {zeros j : Nat} {d : Scientific} (negative : Bool)
    (ht : t.Proper) (hof : t.IsOf d zeros) (h : d.toRat * stepsInOne ≤ (j * lastSpacing : ℕ))
    (hj : j ≤ 2 ^ 53 - 3) : ∃ y, t.significand.toBinary64? negative = some y ∧ y.isFinite := by
  apply Significand.exists_toBinary64? negative (Numeral.value_significand_lt ht)
  calc t.significand.toRat * stepsInOne
      ≤ d.toRat * stepsInOne :=
        mul_le_mul_of_nonneg_right (Numeral.toRat_significand_le hof) stepsInOne_pos.le
    _ ≤ (j * lastSpacing : ℕ) := h
    _ ≤ ((2 ^ 53 - 3) * lastSpacing : ℕ) := Nat.cast_le.mpr (Nat.mul_le_mul_right _ hj)

/-- The shortest decimal of a number is read as a finite number. -/
theorem exists_toBinary64?_significand {t : Numeral} {zeros : Nat} (negative : Bool)
    (hu : Representable units) (ht : t.Proper) (hof : t.IsOf (.shortest .even units) zeros)
    (hzeros : 15 < (Scientific.shortest .even units).leading → zeros = 0) :
    ∃ y, t.significand.toBinary64? negative = some y ∧ y.isFinite := by
  by_cases h0 : units = 0
  · subst h0
    apply exists_toBinary64?_of_le (j := 0) negative ht hof _ (by decide)
    simp [Scientific.shortest, Scientific.toRat]
  have hdenotes : (Scientific.shortest .even units).denotes units := Scientific.denotes_shortest hu
  by_cases hlt : units < (2 ^ 53 - 3) * lastSpacing
  · have hle := (Scientific.toRat_lt hu h0 hdenotes (by decide) hlt).le
    exact exists_toBinary64?_of_le negative ht hof hle le_rfl
  · have hge : 2 ^ 52 * lastSpacing ≤ units :=
      (Nat.mul_le_mul_right _ (by decide)).trans (not_lt.mp hlt)
    obtain ⟨m, rfl⟩ := hu.lastSpacing_dvd hge
    rw [Nat.mul_comm] at hof hzeros hlt
    have hhi := Nat.lt_of_mul_lt_mul_right (Nat.mul_comm .. ▸ hu.lt_mul)
    have hlo := Nat.le_of_mul_le_mul_right (not_lt.mp hlt) lastSpacing_pos
    have hfits := fitsWhole_shortest hlo hhi
    obtain rfl := hzeros hfits.2.2.2.1
    obtain ⟨s, v, hv, hp⟩ := exists_finite hfits.2.2.2.2
    exact ⟨_, toBinary64?_of_fitsWhole hof hfits hp negative, rfl⟩

theorem exists_numeral (hu : Representable units) : ∃ t : Numeral, ∃ zeros : Nat,
    t.Proper ∧ t.text = decimalText (.shortest .even units) ∧
      t.IsOf (.shortest .even units) zeros ∧
      (15 < (Scientific.shortest .even units).leading → zeros = 0) := by
  by_cases h0 : units = 0
  · subst h0
    exact Numeral.exists_of_decimal (.inr rfl) (by decide)
  · have hdenotes : (Scientific.shortest .even units).denotes units :=
      Scientific.denotes_shortest hu
    exact Numeral.exists_of_decimal (.inl (Scientific.coefficient_ne_zero hu h0 hdenotes))
      (Scientific.leading_lt hu h0 hdenotes)

theorem exists_spells (hu : Representable units) (negative : Bool) :
    ∃ y, Spells negative (decimalText (.shortest .even units)) (.real y) := by
  obtain ⟨t, zeros, ht, htext, hof, hzeros⟩ := exists_numeral hu
  obtain ⟨y, hy, -⟩ := exists_toBinary64?_significand negative hu ht hof hzeros
  exact ⟨y, htext ▸ Numeral.spells ht hy⟩

theorem spells_product (hu : Representable units) (h : FitsWhole (.shortest .even units))
    (hp : product (.shortest .even units) = .finite s v hv) (negative : Bool) :
    Spells negative (decimalText (.shortest .even units)) (.real (.finite negative v hv)) := by
  obtain ⟨t, zeros, ht, htext, hof, hzeros⟩ := exists_numeral hu
  obtain rfl := hzeros h.2.2.2.1
  exact htext ▸ Numeral.spells ht (toBinary64?_of_fitsWhole hof h hp negative)

end Json

end RecordSieve
