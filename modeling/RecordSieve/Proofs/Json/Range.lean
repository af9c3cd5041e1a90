import Mathlib.Algebra.Order.Field.Power
import RecordSieve.Proofs.Binary64.Precision
import RecordSieve.Proofs.Json.Decimals

/-! # Significands in range

Scaling a significand costs little: unless it comes within three of the greatest spacings of the end
of the range, the result is a finite number.
-/

namespace RecordSieve

variable {n d m k : Nat} {s : Bool}

/-- The exponent of the greatest numbers. No proof is to compute the power of it. -/
@[irreducible]
def lastExponent : Nat := 2045

/-- The distance of the greatest numbers, in steps. -/
def lastSpacing : Nat := 2 ^ lastExponent

theorem lastExponent_eq : lastExponent = 2045 := by
  rw [lastExponent]

theorem lastSpacing_pos : 0 < lastSpacing := Nat.two_pow_pos lastExponent

theorem spacing_dvd_mul (h : k ≤ 2 ^ 53) : spacing (k * lastSpacing) ∣ k * lastSpacing :=
  dvd_of_le_two_pow h lastExponent

theorem log2_lt_of_lt_mul (h : m < 2 ^ 53 * lastSpacing) : m.log2 < 2098 := by
  have he := lastExponent_eq
  rw [lastSpacing, ← Nat.pow_add] at h
  by_cases hm : m = 0
  · rw [hm, Nat.log2_zero]
    decide
  · have hlog := (Nat.log2_lt hm).mpr h
    omega

theorem representable_mul_two_pow {e : Nat} (hm : m < 2 ^ 53) (he : e ≤ 2045) :
    Representable (m * 2 ^ e) := by
  refine ⟨log2_lt_of_lt_mul ?_, dvd_of_le_two_pow hm.le e⟩
  calc m * 2 ^ e < 2 ^ 53 * 2 ^ e := Nat.mul_lt_mul_of_pos_right hm (Nat.two_pow_pos e)
    _ ≤ 2 ^ 53 * lastSpacing :=
      Nat.mul_le_mul_left _ (Nat.pow_le_pow_right (by decide) (lastExponent_eq ▸ he))

theorem Representable.lt_mul (h : Representable m) : m < 2 ^ 53 * lastSpacing := by
  have he := lastExponent_eq
  rw [lastSpacing, ← Nat.pow_add]
  by_cases hm : m = 0
  · rw [hm]
    exact Nat.two_pow_pos _
  · apply (Nat.log2_lt hm).mp
    have := h.1
    omega

/-- Among the greatest numbers only every `lastSpacing`-th count occurs. -/
theorem Representable.lastSpacing_dvd (h : Representable m) (hm : 2 ^ 52 * lastSpacing ≤ m) :
    lastSpacing ∣ m := by
  have he := lastExponent_eq
  rw [lastSpacing, ← Nat.pow_add] at hm
  have hpos : m ≠ 0 := by
    rintro rfl
    exact absurd hm (Nat.not_le.mpr (Nat.two_pow_pos _))
  have hlog := (Nat.le_log2 hpos).mpr hm
  exact Nat.dvd_trans (Nat.pow_dvd_pow 2 (by omega)) h.2

namespace Binary64

variable {x y : Binary64}

theorem isFinite_ofSteps_of_le (hd : 0 < d)
    (h : (n : ℚ) / d ≤ ((2 ^ 53 - 1) * lastSpacing : ℕ)) : (ofSteps s n d).isFinite := by
  have hle := roundSteps_le_of_le hd (spacing_dvd_mul (by decide)) h
  have hlt := Nat.mul_lt_mul_of_pos_right (show 2 ^ 53 - 1 < 2 ^ 53 by decide) lastSpacing_pos
  rw [ofSteps, dif_pos (log2_lt_of_lt_mul (hle.trans_lt hlt))]
  rfl

theorem isFinite_mul_of_le (hx : x.isFinite) (hy : y.isFinite)
    (h : |x.toRat * y.toRat| * stepsInOne ≤ ((2 ^ 53 - 1) * lastSpacing : ℕ)) :
    (x.mul y).isFinite := by
  obtain ⟨s, m, hm, rfl⟩ := exists_finite hx
  obtain ⟨t, n, hn, rfl⟩ := exists_finite hy
  rw [mul_finite]
  apply isFinite_ofSteps_of_le (Nat.two_pow_pos 1074)
  rw [toRat_finite, toRat_finite, div_mul_div_comm, abs_div, ofSign_mul, abs_ofSign, ← Nat.cast_mul,
    Nat.abs_cast, abs_mul, abs_of_pos stepsInOne_pos, ← div_div,
    div_mul_cancel₀ _ stepsInOne_ne_zero] at h
  rwa [cast_stepsInOne]

theorem cast_lastSpacing : (lastSpacing : ℚ) = 2 ^ (lastExponent - 1074) * stepsInOne := by
  rw [lastSpacing, cast_two_pow, stepsInOne, ← pow_add, lastExponent_eq]

theorem ten_pow_bounds : 10 ^ 308 ≤ (2 ^ 53 - 1) * 2 ^ (lastExponent - 1074) ∧
    2 ^ 53 * 2 ^ (lastExponent - 1074) < 10 * 10 ^ 308 := by
  rw [lastExponent_eq]
  decide +kernel

theorem ten_pow_le (hk : k ≤ 308) : 10 ^ k ≤ (2 ^ 53 - 1) * 2 ^ (lastExponent - 1074) :=
  (Nat.pow_le_pow_right (by decide) hk).trans ten_pow_bounds.1

theorem lt_ten_pow (hk : 308 < k) : 2 ^ 53 * 2 ^ (lastExponent - 1074) < 10 ^ k := by
  have hstep {m t : Nat} (h : m < k) (ht : t < 10 * 10 ^ m) : t < 10 ^ k := by
    rw [← Nat.pow_succ'] at ht
    exact ht.trans_le (Nat.pow_le_pow_right (by decide) h)
  exact hstep hk ten_pow_bounds.2

theorem lt_ten_pow_mul (hk : 308 < k) :
    ((2 ^ 53 * lastSpacing : ℕ) : ℚ) < 10 ^ k * stepsInOne := by
  have hlt : ((2 ^ 53 * 2 ^ (lastExponent - 1074) : ℕ) : ℚ) < (10 ^ k : ℕ) :=
    Nat.cast_lt.mpr (lt_ten_pow hk)
  rw [Nat.cast_mul, cast_two_pow (lastExponent - 1074), Nat.cast_pow 10] at hlt
  rw [Nat.cast_mul, cast_lastSpacing, ← mul_assoc]
  exact mul_lt_mul_of_pos_right hlt stepsInOne_pos

theorem ofDecimal_one (hk : k ≤ 308) : ofDecimal false 1 k = ofRatio false (10 ^ k) 1 := by
  rw [ofDecimal, if_neg (by decide), if_neg (by omega), if_neg (by omega), if_pos (by omega),
    Nat.one_mul, Int.toNat_natCast]

theorem approximates_power (hk : k ≤ 308) : (ofDecimal false 1 k).Approximates (10 ^ k) := by
  have hq : (10 : ℚ) ^ k = ofSign false ((10 ^ k * 2 ^ 1074 : ℕ) / (1 : ℕ)) / stepsInOne := by
    rw [mul_stepsInOne, ofSign, if_neg (by decide)]
    simp
  rw [ofDecimal_one hk]
  apply approximates_of_isFinite Nat.one_pos hq
  · rw [Nat.div_one]
    calc 2 ^ 52 ≤ 2 ^ 1074 := Nat.pow_le_pow_right (by decide) (by decide)
      _ ≤ 10 ^ k * 2 ^ 1074 := Nat.le_mul_of_pos_left _ (Nat.pow_pos (by decide))
  · apply isFinite_ofSteps_of_le Nat.one_pos
    have hle : ((10 ^ k : ℕ) : ℚ) ≤ ((2 ^ 53 - 1) * 2 ^ (lastExponent - 1074) : ℕ) :=
      Nat.cast_le.mpr (ten_pow_le hk)
    rw [Nat.cast_one, div_one, Nat.cast_mul, cast_stepsInOne, Nat.cast_mul _ lastSpacing,
      cast_lastSpacing, ← mul_assoc]
    apply mul_le_mul_of_nonneg_right _ stepsInOne_pos.le
    rwa [Nat.cast_mul, cast_two_pow] at hle

theorem approximates_ofInt (hn : n < 2 ^ 64) : (ofInt n).Approximates n := by
  have hof : ofInt n = ofRatio false n 1 := by
    rw [ofInt, decide_eq_false (by omega), Int.natAbs_natCast]
  have hq : (n : ℚ) = ofSign false ((n : ℚ) / (1 : ℕ)) := by
    rw [ofSign, if_neg (by decide), Nat.cast_one, div_one]
  rw [hof]
  by_cases h0 : n = 0
  · rw [h0, ofRatio_zero Nat.one_pos]
    refine ⟨rfl, ?_⟩
    rw [toRat_zero, Nat.cast_zero]
    exact .refl 53 0
  · have hm : Moderate 200 n := by
      have hlo : (1 : ℚ) ≤ n := by exact_mod_cast Nat.one_le_iff_ne_zero.mpr h0
      have hhi : (n : ℚ) ≤ 2 ^ 64 := by exact_mod_cast hn.le
      rw [Moderate, Nat.abs_cast]
      constructor
      · exact (div_le_one_of_le₀ (one_le_pow₀ one_le_two) (by positivity)).trans hlo
      · exact hhi.trans (pow_le_pow_right₀ one_le_two (by decide))
    rw [hq] at hm ⊢
    exact approximates_ofRatio Nat.one_pos hm

theorem isZero_iff (h : x.isFinite) : x.isZero ↔ x.toRat = 0 := by
  rw [← not_iff_not, Bool.not_eq_true, isZero_eq_false_iff h]

theorem abs_toRat_ofSteps (h : (ofSteps s n d).isFinite) :
    |(ofSteps s n d).toRat| = roundSteps n d / stepsInOne := by
  obtain ⟨hu, he⟩ := exists_ofSteps_eq h
  rw [he, toRat_finite, abs_div, abs_ofSign, Nat.abs_cast, abs_of_pos stepsInOne_pos]

theorem spacing_two_pow_dvd (e : Nat) : spacing (2 ^ e) ∣ 2 ^ e := by
  have h := dvd_of_le_two_pow (m := 1) (by decide) e
  rwa [Nat.one_mul] at h

theorem ofSteps_bounded (hd : 0 < d) (hk : k ≤ 200) (h : (n : ℚ) / d ≤ 2 ^ k * stepsInOne) :
    (ofSteps s n d).isFinite ∧ |(ofSteps s n d).toRat| ≤ 2 ^ k := by
  have hS := stepsInOne_pos
  have hfin : (ofSteps s n d).isFinite := by
    apply isFinite_ofSteps
    apply div_lt_of_le hd
    exact h.trans (mul_le_mul_of_nonneg_right (pow_le_pow_right₀ one_le_two hk) hS.le)
  have hcast : ((2 ^ (k + 1074) : ℕ) : ℚ) = 2 ^ k * stepsInOne := by
    rw [cast_two_pow, pow_add, stepsInOne]
  rw [← hcast] at h
  have hle := roundSteps_le_of_le hd (spacing_two_pow_dvd _) h
  refine ⟨hfin, ?_⟩
  rw [abs_toRat_ofSteps hfin, div_le_iff₀ hS, ← hcast]
  exact Nat.cast_le.mpr hle

/-- Division by a number above one keeps numbers of 65 bits among themselves. -/
theorem div_bounded (hx : x.isFinite) (hy : y.isFinite) (h1 : 1 ≤ y.toRat)
    (hb : |x.toRat| ≤ 2 ^ 65) : (x.div y).isFinite ∧ |(x.div y).toRat| ≤ 2 ^ 65 := by
  have hquot : |x.toRat / y.toRat| ≤ 2 ^ 65 := by
    rw [abs_div]
    exact (div_le_self (abs_nonneg _) (h1.trans (le_abs_self _))).trans hb
  obtain ⟨s, m, hm, rfl⟩ := exists_finite hx
  obtain ⟨t, n, hn, rfl⟩ := exists_finite hy
  have hn0 : n ≠ 0 := by
    rintro rfl
    rw [show (finite t 0 hn).toRat = 0 from toRat_zero t] at h1
    linarith
  rw [toRat_finite, toRat_finite, div_div_div_cancel_right₀ stepsInOne_ne_zero, ofSign_div,
    abs_ofSign, abs_of_nonneg (by positivity)] at hquot
  rw [div_finite hm hn hn0]
  apply ofSteps_bounded (Nat.pos_of_ne_zero hn0) (by decide)
  rw [Nat.cast_mul, cast_stepsInOne, mul_div_right_comm]
  exact mul_le_mul_of_nonneg_right hquot stepsInOne_pos.le

end Binary64

namespace Json.Significand

open Binary64

variable {x : Binary64} {e : Int} {v : Nat}

theorem one_le_power (hk : k ≤ 308) (h0 : k ≠ 0) : 1 ≤ (ofDecimal false 1 k).toRat := by
  have hle := (approximates_power hk).within.le_two_mul (by positivity)
  have hten : (10 : ℚ) ≤ 10 ^ k := le_self_pow₀ (by norm_num) h0
  linarith

/-- A negative power of ten scales in steps, and each of them gives a finite number. -/
theorem exists_scale?_of_neg (hx : x.isFinite) (hb : |x.toRat| ≤ 2 ^ 65) (he : e < 0) :
    ∃ y, scale? x e = some y ∧ y.isFinite := by
  induction hn : e.natAbs using Nat.strongRecOn generalizing x e with
  | ind n ih =>
    unfold scale?
    split
    · rename_i hlow
      split
      · exact ⟨x, rfl, hx⟩
      · have hp := approximates_power (k := 308) le_rfl
        obtain ⟨hfin, hbound⟩ := div_bounded hx hp.isFinite (one_le_power le_rfl (by decide)) hb
        exact ih (e + 308).natAbs (by omega) hfin hbound (by omega) rfl
    · rename_i hlow
      have hk : (-e).toNat ≤ 308 := by omega
      have hcast : -e = ((-e).toNat : Int) := by omega
      have hp := approximates_power hk
      have h1 := one_le_power hk (by omega)
      rw [← hcast] at hp h1
      exact ⟨_, rfl, (div_bounded hx hp.isFinite h1 hb).1⟩

theorem scale?_of_nonneg (hk : k ≤ 308) : scale? x k = some (x.mul (ofDecimal false 1 k)) := by
  unfold scale?
  rw [if_neg (by omega), if_neg (by omega), if_pos (by omega)]

def toRat (s : Significand) : ℚ := s.value * 10 ^ s.exponent

/-- Rounding both factors and the product leaves the range only within a few parts of its end. -/
theorem mul_power_le (hv : v < 2 ^ 64) (hk : k ≤ 308)
    (h : (v * 10 ^ k : ℚ) * stepsInOne ≤ ((2 ^ 53 - 3) * lastSpacing : ℕ)) :
    |(ofInt v).toRat * (ofDecimal false 1 k).toRat| * stepsInOne ≤
      ((2 ^ 53 - 1) * lastSpacing : ℕ) := by
  have hS := stepsInOne_pos.le
  have hone {p r : ℚ} (h : Within 53 p r) : |p| ≤ |r| * (1 + 1 / 2 ^ 53) := by
    have ht := abs_sub_abs_le_abs_sub p r
    unfold Within at h
    rw [mul_add, mul_one, mul_one_div]
    linarith
  have hx := hone (approximates_ofInt hv).within
  have hy := hone (approximates_power hk).within
  rw [Nat.abs_cast] at hx
  rw [abs_of_pos (by positivity : (0 : ℚ) < 10 ^ k)] at hy
  have hend : ((2 ^ 53 - 3 : ℕ) : ℚ) * (1 + 1 / 2 ^ 53) ^ 2 ≤ (2 ^ 53 - 1 : ℕ) := by norm_num
  rw [Nat.cast_mul] at h ⊢
  rw [abs_mul]
  calc |(ofInt v).toRat| * |(ofDecimal false 1 k).toRat| * stepsInOne
      ≤ (v * (1 + 1 / 2 ^ 53)) * (10 ^ k * (1 + 1 / 2 ^ 53)) * stepsInOne := by gcongr
    _ = (v * 10 ^ k) * stepsInOne * (1 + 1 / 2 ^ 53) ^ 2 := by ring
    _ ≤ (2 ^ 53 - 3 : ℕ) * lastSpacing * (1 + 1 / 2 ^ 53) ^ 2 := by gcongr
    _ = (2 ^ 53 - 3 : ℕ) * (1 + 1 / 2 ^ 53) ^ 2 * lastSpacing := by ring
    _ ≤ (2 ^ 53 - 1 : ℕ) * lastSpacing := by gcongr

theorem value_eq_zero (hk : 308 < k)
    (h : (v * 10 ^ k : ℚ) * stepsInOne ≤ (2 ^ 53 * lastSpacing : ℕ)) : v = 0 := by
  by_contra h0
  have hone : (1 : ℚ) ≤ v := by exact_mod_cast Nat.one_le_iff_ne_zero.mpr h0
  have hle : (10 ^ k : ℚ) * stepsInOne ≤ v * 10 ^ k * stepsInOne := by
    apply mul_le_mul_of_nonneg_right _ stepsInOne_pos.le
    exact le_mul_of_one_le_left (by positivity) hone
  exact absurd (hle.trans h) (not_le.mpr (lt_ten_pow_mul hk))

theorem scale?_of_isZero (hk : 308 < k) (hx : x.isZero) : scale? x k = some x := by
  unfold scale?
  rw [if_neg (by omega), if_neg (by omega), if_neg (by omega), if_pos hx]

/-- A significand that keeps off the end of the range is a finite number. -/
theorem exists_toBinary64? {s : Significand} (negative : Bool) (hv : s.value < 2 ^ 64)
    (h : s.toRat * stepsInOne ≤ ((2 ^ 53 - 3) * lastSpacing : ℕ)) :
    ∃ y, s.toBinary64? negative = some y ∧ y.isFinite := by
  have hx := approximates_ofInt hv
  have hfinite {y : Binary64} (hy : scale? (.ofInt s.value) s.exponent = some y)
      (hfin : y.isFinite) : ∃ z, s.toBinary64? negative = some z ∧ z.isFinite := by
    obtain ⟨t, units, hu, rfl⟩ := exists_finite hfin
    exact ⟨.finite negative units hu, by rw [toBinary64?, hy], rfl⟩
  by_cases hneg : s.exponent < 0
  · have hb : |(ofInt s.value).toRat| ≤ 2 ^ 65 := by
      have hle := hx.within.abs_le
      have hlt : (s.value : ℚ) < 2 ^ 64 := by exact_mod_cast hv
      rw [Nat.abs_cast] at hle
      linarith
    obtain ⟨y, hy, hfin⟩ := exists_scale?_of_neg hx.isFinite hb hneg
    exact hfinite hy hfin
  · obtain ⟨k, hk⟩ := Int.eq_ofNat_of_zero_le (not_lt.mp hneg)
    rw [toRat, hk, zpow_natCast] at h
    by_cases hle : k ≤ 308
    · have hy := scale?_of_nonneg (x := ofInt s.value) hle
      rw [← hk] at hy
      apply hfinite hy
      rw [hk]
      exact isFinite_mul_of_le hx.isFinite (approximates_power hle).isFinite (mul_power_le hv hle h)
    · have hend : (2 ^ 53 - 3) * lastSpacing ≤ 2 ^ 53 * lastSpacing :=
        Nat.mul_le_mul_right _ (by decide)
      have h0 := value_eq_zero (not_le.mp hle) (h.trans (Nat.cast_le.mpr hend))
      have hzero : (ofInt s.value).isZero := by
        rw [isZero_iff hx.isFinite, hx.within.eq_zero_iff, h0, Nat.cast_zero]
      have hy := scale?_of_isZero (not_le.mp hle) hzero
      rw [← hk] at hy
      exact hfinite hy hx.isFinite

end Json.Significand

end RecordSieve
