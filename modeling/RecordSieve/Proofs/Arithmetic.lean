import Mathlib.Algebra.Order.Field.Rat
import RecordSieve.Arithmetic
import RecordSieve.Proofs.Decimal

/-! # Arithmetic is exact where decimals are

Where both operands are decimals and the exact result of an operation is one too, the result is the
number nearest to it. The gap between the decimal and the binary result is then far below the one
that counts as imprecise, since each of the two has been rounded a few times at the most. What is
taken from zero is negated whether or not it is a decimal.
-/

namespace RecordSieve

open Binary64

variable {x y : Binary64} {r : ℚ}

namespace Binary64

theorem mul_of_toRat_eq_zero (hx : x.isFinite) (hy : y.isFinite) (h : x.toRat * y.toRat = 0) :
    (x.mul y).isFinite ∧ (x.mul y).toRat = 0 := by
  obtain ⟨s, m, hm, rfl⟩ := exists_finite hx
  obtain ⟨t, n, hn, rfl⟩ := exists_finite hy
  have hmn : m * n = 0 := by
    rw [toRat_finite, toRat_finite, div_mul_div_comm, ofSign_mul, div_eq_zero_iff, ← abs_eq_zero,
      abs_ofSign, abs_eq_zero, ← Nat.cast_mul, Nat.cast_eq_zero] at h
    exact h.resolve_right (mul_ne_zero stepsInOne_ne_zero stepsInOne_ne_zero)
  have hz : (finite s m hm).mul (finite t n hn) = zero (s != t) := by
    rw [mul_finite, hmn]
    apply ofSteps_zero
    apply Nat.two_pow_pos
  rw [hz]
  exact ⟨rfl, toRat_zero _⟩

theorem div_of_toRat_eq_zero (hx : x.isFinite) (hy : y.isFinite) (hz : y.toRat ≠ 0)
    (h : x.toRat = 0) : (x.div y).isFinite ∧ (x.div y).toRat = 0 := by
  obtain ⟨s, m, hm, rfl⟩ := exists_finite hx
  obtain ⟨t, n, hn, rfl⟩ := exists_finite hy
  have hm0 : m = 0 := by
    rw [toRat_finite, div_eq_zero_iff, ← abs_eq_zero, abs_ofSign, abs_eq_zero,
      Nat.cast_eq_zero] at h
    exact h.resolve_right stepsInOne_ne_zero
  have hn0 : n ≠ 0 := by
    rintro rfl
    exact hz (toRat_zero t)
  have hzero : (finite s m hm).div (finite t n hn) = zero (s != t) := by
    rw [div_finite hm hn hn0, hm0]
    exact ofRatio_zero (Nat.pos_of_ne_zero hn0)
  rw [hzero]
  exact ⟨rfl, toRat_zero _⟩

theorem within_of_approximates {z : Binary64} {q : ℚ} (hzero : q = 0 → z.isFinite ∧ z.toRat = 0)
    (hnear : Moderate 200 q → z.Approximates q) (h : Within 50 q r) (hr : r ≠ 0 → Moderate 96 r) :
    z.isFinite ∧ Within 48 z.toRat r := by
  by_cases h0 : r = 0
  · obtain ⟨hfin, hz⟩ := hzero (h.eq_zero_iff.mpr h0)
    refine ⟨hfin, ?_⟩
    rw [hz, h0]
    exact .refl 48 0
  · have ha := hnear (((hr h0).of_within h).mono (by decide))
    exact ⟨ha.isFinite, (ha.within.mono (by decide)).trans h⟩

theorem mul_within (hx : x.isFinite) (hy : y.isFinite) (h : Within 50 (x.toRat * y.toRat) r)
    (hr : r ≠ 0 → Moderate 96 r) : (x.mul y).isFinite ∧ Within 48 (x.mul y).toRat r :=
  within_of_approximates (mul_of_toRat_eq_zero hx hy) (approximates_mul hx hy) h hr

theorem div_within (hx : x.isFinite) (hy : y.isFinite) (hz : y.toRat ≠ 0)
    (h : Within 50 (x.toRat / y.toRat) r) (hr : r ≠ 0 → Moderate 96 r) :
    (x.div y).isFinite ∧ Within 48 (x.div y).toRat r := by
  refine within_of_approximates (fun hq => ?_) (approximates_div hx hy hz) h hr
  exact div_of_toRat_eq_zero hx hy hz ((div_eq_zero_iff.mp hq).resolve_right hz)

end Binary64

namespace Operation

theorem tolerance_eq : tolerance = ofRatio false 1 (10 ^ 9) := by
  rw [tolerance, ofDecimal, if_neg (by decide), if_neg (by decide), if_neg (by decide),
    if_neg (by decide)]
  rfl

theorem approximates_tolerance : tolerance.Approximates (1 / 10 ^ 9) := by
  have hq : ofSign false ((1 : ℕ) / (10 ^ 9 : ℕ)) = 1 / 10 ^ 9 := by norm_num [ofSign]
  have hm : Moderate 200 (1 / 10 ^ 9) := by
    constructor <;> norm_num
  rw [tolerance_eq, ← hq]
  rw [← hq] at hm
  exact approximates_ofRatio (by decide) hm

/-- The greatest gap that is accepted is at least one part in 2³¹. -/
theorem le_toRat_mul_tolerance (hx : x.isFinite) (hm : x.toRat ≠ 0 → Moderate 98 x.toRat) :
    (x.abs.mul tolerance).isFinite ∧ |x.toRat| / 2 ^ 31 ≤ (x.abs.mul tolerance).toRat := by
  have ht := approximates_tolerance
  have hfinite := isFinite_abs hx
  by_cases h0 : x.toRat = 0
  · have hp : x.abs.toRat * tolerance.toRat = 0 := by rw [toRat_abs, h0, abs_zero, zero_mul]
    obtain ⟨hfin, hzero⟩ := mul_of_toRat_eq_zero hfinite ht.isFinite hp
    refine ⟨hfin, ?_⟩
    rw [h0, hzero, abs_zero, zero_div]
  · have hten : Moderate 30 ((1 : ℚ) / 10 ^ 9) := by
      constructor <;> norm_num
    have hmod : Moderate 200 (x.abs.toRat * tolerance.toRat) := by
      rw [toRat_abs]
      exact ((hm h0).abs.mul (hten.of_within ht.within)).mono (by decide)
    have ha := approximates_mul hfinite ht.isFinite hmod
    have hexact : Within 50 (x.abs.toRat * tolerance.toRat) (|x.toRat| * (1 / 10 ^ 9)) := by
      rw [toRat_abs]
      exact (Within.refl 52 _).mul (ht.within.mono (by decide))
    have hnear := (ha.within.mono (show 50 ≤ 53 by decide)).trans hexact
    refine ⟨ha.isFinite, ?_⟩
    have hle := hnear.le_two_mul (by positivity)
    calc |x.toRat| / 2 ^ 31 ≤ |x.toRat| * (1 / 10 ^ 9) / 2 := by linarith [abs_nonneg x.toRat]
      _ ≤ (x.abs.mul tolerance).toRat := by linarith

/-- Two numbers that are near one decimal are too near each other to count as imprecise. -/
theorem isImprecise_eq_false (op : Operation) (hx : x.isFinite) (hy : y.isFinite)
    (hxr : Within 48 x.toRat r) (hyr : Within 48 y.toRat r) (hr : r ≠ 0 → Moderate 96 r) :
    op.isImprecise x y = false := by
  have hm (h : y.toRat ≠ 0) : Moderate 98 y.toRat := by
    rw [Ne, hyr.eq_zero_iff] at h
    exact ((hr h).of_within hyr).mono (by decide)
  have hgap : |x.toRat - y.toRat| ≤ |y.toRat| / 2 ^ 45 :=
    (hxr.mono (show 47 ≤ 48 by decide)).trans hyr.symm
  have hfar : |x.toRat - y.toRat| ≤ 2 ^ 200 := by
    apply hgap.trans
    by_cases h : y.toRat = 0
    · rw [h, abs_zero, zero_div]
      positivity
    · calc |y.toRat| / 2 ^ 45 ≤ |y.toRat| := div_le_self (abs_nonneg _) (one_le_pow₀ one_le_two)
        _ ≤ 2 ^ 98 := (hm h).2
        _ ≤ 2 ^ 200 := pow_le_pow_right₀ one_le_two (by decide)
  obtain ⟨hsub, hle⟩ := abs_toRat_sub_le hx hy hfar
  obtain ⟨hfin, htol⟩ := le_toRat_mul_tolerance hy hm
  have hless : (y.abs.mul tolerance).less (x.sub y).abs = false := by
    apply less_eq_false hfin (isFinite_abs hsub)
    rw [toRat_abs]
    calc |(x.sub y).toRat| ≤ 2 * |x.toRat - y.toRat| := hle
      _ ≤ 2 * (|y.toRat| / 2 ^ 45) := by gcongr
      _ ≤ |y.toRat| / 2 ^ 31 := by linarith [abs_nonneg y.toRat]
      _ ≤ (y.abs.mul tolerance).toRat := htol
  cases op with
  | add | subtract | modulo => rfl
  | multiply | divide => exact hless

variable {op : Operation} {a b : Binary64} {u v : Decimal}

theorem isImprecise_onBinary {z : Decimal} (hu : Decimal.ofBinary64? a = some u)
    (hv : Decimal.ofBinary64? b = some v) (hz : Exact u.value v.value op r) (hr : z.value = r) :
    op.isImprecise z.toBinary64 (op.onBinary a b) = false := by
  obtain ⟨hfa, ha⟩ := Decimal.approximates_of_ofBinary64? hu
  obtain ⟨hfb, hb⟩ := Decimal.approximates_of_ofBinary64? hv
  have hfin := z.isNearest_toBinary64.isFinite
  have hwithin := z.within_toBinary64.mono (show 48 ≤ 53 by decide)
  have hmod := z.moderate_value
  rw [hr] at hwithin hmod
  cases hz with
  | add | subtract | modulo => rfl
  | multiply =>
    have hprod := (ha.mono (show 52 ≤ 53 by decide)).mul (hb.mono (show 52 ≤ 53 by decide))
    obtain ⟨hmul, hnear⟩ := mul_within hfa hfb hprod hmod
    exact isImprecise_eq_false .multiply hfin hmul hwithin hnear hmod
  | divide hy =>
    have hquot := (ha.mono (show 52 ≤ 53 by decide)).div hb
    have hb0 : b.toRat ≠ 0 := by rwa [Ne, hb.eq_zero_iff]
    obtain ⟨hdiv, hnear⟩ := div_within hfa hfb hb0 hquot hmod
    exact isImprecise_eq_false .divide hfin hdiv hwithin hnear hmod

theorem result?_of_onDecimal? {z : Binary64} (hb : op = divide ∨ op = modulo → b.isZero = false)
    (h : op.onDecimal? a b = some z) : op.result? a b = some z := by
  have hzero : ¬ ((op = divide ∨ op = modulo) ∧ b.isZero) := by
    rintro ⟨hop, h0⟩
    rw [hb hop] at h0
    cases h0
  rw [result?, if_neg hzero, h]
  rfl

/-- Where both operands are decimals, and the exact result is one, the operation runs in decimal and
gives the number nearest to that result; a zero is positive. The remainder is a decimal always. -/
theorem result?_exact (hu : Decimal.ofBinary64? a = some u) (hv : Decimal.ofBinary64? b = some v)
    (hb : op = divide ∨ op = modulo → b.isZero = false) :
    (∀ r, Exact u.value v.value op r → (∃ z : Decimal, z.value = r) →
      ∃ x, op.onDecimal? a b = some x ∧ op.result? a b = some x ∧ x.IsNearest r ∧
        (r = 0 → x = .zero false)) ∧
    (op = modulo → ∃ z : Decimal, Exact u.value v.value .modulo z.value) := by
  obtain ⟨hfb, hnear⟩ := Decimal.approximates_of_ofBinary64? hv
  have hy (hop : op = divide ∨ op = modulo) : v.value ≠ 0 := by
    have h0 := hb hop
    rwa [isZero_eq_false_iff hfb, Ne, hnear.eq_zero_iff] at h0
  constructor
  · intro r hr hz
    obtain ⟨z, hz, hvalue⟩ := Decimal.exists_result? hy hr hz
    have hprecise := isImprecise_onBinary hu hv hr hvalue
    have hdecimal : op.onDecimal? a b = some z.toBinary64 := by
      simp [onDecimal?, hu, hv, hz, hprecise]
    refine ⟨z.toBinary64, hdecimal, result?_of_onDecimal? hb hdecimal, ?_, ?_⟩
    · rw [← hvalue]
      exact z.isNearest_toBinary64
    · rintro h0
      rw [h0] at hvalue
      exact Decimal.toBinary64_of_value_eq_zero hvalue
  · intro hop
    exact Decimal.exists_remainder u (hy (.inr hop))

/-- Three tenths over one tenth is three, though the quotient of the two numbers is less. -/
theorem result?_exact_tenths :
    ∃ x, divide.result? (ofDecimal false 3 (-1)) (ofDecimal false 1 (-1)) = some x ∧
      x.IsNearest 3 := by
  have hu : Decimal.ofBinary64? (ofDecimal false 3 (-1)) =
      some ⟨3, 1, by decide, by decide⟩ := by decide +kernel
  have hv : Decimal.ofBinary64? (ofDecimal false 1 (-1)) =
      some ⟨1, 1, by decide, by decide⟩ := by decide +kernel
  have hb : divide = divide ∨ divide = modulo → (ofDecimal false 1 (-1)).isZero = false := by
    intro _
    decide +kernel
  have hr : Exact (Decimal.value ⟨3, 1, by decide, by decide⟩)
      (Decimal.value ⟨1, 1, by decide, by decide⟩) .divide 3 := by
    have hone : Decimal.value ⟨1, 1, by decide, by decide⟩ ≠ 0 := by norm_num [Decimal.value]
    have h := Exact.divide (x := Decimal.value ⟨3, 1, by decide, by decide⟩) hone
    norm_num [Decimal.value] at h ⊢
    exact h
  have hz : ∃ z : Decimal, z.value = 3 :=
    ⟨⟨3, 0, by decide, by decide⟩, by norm_num [Decimal.value]⟩
  obtain ⟨x, -, hx, hnear, -⟩ := (result?_exact hu hv hb).1 3 hr hz
  exact ⟨x, hx, hnear⟩

/-- What is taken from zero is negated, in decimal and in binary. -/
theorem exists_zero_subtract (a : Binary64) :
    ∃ z, subtract.result? (zero false) a = some z ∧ z.Agrees a.neg := by
  obtain ⟨u, hu, hzero⟩ : ∃ u, Decimal.ofBinary64? (zero false) = some u ∧ u.value = 0 :=
    ⟨⟨0, 0, by decide, by decide⟩, by decide +kernel, Decimal.value_eq_zero_iff.mpr rfl⟩
  cases ha : Decimal.ofBinary64? a with
  | none =>
    have hnone : subtract.onDecimal? (zero false) a = none := by simp [onDecimal?, ha]
    refine ⟨(zero false).sub a, ?_, zero_sub_agrees a⟩
    simp [result?, hnone, onBinary]
  | some v =>
    have hexact : Exact u.value v.value .subtract (-v.value) := by
      rw [← zero_sub, hzero]
      exact .subtract
    obtain ⟨z, hz, hvalue⟩ := Decimal.exists_result? (by simp) hexact v.exists_value_eq_neg
    have hdecimal : subtract.onDecimal? (zero false) a = some z.toBinary64 := by
      simp [onDecimal?, hu, ha, hz, isImprecise]
    refine ⟨z.toBinary64, result?_of_onDecimal? (by simp) hdecimal, .inl ?_⟩
    apply equal_trans (Decimal.equal_neg_toBinary64 hvalue)
    rw [equal_neg_neg]
    exact Decimal.equal_of_ofBinary64? ha

end Operation

end RecordSieve
