import RecordSieve.Proofs.Binary64.Rounding

/-! # How much rounding can cost

Relative gaps: what a number is off a rational by, in parts of that rational. A gap survives a
product or a quotient with a few parts more, and far from the ends of the range rounding costs one
part in 2⁵³.
-/

namespace RecordSieve

variable {j k : Nat} {p p' q q' r : ℚ}

/-- One rational is off another by at most one of its parts in 2ᵏ. -/
def Within (k : Nat) (p r : ℚ) : Prop := |p - r| ≤ |r| / 2 ^ k

/-- A rational whose magnitude is between 2⁻ᵏ and 2ᵏ. -/
def Moderate (k : Nat) (r : ℚ) : Prop := 1 / 2 ^ k ≤ |r| ∧ |r| ≤ 2 ^ k

namespace Within

theorem refl (k : Nat) (r : ℚ) : Within k r r := by
  rw [Within, sub_self, abs_zero]
  positivity

theorem mono (h : Within k p r) (hjk : j ≤ k) : Within j p r := by
  refine h.trans ?_
  gcongr
  exact one_le_two

theorem abs_le (h : Within k p r) : |p| ≤ 2 * |r| := by
  have hk : |r| / 2 ^ k ≤ |r| := div_le_self (abs_nonneg r) (one_le_pow₀ one_le_two)
  have ht := abs_sub_abs_le_abs_sub p r
  unfold Within at h
  linarith

theorem abs_ge (h : Within (k + 1) p r) : |r| ≤ 2 * |p| := by
  have hk : |r| / 2 ^ (k + 1) ≤ |r| / 2 := by
    gcongr
    exact le_self_pow₀ one_le_two (Nat.succ_ne_zero k)
  have ht := abs_sub_abs_le_abs_sub r p
  rw [abs_sub_comm] at ht
  unfold Within at h
  linarith

theorem le_two_mul (h : Within (k + 1) p r) (hr : 0 ≤ r) : r ≤ 2 * p := by
  have hk : |r| / 2 ^ (k + 1) ≤ |r| / 2 := by
    gcongr
    exact le_self_pow₀ one_le_two (Nat.succ_ne_zero k)
  have ht := neg_abs_le (p - r)
  unfold Within at h
  rw [abs_of_nonneg hr] at h hk
  linarith

theorem symm (h : Within (k + 1) p r) : Within k r p := by
  have hr := h.abs_ge
  unfold Within at h ⊢
  rw [abs_sub_comm]
  calc |p - r| ≤ |r| / 2 ^ (k + 1) := h
    _ ≤ 2 * |p| / 2 ^ (k + 1) := by gcongr
    _ = |p| / 2 ^ k := by rw [pow_succ', mul_div_mul_left _ _ two_ne_zero]

theorem trans (hp : Within (k + 2) p q) (hq : Within (k + 2) q r) : Within k p r := by
  have hle := hq.abs_le
  unfold Within at hp hq ⊢
  calc |p - r| ≤ |p - q| + |q - r| := abs_sub_le p q r
    _ ≤ |q| / 2 ^ (k + 2) + |r| / 2 ^ (k + 2) := add_le_add hp hq
    _ ≤ 2 * |r| / 2 ^ (k + 2) + 2 * |r| / 2 ^ (k + 2) := by
      gcongr
      linarith [abs_nonneg r]
    _ = |r| / 2 ^ k := by
      rw [pow_add]
      ring

theorem mul (h : Within (k + 2) p q) (h' : Within (k + 2) p' q') : Within k (p * p') (q * q') := by
  have hle := h.abs_le
  unfold Within at h h' ⊢
  calc |p * p' - q * q'| = |p * (p' - q') + (p - q) * q'| := by ring_nf
    _ ≤ |p * (p' - q')| + |(p - q) * q'| := abs_add_le _ _
    _ = |p| * |p' - q'| + |p - q| * |q'| := by rw [abs_mul, abs_mul]
    _ ≤ 2 * |q| * (|q'| / 2 ^ (k + 2)) + |q| / 2 ^ (k + 2) * |q'| := by gcongr
    _ ≤ 4 * (|q| * |q'| / 2 ^ (k + 2)) := by
      have h0 : 0 ≤ |q| * |q'| / 2 ^ (k + 2) := by positivity
      linarith [mul_div_assoc |q| |q'| (2 ^ (k + 2)), mul_div_right_comm |q| |q'| (2 ^ (k + 2))]
    _ = |q * q'| / 2 ^ k := by
      rw [abs_mul, pow_add]
      ring

theorem inv (h : Within (k + 1) p q) : Within k p⁻¹ q⁻¹ := by
  by_cases hq : q = 0
  · subst hq
    have hp : p = 0 := by simpa using h.abs_le
    rw [hp]
    exact refl k 0⁻¹
  have hge := h.abs_ge
  have hq' : 0 < |q| := abs_pos.mpr hq
  have hp' : 0 < |p| := by linarith
  have hp : p ≠ 0 := abs_pos.mp hp'
  unfold Within at h ⊢
  calc |p⁻¹ - q⁻¹| = |p - q| / (|p| * |q|) := by
        rw [inv_sub_inv hp hq, abs_div, abs_mul, abs_sub_comm]
    _ ≤ |q| / 2 ^ (k + 1) / (|p| * |q|) := by gcongr
    _ = 1 / |p| / 2 ^ (k + 1) := by field_simp
    _ ≤ 2 / |q| / 2 ^ (k + 1) := by
      gcongr ?_ / _
      rw [div_le_div_iff₀ hp' hq']
      linarith
    _ = |q⁻¹| / 2 ^ k := by
      rw [abs_inv, pow_succ]
      field_simp

theorem div (h : Within (k + 2) p q) (h' : Within (k + 3) p' q') :
    Within k (p / p') (q / q') := by
  rw [div_eq_mul_inv, div_eq_mul_inv]
  exact h.mul h'.inv

theorem eq_zero_iff (h : Within (k + 1) p r) : p = 0 ↔ r = 0 := by
  constructor
  · rintro rfl
    simpa using h.abs_ge
  · rintro rfl
    simpa using h.abs_le

end Within

namespace Moderate

theorem mono (h : Moderate j r) (hjk : j ≤ k) : Moderate k r := by
  have hp : (2 ^ j : ℚ) ≤ 2 ^ k := pow_le_pow_right₀ one_le_two hjk
  constructor
  · exact (one_div_le_one_div_of_le (by positivity) hp).trans h.1
  · exact h.2.trans hp

theorem mul (h : Moderate j p) (h' : Moderate k q) : Moderate (j + k) (p * q) := by
  unfold Moderate at *
  rw [abs_mul, pow_add]
  constructor
  · rw [← one_div_mul_one_div]
    exact mul_le_mul h.1 h'.1 (by positivity) (abs_nonneg p)
  · exact mul_le_mul h.2 h'.2 (abs_nonneg q) (by positivity)

theorem abs (h : Moderate k r) : Moderate k |r| := by
  rwa [Moderate, abs_abs]

theorem of_within (h : Moderate k r) (hp : Within (j + 1) p r) : Moderate (k + 1) p := by
  have hle := hp.abs_le
  have hge := hp.abs_ge
  obtain ⟨hlo, hhi⟩ := h
  constructor
  · rw [pow_succ, ← div_div, div_le_iff₀ two_pos]
    linarith
  · rw [pow_succ]
    linarith

end Moderate

namespace Binary64

variable {n d : Nat} {s t : Bool} {x y : Binary64}

/-- A finite number is off a rational by at most one part in 2⁵³. -/
structure Approximates (x : Binary64) (r : ℚ) : Prop where
  isFinite : x.isFinite
  within : Within 53 x.toRat r

theorem two_pow_le_stepsInOne : 2 ^ 52 * 2 ^ 200 ≤ stepsInOne := by
  rw [← pow_add, stepsInOne]
  exact pow_le_pow_right₀ one_le_two (by decide)

/-- Above 2⁵² steps only the range is a limit. -/
theorem approximates_of_isFinite (hd : 0 < d) (hq : q = ofSign s ((n : ℚ) / d) / stepsInOne)
    (hlow : 2 ^ 52 ≤ n / d) (hfin : (ofSteps s n d).isFinite) :
    (ofSteps s n d).Approximates q := by
  have hS := stepsInOne_pos
  have hv : 0 ≤ (n : ℚ) / d := by positivity
  obtain ⟨hu, he⟩ := exists_ofSteps_eq hfin
  refine ⟨hfin, ?_⟩
  rw [Within, he, hq, toRat_finite, abs_ofSign_sub, abs_sub_comm, abs_div, abs_ofSign,
    abs_of_nonneg hv, abs_of_pos hS, div_right_comm]
  exact div_le_div_of_nonneg_right (abs_sub_roundSteps_le hd hlow) hS.le

theorem approximates_ofSteps (hd : 0 < d) (hq : q = ofSign s ((n : ℚ) / d) / stepsInOne)
    (hm : Moderate 200 q) : (ofSteps s n d).Approximates q := by
  obtain ⟨hlo, hhi⟩ := hm
  have hS := stepsInOne_pos
  have hd' : (0 : ℚ) < d := Nat.cast_pos.mpr hd
  have hv : 0 ≤ (n : ℚ) / d := by positivity
  have habs : |q| = (n : ℚ) / d / stepsInOne := by
    rw [hq, abs_div, abs_ofSign, abs_of_nonneg hv, abs_of_pos hS]
  rw [habs, le_div_iff₀ hS] at hlo
  rw [habs, div_le_iff₀ hS] at hhi
  have hlow : 2 ^ 52 ≤ n / d := by
    have hle : (2 ^ 52 : ℚ) ≤ 1 / 2 ^ 200 * stepsInOne := by
      rw [one_div_mul_eq_div, le_div_iff₀ (by positivity)]
      exact two_pow_le_stepsInOne
    have h := hle.trans hlo
    rw [le_div_iff₀ hd'] at h
    rw [Nat.le_div_iff_mul_le hd]
    exact_mod_cast h
  exact approximates_of_isFinite hd hq hlow (isFinite_ofSteps (div_lt_of_le hd hhi))

theorem approximates_ofRatio (hd : 0 < d) (hm : Moderate 200 (ofSign s ((n : ℚ) / d))) :
    (ofRatio s n d).Approximates (ofSign s ((n : ℚ) / d)) :=
  approximates_ofSteps hd (mul_stepsInOne s n d).symm hm

theorem mul_finite {m : Nat} (hm : Representable m) (hn : Representable n) :
    (finite s m hm).mul (finite t n hn) = ofSteps (s != t) (m * n) (2 ^ 1074) := rfl

theorem div_finite {m : Nat} (hm : Representable m) (hn : Representable n) (h : n ≠ 0) :
    (finite s m hm).div (finite t n hn) = ofRatio (s != t) m n := if_neg h

theorem approximates_mul (hx : x.isFinite) (hy : y.isFinite)
    (h : Moderate 200 (x.toRat * y.toRat)) : (x.mul y).Approximates (x.toRat * y.toRat) := by
  obtain ⟨s, m, hm, rfl⟩ := exists_finite hx
  obtain ⟨t, n, hn, rfl⟩ := exists_finite hy
  rw [mul_finite]
  refine approximates_ofSteps (Nat.two_pow_pos 1074) ?_ h
  rw [toRat_finite, toRat_finite, div_mul_div_comm, ofSign_mul, ← div_div, ofSign_div_right,
    cast_stepsInOne, Nat.cast_mul]

theorem approximates_div (hx : x.isFinite) (hy : y.isFinite) (hz : y.toRat ≠ 0)
    (h : Moderate 200 (x.toRat / y.toRat)) : (x.div y).Approximates (x.toRat / y.toRat) := by
  obtain ⟨s, m, hm, rfl⟩ := exists_finite hx
  obtain ⟨t, n, hn, rfl⟩ := exists_finite hy
  have hn0 : n ≠ 0 := by
    rintro rfl
    exact hz (toRat_zero t)
  rw [toRat_finite, toRat_finite, div_div_div_cancel_right₀ stepsInOne_ne_zero, ofSign_div] at h ⊢
  rw [div_finite hm hn hn0]
  exact approximates_ofRatio (Nat.pos_of_ne_zero hn0) h

theorem abs_toRat_sub_le (hx : x.isFinite) (hy : y.isFinite) (h : |x.toRat - y.toRat| ≤ 2 ^ 200) :
    (x.sub y).isFinite ∧ |(x.sub y).toRat| ≤ 2 * |x.toRat - y.toRat| := by
  obtain ⟨s, m, hm, rfl⟩ := exists_finite hx
  obtain ⟨t, n, hn, rfl⟩ := exists_finite hy
  have hS := stepsInOne_pos
  set i : ℤ := signed s m + signed (!t) n with hi
  have hsub : (finite s m hm).toRat - (finite t n hn).toRat = i / stepsInOne := by
    rw [hi, Int.cast_add, signed_eq_ofSign, signed_eq_ofSign, toRat_finite, toRat_finite, ← sub_div,
      sub_eq_add_neg]
    cases t <;> simp [ofSign]
  rw [hsub] at h ⊢
  rw [show (finite s m hm).sub (finite t n hn) = ofSigned (s && !t) i from rfl]
  unfold ofSigned
  by_cases hi0 : i = 0
  · rw [if_pos hi0]
    refine ⟨rfl, ?_⟩
    simp [hi0]
  · rw [if_neg hi0]
    have hnat : |(i : ℚ)| = (i.natAbs : ℚ) := by rw [Nat.cast_natAbs, Int.cast_abs]
    rw [abs_div, abs_of_pos hS, hnat] at h ⊢
    rw [div_le_iff₀ hS] at h
    have hlt : i.natAbs / 1 < 2 ^ 2097 := by
      apply div_lt_of_le Nat.one_pos
      rwa [Nat.cast_one, div_one]
    have hfin := isFinite_ofSteps (s := decide (i < 0)) hlt
    obtain ⟨hu, he⟩ := exists_ofSteps_eq hfin
    refine ⟨hfin, ?_⟩
    have hle := roundSteps_le_two_mul (n := i.natAbs) (d := 1) (by simpa using hi0)
    rw [Nat.div_one] at hle
    rw [he, toRat_finite, abs_div, abs_ofSign, abs_of_pos hS, Nat.abs_cast, mul_div_assoc']
    apply div_le_div_of_nonneg_right _ hS.le
    exact_mod_cast hle

theorem isFinite_abs (h : x.isFinite) : x.abs.isFinite := by
  cases x with
  | finite => rfl
  | nan | infinite => cases h

theorem toRat_abs (x : Binary64) : x.abs.toRat = |x.toRat| := by
  cases x with
  | nan | infinite => simp [abs, toRat]
  | finite s units hu =>
    rw [toRat_finite, abs_div, abs_ofSign, abs, toRat_finite, Nat.abs_cast,
      abs_of_pos stepsInOne_pos]
    rfl

theorem less_eq_false (hx : x.isFinite) (hy : y.isFinite) (h : y.toRat ≤ x.toRat) :
    x.less y = false := by
  obtain ⟨s, m, hm, rfl⟩ := exists_finite hx
  obtain ⟨t, n, hn, rfl⟩ := exists_finite hy
  rw [toRat_finite, toRat_finite, div_le_div_iff_of_pos_right stepsInOne_pos, ← signed_eq_ofSign,
    ← signed_eq_ofSign, Int.cast_le] at h
  simpa [less] using h

theorem toRat_eq_of_equal (h : x.equal y) (hx : x.isFinite) : y.isFinite ∧ x.toRat = y.toRat := by
  obtain ⟨s, m, hm, rfl⟩ := exists_finite hx
  cases y with
  | nan | infinite => cases h
  | finite t n hn =>
    have h : signed s m = signed t n := of_decide_eq_true h
    refine ⟨rfl, ?_⟩
    rw [toRat_finite, toRat_finite, ← signed_eq_ofSign, ← signed_eq_ofSign, h]

theorem isZero_eq_false_iff (h : x.isFinite) : x.isZero = false ↔ x.toRat ≠ 0 := by
  obtain ⟨s, m, hm, rfl⟩ := exists_finite h
  rw [isZero, zero, equal, decide_eq_false_iff_not, not_iff_not, toRat_finite,
    div_eq_zero_iff, or_iff_left stepsInOne_ne_zero, ← signed_eq_ofSign, Int.cast_eq_zero]
  rfl

end Binary64

end RecordSieve
