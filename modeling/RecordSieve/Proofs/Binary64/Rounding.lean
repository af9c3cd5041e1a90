import Mathlib.Algebra.Order.Field.Rat
import Mathlib.Algebra.Order.Ring.Abs
import Mathlib.Data.Nat.Cast.Order.Field
import Mathlib.Tactic.FieldSimp
import Mathlib.Tactic.GCongr
import Mathlib.Tactic.Linarith
import Mathlib.Tactic.Positivity
import Mathlib.Tactic.Ring
import RecordSieve.Binary64.Arithmetic
import RecordSieve.Proofs.Binary64.RoundTrip

/-! # What rounding does

A finite number stands for a rational. Rounding a rational gives a number to which no other is
nearer, and of two that are equally near the one whose last binary digit is zero. Away from the ends
of the range the error is at most one part in 2⁵³.
-/

namespace RecordSieve

variable {n d m k : Nat} {s t : Bool}

theorem two_mul_nearestEven_le (n d : Nat) : 2 * (nearestEven n d * d) ≤ 2 * n + d := by
  have h := Nat.div_add_mod' n d
  unfold nearestEven
  split
  · omega
  · rename_i hn
    rw [Nat.add_mul]
    omega

theorem le_two_mul_nearestEven (hd : 0 < d) (n : Nat) :
    2 * n ≤ 2 * (nearestEven n d * d) + d := by
  have h := Nat.div_add_mod' n d
  have hr := Nat.mod_lt n hd
  unfold nearestEven
  split
  · omega
  · rw [Nat.add_mul]
    omega

theorem even_nearestEven (hd : 0 < d)
    (h : 2 * (nearestEven n d * d) = 2 * n + d ∨ 2 * n = 2 * (nearestEven n d * d) + d) :
    nearestEven n d % 2 = 0 := by
  have hn := Nat.div_add_mod' n d
  have hr := Nat.mod_lt n hd
  unfold nearestEven at h ⊢
  split at h
  · rename_i hc
    rw [if_pos hc]
    omega
  · rename_i hc
    rw [if_neg hc]
    rw [Nat.add_mul] at h
    omega

theorem abs_sub_nearestEven_le (hd : 0 < d) (n : Nat) :
    |(n : ℚ) / d - nearestEven n d| ≤ 1 / 2 := by
  have hd' : (0 : ℚ) < d := Nat.cast_pos.mpr hd
  have hlo : (2 * (nearestEven n d * d) : ℚ) ≤ 2 * n + d := by
    exact_mod_cast two_mul_nearestEven_le n d
  have hhi : (2 * n : ℚ) ≤ 2 * (nearestEven n d * d) + d := by
    exact_mod_cast le_two_mul_nearestEven hd n
  rw [abs_le]
  constructor
  · rw [le_sub_iff_add_le, le_div_iff₀ hd']
    linarith
  · rw [sub_le_iff_le_add, div_le_iff₀ hd']
    linarith

theorem even_nearestEven_of_abs (hd : 0 < d) (h : |(n : ℚ) / d - nearestEven n d| = 1 / 2) :
    nearestEven n d % 2 = 0 := by
  have hd' : (d : ℚ) ≠ 0 := Nat.cast_ne_zero.mpr (Nat.ne_of_gt hd)
  apply even_nearestEven hd
  rcases eq_or_eq_neg_of_abs_eq h with h | h
  · right
    have hq : (2 * n : ℚ) = 2 * (nearestEven n d * d) + d := by
      field_simp at h
      linarith
    exact_mod_cast hq
  · left
    have hq : (2 * (nearestEven n d * d) : ℚ) = 2 * n + d := by
      field_simp at h
      linarith
    exact_mod_cast hq

theorem one_le_abs_add_abs {q : ℚ} {j k : Nat} (h : j ≠ k) : 1 ≤ |q - k| + |q - j| := by
  have hi : (1 : ℤ) ≤ |(j : ℤ) - k| := Int.one_le_abs (by omega)
  have hq : (1 : ℚ) ≤ |(j : ℚ) - k| := by exact_mod_cast hi
  calc (1 : ℚ) ≤ |(j : ℚ) - k| := hq
    _ = |(q - k) - (q - j)| := by rw [sub_sub_sub_cancel_left]
    _ ≤ |q - k| + |q - j| := abs_sub _ _

theorem nearestEven_nearest (hd : 0 < d) (n j : Nat) :
    |(n : ℚ) / d - nearestEven n d| ≤ |(n : ℚ) / d - j| := by
  by_cases hj : j = nearestEven n d
  · rw [hj]
  · have h := one_le_abs_add_abs (q := (n : ℚ) / d) hj
    have hk := abs_sub_nearestEven_le hd n
    linarith

theorem even_nearestEven_of_tie (hd : 0 < d) {j : Nat} (hj : j ≠ nearestEven n d)
    (h : |(n : ℚ) / d - nearestEven n d| = |(n : ℚ) / d - j|) : nearestEven n d % 2 = 0 := by
  have ha := one_le_abs_add_abs (q := (n : ℚ) / d) hj
  have hk := abs_sub_nearestEven_le hd n
  exact even_nearestEven_of_abs hd (by linarith)

/-- The distance of the representable counts around a count. -/
def spacing (units : Nat) : Nat := 2 ^ (units.log2 - 52)

/-- The first 53 binary digits of a count. -/
def significand (units : Nat) : Nat := units / spacing units

theorem spacing_pos (units : Nat) : 0 < spacing units := Nat.two_pow_pos _

theorem Representable.spacing_dvd (h : Representable m) : spacing m ∣ m := h.2

theorem roundSteps_eq (n d : Nat) :
    roundSteps n d = nearestEven n (d * spacing (n / d)) * spacing (n / d) := rfl

theorem abs_sub_mul_spacing (n d j : Nat) {step : Nat} (h : 0 < step) :
    |(n : ℚ) / d - (j * step : ℕ)| = step * |(n : ℚ) / (d * step : ℕ) - j| := by
  have hs : (0 : ℚ) < step := Nat.cast_pos.mpr h
  have he : (n : ℚ) / d - (j * step : ℕ) = step * ((n : ℚ) / (d * step : ℕ) - j) := by
    push_cast
    field_simp
  rw [he, abs_mul, abs_of_pos hs]

theorem two_pow_log2_le (h : 52 < (n / d).log2) :
    (2 ^ (n / d).log2 : ℚ) ≤ (n : ℚ) / d := by
  have hn : n / d ≠ 0 := by
    rintro hn
    simp [hn] at h
  have hq : ((2 ^ (n / d).log2 : ℕ) : ℚ) ≤ (n / d : ℕ) := Nat.cast_le.mpr (Nat.log2_self_le hn)
  calc (2 ^ (n / d).log2 : ℚ) ≤ (n / d : ℕ) := by exact_mod_cast hq
    _ ≤ (n : ℚ) / d := Nat.cast_div_le

theorem abs_sub_roundSteps_le_mul (hd : 0 < d) (j : Nat) :
    |(n : ℚ) / d - roundSteps n d| ≤ |(n : ℚ) / d - (j * spacing (n / d) : ℕ)| := by
  have hs := spacing_pos (n / d)
  rw [roundSteps_eq, abs_sub_mul_spacing _ _ _ hs, abs_sub_mul_spacing _ _ _ hs]
  exact mul_le_mul_of_nonneg_left (nearestEven_nearest (Nat.mul_pos hd hs) n j)
    (Nat.cast_nonneg _)

/-- A count between the multiples of the spacing is smaller by so much that it is farther away. -/
theorem abs_sub_roundSteps_lt (hd : 0 < d) (hm : spacing m ∣ m) (h : ¬ spacing (n / d) ∣ m) :
    |(n : ℚ) / d - roundSteps n d| < |(n : ℚ) / d - m| := by
  have hlog : m.log2 < (n / d).log2 ∧ 52 < (n / d).log2 := by
    by_contra hc
    exact h (Nat.dvd_trans (Nat.pow_dvd_pow 2 (by omega)) hm)
  have hm0 : m ≠ 0 := by
    rintro rfl
    exact h (Nat.dvd_zero _)
  have hlt : (m : ℚ) < 2 ^ (n / d).log2 := by exact_mod_cast (Nat.log2_lt hm0).mp hlog.1
  have hle := two_pow_log2_le hlog.2
  have hpow : 2 ^ 52 * spacing (n / d) = 2 ^ (n / d).log2 := by
    rw [spacing, ← Nat.pow_add]
    congr 1
    omega
  have hnear := abs_sub_roundSteps_le_mul (n := n) hd (2 ^ 52)
  rw [hpow, Nat.cast_pow, Nat.cast_ofNat] at hnear
  calc |(n : ℚ) / d - roundSteps n d| ≤ |(n : ℚ) / d - 2 ^ (n / d).log2| := hnear
    _ = (n : ℚ) / d - 2 ^ (n / d).log2 := abs_of_nonneg (by linarith)
    _ < (n : ℚ) / d - m := by linarith
    _ = |(n : ℚ) / d - m| := (abs_of_pos (by linarith)).symm

/-- No count with 53 binary digits is nearer than the rounded one. -/
theorem roundSteps_nearest (hd : 0 < d) (hm : spacing m ∣ m) :
    |(n : ℚ) / d - roundSteps n d| ≤ |(n : ℚ) / d - m| := by
  by_cases h : spacing (n / d) ∣ m
  · obtain ⟨j, rfl⟩ := h
    rw [Nat.mul_comm (spacing (n / d)) j]
    exact abs_sub_roundSteps_le_mul hd j
  · exact (abs_sub_roundSteps_lt hd hm h).le

/-- The digits kept are the significand, unless they grow to one more. -/
theorem significand_roundSteps (n d : Nat) :
    significand (roundSteps n d) = nearestEven n (d * spacing (n / d)) ∨
      significand (roundSteps n d) = 2 ^ 52 := by
  have hk := le_nearestEven n (d * spacing (n / d))
  have hk' := nearestEven_le n (d * spacing (n / d))
  rw [← Nat.div_div_eq_div_mul] at hk hk'
  have hlt : n / d / spacing (n / d) < 2 ^ 53 := div_two_pow_log2_lt (n / d)
  have hge : 0 < (n / d).log2 - 52 → 2 ^ 52 ≤ n / d / spacing (n / d) := by
    intro he
    have hn : n / d ≠ 0 := by
      rintro hn
      simp [hn] at he
    rw [Nat.le_div_iff_mul_le (spacing_pos _), spacing, ← Nat.pow_add,
      show 52 + ((n / d).log2 - 52) = (n / d).log2 by omega]
    exact Nat.log2_self_le hn
  rw [roundSteps_eq]
  simp only [spacing] at hk hk' hlt hge ⊢
  generalize nearestEven n (d * 2 ^ ((n / d).log2 - 52)) = k at hk hk'
  generalize n / d / 2 ^ ((n / d).log2 - 52) = q at hk hk' hlt hge
  generalize (n / d).log2 - 52 = e at hge
  unfold significand spacing
  by_cases hmax : k = 2 ^ 53
  · right
    rw [hmax, ← Nat.pow_add, Nat.log2_two_pow, show 53 + e - 52 = e + 1 by omega,
      Nat.pow_div (by omega) (by decide), show 53 + e - (e + 1) = 52 by omega]
  · left
    have hlog : (k * 2 ^ e).log2 - 52 = e := by
      by_cases hk0 : k = 0
      · simp only [hk0, Nat.zero_mul, Nat.log2_zero]
        omega
      have hpos : k * 2 ^ e ≠ 0 := Nat.mul_ne_zero hk0 (Nat.ne_of_gt (Nat.two_pow_pos e))
      have hup : (k * 2 ^ e).log2 < 53 + e := by
        rw [Nat.log2_lt hpos, Nat.pow_add]
        exact Nat.mul_lt_mul_of_pos_right (by omega) (Nat.two_pow_pos e)
      by_cases he : 0 < e
      · have hlow : 52 + e ≤ (k * 2 ^ e).log2 := by
          rw [Nat.le_log2 hpos, Nat.pow_add]
          exact Nat.mul_le_mul_right _ (Nat.le_trans (hge he) hk)
        omega
      · omega
    rw [hlog, Nat.mul_div_cancel _ (Nat.two_pow_pos e)]

/-- A count that is as near as the rounded one leaves that one even. -/
theorem even_significand_roundSteps (hd : 0 < d) (hm : spacing m ∣ m) (hne : m ≠ roundSteps n d)
    (h : |(n : ℚ) / d - roundSteps n d| = |(n : ℚ) / d - m|) :
    significand (roundSteps n d) % 2 = 0 := by
  have hdvd : spacing (n / d) ∣ m := by
    by_contra hc
    exact (abs_sub_roundSteps_lt hd hm hc).ne h
  obtain ⟨j, rfl⟩ := hdvd
  have hs := spacing_pos (n / d)
  rw [Nat.mul_comm (spacing (n / d)) j] at hne h
  have heven : nearestEven n (d * spacing (n / d)) % 2 = 0 := by
    apply even_nearestEven_of_tie (Nat.mul_pos hd hs) (j := j)
    · rintro rfl
      exact hne rfl
    · rw [roundSteps_eq, abs_sub_mul_spacing _ _ _ hs, abs_sub_mul_spacing _ _ _ hs] at h
      exact mul_left_cancel₀ (Nat.cast_ne_zero.mpr hs.ne') h
  rcases significand_roundSteps n d with he | he
  · rw [he, heven]
  · rw [he]

/-- Above 2⁵² steps the error is at most half of the last of 53 digits. -/
theorem abs_sub_roundSteps_le (hd : 0 < d) (h : 2 ^ 52 ≤ n / d) :
    |(n : ℚ) / d - roundSteps n d| ≤ (n : ℚ) / d / 2 ^ 53 := by
  have hn : n / d ≠ 0 := by omega
  have hlog : 52 ≤ (n / d).log2 := (Nat.le_log2 hn).mpr h
  have hs := spacing_pos (n / d)
  have hle : ((2 ^ (n / d).log2 : ℕ) : ℚ) ≤ (n : ℚ) / d :=
    (Nat.cast_le.mpr (Nat.log2_self_le hn)).trans Nat.cast_div_le
  have hpow : (2 ^ 52 * spacing (n / d) : ℚ) ≤ (n : ℚ) / d := by
    rw [spacing]
    rw [show (n / d).log2 = 52 + ((n / d).log2 - 52) by omega, Nat.pow_add] at hle
    exact_mod_cast hle
  rw [roundSteps_eq, abs_sub_mul_spacing _ _ _ hs]
  calc (spacing (n / d) : ℚ) * |(n : ℚ) / (d * spacing (n / d) : ℕ) -
        nearestEven n (d * spacing (n / d))| ≤ spacing (n / d) * (1 / 2) :=
      mul_le_mul_of_nonneg_left (abs_sub_nearestEven_le (Nat.mul_pos hd hs) n) (Nat.cast_nonneg _)
    _ = 2 ^ 52 * spacing (n / d) / 2 ^ 53 := by ring
    _ ≤ (n : ℚ) / d / 2 ^ 53 := by gcongr

/-- Rounding does not pass over a count that it could stay at. -/
theorem roundSteps_le_of_le (hd : 0 < d) (hm : spacing m ∣ m) (h : (n : ℚ) / d ≤ m) :
    roundSteps n d ≤ m := by
  by_contra hc
  have hlt : (m : ℚ) < roundSteps n d := Nat.cast_lt.mpr (Nat.not_le.mp hc)
  have hnear := roundSteps_nearest (n := n) hd hm
  rw [abs_of_nonpos (by linarith), abs_of_nonpos (by linarith)] at hnear
  linarith

theorem lt_of_roundSteps_lt (hd : 0 < d) (hm : spacing m ∣ m) (h : roundSteps n d < m) :
    (n : ℚ) / d < m := by
  by_contra hc
  have hle : (m : ℚ) ≤ (n : ℚ) / d := not_lt.mp hc
  have hlt : (roundSteps n d : ℚ) < m := Nat.cast_lt.mpr h
  have hnear := roundSteps_nearest (n := n) hd hm
  rw [abs_of_nonneg (by linarith), abs_of_nonneg (by linarith)] at hnear
  linarith

theorem half_le_of_roundSteps_ne_zero (hd : 0 < d) (h : roundSteps n d ≠ 0) :
    1 / 2 ≤ (n : ℚ) / d := by
  by_contra hc
  have hlt : (n : ℚ) / d < 1 / 2 := not_le.mp hc
  have hone : (1 : ℚ) ≤ roundSteps n d := by exact_mod_cast Nat.one_le_iff_ne_zero.mpr h
  have hv : 0 ≤ (n : ℚ) / d := by positivity
  have hnear := roundSteps_nearest (n := n) hd (m := 0) (Nat.dvd_zero _)
  rw [Nat.cast_zero, sub_zero, abs_of_nonpos (by linarith), abs_of_nonneg hv] at hnear
  linarith

theorem spacing_le (h : m ≠ 0) : spacing m ≤ m :=
  (Nat.pow_le_pow_right (by decide) (Nat.sub_le ..)).trans (Nat.log2_self_le h)

theorem roundSteps_le (n d : Nat) : roundSteps n d ≤ n / d + spacing (n / d) := by
  have hk := nearestEven_le n (d * spacing (n / d))
  rw [← Nat.div_div_eq_div_mul] at hk
  calc roundSteps n d ≤ (n / d / spacing (n / d) + 1) * spacing (n / d) :=
      Nat.mul_le_mul_right _ hk
    _ = n / d / spacing (n / d) * spacing (n / d) + spacing (n / d) := Nat.succ_mul ..
    _ ≤ n / d + spacing (n / d) := Nat.add_le_add_right (Nat.div_mul_le_self ..) _

theorem roundSteps_le_two_mul (h : n / d ≠ 0) : roundSteps n d ≤ 2 * (n / d) := by
  have h := (roundSteps_le n d).trans (Nat.add_le_add_left (spacing_le h) _)
  omega

namespace Binary64

/-- The number of steps in one. No proof is to compute it. -/
@[irreducible]
def stepsInOne : ℚ := 2 ^ 1074

def ofSign (negative : Bool) (q : ℚ) : ℚ := if negative then -q else q

def toRat : Binary64 → ℚ
  | finite s units _ => ofSign s units / stepsInOne
  | _ => 0

/-- A finite number is nearest to a rational if no other is nearer, and none is as near unless the
last binary digit of this one is zero. -/
structure IsNearest (x : Binary64) (r : ℚ) : Prop where
  isFinite : x.isFinite
  le : ∀ y : Binary64, y.isFinite → |r - x.toRat| ≤ |r - y.toRat|
  even : ∀ y : Binary64, y.isFinite → y.toRat ≠ x.toRat → |r - x.toRat| = |r - y.toRat| →
    ∃ s units h, x = finite s units h ∧ significand units % 2 = 0

variable {x y : Binary64} {q r : ℚ} {units : Nat} {hu : Representable units}

theorem cast_two_pow (n : Nat) : ((2 ^ n : Nat) : ℚ) = 2 ^ n := by
  push_cast
  rfl

theorem cast_stepsInOne : ((2 ^ 1074 : Nat) : ℚ) = stepsInOne := by
  unfold stepsInOne
  apply cast_two_pow

theorem stepsInOne_pos : 0 < stepsInOne := by
  rw [stepsInOne]
  apply pow_pos
  exact two_pos

theorem stepsInOne_ne_zero : stepsInOne ≠ 0 := stepsInOne_pos.ne'

@[simp] theorem abs_ofSign (s : Bool) (q : ℚ) : |ofSign s q| = |q| := by
  cases s <;> simp [ofSign]

theorem ofSign_not (s : Bool) (q : ℚ) : ofSign (!s) q = ofSign s (-q) := by
  cases s <;> simp [ofSign]

theorem ofSign_mul (s t : Bool) (q r : ℚ) : ofSign s q * ofSign t r = ofSign (s != t) (q * r) := by
  cases s <;> cases t <;> simp [ofSign]

theorem ofSign_div (s t : Bool) (q r : ℚ) : ofSign s q / ofSign t r = ofSign (s != t) (q / r) := by
  cases s <;> cases t <;> simp [ofSign, neg_div, div_neg]

theorem ofSign_div_right (s : Bool) (q r : ℚ) : ofSign s (q / r) = ofSign s q / r := by
  cases s <;> simp [ofSign, neg_div]

theorem abs_ofSign_sub (s : Bool) (q r : ℚ) :
    |ofSign s q / stepsInOne - ofSign s r / stepsInOne| = |q - r| / stepsInOne := by
  rw [← sub_div, abs_div, abs_of_pos stepsInOne_pos]
  cases s with
  | false => rfl
  | true => rw [ofSign, ofSign, if_pos rfl, if_pos rfl, neg_sub_neg, abs_sub_comm]

theorem signed_eq_ofSign (s : Bool) (n : Nat) : (signed s n : ℚ) = ofSign s n := by
  cases s <;> simp [signed, ofSign]

theorem exists_finite (h : x.isFinite) : ∃ s units hu, x = finite s units hu := by
  cases x with
  | finite s units hu => exact ⟨s, units, hu, rfl⟩
  | nan | infinite => cases h

theorem toRat_finite : (finite s units hu).toRat = ofSign s units / stepsInOne := rfl

@[simp] theorem toRat_zero (s : Bool) : (zero s).toRat = 0 := by
  cases s <;> simp [zero, toRat, ofSign]

theorem div_le_two_pow (hd : 0 < d) (h : (n : ℚ) / d ≤ 2 ^ k) : n / d ≤ 2 ^ k := by
  rw [div_le_iff₀ (Nat.cast_pos.mpr hd), ← cast_two_pow, ← Nat.cast_mul, Nat.cast_le] at h
  apply Nat.div_le_of_le_mul
  rwa [Nat.mul_comm]

theorem div_lt_of_le (hd : 0 < d) (h : (n : ℚ) / d ≤ 2 ^ 200 * stepsInOne) :
    n / d < 2 ^ 2097 := by
  rw [stepsInOne, ← pow_add] at h
  refine (div_le_two_pow hd h).trans_lt ?_
  apply Nat.pow_lt_pow_right
  · decide
  · decide

theorem log2_roundSteps_lt (hk : k ≠ 0) (h : n / d < 2 ^ k) : (roundSteps n d).log2 < k + 1 := by
  by_cases hR : roundSteps n d = 0
  · rw [hR, Nat.log2_zero]
    exact Nat.succ_pos k
  · rw [Nat.log2_lt hR, Nat.pow_succ]
    by_cases hn : n / d = 0
    · have hle := roundSteps_le n d
      have hlt := Nat.one_lt_two_pow hk
      rw [hn, show spacing 0 = 1 from rfl] at hle
      omega
    · have hle := roundSteps_le_two_mul hn
      omega

theorem isFinite_ofSteps (h : n / d < 2 ^ 2097) : (ofSteps s n d).isFinite := by
  rw [ofSteps, dif_pos (log2_roundSteps_lt (by decide) h)]
  rfl

theorem exists_ofSteps_eq (h : (ofSteps s n d).isFinite) :
    ∃ hu, ofSteps s n d = finite s (roundSteps n d) hu := by
  obtain ⟨t, units, hu, he⟩ := exists_finite h
  obtain ⟨rfl, rfl⟩ := ofSteps_eq_finite_iff.mp he
  exact ⟨hu, he⟩

theorem isNearest_ofSteps (hd : 0 < d) (h : (ofSteps s n d).isFinite) :
    (ofSteps s n d).IsNearest (ofSign s ((n : ℚ) / d) / stepsInOne) := by
  obtain ⟨hu, he⟩ := exists_ofSteps_eq h
  have hS := stepsInOne_pos
  have hv : 0 ≤ (n : ℚ) / d := by positivity
  rw [he]
  simp only [he] at h
  have hsame {m : Nat} (hm : Representable m) :
      |ofSign s ((n : ℚ) / d) / stepsInOne - (finite s m hm).toRat| =
        |(n : ℚ) / d - m| / stepsInOne := abs_ofSign_sub s _ _
  have hx := hsame hu
  -- a number of the other sign is no nearer than zero
  have hother {m : Nat} (hm : Representable m) :
      |ofSign s ((n : ℚ) / d) / stepsInOne - (finite (!s) m hm).toRat| =
        ((n : ℚ) / d + m) / stepsInOne := by
    rw [toRat_finite, ofSign_not, abs_ofSign_sub, sub_neg_eq_add, abs_of_nonneg (by positivity)]
  have hzero := roundSteps_nearest (n := n) hd representable_zero.spacing_dvd
  rw [Nat.cast_zero, sub_zero, abs_of_nonneg hv] at hzero
  refine ⟨h, ?_, ?_⟩
  · intro y hy
    obtain ⟨t, m, hm, rfl⟩ := exists_finite hy
    rw [hx]
    rcases Bool.eq_or_eq_not t s with rfl | rfl
    · rw [hsame hm]
      exact div_le_div_of_nonneg_right (roundSteps_nearest hd hm.spacing_dvd) hS.le
    · rw [hother hm]
      exact div_le_div_of_nonneg_right (hzero.trans (le_add_of_nonneg_right (Nat.cast_nonneg m)))
        hS.le
  · intro y hy hne heq
    obtain ⟨t, m, hm, rfl⟩ := exists_finite hy
    refine ⟨s, _, hu, rfl, ?_⟩
    rw [hx] at heq
    rcases Bool.eq_or_eq_not t s with rfl | rfl
    · rw [hsame hm, div_left_inj' hS.ne'] at heq
      refine even_significand_roundSteps hd hm.spacing_dvd ?_ heq
      rintro rfl
      exact hne rfl
    · rw [hother hm, div_left_inj' hS.ne'] at heq
      have hm0 : (m : ℚ) = 0 := le_antisymm (by linarith) (Nat.cast_nonneg m)
      obtain rfl : m = 0 := by exact_mod_cast hm0
      refine even_significand_roundSteps hd hm.spacing_dvd ?_
        (by rw [heq, hm0, add_zero, sub_zero, abs_of_nonneg hv])
      rintro h0
      apply hne
      simp only [toRat_finite, ← h0, Nat.cast_zero, ofSign, neg_zero, ite_self]

theorem mul_stepsInOne (s : Bool) (n d : Nat) :
    ofSign s ((n * 2 ^ 1074 : ℕ) / d) / stepsInOne = ofSign s ((n : ℚ) / d) := by
  rw [Nat.cast_mul, cast_stepsInOne, mul_div_right_comm, ← ofSign_div_right,
    mul_div_cancel_right₀ _ stepsInOne_ne_zero]

theorem ofSteps_zero (hd : 0 < d) : ofSteps s 0 d = zero s := by
  apply ofSteps_eq_finite_iff.mpr
  have h := roundSteps_mul (q := 0) hd (Nat.dvd_zero _)
  rw [Nat.zero_mul] at h
  exact ⟨rfl, h⟩

theorem ofRatio_zero (hd : 0 < d) : ofRatio s 0 d = zero s := by
  unfold ofRatio
  generalize 1074 = k
  rw [Nat.zero_mul]
  exact ofSteps_zero hd

theorem isNearest_ofRatio (hd : 0 < d) (h : (n : ℚ) / d ≤ 2 ^ 200) :
    (ofRatio s n d).IsNearest (ofSign s ((n : ℚ) / d)) := by
  rw [← mul_stepsInOne]
  apply isNearest_ofSteps hd
  apply isFinite_ofSteps
  apply div_lt_of_le hd
  rw [Nat.cast_mul, cast_stepsInOne, mul_div_right_comm]
  exact mul_le_mul_of_nonneg_right h stepsInOne_pos.le

end Binary64

end RecordSieve
