import Mathlib.Algebra.Order.Field.Rat
import RecordSieve.Decimal
import RecordSieve.Proofs.Binary64.Equality
import RecordSieve.Proofs.Binary64.Precision

/-! # Decimals as rationals

What the operations on decimals compute. The fraction of an operation is its exact result, and
rounding to 28 places leaves an exact result alone that is a decimal itself. A remainder always is
one.
-/

namespace RecordSieve

namespace Operation

/-- The exact result of an operation on rationals. The remainder is that of a division toward zero,
which has the sign of the dividend. -/
inductive Exact (x y : ℚ) : Operation → ℚ → Prop
  | add : Exact x y .add (x + y)
  | subtract : Exact x y .subtract (x - y)
  | multiply : Exact x y .multiply (x * y)
  | divide (hy : y ≠ 0) : Exact x y .divide (x / y)
  | modulo {q : ℤ} {r : ℚ} (hx : x = q * y + r) (hr : |r| < |y|) (hs : 0 ≤ x * r) :
    Exact x y .modulo r

variable {x y r r' : ℚ}

/-- Two remainders of one dividend are on the same side of zero, so that they are less than a
divisor apart. -/
theorem abs_remainder_sub_lt {q q' : ℤ} (hx : x = q * y + r) (hr : |r| < |y|) (hs : 0 ≤ x * r)
    (hx' : x = q' * y + r') (hr' : |r'| < |y|) (hs' : 0 ≤ x * r') : |r - r'| < |y| := by
  have hzero {q : ℤ} {r : ℚ} (h : (0 : ℚ) = q * y + r) (hr : |r| < |y|) : r = 0 := by
    have hq : |(q : ℚ)| * |y| < 1 * |y| := by
      rw [← abs_mul, one_mul, eq_neg_of_add_eq_zero_left h.symm, abs_neg]
      exact hr
    have hq0 : |q| < 1 := by exact_mod_cast lt_of_mul_lt_mul_right hq (abs_nonneg y)
    rw [Int.abs_lt_one_iff] at hq0
    rw [hq0, Int.cast_zero, zero_mul, zero_add] at h
    exact h.symm
  rcases lt_trichotomy x 0 with hneg | rfl | hpos
  · have h := nonpos_of_mul_nonneg_right hs hneg
    have h' := nonpos_of_mul_nonneg_right hs' hneg
    rw [abs_of_nonpos h] at hr
    rw [abs_of_nonpos h'] at hr'
    rw [← abs_neg, neg_sub', sub_neg_eq_add, ← sub_neg_eq_add]
    exact abs_sub_lt_of_nonneg_of_lt (neg_nonneg.mpr h) hr (neg_nonneg.mpr h') hr'
  · rw [hzero hx hr, hzero hx' hr', sub_zero, abs_zero]
    exact (abs_nonneg r).trans_lt hr
  · have h := nonneg_of_mul_nonneg_right hs hpos
    have h' := nonneg_of_mul_nonneg_right hs' hpos
    rw [abs_of_nonneg h] at hr
    rw [abs_of_nonneg h'] at hr'
    exact abs_sub_lt_of_nonneg_of_lt h hr h' hr'

theorem Exact.unique {op : Operation} (h : Exact x y op r) (h' : Exact x y op r') : r = r' := by
  cases h with
  | add | subtract | multiply | divide =>
    cases h'
    rfl
  | @modulo q _ hx hr hs =>
    cases h' with
    | @modulo q' _ hx' hr' hs' =>
      have hlt := abs_remainder_sub_lt hx hr hs hx' hr' hs'
      have heq : ((q' - q : ℤ) : ℚ) * y = r - r' := by
        push_cast
        linarith
      rw [← heq, abs_mul] at hlt
      have hq : |((q' - q : ℤ) : ℚ)| < 1 := by
        rwa [← mul_lt_iff_lt_one_left ((abs_nonneg r).trans_lt hr)]
      have hq0 : q' - q = 0 := Int.abs_lt_one_iff.mp (by exact_mod_cast hq)
      rw [hq0, Int.cast_zero, zero_mul] at heq
      exact sub_eq_zero.mp heq.symm

theorem exact_tmod {i j : ℤ} {u : ℚ} (hu : 0 < u) (hj : j ≠ 0) :
    Exact (i / u) (j / u) .modulo ((i.tmod j : ℤ) / u) := by
  have habs : |i.tmod j| < |j| := by
    rw [Int.abs_eq_natAbs, Int.abs_eq_natAbs, Int.natAbs_tmod, Int.ofNat_lt]
    exact Nat.mod_lt _ (Int.natAbs_pos.mpr hj)
  have hsign : 0 ≤ i * i.tmod j := by
    rcases le_total 0 i with hi | hi
    · exact mul_nonneg hi (Int.tmod_nonneg j hi)
    · apply mul_nonneg_of_nonpos_of_nonpos hi
      rw [← neg_nonneg, ← Int.neg_tmod]
      exact Int.tmod_nonneg j (neg_nonneg.mpr hi)
  have hdiv : (i : ℚ) = i.tdiv j * j + i.tmod j := by
    exact_mod_cast (Int.tdiv_mul_add_tmod i j).symm
  refine .modulo (q := i.tdiv j) ?_ ?_ ?_
  · rw [← mul_div_assoc, ← add_div, ← hdiv]
  · rw [abs_div, abs_div]
    apply div_lt_div_of_pos_right _ (abs_pos.mpr hu.ne')
    exact_mod_cast habs
  · rw [div_mul_div_comm]
    apply div_nonneg _ (mul_pos hu hu).le
    exact_mod_cast hsign

end Operation

namespace Decimal

def value (x : Decimal) : ℚ := x.coefficient / 10 ^ x.scale

variable {x y z : Decimal} {c n : ℤ} {d k s : Nat}

theorem value_eq_div (h : x.scale ≤ k) :
    x.value = (x.coefficient * 10 ^ (k - x.scale) : ℤ) / 10 ^ k := by
  have hk : (10 : ℚ) ^ k = 10 ^ (k - x.scale) * 10 ^ x.scale := by
    rw [← pow_add, Nat.sub_add_cancel h]
  rw [value, hk]
  push_cast
  field_simp

@[simp] theorem value_eq_zero_iff : x.value = 0 ↔ x.coefficient = 0 := by
  have h : (10 : ℚ) ^ x.scale ≠ 0 := by positivity
  rw [value, div_eq_zero_iff, or_iff_left h, Int.cast_eq_zero]

theorem mk?_eq_some (h : mk? c s = some z) : z.coefficient = c ∧ z.scale = s := by
  unfold mk? at h
  split at h
  · cases h
    exact ⟨rfl, rfl⟩
  · cases h

theorem mk?_coefficient (x : Decimal) : mk? x.coefficient x.scale = some x :=
  dif_pos ⟨x.fits, x.scale_le⟩

theorem coefficient_mul_eq (hd : 0 < d) (h : x.value = n / d) :
    x.coefficient * d = n * 10 ^ x.scale := by
  have hd' : (d : ℚ) ≠ 0 := Nat.cast_ne_zero.mpr hd.ne'
  rw [value, div_eq_div_iff (by positivity) hd'] at h
  exact_mod_cast h

theorem neg_iff_coefficient_neg (hd : 0 < d) (h : x.value = n / d) :
    n < 0 ↔ x.coefficient < 0 := by
  have hpow : (0 : ℤ) < 10 ^ x.scale := by positivity
  calc n < 0 ↔ n * 10 ^ x.scale < 0 * 10 ^ x.scale := (mul_lt_mul_iff_of_pos_right hpow).symm
    _ ↔ x.coefficient * d < 0 * d := by rw [coefficient_mul_eq hd h, zero_mul, zero_mul]
    _ ↔ x.coefficient < 0 := mul_lt_mul_iff_of_pos_right (Int.natCast_pos.mpr hd)

theorem rounded_eq (hd : 0 < d) (h : x.value = n / d) (hk : x.scale ≤ k) :
    Binary64.signed (n < 0) (nearestEven (n.natAbs * 10 ^ k) d) =
      x.coefficient * 10 ^ (k - x.scale) := by
  have hc := coefficient_mul_eq hd h
  have habs : n.natAbs * 10 ^ k = x.coefficient.natAbs * 10 ^ (k - x.scale) * d := by
    have hnat := congrArg Int.natAbs hc
    rw [Int.natAbs_mul, Int.natAbs_mul, Int.natAbs_pow, Int.natAbs_natCast] at hnat
    calc n.natAbs * 10 ^ k = n.natAbs * 10 ^ x.scale * 10 ^ (k - x.scale) := by
          rw [Nat.mul_assoc, ← Nat.pow_add, Nat.add_sub_cancel' hk]
      _ = x.coefficient.natAbs * d * 10 ^ (k - x.scale) := by rw [hnat]; rfl
      _ = x.coefficient.natAbs * 10 ^ (k - x.scale) * d := Nat.mul_right_comm ..
  have hsign := neg_iff_coefficient_neg hd h
  rw [habs, Binary64.nearestEven_mul hd, decide_eq_decide.mpr hsign, Binary64.signed]
  push_cast
  by_cases hneg : x.coefficient < 0
  · rw [if_pos (decide_eq_true hneg), abs_of_neg hneg, neg_mul, neg_neg]
  · rw [if_neg (by simpa using hneg), abs_of_nonneg (not_lt.mp hneg)]

theorem round?_zero_eq (n : ℤ) (d : Nat) :
    round? n d 0 = mk? (Binary64.signed (n < 0) (nearestEven (n.natAbs * 10 ^ 0) d)) 0 := by
  rw [Nat.pow_zero, Nat.mul_one]
  rfl

theorem value_of_mk?_rounded (hd : 0 < d) (h : x.value = n / d) (hk : x.scale ≤ k)
    (hz : mk? (Binary64.signed (n < 0) (nearestEven (n.natAbs * 10 ^ k) d)) k = some z) :
    z.value = x.value := by
  obtain ⟨hc, hs⟩ := mk?_eq_some hz
  rw [value, hc, hs, rounded_eq hd h hk, ← value_eq_div hk]

/-- Rounding leaves a fraction alone that is a decimal of no more places. -/
theorem round?_exact (hd : 0 < d) (h : x.value = n / d) (hk : x.scale ≤ k) :
    ∃ z, round? n d k = some z ∧ z.value = x.value := by
  induction k with
  | zero =>
    have hs : x.scale = 0 := Nat.le_zero.mp hk
    refine ⟨x, ?_, rfl⟩
    rw [round?_zero_eq, rounded_eq hd h hk, hs, Nat.sub_zero, pow_zero, mul_one, ← hs,
      mk?_coefficient]
  | succ k ih =>
    unfold round?
    cases hm : mk? (Binary64.signed (n < 0) (nearestEven (n.natAbs * 10 ^ (k + 1)) d)) (k + 1) with
    | some z => exact ⟨z, rfl, value_of_mk?_rounded hd h hk hm⟩
    | none =>
      -- at its own scale the decimal fits, so that scale is smaller
      have hne : x.scale ≠ k + 1 := by
        rintro hs
        rw [rounded_eq hd h hk, hs, Nat.sub_self, pow_zero, mul_one, ← hs, mk?_coefficient] at hm
        cases hm
      exact ih (by omega)

theorem value_eq_common (x y : Decimal) :
    x.value = (common x y).1 / 10 ^ (x.scale + y.scale) ∧
      y.value = (common x y).2 / 10 ^ (x.scale + y.scale) := by
  constructor
  · rw [value_eq_div (Nat.le_add_right ..), Nat.add_sub_cancel_left]
    rfl
  · rw [value_eq_div (Nat.le_add_left ..), Nat.add_sub_cancel_right]
    rfl

theorem exists_fraction? (op : Operation) (x y : Decimal)
    (hy : op = .divide ∨ op = .modulo → y.value ≠ 0) :
    ∃ n d, fraction? op x y = some (n, d) ∧ 0 < d ∧ Operation.Exact x.value y.value op (n / d) := by
  obtain ⟨hx', hy'⟩ := value_eq_common x y
  have hu : (0 : ℚ) < 10 ^ (x.scale + y.scale) := by positivity
  have hu' : 0 < 10 ^ (x.scale + y.scale) := Nat.pow_pos (by decide)
  have hcast : ((10 ^ (x.scale + y.scale) : Nat) : ℚ) = 10 ^ (x.scale + y.scale) := by
    push_cast
    rfl
  have hj (h : op = .divide ∨ op = .modulo) : (common x y).2 ≠ 0 := by
    intro h0
    apply hy h
    rw [hy', h0, Int.cast_zero, zero_div]
  cases op with
  | add =>
    refine ⟨(common x y).1 + (common x y).2, _, rfl, hu', ?_⟩
    rw [hcast, Int.cast_add, add_div, ← hx', ← hy']
    exact .add
  | subtract =>
    refine ⟨(common x y).1 - (common x y).2, _, rfl, hu', ?_⟩
    rw [hcast, Int.cast_sub, sub_div, ← hx', ← hy']
    exact .subtract
  | multiply =>
    refine ⟨_, _, rfl, hu', ?_⟩
    rw [hcast, Int.cast_mul, pow_add, ← div_mul_div_comm]
    exact .multiply
  | divide =>
    have hj := hj (.inl rfl)
    refine ⟨(common x y).1 * (common x y).2.sign, (common x y).2.natAbs, if_neg hj,
      Int.natAbs_pos.mpr hj, ?_⟩
    have hquot : ((common x y).1 * (common x y).2.sign : ℤ) / ((common x y).2.natAbs : ℚ) =
        x.value / y.value := by
      rw [hx', hy', div_div_div_cancel_right₀ hu.ne']
      have hj' : ((common x y).2 : ℚ) ≠ 0 := Int.cast_ne_zero.mpr hj
      have habs : (((common x y).2.natAbs : ℤ) : ℚ) ≠ 0 := by simpa using hj
      rw [← Int.cast_natCast (common x y).2.natAbs, div_eq_div_iff habs hj', ← Int.cast_mul,
        ← Int.cast_mul, Int.mul_assoc, Int.sign_mul_self_eq_natAbs]
    rw [hquot]
    exact .divide (hy (.inl rfl))
  | modulo =>
    have hj := hj (.inr rfl)
    refine ⟨_, _, if_neg hj, hu', ?_⟩
    rw [hcast, hx', hy']
    exact Operation.exact_tmod hu hj

theorem exists_result? {op : Operation} {r : ℚ} (hy : op = .divide ∨ op = .modulo → y.value ≠ 0)
    (hr : Operation.Exact x.value y.value op r) (hz : ∃ z : Decimal, z.value = r) :
    ∃ z, result? op x y = some z ∧ z.value = r := by
  obtain ⟨n, d, hf, hd, he⟩ := exists_fraction? op x y hy
  obtain ⟨z, rfl⟩ := hz
  obtain ⟨w, hw, hv⟩ := round?_exact hd (hr.unique he) z.scale_le
  refine ⟨w, ?_, hv⟩
  rw [result?, hf]
  exact hw

/-- A remainder is a decimal: it has the places of one operand, and on the side of that operand it
is no greater than it. -/
theorem exists_remainder (x : Decimal) (hy : y.value ≠ 0) :
    ∃ z : Decimal, Operation.Exact x.value y.value .modulo z.value := by
  have hc : y.coefficient ≠ 0 := by rwa [Ne, value_eq_zero_iff] at hy
  have hpow (k : Nat) : (10 : ℤ) ^ k ≠ 0 := by positivity
  rcases le_total x.scale y.scale with hs | hs
  · have hlt : ((x.coefficient * 10 ^ (y.scale - x.scale)).tmod y.coefficient).natAbs < 2 ^ 96 := by
      rw [Int.natAbs_tmod]
      exact (Nat.mod_lt _ (Int.natAbs_pos.mpr hc)).trans y.fits
    refine ⟨⟨_, y.scale, hlt, y.scale_le⟩, ?_⟩
    rw [value_eq_div hs]
    exact Operation.exact_tmod (by positivity) hc
  · have hlt : (x.coefficient.tmod (y.coefficient * 10 ^ (x.scale - y.scale))).natAbs < 2 ^ 96 := by
      rw [Int.natAbs_tmod]
      exact (Nat.mod_le _ _).trans_lt x.fits
    refine ⟨⟨_, x.scale, hlt, x.scale_le⟩, ?_⟩
    rw [value_eq_div hs]
    exact Operation.exact_tmod (by positivity) (mul_ne_zero hc (hpow _))

theorem moderate_value (h : x.value ≠ 0) : Moderate 96 x.value := by
  have hc : x.coefficient ≠ 0 := by rwa [Ne, value_eq_zero_iff] at h
  have hlo : (1 : ℚ) ≤ |(x.coefficient : ℚ)| := by exact_mod_cast Int.one_le_abs hc
  have hhi : |(x.coefficient : ℚ)| ≤ 2 ^ 96 := by
    rw [← Int.cast_abs, Int.abs_eq_natAbs, Int.cast_natCast, ← Binary64.cast_two_pow]
    exact Nat.cast_le.mpr x.fits.le
  have hscale : (10 : ℚ) ^ x.scale ≤ 2 ^ 96 :=
    calc (10 : ℚ) ^ x.scale ≤ 10 ^ 28 := pow_le_pow_right₀ (by norm_num) x.scale_le
      _ ≤ 2 ^ 96 := by norm_num
  have hpos : (0 : ℚ) < 10 ^ x.scale := by positivity
  have hone : (1 : ℚ) ≤ 10 ^ x.scale := one_le_pow₀ (by norm_num)
  rw [Moderate, value, abs_div, abs_of_pos hpos]
  constructor
  · rw [div_le_div_iff₀ (by positivity) hpos]
    nlinarith
  · rw [div_le_iff₀ hpos]
    nlinarith

theorem value_eq_ofSign (x : Decimal) :
    x.value = Binary64.ofSign (x.coefficient < 0) ((x.coefficient.natAbs : ℚ) / (10 ^ x.scale : ℕ))
    := by
  rw [Binary64.ofSign_div_right, value, Nat.cast_natAbs, Int.cast_abs, Nat.cast_pow,
    Nat.cast_ofNat, Binary64.ofSign]
  congr 1
  by_cases hneg : x.coefficient < 0
  · rw [if_pos (decide_eq_true hneg), abs_of_neg (Int.cast_lt_zero.mpr hneg), neg_neg]
  · rw [if_neg (by simpa using hneg), abs_of_nonneg (Int.cast_nonneg (not_lt.mp hneg))]

theorem isNearest_toBinary64 (x : Decimal) : x.toBinary64.IsNearest x.value := by
  rw [value_eq_ofSign]
  apply Binary64.isNearest_ofRatio (Nat.pow_pos (by decide))
  have hnat : (x.coefficient.natAbs : ℚ) ≤ 2 ^ 96 := by
    rw [← Binary64.cast_two_pow]
    exact Nat.cast_le.mpr x.fits.le
  have hone : (1 : ℚ) ≤ (10 ^ x.scale : ℕ) := by exact_mod_cast Nat.one_le_pow _ _ (by decide)
  calc (x.coefficient.natAbs : ℚ) / (10 ^ x.scale : ℕ) ≤ x.coefficient.natAbs :=
      div_le_self (Nat.cast_nonneg _) hone
    _ ≤ 2 ^ 96 := hnat
    _ ≤ 2 ^ 200 := pow_le_pow_right₀ one_le_two (by decide)

theorem toBinary64_of_value_eq_zero (h : x.value = 0) : x.toBinary64 = .zero false := by
  rw [value_eq_zero_iff] at h
  rw [toBinary64, h]
  exact Binary64.ofRatio_zero (Nat.pow_pos (by decide))

theorem within_toBinary64 (x : Decimal) : Within 53 x.toBinary64.toRat x.value := by
  by_cases h : x.value = 0
  · rw [h, toBinary64_of_value_eq_zero h, Binary64.toRat_zero]
    exact .refl 53 0
  · have hm := (moderate_value h).mono (show 96 ≤ 200 by decide)
    rw [value_eq_ofSign] at hm ⊢
    exact (Binary64.approximates_ofRatio (Nat.pow_pos (by decide)) hm).within

theorem equal_of_ofBinary64? {a : Binary64} (h : ofBinary64? a = some x) :
    x.toBinary64.equal a := by
  cases a with
  | nan | infinite => cases h
  | finite => exact (Option.filter_eq_some_iff.mp h).2

theorem toRat_of_ofBinary64? {a : Binary64} (h : ofBinary64? a = some x) :
    a.isFinite ∧ a.toRat = x.toBinary64.toRat := by
  cases a with
  | nan | infinite => cases h
  | finite s units hu =>
    have hfin := x.isNearest_toBinary64.isFinite
    have htoRat := Binary64.toRat_eq_of_equal (equal_of_ofBinary64? h) hfin
    exact ⟨rfl, htoRat.2.symm⟩

theorem approximates_of_ofBinary64? {a : Binary64} (h : ofBinary64? a = some x) :
    a.Approximates x.value := by
  obtain ⟨hfin, htoRat⟩ := toRat_of_ofBinary64? h
  refine ⟨hfin, ?_⟩
  rw [htoRat]
  exact within_toBinary64 x

theorem exists_value_eq_neg (x : Decimal) : ∃ z : Decimal, z.value = -x.value := by
  refine ⟨⟨-x.coefficient, x.scale, by rw [Int.natAbs_neg]; exact x.fits, x.scale_le⟩, ?_⟩
  rw [value, value, Int.cast_neg, neg_div]

theorem toBinary64_eq_neg (h : z.value = -x.value) (h0 : x.value ≠ 0) :
    z.toBinary64 = x.toBinary64.neg := by
  have hne : x.coefficient ≠ 0 := by rwa [Ne, value_eq_zero_iff] at h0
  have hpow (k : Nat) : 0 < 10 ^ k := Nat.pow_pos (by decide)
  have hvalue : z.value = (-x.coefficient : ℤ) / (10 ^ x.scale : ℕ) := by
    rw [h, value]
    push_cast
    rw [neg_div]
  have hmul := congrArg Int.natAbs (coefficient_mul_eq (hpow x.scale) hvalue)
  rw [Int.natAbs_mul, Int.natAbs_mul, Int.natAbs_neg, Int.natAbs_pow, Int.natAbs_natCast] at hmul
  have hsign : decide (z.coefficient < 0) = !decide (x.coefficient < 0) := by
    have hneg := neg_iff_coefficient_neg (hpow x.scale) hvalue
    rw [← decide_not, decide_eq_decide]
    omega
  rw [toBinary64, toBinary64, ← Binary64.ofRatio_not, hsign]
  exact Binary64.ofRatio_congr (hpow z.scale) (hpow x.scale) hmul

/-- Opposite decimals are rounded to opposite numbers, whatever their scales; the zero that they
give is the positive one. -/
theorem equal_neg_toBinary64 (h : z.value = -x.value) :
    z.toBinary64.equal x.toBinary64.neg := by
  by_cases h0 : x.value = 0
  · have hz : z.value = 0 := by rw [h, h0, neg_zero]
    rw [toBinary64_of_value_eq_zero h0, toBinary64_of_value_eq_zero hz]
    rfl
  · rw [← toBinary64_eq_neg h h0, Binary64.equal_self_iff]
    rintro hnan
    have hfin := z.isNearest_toBinary64.isFinite
    rw [hnan] at hfin
    cases hfin

end Decimal

end RecordSieve
