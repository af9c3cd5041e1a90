/-! # Binary floating-point numbers of 64 bits

A finite number is a sign and a count of steps of 2⁻¹⁰⁷⁴, the least positive number; the counts
that occur are those with at most 53 significant binary digits below 2²⁰⁹⁸. Rounding is to the
nearest such count, a tie going to the even one, and to infinity from 2²⁰⁹⁸ on.
-/

-- A power means the same whatever algebra is in scope.
attribute [instance (high), default_instance high] instPowNat

namespace RecordSieve

/-- The integer nearest to `n / d`; a tie goes to the even one. -/
def nearestEven (n d : Nat) : Nat :=
  if 2 * (n % d) < d ∨ (2 * (n % d) = d ∧ n / d % 2 = 0) then n / d else n / d + 1

theorem nearestEven_le (n d : Nat) : nearestEven n d ≤ n / d + 1 := by
  unfold nearestEven; split <;> omega

theorem le_nearestEven (n d : Nat) : n / d ≤ nearestEven n d := by
  unfold nearestEven; split <;> omega

/-- The counts of steps that have at most 53 significant binary digits and are below overflow. -/
def Representable (units : Nat) : Prop :=
  units.log2 < 2098 ∧ 2 ^ (units.log2 - 52) ∣ units

instance : DecidablePred Representable := fun _ => inferInstanceAs (Decidable (_ ∧ _))

theorem representable_zero : Representable 0 := ⟨by decide, Nat.dvd_zero _⟩

/-- Rounds `n / d` steps to 53 significant binary digits. -/
def roundSteps (n d : Nat) : Nat :=
  let step := 2 ^ ((n / d).log2 - 52)
  nearestEven n (d * step) * step

theorem dvd_of_le_two_pow {m : Nat} (h : m ≤ 2 ^ 53) (e : Nat) :
    2 ^ ((m * 2 ^ e).log2 - 52) ∣ m * 2 ^ e := by
  rcases Nat.lt_or_ge m (2 ^ 53) with h | h'
  · by_cases hm : m * 2 ^ e = 0
    · simp [hm]
    · have : (m * 2 ^ e).log2 < 53 + e := by
        rw [Nat.log2_lt hm, Nat.pow_add]
        exact Nat.mul_lt_mul_of_pos_right h (Nat.two_pow_pos e)
      exact Nat.dvd_trans (Nat.pow_dvd_pow 2 (by omega)) (Nat.dvd_mul_left ..)
  · obtain rfl : m = 2 ^ 53 := by omega
    rw [← Nat.pow_add, Nat.log2_two_pow]
    exact Nat.pow_dvd_pow 2 (by omega)

theorem div_two_pow_log2_lt (q : Nat) : q / 2 ^ (q.log2 - 52) < 2 ^ 53 := by
  rw [Nat.div_lt_iff_lt_mul (Nat.two_pow_pos _), ← Nat.pow_add]
  exact Nat.lt_of_lt_of_le Nat.lt_log2_self (Nat.pow_le_pow_right (by decide) (by omega))

theorem dvd_roundSteps (n d : Nat) : 2 ^ ((roundSteps n d).log2 - 52) ∣ roundSteps n d := by
  refine dvd_of_le_two_pow ?_ _
  have h := nearestEven_le n (d * 2 ^ ((n / d).log2 - 52))
  rw [← Nat.div_div_eq_div_mul] at h
  have := div_two_pow_log2_lt (n / d)
  omega

/-- A 64-bit binary floating-point number; all NaNs are one. -/
inductive Binary64
  | nan
  | infinite (negative : Bool)
  | finite (negative : Bool) (units : Nat) (fits : Representable units)
deriving DecidableEq

namespace Binary64

instance : Inhabited Binary64 := ⟨.finite false 0 representable_zero⟩

def zero (negative : Bool) : Binary64 := .finite negative 0 representable_zero

/-- The number nearest to `n / d` steps. -/
def ofSteps (negative : Bool) (n d : Nat) : Binary64 :=
  if h : (roundSteps n d).log2 < 2098 then .finite negative _ ⟨h, dvd_roundSteps n d⟩
  else .infinite negative

def ofRatio (negative : Bool) (n d : Nat) : Binary64 := ofSteps negative (n * 2 ^ 1074) d

def ofInt (i : Int) : Binary64 := ofRatio (i < 0) i.natAbs 1

/-- The number nearest to `c · 10ᵉ`. Powers far outside the range are not computed: they leave the
result infinite or zero whatever the digits. -/
def ofDecimal (negative : Bool) (c : Nat) (e : Int) : Binary64 :=
  if c = 0 then zero negative
  else if 400 < e then .infinite negative
  else if e < -400 - c.log2 then zero negative
  else if 0 ≤ e then ofRatio negative (c * 10 ^ e.toNat) 1
  else ofRatio negative c (10 ^ (-e).toNat)

/-- The bits of the interchange format; NaN has none of its own here. -/
def bits? : Binary64 → Option Nat
  | nan => none
  | infinite negative => some (negative.toNat * 2 ^ 63 + 2047 * 2 ^ 52)
  | finite negative units _ =>
    let exponent := units.log2 - 52
    let significand := units / 2 ^ exponent
    some (negative.toNat * 2 ^ 63 + exponent * 2 ^ 52 + significand)

def isFinite : Binary64 → Bool
  | finite .. => true
  | _ => false

def neg : Binary64 → Binary64
  | nan => nan
  | infinite s => infinite !s
  | finite s n h => finite (!s) n h

def abs : Binary64 → Binary64
  | nan => nan
  | infinite _ => infinite false
  | finite _ n h => finite false n h

instance : Neg Binary64 := ⟨neg⟩

end Binary64

end RecordSieve
