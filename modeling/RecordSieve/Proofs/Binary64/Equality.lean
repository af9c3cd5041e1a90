import RecordSieve.Binary64.Arithmetic
import RecordSieve.Proofs.Binary64.RoundTrip

/-! # Equality and order of numbers

Equality is a partial equivalence, which only NaN is left out of, and a change of both signs does
not affect it. Of two numbers other than NaN one is less or they are equal, and never both.
Agreement lets NaN in: it is what an operation has to keep that is computed in another way.
-/

namespace RecordSieve.Binary64

variable {x y z : Binary64} {s : Bool} {units : Nat}

theorem equal_comm (x y : Binary64) : x.equal y = y.equal x := by
  cases x <;> cases y <;> simp [equal, eq_comm]

theorem equal_trans (h : x.equal y) (h' : y.equal z) : x.equal z := by
  cases x <;> cases y <;> cases z <;> simp_all [equal]

theorem equal_self_iff : x.equal x ↔ x ≠ nan := by
  cases x <;> simp [equal]

theorem not_equal_of_nan (h : x = nan ∨ y = nan) : x.equal y = false := by
  rcases h with rfl | rfl
  · rfl
  · cases x <;> rfl

theorem not_less_of_nan (h : x = nan ∨ y = nan) : x.less y = false := by
  rcases h with rfl | rfl
  · rfl
  · cases x <;> rfl

theorem not_less_of_less (h : x.less y) : y.less x = false := by
  cases x <;> cases y <;> simp_all [less]
  omega

theorem not_less_of_equal (h : x.equal y) : x.less y = false := by
  cases x <;> cases y <;> simp_all [less, equal]

theorem less_or_equal_or_less (hx : x ≠ nan) (hy : y ≠ nan) :
    x.less y ∨ x.equal y ∨ y.less x := by
  cases x with
  | nan => exact absurd rfl hx
  | infinite s =>
    cases y with
    | nan => exact absurd rfl hy
    | infinite t => cases s <;> cases t <;> simp [less, equal]
    | finite => cases s <;> simp [less]
  | finite s m =>
    cases y with
    | nan => exact absurd rfl hy
    | infinite t => cases t <;> simp [less]
    | finite t n => simpa [less, equal] using Int.lt_trichotomy (signed s m) (signed t n)

@[simp] theorem neg_neg (x : Binary64) : x.neg.neg = x := by
  cases x <;> simp [neg]

theorem signed_not (s : Bool) (units : Nat) : signed (!s) units = -signed s units := by
  cases s <;> simp [signed]

theorem signed_zero (s : Bool) : signed s 0 = 0 := by
  cases s <;> rfl

theorem natAbs_signed (s : Bool) (units : Nat) : (signed s units).natAbs = units := by
  cases s <;> simp [signed]

@[simp] theorem equal_neg_neg (x y : Binary64) : x.neg.equal y.neg = x.equal y := by
  cases x <;> cases y <;> simp [neg, equal, signed_not]

/-- A signed count of steps that needs no rounding is the number it was taken from; of a zero it
may be the other. -/
theorem ofSigned_signed_equal (t s : Bool) (hu : Representable units) :
    (ofSigned t (signed s units)).equal (finite s units hu) := by
  unfold ofSigned
  split
  · rename_i hzero
    simp [zero, equal, hzero, signed_zero]
  · rename_i hne
    have hunits : roundSteps units 1 = units := by
      simpa using roundSteps_mul (d := 1) Nat.one_pos hu.2
    have hsteps : ofSteps (signed s units < 0) units 1 = finite (signed s units < 0) units hu :=
      ofSteps_eq_finite_iff.mpr ⟨rfl, hunits⟩
    rw [natAbs_signed, hsteps]
    cases s with
    | false => simp [equal, signed]
    | true =>
      have hneg : signed true units < 0 := by
        simp only [signed, if_true] at hne ⊢
        omega
      simp [equal, hneg]

/-- Two numbers agree if they are equal, or NaN both of them. -/
def Agrees (x y : Binary64) : Prop := x.equal y ∨ x = nan ∧ y = nan

theorem Agrees.refl (x : Binary64) : x.Agrees x := by
  by_cases h : x = nan
  · exact .inr ⟨h, h⟩
  · exact .inl (equal_self_iff.mpr h)

theorem Agrees.trans (h : x.Agrees y) (h' : y.Agrees z) : x.Agrees z := by
  rcases h with h | ⟨rfl, rfl⟩
  · rcases h' with h' | ⟨rfl, rfl⟩
    · exact .inl (equal_trans h h')
    · cases x <;> cases h
  · exact h'

theorem Agrees.neg (h : x.Agrees y) : x.neg.Agrees y.neg := by
  rcases h with h | ⟨rfl, rfl⟩
  · apply Or.inl
    rwa [equal_neg_neg]
  · exact .inr ⟨rfl, rfl⟩

theorem zero_sub_agrees (x : Binary64) : ((zero false).sub x).Agrees x.neg := by
  cases x with
  | nan => exact .inr ⟨rfl, rfl⟩
  | infinite s => exact .refl _
  | finite s units hu =>
    apply Or.inl
    have h := ofSigned_signed_equal (false && !s) (!s) hu
    rw [← Int.zero_add (signed (!s) units), ← signed_zero false] at h
    exact h

end RecordSieve.Binary64
