import Mathlib.Tactic.Ring
import RecordSieve.Proofs.Json.Numerals

/-! # The text of a decimal

Whichever form it takes, the text of a decimal is a numeral: one digit before the point and an
exponent, an integer with one zero after the point, or digits on both sides of the point.
-/

namespace RecordSieve.Json

theorem toList_toString_int (i : Int) :
    (toString i).toList = Binary64.sign (i < 0) ++ Nat.toDigits 10 i.natAbs := by
  rw [Int.toString_eq_repr, Int.repr_eq_if]
  split
  · rename_i h
    rw [Nat.toList_repr, show i.toNat = i.natAbs by omega, Binary64.sign, if_neg (by simpa using h)]
    rfl
  · rename_i h
    rw [String.toList_append, Nat.toList_repr, show (-i).toNat = i.natAbs by omega, Binary64.sign,
      if_pos (by simpa using h)]
    rfl

theorem ofDigitChars_lt {ds : List Char} (hds : ∀ c ∈ ds, c.isDigit) (v : Nat) :
    Nat.ofDigitChars 10 ds v < (v + 1) * 10 ^ ds.length := by
  induction ds generalizing v with
  | nil => simp
  | cons c ds ih =>
    obtain ⟨hc, hds⟩ := List.forall_mem_cons.mp hds
    have hdigit : c.toNat - '0'.toNat ≤ 9 := by
      obtain ⟨h0, h9⟩ : 48 ≤ c.toNat ∧ c.toNat ≤ 57 := Char.isDigit_iff_toNat.mp hc
      change c.toNat - 48 ≤ 9
      omega
    rw [Nat.ofDigitChars_cons, List.length_cons, Nat.pow_succ']
    calc Nat.ofDigitChars 10 ds (10 * v + (c.toNat - '0'.toNat))
        < (10 * v + (c.toNat - '0'.toNat) + 1) * 10 ^ ds.length := ih hds _
      _ ≤ ((v + 1) * 10) * 10 ^ ds.length := Nat.mul_le_mul_right _ (by omega)
      _ = (v + 1) * (10 * 10 ^ ds.length) := Nat.mul_assoc ..

theorem ofDigitChars_lt_two_pow {ds : List Char} (hds : ∀ c ∈ ds, c.isDigit)
    (hlen : ds.length ≤ 16) : Nat.ofDigitChars 10 ds 0 < 2 ^ 64 :=
  calc Nat.ofDigitChars 10 ds 0 < (0 + 1) * 10 ^ ds.length := ofDigitChars_lt hds 0
    _ ≤ (0 + 1) * 10 ^ 16 := Nat.mul_le_mul_left _ (Nat.pow_le_pow_right (by decide) hlen)
    _ < 2 ^ 64 := by decide

namespace Numeral

/-- The integer that the digits before and after the point make. -/
def digits (t : Numeral) : Nat := Nat.ofDigitChars 10 (t.whole ++ t.fraction) 0

/-- The power of ten that this integer counts. -/
def exponent (t : Numeral) : Int := t.exponent?.getD 0 - t.fraction.length

/-- The numeral spells a decimal, with some zeros at the end of its digits. -/
def IsOf (t : Numeral) (d : Scientific) (zeros : Nat) : Prop :=
  t.digits = d.coefficient * 10 ^ zeros ∧ t.exponent = d.exponent - zeros

variable {d : Scientific}

theorem exists_of_pointed (hd : d.leading.natAbs < 2 ^ 31) : ∃ t : Numeral,
    t.Proper ∧ t.text = d.pointed ++ exponentText (some d.leading) ∧ t.IsOf d 0 := by
  obtain ⟨c, cs, hc⟩ := List.exists_cons_of_ne_nil (Scientific.digits_ne_nil (d := d))
  have hds := Scientific.isDigit_digits (d := d)
  have hval := Scientific.ofDigitChars_digits (d := d)
  rw [hc] at hds hval
  obtain ⟨hdc, hdcs⟩ := List.forall_mem_cons.mp hds
  have hone : ∀ b ∈ [c], b.isDigit := by simpa using hdc
  refine ⟨⟨[c], cs, some d.leading⟩, ?_, ?_, ?_, ?_⟩
  · constructor
    · exact List.cons_ne_nil c []
    · exact hone
    · exact hdcs
    · intro h
      rw [Option.some.inj h]
    · rintro ⟨⟩
    · exact (ofDigitChars_lt hone 0).trans_le (by simp)
    · rintro e he
      cases he
      exact hd
  · unfold text Scientific.pointed pointText
    rw [hc]
    cases cs <;> rfl
  · rw [digits, List.singleton_append, hval, pow_zero, mul_one]
  · simp only [exponent, Option.getD_some, Scientific.leading, hc, List.length_cons]
    push_cast
    ring

theorem exists_of_integer (h0 : d.coefficient ≠ 0 ∨ d.exponent = 0) (he : 0 ≤ d.exponent)
    (hl : d.leading ≤ 15) : ∃ t : Numeral, ∃ zeros : Nat,
    t.Proper ∧ t.text = d.positional ++ ".0".toList ∧ t.IsOf d zeros := by
  obtain ⟨n, hn⟩ := Int.eq_ofNat_of_zero_le he
  have hds := Scientific.isDigit_append (Scientific.isDigit_digits (d := d))
    (Scientific.isDigit_replicate (n := n))
  have hval := Scientific.ofDigitChars_digits (d := d)
  have hlen : (d.digits ++ List.replicate n '0').length ≤ 16 := by
    rw [Scientific.leading, hn] at hl
    rw [List.length_append, List.length_replicate]
    omega
  refine ⟨⟨d.digits ++ List.replicate n '0', ['0'], none⟩, n + 1, ?_, ?_, ?_, ?_⟩
  · constructor
    · simp [Scientific.digits_ne_nil]
    · exact hds
    · simp
    · intro h
      obtain ⟨c, cs, hc⟩ := List.exists_cons_of_ne_nil (Scientific.digits_ne_nil (d := d))
      rw [hc] at h
      have hzero : d.digits = ['0'] := head_toDigits _ (by
        change d.digits.head? = _
        rw [hc]
        exact h)
      have hcoeff : d.coefficient = 0 := by
        rw [← hval, hzero]
        rfl
      obtain rfl : n = 0 := by
        have := h0.resolve_left (not_not.mpr hcoeff)
        omega
      exact hzero ▸ List.append_nil _
    · rintro - ⟨⟩
    · exact ofDigitChars_lt_two_pow hds hlen
    · rintro e ⟨⟩
  · unfold text Scientific.positional
    rw [if_pos he, hn]
    rfl
  · rw [digits, Nat.ofDigitChars_append, Nat.ofDigitChars_append, hval,
      Nat.ofDigitChars_replicate_zero, pow_succ]
    change 10 * (10 ^ n * d.coefficient) + 0 = _
    ring
  · rw [exponent, hn]
    simp

theorem exists_of_point_inside {places : Nat} (hplaces : d.exponent = -(places : Int))
    (hpos : 0 < places) (hlt : places < d.digits.length) (hl : d.leading ≤ 15) :
    ∃ t : Numeral, t.Proper ∧ t.text = d.digits.take (d.digits.length - places) ++
      '.' :: d.digits.drop (d.digits.length - places) ∧ t.IsOf d 0 := by
  have hds := Scientific.isDigit_digits (d := d)
  have hne : d.digits.take (d.digits.length - places) ≠ [] := by
    rw [Ne, List.take_eq_nil_iff]
    rintro (h | h)
    · omega
    · exact Scientific.digits_ne_nil h
  have hdrop : d.digits.drop (d.digits.length - places) ≠ [] := by
    rw [Ne, List.drop_eq_nil_iff]
    omega
  have hwhole : ∀ c ∈ d.digits.take (d.digits.length - places), c.isDigit := fun c hc =>
    hds c (List.mem_of_mem_take hc)
  refine ⟨⟨d.digits.take (d.digits.length - places), d.digits.drop (d.digits.length - places),
    none⟩, ?_, ?_, ?_, ?_⟩
  · constructor
    · exact hne
    · exact hwhole
    · exact fun c hc => hds c (List.mem_of_mem_drop hc)
    · intro h
      rw [List.head?_take, if_neg (by omega)] at h
      have hzero : d.digits = ['0'] := head_toDigits _ h
      rw [hzero] at hlt
      simp at hlt
      omega
    · exact fun _ => hdrop
    · apply ofDigitChars_lt_two_pow hwhole
      rw [List.length_take]
      rw [Scientific.leading] at hl
      omega
    · rintro e ⟨⟩
  · unfold text pointText
    rw [if_neg hdrop]
    exact congrArg _ (List.append_nil _)
  · rw [digits, List.take_append_drop, Scientific.ofDigitChars_digits, pow_zero, mul_one]
  · simp only [exponent, Option.getD_none, List.length_drop]
    omega

theorem exists_of_point_before {places : Nat} (hplaces : d.exponent = -(places : Int))
    (hge : d.digits.length ≤ places) : ∃ t : Numeral,
    t.Proper ∧ t.text = '0' :: '.' :: (List.replicate (places - d.digits.length) '0' ++ d.digits) ∧
      t.IsOf d 0 := by
  have hzeros := Scientific.isDigit_append
    (Scientific.isDigit_replicate (n := places - d.digits.length))
    (Scientific.isDigit_digits (d := d))
  refine ⟨⟨['0'], List.replicate (places - d.digits.length) '0' ++ d.digits, none⟩,
    ?_, ?_, ?_, ?_⟩
  · constructor
    · exact List.cons_ne_nil _ _
    · simp
    · exact hzeros
    · exact fun _ => rfl
    · intro _ h
      exact Scientific.digits_ne_nil (List.append_eq_nil_iff.mp h).2
    · exact ofDigitChars_lt_two_pow (by simp) (by simp)
    · rintro e ⟨⟩
  · unfold text pointText
    rw [if_neg (by simp [Scientific.digits_ne_nil])]
    exact congrArg _ (List.append_nil _)
  · rw [digits, List.singleton_append, Nat.ofDigitChars_cons, Nat.ofDigitChars_append]
    change Nat.ofDigitChars 10 d.digits (Nat.ofDigitChars 10 _ 0) = _
    rw [Nat.ofDigitChars_replicate_zero, Nat.mul_zero, Scientific.ofDigitChars_digits, pow_zero,
      mul_one]
  · simp only [exponent, Option.getD_none, List.length_append, List.length_replicate]
    omega

theorem exists_of_fraction (he : ¬ 0 ≤ d.exponent) (hl : d.leading ≤ 15) :
    ∃ t : Numeral, t.Proper ∧ t.text = d.positional ∧ t.IsOf d 0 := by
  have hplaces : d.exponent = -((-d.exponent).toNat : Int) := by omega
  unfold Scientific.positional
  simp only
  rw [if_neg he]
  split
  · exact exists_of_point_inside hplaces (by omega) ‹_› hl
  · exact exists_of_point_before hplaces (Nat.le_of_not_lt ‹_›)

/-- The text of a decimal is a numeral. -/
theorem exists_of_decimal (h0 : d.coefficient ≠ 0 ∨ d.exponent = 0)
    (hd : d.leading.natAbs < 2 ^ 31) : ∃ t : Numeral, ∃ zeros : Nat,
    t.Proper ∧ t.text = decimalText d ∧ t.IsOf d zeros ∧ (15 < d.leading → zeros = 0) := by
  unfold decimalText
  split
  · obtain ⟨t, ht, htext, hof⟩ := exists_of_pointed hd
    refine ⟨t, 0, ht, ?_, hof, fun _ => rfl⟩
    rw [htext, toList_toString_int, exponentText, if_pos (by omega), Binary64.sign,
      if_pos (by simp; omega)]
    rfl
  · split
    · obtain ⟨t, ht, htext, hof⟩ := exists_of_pointed hd
      refine ⟨t, 0, ht, ?_, hof, fun _ => rfl⟩
      rw [htext, toList_toString_int, exponentText, if_neg (by omega), Binary64.sign,
        if_neg (by simp; omega)]
      rfl
    · rename_i hlow hhigh
      split
      · rename_i he
        obtain ⟨t, zeros, ht, htext, hof⟩ := exists_of_integer h0 he (by omega)
        exact ⟨t, zeros, ht, htext, hof, fun h => absurd h hhigh⟩
      · rename_i he
        obtain ⟨t, ht, htext, hof⟩ := exists_of_fraction he (by omega)
        exact ⟨t, 0, ht, htext, hof, fun _ => rfl⟩

end Numeral

end RecordSieve.Json
