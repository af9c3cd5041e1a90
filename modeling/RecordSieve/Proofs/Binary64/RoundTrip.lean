import Mathlib.Data.List.TakeWhile
import RecordSieve.Binary64.Numeral
import RecordSieve.Binary64.Text

/-! # Numbers read back

The plain text of a number is a numeral that denotes the number. The shortest decimal denotes it
because it is checked to, or else is its exact value; the sign goes through unchanged.
-/

namespace RecordSieve.Binary64

variable {s t u : Bool} {n d q units c k : Nat} {e : Int} {hu : Representable units}

theorem nearestEven_mul (hd : 0 < d) : nearestEven (q * d) d = q := by
  simp [nearestEven, Nat.mul_div_cancel q hd, hd]

theorem roundSteps_mul (hd : 0 < d) (hq : 2 ^ (q.log2 - 52) ∣ q) : roundSteps (q * d) d = q := by
  obtain ⟨m, hm⟩ := hq
  have hs : 0 < d * 2 ^ (q.log2 - 52) := Nat.mul_pos hd (Nat.two_pow_pos _)
  have hqd : q * d = m * (d * 2 ^ (q.log2 - 52)) := by
    calc q * d = 2 ^ (q.log2 - 52) * m * d := by rw [← hm]
      _ = m * (d * 2 ^ (q.log2 - 52)) := by ac_rfl
  rw [roundSteps, Nat.mul_div_cancel q hd, hqd, nearestEven_mul hs, Nat.mul_comm, ← hm]

/-- Rounding depends on the fraction alone, not on the terms that it is given in. -/
theorem nearestEven_mul_mul (hk : 0 < k) : nearestEven (n * k) (d * k) = nearestEven n d := by
  have hlt : 2 * (n % d * k) < d * k ↔ 2 * (n % d) < d := by
    rw [← Nat.mul_assoc, Nat.mul_lt_mul_right hk]
  have heq : 2 * (n % d * k) = d * k ↔ 2 * (n % d) = d := by
    rw [← Nat.mul_assoc, Nat.mul_left_inj (Nat.ne_of_gt hk)]
  simp only [nearestEven, Nat.mul_div_mul_right n d hk, Nat.mul_mod_mul_right, hlt, heq]

theorem roundSteps_mul_mul (hk : 0 < k) : roundSteps (n * k) (d * k) = roundSteps n d := by
  rw [roundSteps, Nat.mul_div_mul_right n d hk, Nat.mul_right_comm, nearestEven_mul_mul hk,
    roundSteps]

theorem ofSteps_eq_finite_iff :
    ofSteps s n d = finite t units hu ↔ s = t ∧ roundSteps n d = units := by
  unfold ofSteps
  constructor
  · intro h
    split at h
    · cases h
      exact ⟨rfl, rfl⟩
    · cases h
  · rintro ⟨rfl, rfl⟩
    rw [dif_pos hu.1]

/-- The exact decimal of a count of steps is rounded to that count. -/
theorem ofDecimal_exact (h : units ≠ 0) :
    ofDecimal s (units * 5 ^ 1074) (-1074) = finite s units hu := by
  -- The powers are kept general, so that none of them is ever computed.
  have h2 (n : Nat) : 2 ^ n ≤ units * 5 ^ n :=
    calc 2 ^ n ≤ 5 ^ n := Nat.pow_le_pow_left (by decide) n
      _ ≤ units * 5 ^ n := Nat.le_mul_of_pos_left _ (Nat.pos_of_ne_zero h)
  have h5 (n : Nat) : units * 5 ^ n ≠ 0 :=
    Nat.ne_of_gt (Nat.lt_of_lt_of_le (Nat.two_pow_pos n) (h2 n))
  have h10 (n : Nat) : units * 5 ^ n * 2 ^ n = units * 10 ^ n := by
    rw [Nat.mul_assoc, ← Nat.mul_pow]
  have hlog (n : Nat) : n ≤ (units * 5 ^ n).log2 := (Nat.le_log2 (h5 n)).mpr (h2 n)
  have hpos (n : Nat) : 0 < 10 ^ n := Nat.pow_pos (by decide)
  have hc := h5 1074
  have hlog := hlog 1074
  have hd := h10 1074
  generalize units * 5 ^ 1074 = c at hc hlog hd
  have he : ¬ (-1074 : Int) < -400 - c.log2 := by omega
  have hk : (-(-1074 : Int)).toNat = 1074 := rfl
  rw [ofDecimal, if_neg hc, if_neg (by decide), if_neg he, if_neg (by decide), hk, ofRatio, hd]
  have hpos := hpos 1074
  generalize 10 ^ 1074 = d at hpos
  exact ofSteps_eq_finite_iff.mpr ⟨rfl, roundSteps_mul hpos hu.2⟩

theorem ofDecimal_sign (h : ofDecimal s c e = finite t units hu) :
    s = t ∧ ofDecimal u c e = finite u units hu := by
  unfold ofDecimal at h ⊢
  by_cases hc : c = 0
  · rw [if_pos hc] at h ⊢
    cases h
    exact ⟨rfl, rfl⟩
  · rw [if_neg hc] at h ⊢
    by_cases hl : 400 < e
    · rw [if_pos hl] at h
      cases h
    · rw [if_neg hl] at h ⊢
      by_cases hs : e < -400 - c.log2
      · rw [if_pos hs] at h ⊢
        cases h
        exact ⟨rfl, rfl⟩
      · rw [if_neg hs] at h ⊢
        by_cases he : 0 ≤ e
        · rw [if_pos he] at h ⊢
          have hr := ofSteps_eq_finite_iff.mp h
          exact ⟨hr.1, ofSteps_eq_finite_iff.mpr ⟨rfl, hr.2⟩⟩
        · rw [if_neg he] at h ⊢
          have hr := ofSteps_eq_finite_iff.mp h
          exact ⟨hr.1, ofSteps_eq_finite_iff.mpr ⟨rfl, hr.2⟩⟩

theorem ofSteps_not : ofSteps (!s) n d = (ofSteps s n d).neg := by
  unfold ofSteps
  split <;> rfl

theorem ofRatio_not : ofRatio (!s) n d = (ofRatio s n d).neg := ofSteps_not

theorem ofRatio_mul_mul (hk : 0 < k) : ofRatio s (n * k) (d * k) = ofRatio s n d := by
  unfold ofRatio ofSteps
  generalize 2 ^ 1074 = steps
  rw [Nat.mul_right_comm]
  simp only [roundSteps_mul_mul hk]

theorem ofRatio_congr {n' d' : Nat} (hd : 0 < d) (hd' : 0 < d') (h : n * d' = n' * d) :
    ofRatio s n d = ofRatio s n' d' := by
  rw [← ofRatio_mul_mul hd', h, Nat.mul_comm d d', ofRatio_mul_mul hd]

theorem ofDecimal_mul_pow (h : ofDecimal s c k = finite t units hu) :
    ofDecimal s (10 ^ k * c) 0 = finite t units hu := by
  by_cases hc : c = 0
  · simpa [ofDecimal, hc] using h
  · have hz : 10 ^ k * c ≠ 0 :=
      Nat.mul_ne_zero (Nat.ne_of_gt (Nat.pow_pos (by decide))) hc
    by_cases hk : (400 : Int) < k
    · simp [ofDecimal, hc, hk] at h
    · have he : ¬ (k : Int) < -400 - c.log2 := by omega
      have he' : ¬ (0 : Int) < -400 - (10 ^ k * c).log2 := by omega
      rw [ofDecimal, if_neg hc, if_neg hk, if_neg he, if_pos (Int.natCast_nonneg k)] at h
      rw [ofDecimal, if_neg hz, if_neg (by omega), if_neg he', if_pos (Int.le_refl 0)]
      simpa [Nat.mul_comm] using h

end RecordSieve.Binary64

namespace RecordSieve.Scientific

variable {d : Scientific} {units : Nat} {tie : Tie}

theorem denotes_iff (hu : Representable units) : d.denotes units ↔
    Binary64.ofDecimal false d.coefficient d.exponent = .finite false units hu := by
  unfold denotes
  constructor
  · intro h
    split at h
    · rename_i s n hn he
      obtain rfl : n = units := of_decide_eq_true h
      obtain ⟨rfl, he⟩ := Binary64.ofDecimal_sign (u := false) he
      exact he
    · cases h
  · intro h
    simp [h]

theorem denotes_shortest (hu : Representable units) : (shortest tie units).denotes units := by
  have exact_denotes (h : units ≠ 0) : (exact units).denotes units :=
    (denotes_iff hu).mpr (Binary64.ofDecimal_exact h)
  unfold shortest
  split
  · rename_i h
    subst h
    rfl
  · rename_i h
    split
    · split
      · assumption
      · exact exact_denotes h
    · exact exact_denotes h

theorem isDigit_digits : ∀ x ∈ d.digits, x.isDigit := fun _ hx =>
  Nat.isDigit_of_mem_toDigits (by decide) (by decide) hx

theorem digits_ne_nil : d.digits ≠ [] := Nat.toDigits_ne_nil

@[simp] theorem ofDigitChars_digits : Nat.ofDigitChars 10 d.digits 0 = d.coefficient :=
  Nat.ofDigitChars_ten_toDigits

theorem isDigit_replicate {n : Nat} : ∀ x ∈ List.replicate n '0', x.isDigit := by
  intro x hx
  rw [List.eq_of_mem_replicate hx]
  rfl

theorem isDigit_append {l m : List Char} (hl : ∀ x ∈ l, x.isDigit) (hm : ∀ x ∈ m, x.isDigit) :
    ∀ x ∈ l ++ m, x.isDigit :=
  List.forall_mem_append.mpr ⟨hl, hm⟩

theorem positional_eq (d : Scientific) :
    (∃ n : Nat, d.positional = d.digits ++ List.replicate n '0' ∧ d.exponent = n) ∨
    ∃ whole fraction, d.positional = whole ++ '.' :: fraction ∧ d.exponent = -fraction.length ∧
      whole ≠ [] ∧ (∀ x ∈ whole ++ fraction, x.isDigit) ∧
      Nat.ofDigitChars 10 (whole ++ fraction) 0 = d.coefficient := by
  have hn := digits_ne_nil (d := d)
  unfold positional
  simp only
  split
  · rename_i he
    obtain ⟨n, he⟩ := Int.eq_ofNat_of_zero_le he
    exact .inl ⟨n, by rw [he, Int.toNat_natCast], he⟩
  · rename_i he
    have hp : d.exponent = -((-d.exponent).toNat : Int) := by omega
    generalize (-d.exponent).toNat = places at hp
    split
    · rename_i hlt
      refine .inr ⟨_, _, rfl, ?_, ?_, ?_, ?_⟩
      · rw [hp, List.length_drop]
        omega
      · rw [Ne, List.take_eq_nil_iff]
        rintro (h | h)
        · omega
        · exact hn h
      · rw [List.take_append_drop]
        exact isDigit_digits
      · rw [List.take_append_drop, ofDigitChars_digits]
    · rename_i hge
      refine .inr ⟨['0'], List.replicate (places - d.digits.length) '0' ++ d.digits, rfl, ?_,
        by simp, ?_, ?_⟩
      · rw [hp, List.length_append, List.length_replicate]
        omega
      · exact isDigit_append (by simp) (isDigit_append isDigit_replicate isDigit_digits)
      · simp [Nat.ofDigitChars_append, Nat.ofDigitChars_cons]

theorem mem_positional : ∀ x ∈ d.positional, x.isDigit ∨ x = '.' := by
  intro x hx
  rcases d.positional_eq with ⟨n, hd, -⟩ | ⟨whole, fraction, hd, -, -, hall, -⟩
  · rw [hd] at hx
    exact .inl (isDigit_append isDigit_digits isDigit_replicate x hx)
  · rw [hd, List.mem_append, List.mem_cons] at hx
    rcases hx with hx | rfl | hx
    · exact .inl (hall x (List.mem_append_left _ hx))
    · exact .inr rfl
    · exact .inl (hall x (List.mem_append_right _ hx))

theorem exists_positional_eq_cons (d : Scientific) : ∃ x r, d.positional = x :: r ∧ x.isDigit := by
  rcases d.positional_eq with ⟨n, hd, -⟩ | ⟨whole, fraction, hd, -, hn, hall, -⟩
  · obtain ⟨x, r, hx⟩ := List.exists_cons_of_ne_nil (digits_ne_nil (d := d))
    exact ⟨x, _, by rw [hd, hx, List.cons_append], isDigit_digits x (hx ▸ List.mem_cons_self)⟩
  · obtain ⟨x, r, rfl⟩ := List.exists_cons_of_ne_nil hn
    exact ⟨x, _, hd, hall x (by simp)⟩

theorem readDecimal?_integer {s : Bool} {whole : List Char} (hw : ∀ x ∈ whole, x.isDigit)
    (hn : whole ≠ []) : Binary64.readDecimal? s whole =
      some (Binary64.ofDecimal s (Nat.ofDigitChars 10 whole 0) 0) := by
  have ht : whole.takeWhile Char.isDigit = whole := List.takeWhile_eq_self_iff.mpr hw
  have hd : whole.dropWhile Char.isDigit = [] := List.dropWhile_eq_nil_iff.mpr hw
  simp [Binary64.readDecimal?, ht, hd, Binary64.splitFraction, hn, Binary64.readExponent?]

theorem readDecimal?_point {s : Bool} {whole fraction : List Char} (hw : ∀ x ∈ whole, x.isDigit)
    (hf : ∀ x ∈ fraction, x.isDigit) (hn : whole ≠ []) :
    Binary64.readDecimal? s (whole ++ '.' :: fraction) =
      some (Binary64.ofDecimal s (Nat.ofDigitChars 10 (whole ++ fraction) 0)
        (-fraction.length)) := by
  have ht : (whole ++ '.' :: fraction).takeWhile Char.isDigit = whole := by
    rw [List.takeWhile_append_of_pos hw, List.takeWhile_cons_of_neg (by decide), List.append_nil]
  have hd : (whole ++ '.' :: fraction).dropWhile Char.isDigit = '.' :: fraction := by
    rw [List.dropWhile_append_of_pos hw, List.dropWhile_cons_of_neg (by decide)]
  have hft : fraction.takeWhile Char.isDigit = fraction := List.takeWhile_eq_self_iff.mpr hf
  have hfd : fraction.dropWhile Char.isDigit = [] := List.dropWhile_eq_nil_iff.mpr hf
  simp [Binary64.readDecimal?, ht, hd, Binary64.splitFraction, hft, hfd, hn,
    Binary64.readExponent?]

/-- The positional text of a decimal that denotes a count of steps is read as that count. -/
theorem readDecimal?_positional {s : Bool} (hu : Representable units) (h : d.denotes units) :
    Binary64.readDecimal? s d.positional = some (.finite s units hu) := by
  have hd : Binary64.ofDecimal s d.coefficient d.exponent = .finite s units hu :=
    (Binary64.ofDecimal_sign ((denotes_iff hu).mp h)).2
  rcases d.positional_eq with ⟨n, hp, he⟩ | ⟨whole, fraction, hp, he, hn, hall, hc⟩
  · have hall := isDigit_append (isDigit_digits (d := d)) (isDigit_replicate (n := n))
    have hn : d.digits ++ List.replicate n '0' ≠ [] := by simp [digits_ne_nil]
    rw [he] at hd
    rw [hp, readDecimal?_integer hall hn, Nat.ofDigitChars_append, ofDigitChars_digits,
      Nat.ofDigitChars_replicate_zero, Binary64.ofDecimal_mul_pow hd]
  · obtain ⟨hw, hf⟩ := List.forall_mem_append.mp hall
    rw [hp, readDecimal?_point hw hf hn, hc, ← he, hd]

end RecordSieve.Scientific

namespace RecordSieve.Binary64

variable {x : Binary64} {a : Char} {l : List Char}

theorem mem_digits_of_isDigit (h : a.isDigit) : a ∈ "0123456789".toList := by
  obtain ⟨h0, h9⟩ : 48 ≤ a.toNat ∧ a.toNat ≤ 57 := Char.isDigit_iff_toNat.mp h
  have hd : ∀ n : Fin 10, Char.ofNat (48 + n) ∈ "0123456789".toList := by decide
  have ha : Char.ofNat (48 + (a.toNat - 48)) = a := by
    rw [Nat.add_sub_cancel' h0, Char.ofNat_toNat]
  exact ha ▸ hd ⟨a.toNat - 48, by omega⟩

theorem read?_of_isDigit {s : Bool} (h : a.isDigit) :
    read? (sign s ++ a :: l) = readDecimal? s (a :: l) := by
  have ha := mem_digits_of_isDigit h
  have hw : "0123456789".toList.all fun b =>
      (b ≠ '-' ∧ b ≠ '+') ∧ b.toLower ≠ 'i' ∧ b.toLower ≠ 'n' := by decide
  obtain ⟨⟨hm, hp⟩, hi, hn⟩ := of_decide_eq_true (List.all_eq_true.mp hw a ha)
  have hs : splitSign (sign s ++ a :: l) = (s, a :: l) := by
    cases s with
    | true => rfl
    | false =>
      unfold splitSign sign
      split <;> simp_all
  simp [read?, hs, hi, hn]

def isNegative : Binary64 → Bool
  | nan => false
  | infinite s | finite s _ _ => s

theorem toList_text (x : Binary64) : x.text.toList = sign x.isNegative ++ x.abs.text.toList := by
  cases x with
  | nan => rfl
  | infinite s => cases s <;> rfl
  | finite s units hu => cases s <;> simp [text, isNegative, abs, sign]

/-- Reading undoes writing. -/
theorem read?_text (x : Binary64) : read? x.text.toList = some x := by
  cases x with
  | nan => rfl
  | infinite s => cases s <;> rfl
  | finite s units hu =>
    obtain ⟨a, l, hp, ha⟩ := Scientific.exists_positional_eq_cons (.shortest .larger units)
    have hd : (Scientific.shortest .larger units).denotes units := Scientific.denotes_shortest hu
    rw [text, String.toList_ofList, hp, read?_of_isDigit ha, ← hp,
      Scientific.readDecimal?_positional hu hd]

theorem mem_text_abs (h : a ∈ x.abs.text.toList) : a ∈ "0123456789.infNa".toList := by
  have subset {t : List Char} (ht : t.all ("0123456789.infNa".toList.contains ·)) (h : a ∈ t) :
      a ∈ "0123456789.infNa".toList :=
    List.contains_iff_mem.mp (List.all_eq_true.mp ht a h)
  cases x with
  | nan => exact subset (t := "NaN".toList) (by decide) h
  | infinite s => exact subset (t := "inf".toList) (by decide) h
  | finite s units hu =>
    have hp : a ∈ (Scientific.shortest .larger units).positional := by
      simpa [abs, text, sign] using h
    rcases Scientific.mem_positional a hp with hd | rfl
    · exact subset (by decide) (mem_digits_of_isDigit hd)
    · decide

theorem text_abs_ne_nil (x : Binary64) : x.abs.text.toList ≠ [] := by
  intro h
  have hr := read?_text x.abs
  rw [h] at hr
  cases hr

theorem neg_abs (h : x.isNegative) : x.abs.neg = x := by
  cases x <;> simp_all [isNegative, abs, neg]

theorem abs_eq_self (h : ¬ x.isNegative) : x.abs = x := by
  cases x <;> simp_all [isNegative, abs]

end RecordSieve.Binary64
