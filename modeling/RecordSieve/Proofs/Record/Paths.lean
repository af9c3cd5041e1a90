import Mathlib.Data.List.Induction
import RecordSieve.Proofs.Members
import RecordSieve.Record

/-! # Paths

A path of two parts leads where the second part leads from where the first one does. One segment
leads from an object to what the key holds, and from an array to the item at the index that it
spells, counted from either end; a segment that spells none within bounds leads nowhere.
-/

namespace RecordSieve

variable {segment ds : List Char} {i : Int} {zeros n : Nat} {c : Char}

def paddedDigits (zeros n : Nat) : List Char := List.replicate zeros '0' ++ Nat.toDigits 10 n

/-- An integer as text, with a sign or, if it is not negative, without one. -/
inductive IntegerText : List Char → Int → Prop
  | plain (zeros n : Nat) : IntegerText (paddedDigits zeros n) n
  | plus (zeros n : Nat) : IntegerText ('+' :: paddedDigits zeros n) n
  | minus (zeros n : Nat) : IntegerText ('-' :: paddedDigits zeros n) (-n)

/-- A text that spells an integer of 64 bits. -/
structure IsIndex (segment : List Char) (i : Int) : Prop where
  text : IntegerText segment i
  ge : -2 ^ 63 ≤ i
  lt : i < 2 ^ 63

theorem paddedDigits_ne_nil : paddedDigits zeros n ≠ [] := by
  simp [paddedDigits]

theorem isDigit_of_mem_paddedDigits (h : c ∈ paddedDigits zeros n) : c.isDigit := by
  rcases List.mem_append.mp h with h | h
  · rw [List.eq_of_mem_replicate h]
    rfl
  · exact Nat.isDigit_of_mem_toDigits (by decide) (by decide) h

theorem ofDigitChars_paddedDigits : Nat.ofDigitChars 10 (paddedDigits zeros n) 0 = n := by
  rw [paddedDigits, Nat.ofDigitChars_append, Nat.ofDigitChars_replicate_zero, Nat.mul_zero,
    Nat.ofDigitChars_ten_toDigits]

theorem exists_digitChar_eq (h : c.isDigit) : ∃ d < 10, c = d.digitChar := by
  have hc : 48 ≤ c.toNat ∧ c.toNat ≤ 57 := Char.isDigit_iff_toNat.mp h
  have hd : c.toNat - 48 < 10 := by omega
  refine ⟨c.toNat - 48, hd, Char.toNat_inj.mp ?_⟩
  rw [Nat.toNat_digitChar_of_lt_ten hd]
  omega

theorem exists_eq_paddedDigits (hne : ds ≠ []) (h : ∀ c ∈ ds, c.isDigit) :
    ∃ zeros, ds = paddedDigits zeros (Nat.ofDigitChars 10 ds 0) := by
  induction ds using List.reverseRecOn with
  | nil => exact absurd rfl hne
  | append_singleton ds c ih =>
    obtain ⟨hds, hc⟩ := List.forall_mem_append.mp h
    obtain ⟨d, hd, rfl⟩ := exists_digitChar_eq (hc c List.mem_cons_self)
    rw [Nat.ofDigitChars_append, Nat.ofDigitChars_cons_digitChar_of_lt_ten hd,
      Nat.ofDigitChars_nil]
    by_cases hnil : ds = []
    · subst hnil
      exact ⟨0, by simp [paddedDigits, Nat.toDigits_of_lt_base hd]⟩
    · obtain ⟨zeros, hz⟩ := ih hnil hds
      generalize Nat.ofDigitChars 10 ds 0 = v at hz
      subst hz
      rcases Nat.eq_zero_or_pos v with rfl | hv
      · refine ⟨zeros + 1, ?_⟩
        simp [paddedDigits, Nat.toDigits_of_lt_base hd, List.replicate_succ']
      · refine ⟨zeros, ?_⟩
        rw [paddedDigits, paddedDigits, List.append_assoc,
          ← Nat.toDigits_append_toDigits (by decide) hv hd, Nat.toDigits_of_lt_base hd]

theorem splitSign_of_isDigit (hne : ds ≠ []) (h : ∀ c ∈ ds, c.isDigit) :
    Binary64.splitSign ds = (false, ds) := by
  unfold Binary64.splitSign
  split
  · exact absurd (h _ List.mem_cons_self) (by decide)
  · exact absurd (h _ List.mem_cons_self) (by decide)
  · rfl

theorem eq_of_splitSign {negative : Bool} (h : Binary64.splitSign segment = (negative, ds)) :
    segment = '-' :: ds ∧ negative ∨ (segment = '+' :: ds ∨ segment = ds) ∧ !negative := by
  unfold Binary64.splitSign at h
  split at h <;> cases h <;> simp

theorem IntegerText.splitSign_eq (h : IntegerText segment i) : ∃ negative zeros n,
    Binary64.splitSign segment = (negative, paddedDigits zeros n) ∧
      i = Binary64.signed negative n := by
  cases h with
  | plain zeros n =>
    exact ⟨false, zeros, n, splitSign_of_isDigit paddedDigits_ne_nil
      fun _ => isDigit_of_mem_paddedDigits, rfl⟩
  | plus zeros n => exact ⟨false, zeros, n, rfl, rfl⟩
  | minus zeros n => exact ⟨true, zeros, n, rfl, rfl⟩

theorem IntegerText.unique {k : Int} (hi : IntegerText segment i) (hk : IntegerText segment k) :
    i = k := by
  obtain ⟨_, _, n, hs, rfl⟩ := hi.splitSign_eq
  obtain ⟨_, _, m, hs', rfl⟩ := hk.splitSign_eq
  obtain ⟨rfl, hds⟩ := Prod.mk.inj (hs.symm.trans hs')
  have hvalue := congrArg (Nat.ofDigitChars 10 · 0) hds
  simp only [ofDigitChars_paddedDigits] at hvalue
  rw [hvalue]

theorem index?_eq_some_iff : index? segment = some i ↔ IsIndex segment i := by
  constructor
  · intro h
    unfold index? at h
    generalize hs : Binary64.splitSign segment = split at h
    obtain ⟨negative, ds⟩ := split
    simp only [Option.ite_none_right_eq_some, Option.some.injEq] at h
    obtain ⟨⟨hne, hds⟩, ⟨hge, hlt⟩, rfl⟩ := h
    refine ⟨?_, hge, hlt⟩
    obtain ⟨zeros, hz⟩ := exists_eq_paddedDigits hne (List.all_eq_true.mp hds)
    generalize Nat.ofDigitChars 10 ds 0 = n at hz
    subst hz
    rcases eq_of_splitSign hs with ⟨rfl, rfl⟩ | ⟨rfl | rfl, hn⟩
    · exact .minus zeros n
    · obtain rfl : negative = false := by simpa using hn
      exact .plus zeros n
    · obtain rfl : negative = false := by simpa using hn
      exact .plain zeros n
  · rintro ⟨ht, hge, hlt⟩
    obtain ⟨negative, zeros, n, hs, rfl⟩ := ht.splitSign_eq
    have hds : (paddedDigits zeros n).all Char.isDigit :=
      List.all_eq_true.mpr fun _ => isDigit_of_mem_paddedDigits
    simp only [index?, hs, ofDigitChars_paddedDigits]
    rw [if_pos ⟨paddedDigits_ne_nil, hds⟩, if_pos ⟨hge, hlt⟩]

namespace Json

variable {items : List Json} {members : List (String × Json)} {j : Json} {k : Nat}

theorem item?_natCast (items : List Json) (k : Nat) : item? items k = items[k]? := by
  simp [item?]

/-- The item that an index counted from the end leads to. -/
theorem item?_sub_length (h : k < items.length) : item? items (k - items.length) = items[k]? := by
  have hneg : ¬ (0 : Int) ≤ k - items.length := by omega
  have habs : (k - items.length : Int).natAbs = items.length - k := by omega
  rw [item?, if_neg hneg, habs, if_pos (Nat.sub_le _ _), Nat.sub_sub_self h.le]

theorem item?_eq_none (h : i < -items.length ∨ items.length ≤ i) : item? items i = none := by
  unfold item?
  split
  · rw [List.getElem?_eq_none_iff]
    omega
  · rw [if_neg (by omega)]

theorem child?_array_of_isIndex (h : IsIndex segment i) :
    (array items).child? segment = item? items i := by
  rw [child?, index?_eq_some_iff.mpr h, Option.bind_some]

theorem child?_array_eq_none (h : ∀ i, ¬ IsIndex segment i) :
    (array items).child? segment = none := by
  rw [child?, Option.bind_eq_none_iff]
  intro i hi
  exact absurd (index?_eq_some_iff.mp hi) (h i)

theorem child?_array_of_outside (ht : IntegerText segment i)
    (h : i < -2 ^ 63 ∨ 2 ^ 63 ≤ i ∨ i < -items.length ∨ items.length ≤ i) :
    (array items).child? segment = none := by
  by_cases hi : IsIndex segment i
  · rw [child?_array_of_isIndex hi, item?_eq_none]
    have := hi.ge
    have := hi.lt
    omega
  · apply child?_array_eq_none
    intro k hk
    exact hi (hk.text.unique ht ▸ hk)

theorem follow?_append (j : Json) (p q : String) :
    j.follow? (p ++ "." ++ q) = (j.follow? p).bind fun i => i.follow? q := by
  have hsplit : (p ++ "." ++ q).toList.splitOn '.' =
      p.toList.splitOn '.' ++ q.toList.splitOn '.' := by
    rw [← List.splitOn_append_cons_self, String.toList_append, String.toList_append,
      List.append_assoc]
    rfl
  rw [follow?, hsplit, List.foldlM_append]
  rfl

theorem follow?_of_not_mem {segment : String} (h : '.' ∉ segment.toList) (j : Json) :
    j.follow? segment = j.child? segment.toList := by
  rw [follow?, List.splitOn_eq_singleton h, List.foldlM_cons]
  cases j.child? segment.toList <;> rfl

/-- A path of two parts leads from a document where the second part leads from where the first one
does, and nowhere if that is nowhere; a path without a point is a segment. A segment leads from an
array to the item whose place it spells from the start or from the end, and nowhere if it spells an
integer out of bounds or none at all; from an object to what exactly this key holds; and from
anything else nowhere. -/
theorem follow?_compositional (j : Json) :
    (∀ p q : String, j.follow? (p ++ "." ++ q) = (j.follow? p).bind fun i => i.follow? q) ∧
    (∀ segment : String, '.' ∉ segment.toList → j.follow? segment = j.child? segment.toList) ∧
    (∀ items segment, j = array items →
      (∀ k (h : k < items.length), IsIndex segment k → j.child? segment = some items[k]) ∧
      (∀ k (h : k < items.length), IsIndex segment (k - items.length) →
        j.child? segment = some items[k]) ∧
      (∀ i, IntegerText segment i →
        (i < -2 ^ 63 ∨ 2 ^ 63 ≤ i ∨ i < -items.length ∨ items.length ≤ i) →
        j.child? segment = none) ∧
      ((∀ i, ¬ IntegerText segment i) → j.child? segment = none)) ∧
    (∀ members key i, j = object members → Members.Sorted members →
      (j.child? key = some i ↔ (String.ofList key, i) ∈ members)) ∧
    ((∀ items, j ≠ array items) → (∀ members, j ≠ object members) →
      ∀ segment, j.child? segment = none) := by
  refine ⟨follow?_append j, fun _ h => follow?_of_not_mem h j, ?array, ?object, ?scalar⟩
  case array =>
    rintro items segment rfl
    refine ⟨fun k h hk => ?_, fun k h hk => ?_, fun i => child?_array_of_outside, fun h => ?_⟩
    · rw [child?_array_of_isIndex hk, item?_natCast, List.getElem?_eq_getElem h]
    · rw [child?_array_of_isIndex hk, item?_sub_length h, List.getElem?_eq_getElem h]
    · exact child?_array_eq_none fun i hi => h i hi.text
  case object =>
    rintro members key i rfl hm
    exact Members.find?_eq_some_iff hm
  case scalar =>
    intro ha ho segment
    cases j with
    | array items => exact absurd rfl (ha items)
    | object members => exact absurd rfl (ho members)
    | _ => rfl

/-- The path `a.-1.b`, where `-1` leads to the second of two items. -/
theorem follow?_compositional_item :
    let last : Json := .object [("b", .bool true)]
    let j : Json := .object [("a", .array [.null, last])]
    IsIndex "-1".toList (1 - [Json.null, last].length) ∧
      j.follow? "a.-1.b" = some (.bool true) := by
  intro last j
  have hindex : IsIndex "-1".toList (1 - [Json.null, last].length) :=
    index?_eq_some_iff.mp (by decide)
  have hpath : "a.-1.b" = "a" ++ "." ++ ("-1" ++ "." ++ "b") := by decide
  obtain ⟨hj, hsegment, -, hmembers, -⟩ := follow?_compositional j
  obtain ⟨harray, hindices, hitems, -⟩ := follow?_compositional (.array [.null, last])
  obtain ⟨-, hkey, -, hlast, -⟩ := follow?_compositional last
  have ha : j.child? "a".toList = some (.array [.null, last]) :=
    (hmembers _ _ _ rfl (List.pairwise_singleton _ _)).mpr List.mem_cons_self
  have hb : last.child? "b".toList = some (.bool true) :=
    (hlast _ _ _ rfl (List.pairwise_singleton _ _)).mpr List.mem_cons_self
  have hitem := (hitems _ _ rfl).2.1 1 (by decide) hindex
  refine ⟨hindex, ?_⟩
  rw [hpath, hj, hsegment "a" (by decide), ha, Option.bind_some, harray,
    hindices "-1" (by decide), hitem, Option.bind_some]
  exact (hkey "b" (by decide)).trans hb

end Json

end RecordSieve
