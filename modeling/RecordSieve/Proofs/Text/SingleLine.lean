import RecordSieve.Filter
import RecordSieve.Proofs.Binary64.RoundTrip

/-! # Texts on a single line

Documents are written without a newline, and so are quoted texts and the messages on bytes that are
no text and on texts that are no document, whatever is in the strings.
-/

namespace RecordSieve

def IsSingleLine (s : String) : Prop := '\n' ∉ s.toList

variable {s t : String} {l : List Char}

instance : DecidablePred IsSingleLine := fun s => inferInstanceAs (Decidable ('\n' ∉ s.toList))

namespace IsSingleLine

@[simp] theorem append_iff : IsSingleLine (s ++ t) ↔ IsSingleLine s ∧ IsSingleLine t := by
  simp [IsSingleLine]

theorem append (hs : IsSingleLine s) (ht : IsSingleLine t) : IsSingleLine (s ++ t) :=
  append_iff.mpr ⟨hs, ht⟩

@[simp] theorem ofList_iff : IsSingleLine (String.ofList l) ↔ '\n' ∉ l := by
  simp [IsSingleLine]

theorem intercalate {ts : List String} (hs : IsSingleLine s) (h : ∀ t ∈ ts, IsSingleLine t) :
    IsSingleLine (s.intercalate ts) := by
  induction ts with
  | nil => simp [IsSingleLine]
  | cons t ts ih =>
    obtain ⟨ht, h⟩ := List.forall_mem_cons.mp h
    cases ts with
    | nil => simpa using ht
    | cons u ts => simpa only [String.intercalate_cons_cons, append_iff] using ⟨⟨ht, hs⟩, ih h⟩

end IsSingleLine

theorem newline_not_mem_toDigits {b : Nat} (hb : 1 < b) (n : Nat) : '\n' ∉ Nat.toDigits b n := by
  induction n using Nat.strongRecOn with
  | ind n ih =>
    have hd (k : Nat) : '\n' ≠ k.digitChar := (Nat.digitChar_ne '\n' (by decide)).symm
    rw [Nat.toDigits_eq_if hb]
    split
    · exact List.mem_singleton.not.mpr (hd n)
    · rename_i hn
      have hlt : n / b < n := Nat.div_lt_self (by omega) hb
      rw [List.mem_append, List.mem_singleton, not_or]
      exact ⟨ih _ hlt, hd (n % b)⟩

@[simp] theorem isSingleLine_natRepr (n : Nat) : IsSingleLine n.repr :=
  IsSingleLine.ofList_iff.mpr (newline_not_mem_toDigits (by decide) n)

theorem isSingleLine_intToString (i : Int) : IsSingleLine (toString i) := by
  cases i with
  | ofNat n => exact isSingleLine_natRepr n
  | negSucc n => exact .append (by decide) (isSingleLine_natRepr (n + 1))

namespace Scientific

variable {d : Scientific}

theorem mem_pointed : ∀ x ∈ d.pointed, x.isDigit ∨ x = '.' := by
  have hd := isDigit_digits (d := d)
  unfold pointed
  split
  · simp
  · rename_i c hc
    rw [hc] at hd
    simpa using .inl (hd c List.mem_cons_self)
  · rename_i c cs _ hc
    rw [hc] at hd
    intro x hx
    rw [List.mem_cons, List.mem_cons] at hx
    rcases hx with rfl | rfl | hx
    · exact .inl (hd x List.mem_cons_self)
    · exact .inr rfl
    · exact .inl (hd x (List.mem_cons_of_mem _ hx))

theorem newline_not_mem (h : ∀ x ∈ l, x.isDigit ∨ x = '.') : '\n' ∉ l :=
  fun hm => absurd (h _ hm) (by decide)

end Scientific

namespace Json

theorem newline_not_mem_decimalText (d : Scientific) : '\n' ∉ decimalText d := by
  have hi : '\n' ∉ (toString d.leading).toList := isSingleLine_intToString d.leading
  have hp := Scientific.newline_not_mem (Scientific.mem_pointed (d := d))
  have hq := Scientific.newline_not_mem (Scientific.mem_positional (d := d))
  unfold decimalText
  split
  · simpa using ⟨hp, hi⟩
  · split
    · simpa using ⟨hp, hi⟩
    · split
      · simpa using hq
      · exact hq

theorem isSingleLine_numberText (n : Number) : IsSingleLine n.text := by
  cases n with
  | int i => exact isSingleLine_intToString i
  | real x =>
    cases x with
    | nan => decide
    | infinite negative => exact (by decide : IsSingleLine "null")
    | finite negative units hu =>
      have hs : '\n' ∉ Binary64.sign negative := by cases negative <;> decide
      simpa [Number.text, realText] using ⟨hs, newline_not_mem_decimalText _⟩

theorem newline_not_mem_escape (c : Char) : '\n' ∉ escape c := by
  have hd := newline_not_mem_toDigits (b := 16) (by decide) c.toNat
  unfold escape
  split
  any_goals decide
  rename_i hc _ _
  split
  · simpa using hd
  · split
    · simpa using hd
    · simpa using Ne.symm hc

theorem isSingleLine_stringText (s : String) : IsSingleLine (stringText s) := by
  simp [stringText, newline_not_mem_escape, IsSingleLine]

mutual

theorem isSingleLine_text : (j : Json) → IsSingleLine j.text
  | null | bool true | bool false => by decide
  | number n => isSingleLine_numberText n
  | string s => isSingleLine_stringText s
  | array items => by
    have h := IsSingleLine.intercalate (s := ",") (by decide) (isSingleLine_itemTexts items)
    simpa [text] using ⟨⟨by decide, h⟩, by decide⟩
  | object members => by
    have h := IsSingleLine.intercalate (s := ",") (by decide) (isSingleLine_memberTexts members)
    simpa [text] using ⟨⟨by decide, h⟩, by decide⟩

theorem isSingleLine_itemTexts : (items : List Json) → ∀ t ∈ itemTexts items, IsSingleLine t
  | [] => by simp [itemTexts]
  | j :: rest => by
    simpa [itemTexts] using ⟨isSingleLine_text j, isSingleLine_itemTexts rest⟩

theorem isSingleLine_memberTexts :
    (members : List (String × Json)) → ∀ t ∈ memberTexts members, IsSingleLine t
  | [] => by simp [memberTexts]
  | (k, j) :: rest => by
    have hk := isSingleLine_stringText k
    simpa [memberTexts] using
      ⟨⟨⟨hk, by decide⟩, isSingleLine_text j⟩, isSingleLine_memberTexts rest⟩

end

end Json

namespace Text

theorem newline_not_mem_quoteChar (c : Char) : '\n' ∉ quoteChar c := by
  have hd := newline_not_mem_toDigits (b := 16) (by decide) c.toNat
  unfold quoteChar
  split
  any_goals decide
  rename_i hc _ _
  split
  · simpa using hd
  · simpa using Ne.symm hc

theorem isSingleLine_quote (s : String) : IsSingleLine (quote s) := by
  simp [quote, newline_not_mem_quoteChar, IsSingleLine]

theorem Malformed.isSingleLine_message (e : Malformed) : IsSingleLine e.message := by
  cases e with
  | invalid length start =>
    have hlength := isSingleLine_natRepr length
    exact .append (.append (.append (by simp [IsSingleLine, toString]) hlength)
      (by simp [IsSingleLine, toString])) (isSingleLine_natRepr start)
  | incomplete start =>
    exact .append (by simp [IsSingleLine, toString]) (isSingleLine_natRepr start)

end Text

theorem Json.Fault.isSingleLine_message (f : Json.Fault) : IsSingleLine f.message := by
  have hf : IsSingleLine f.flaw.message := by
    cases f.flaw <;> simp [IsSingleLine, Json.Flaw.message]
  exact .append (.append (.append (.append hf (by decide)) (isSingleLine_natRepr f.line))
    (by decide)) (isSingleLine_natRepr f.column)

theorem Json.isSingleLine_kind (j : Json) : IsSingleLine j.kind := by
  cases j <;> simp only [kind] <;> decide

theorem Value.isSingleLine_kind (v : Value) : IsSingleLine v.kind := by
  cases v <;> simp only [kind] <;> decide

end RecordSieve
