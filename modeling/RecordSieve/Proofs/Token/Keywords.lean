import RecordSieve.Proofs.Expr.KeyTest
import RecordSieve.Proofs.Expr.Replacement

/-! # The case of keywords

A keyword in lower case stands for the keyword in any case, and the parser looks at both in the same
way. A word that is no keyword in any case is left as it is.
-/

namespace RecordSieve.Token

open Expr.Parser

variable {s s' w : String} {t u : Token} {β : Type}

def keywords : List String := ["and", "or", "is", "not", "null", "like", "in"]

/-- A keyword in any case as the keyword, and any other word as it is. -/
def lowerWord (s : String) : String := (keywords.find? fun w => lowered s = lowered w).getD s

def lowerKeyword (t : Token) : Token := if t.kind = .word then ⟨.word, lowerWord t.text⟩ else t

/-- The tokens are the same, or one keyword in two cases. -/
def SameButCase (t u : Token) : Prop := t = u ∨ ∃ w ∈ keywords, t.spells w ∧ u.spells w

instance (t u : Token) : Decidable (SameButCase t u) := inferInstanceAs (Decidable (_ ∨ _))

theorem lowerWord_of_lowered (hw : w ∈ keywords) (h : lowered s = lowered w) : lowerWord s = w := by
  -- no two keywords are the same in lower case
  have hfind : ∀ w ∈ keywords, keywords.find? (fun v => lowered w = lowered v) = some w := by decide
  rw [lowerWord, h, hfind w hw, Option.getD_some]

theorem lowerWord_cases (s : String) :
    lowerWord s = s ∨ lowerWord s ∈ keywords ∧ lowered s = lowered (lowerWord s) := by
  unfold lowerWord
  cases h : keywords.find? fun w => lowered s = lowered w with
  | none => exact .inl rfl
  | some w => exact .inr ⟨List.mem_of_find?_eq_some h, by simpa using List.find?_some h⟩

theorem lowered_lowerWord (s : String) : lowered (lowerWord s) = lowered s := by
  rcases lowerWord_cases s with h | ⟨-, h⟩
  · rw [h]
  · exact h.symm

@[simp] theorem lowerWord_lowerWord (s : String) : lowerWord (lowerWord s) = lowerWord s := by
  rcases lowerWord_cases s with h | ⟨hw, -⟩
  · rw [h, h]
  · exact lowerWord_of_lowered hw rfl

/-- Words are told apart, but for the case of a keyword. -/
theorem lowerWord_eq_iff : lowerWord s = lowerWord s' ↔
    s = s' ∨ ∃ w ∈ keywords, lowered s = lowered w ∧ lowered s' = lowered w := by
  constructor
  · intro h
    have hl : lowered s = lowered s' := by rw [← lowered_lowerWord s, h, lowered_lowerWord]
    rcases lowerWord_cases s with hs | ⟨hw, hs⟩
    · rcases lowerWord_cases s' with hs' | ⟨hw, hs'⟩
      · exact .inl (by rw [← hs, h, hs'])
      · exact .inr ⟨_, hw, hl.trans hs', hs'⟩
    · exact .inr ⟨_, hw, hs, hl ▸ hs⟩
  · rintro (rfl | ⟨w, hw, hs, hs'⟩)
    · rfl
    · rw [lowerWord_of_lowered hw hs, lowerWord_of_lowered hw hs']

theorem lowerKeyword_of_kind (h : t.kind ≠ .word) : t.lowerKeyword = t := if_neg h

theorem lowerKeyword_word (s : String) : lowerKeyword ⟨.word, s⟩ = ⟨.word, lowerWord s⟩ := rfl

@[simp] theorem kind_lowerKeyword (t : Token) : t.lowerKeyword.kind = t.kind := by
  unfold lowerKeyword
  split
  · rename_i h
    exact h.symm
  · rfl

@[simp] theorem lowerKeyword_lowerKeyword (t : Token) :
    t.lowerKeyword.lowerKeyword = t.lowerKeyword := by
  obtain ⟨kind, s⟩ := t
  cases kind with
  | word => rw [lowerKeyword_word, lowerKeyword_word, lowerWord_lowerWord]
  | _ => rfl

theorem lowerKeyword_eq_iff : t.lowerKeyword = u.lowerKeyword ↔ SameButCase t u := by
  constructor
  · intro h
    obtain ⟨k, s⟩ := t
    obtain ⟨k', s'⟩ := u
    obtain rfl : k = k' := by simpa using congrArg kind h
    by_cases hk : k = .word
    · subst hk
      rw [lowerKeyword_word, lowerKeyword_word, Token.mk.injEq] at h
      rcases lowerWord_eq_iff.mp h.2 with rfl | ⟨w, hw, hs, hs'⟩
      · exact .inl rfl
      · exact .inr ⟨w, hw, spells_iff.mpr ⟨rfl, hs⟩, spells_iff.mpr ⟨rfl, hs'⟩⟩
    · rw [lowerKeyword_of_kind hk, lowerKeyword_of_kind hk] at h
      exact .inl h
  · rintro (rfl | ⟨w, hw, ht, hu⟩)
    · rfl
    · obtain ⟨k, s⟩ := t
      obtain ⟨k', s'⟩ := u
      obtain ⟨rfl, hs⟩ := spells_iff.mp ht
      obtain ⟨rfl, hs'⟩ := spells_iff.mp hu
      rw [lowerKeyword_word, lowerKeyword_word, lowerWord_eq_iff.mpr (.inr ⟨w, hw, hs, hs'⟩)]

/-- What tells no keyword from its other cases sees a token with its keyword in lower case as it
is. -/
theorem eq_of_lowerKeyword (f : Token → β)
    (h : ∀ w ∈ keywords, ∀ s, lowered s = lowered w → f ⟨.word, w⟩ = f ⟨.word, s⟩) (t : Token) :
    f t.lowerKeyword = f t := by
  obtain ⟨kind, s⟩ := t
  cases kind with
  | word =>
    rw [lowerKeyword_word]
    rcases lowerWord_cases s with hs | ⟨hw, hs⟩
    · rw [hs]
    · exact h _ hw s hs
  | _ => rfl

@[simp] theorem spells_lowerKeyword (w : String) (t : Token) :
    t.lowerKeyword.spells w = t.spells w :=
  eq_of_lowerKeyword (spells w) (fun _ _ _ hs => by simp [spells, hs]) t

theorem operation?_of_lowered (hw : w ∈ keywords) (h : lowered s = lowered w) :
    operation? ⟨.word, s⟩ = none := by
  have hstar : ∀ w ∈ keywords, lowered "*" ≠ lowered w := by decide
  have hs : s ≠ "*" := by
    rintro rfl
    exact hstar w hw h
  simp [operation?, hs]

theorem operation?_lowerKeyword (t : Token) : t.lowerKeyword.operation? = t.operation? :=
  eq_of_lowerKeyword operation?
    (fun _ hw _ hs => by rw [operation?_of_lowered hw rfl, operation?_of_lowered hw hs]) t

theorem faithful_lowerKeyword : Faithful lowerKeyword where
  opens := eq_of_lowerKeyword opens fun _ _ _ _ => rfl
  closes := eq_of_lowerKeyword closes fun _ _ _ _ => rfl
  connective? t := by simp only [connective?, spells_lowerKeyword]
  comparison? := eq_of_lowerKeyword comparison? fun _ _ _ _ => rfl
  operation? := operation?_lowerKeyword
  endsOperand t := by simp only [endsOperand, kind_lowerKeyword, operation?_lowerKeyword]
  sign? := eq_of_lowerKeyword sign? fun _ _ _ _ => rfl

end RecordSieve.Token
