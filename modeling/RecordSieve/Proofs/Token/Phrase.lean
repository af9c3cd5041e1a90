import RecordSieve.Proofs.Token.Layout

/-! # Phrases split again

A phrase is spelled with a blank after each token but the last, so every star in it is a word. But
for that it is split into its tokens, if none of its strings holds the quote that it is put in.
-/

namespace RecordSieve.Token

/-- The token that a token of a phrase is read as: a star with a blank after it is a word. -/
def inPhrase (t : Token) : Token := if t = ⟨.operator, "*"⟩ then ⟨.word, "*"⟩ else t

/-- A string without a single quote; other tokens are written as they are. -/
def IsQuotable (t : Token) : Prop := t.kind = .string → '\'' ∉ t.text.toList

variable {t : Token} {w s : List Char} {ts us : List Token}

theorem inPhrase_eq_self (h : t ≠ ⟨.operator, "*"⟩) : t.inPhrase = t := if_neg h

theorem Spells.spells_spelling (h : Spells w t) (hq : t.IsQuotable) :
    Spells t.spelling.toList t.inPhrase := by
  cases h with
  | @string q body _ _ =>
    have hb : '\'' ∉ body := by simpa [IsQuotable] using hq
    simpa [spelling, inPhrase] using Spells.string (q := '\'') rfl hb
  | leftParen => exact .leftParen
  | rightParen => exact .rightParen
  | comma => exact .comma
  | number hw hr => simpa [spelling, inPhrase] using Spells.number hw hr
  | word hw hr => simpa [spelling, inPhrase] using Spells.word hw hr
  | star => exact .star
  | @operator o ho =>
    by_cases hs : o = "*"
    · subst hs
      exact .star
    · rw [inPhrase_eq_self (by simpa using hs)]
      exact .operator ho

theorem precedes_inPhrase (hs : ∀ c ∈ s.head?, Text.isBlank c) : t.inPhrase.Precedes s where
  star _ := hs
  times h := by
    unfold inPhrase at h
    split at h
    · cases h
    · contradiction
  equals _ he := absurd (hs '=' he) (by decide)
  greater _ he := absurd (hs '>' he) (by decide)

theorem Spells.written_spelling (h : Spells w t) (hq : t.IsQuotable)
    (hs : ∀ c ∈ s.head?, Text.isBlank c) (hr : Written s us) :
    Written (t.spelling.toList ++ s) (t.inPhrase :: us) :=
  (h.spells_spelling hq).written (precedes_inPhrase hs)
    (fun _ c hc => isWordChar_eq_false_of_isBlank (hs c hc)) hr

theorem written_phrase (hs : ∀ t ∈ ts, ∃ w, Spells w t) (hq : ∀ t ∈ ts, t.IsQuotable) :
    Written (phrase ts).toList (ts.map inPhrase) := by
  induction ts with
  | nil => exact .nil
  | cons t ts ih =>
    obtain ⟨⟨w, hw⟩, hs⟩ := List.forall_mem_cons.mp hs
    obtain ⟨ht, hq⟩ := List.forall_mem_cons.mp hq
    have ih := ih hs hq
    cases ts with
    | nil =>
      have h := hw.written_spelling (s := []) ht (by simp) .nil
      simpa [phrase] using h
    | cons u ts =>
      have h := hw.written_spelling (s := ' ' :: (phrase (u :: ts)).toList) ht (by simp; decide)
        (.blank rfl ih)
      simpa [phrase, String.intercalate_cons_cons] using h

theorem exists_spells_of_ofText {q : String} (h : ofText q = .ok ts) (ht : t ∈ ts) :
    ∃ w, Spells w t := by
  obtain ⟨l, hl, -, rfl⟩ := (written_of_scan h).exists_layout
  obtain ⟨p, hp, rfl⟩ := List.mem_map.mp ht
  have spells {ps : List Piece} (h : Arranged ps) : ∀ p ∈ ps, Spells p.spelling p.token := by
    induction h with
    | nil => simp
    | cons hs _ _ _ _ ih => exact List.forall_mem_cons.mpr ⟨hs, ih⟩
  exact ⟨p.spelling, spells hl.pieces p hp⟩

theorem ofText_phrase {q : String} (h : ofText q = .ok ts) (hq : ∀ t ∈ ts, t.IsQuotable) :
    ofText (phrase ts) = .ok (ts.map inPhrase) :=
  (written_phrase (fun _ ht => exists_spells_of_ofText h ht) hq).scan_eq

end RecordSieve.Token
