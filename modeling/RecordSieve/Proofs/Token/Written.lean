import RecordSieve.Token.Lexer

/-! # How tokens are written

The texts that spell a list of tokens, one token after the other. Splitting such a text gives the
tokens back.
-/

namespace RecordSieve.Token

/-- No word goes on into the text. -/
def Ends (s : List Char) : Prop := ∀ c ∈ s.head?, isWordChar c = false

/-- The text is a spelling of the tokens. -/
inductive Written : List Char → List Token → Prop
  | nil : Written [] []
  | blank {c : Char} {s : List Char} {ts : List Token} : Text.isBlank c → Written s ts →
      Written (c :: s) ts
  | string {q : Char} {body s : List Char} {ts : List Token} : isQuote q → q ∉ body →
      Written s ts → Written (q :: (body ++ q :: s)) (⟨.string, String.ofList body⟩ :: ts)
  | leftParen {s : List Char} {ts : List Token} : Written s ts →
      Written ('(' :: s) (⟨.leftParen, "("⟩ :: ts)
  | rightParen {s : List Char} {ts : List Token} : Written s ts →
      Written (')' :: s) (⟨.rightParen, ")"⟩ :: ts)
  | comma {s : List Char} {ts : List Token} : Written s ts →
      Written (',' :: s) (⟨.separator, ","⟩ :: ts)
  | star {s : List Char} {ts : List Token} : (∀ c ∈ s.head?, Text.isBlank c) → Written s ts →
      Written ('*' :: s) (⟨.word, "*"⟩ :: ts)
  | pair {c d : Char} {s : List Char} {ts : List Token} : isPair c d → Written s ts →
      Written (c :: d :: s) (⟨.operator, String.ofList [c, d]⟩ :: ts)
  | operator {c : Char} {s : List Char} {ts : List Token} : isOperatorChar c →
      (c = '*' → ∃ d ∈ s.head?, Text.isBlank d = false) → (∀ d ∈ s.head?, isPair c d = false) →
      Written s ts → Written (c :: s) (⟨.operator, String.singleton c⟩ :: ts)
  | word {w s : List Char} {ts : List Token} : w ≠ [] → (∀ c ∈ w, isWordChar c) → Ends s →
      Written s ts → Written (w ++ s) (ofWord w :: ts)

variable {c d q : Char} {s r w body : List Char} {ts us : List Token} {position : Nat}

theorem takeWhile_append_of_head {p : Char → Bool} (hw : ∀ c ∈ w, p c)
    (hs : ∀ c ∈ s.head?, p c = false) : (w ++ s).takeWhile p = w := by
  rw [List.takeWhile_append_of_pos hw]
  cases s with
  | nil => simp
  | cons c s => simp [hs c rfl]

theorem dropWhile_append_of_head {p : Char → Bool} (hw : ∀ c ∈ w, p c)
    (hs : ∀ c ∈ s.head?, p c = false) : (w ++ s).dropWhile p = s := by
  rw [List.dropWhile_append_of_pos hw]
  cases s with
  | nil => rfl
  | cons c s => simp [hs c rfl]

theorem isQuote_iff : isQuote q ↔ q = '\'' ∨ q = '"' := by
  simp [isQuote]

theorem mem_operators_of_isOperatorChar (h : isOperatorChar c) : c ∈ "+-*/%=>!<".toList := by
  simpa [isOperatorChar, or_assoc] using h

theorem scan_blank (h : Text.isBlank c) : scan position (c :: s) = scan (position + 1) s := by
  rw [scan]
  simp [h]

theorem scan_string (hq : isQuote q) (hn : q ∉ body) :
    scan position (q :: (body ++ q :: s)) =
      (⟨.string, String.ofList body⟩ :: ·) <$> scan (position + body.length + 2) s := by
  have hb : Text.isBlank q = false := by
    rcases isQuote_iff.mp hq with rfl | rfl <;> rfl
  have hall : ∀ c ∈ body, decide (c ≠ q) := fun c hc =>
    decide_eq_true fun he => hn (he ▸ hc)
  have hhead : ∀ c ∈ (q :: s).head?, decide (c ≠ q) = false := by
    rintro c ⟨⟩
    simp
  have ht := takeWhile_append_of_head hall hhead
  have hd := dropWhile_append_of_head hall hhead
  rw [scan]
  simp only [hb, hq, ht, if_true, Bool.false_eq_true, if_false]
  split
  · simp_all
  · rename_i he
    rw [hd] at he
    cases he
    rfl

theorem scan_leftParen : scan position ('(' :: s) =
    (⟨.leftParen, "("⟩ :: ·) <$> scan (position + 1) s := by
  rw [scan]
  rfl

theorem scan_rightParen : scan position (')' :: s) =
    (⟨.rightParen, ")"⟩ :: ·) <$> scan (position + 1) s := by
  rw [scan]
  rfl

theorem scan_comma : scan position (',' :: s) =
    (⟨.separator, ","⟩ :: ·) <$> scan (position + 1) s := by
  rw [scan]
  rfl

theorem scan_operator (h : isOperatorChar c) : scan position (c :: s) =
    ((operator c s).1 :: ·) <$>
      scan (position + (operator c s).1.text.length) (operator c s).2.val := by
  have hs : "+-*/%=>!<".toList.all fun d =>
      (Text.isBlank d = false ∧ isQuote d = false) ∧ d ≠ '(' ∧ d ≠ ')' ∧ d ≠ ',' := by decide
  obtain ⟨⟨hb, hq⟩, hl, hr, hc⟩ :=
    of_decide_eq_true (List.all_eq_true.mp hs c (mem_operators_of_isOperatorChar h))
  rw [scan]
  simp [hb, hq, hl, hr, hc, h]

theorem scan_word (hn : w ≠ []) (hw : ∀ c ∈ w, isWordChar c) (hs : Ends s) :
    scan position (w ++ s) = (ofWord w :: ·) <$> scan (position + w.length) s := by
  obtain ⟨c, w, rfl⟩ := List.exists_cons_of_ne_nil hn
  obtain ⟨hc, hw⟩ := List.forall_mem_cons.mp hw
  have ht := takeWhile_append_of_head hw hs
  have hd := dropWhile_append_of_head hw hs
  simp only [isWordChar, isDelimiter, Bool.not_eq_eq_eq_not, Bool.not_true, Bool.or_eq_false_iff,
    decide_eq_false_iff_not] at hc
  rw [List.cons_append, scan]
  simp [hc, ht, hd, Nat.add_assoc]

theorem operator_of_star (hs : ∀ d ∈ s.head?, Text.isBlank d) :
    (operator '*' s).1 = ⟨.word, "*"⟩ ∧ (operator '*' s).2.val = s := by
  cases s with
  | nil => exact ⟨rfl, rfl⟩
  | cons d s => simp [operator, hs d rfl]

theorem operator_of_pair (h : isPair c d) :
    (operator c (d :: s)).1 = ⟨.operator, String.ofList [c, d]⟩ ∧
      (operator c (d :: s)).2.val = s := by
  have hc : c ≠ '*' := by
    rintro rfl
    simp [isPair] at h
  simp [operator, hc, h]

theorem operator_of_single (hs : c = '*' → ∃ d ∈ s.head?, Text.isBlank d = false)
    (hp : ∀ d ∈ s.head?, isPair c d = false) :
    (operator c s).1 = ⟨.operator, String.singleton c⟩ ∧ (operator c s).2.val = s := by
  cases s with
  | nil =>
    have hc : c ≠ '*' := by
      rintro rfl
      simp at hs
    simp [operator, hc]
  | cons d s =>
    have hd : ¬ (c = '*' ∧ Text.isBlank d) := by
      rintro ⟨rfl, hb⟩
      simp [hb] at hs
    simp [operator, hd, hp d rfl]

theorem isOperatorChar_of_isPair (h : isPair c d) : isOperatorChar c := by
  simp only [isPair, Bool.or_eq_true, Bool.and_eq_true, decide_eq_true_eq] at h
  rcases h with ⟨(rfl | rfl) | rfl, -⟩ | ⟨rfl, -⟩ <;> rfl

theorem Written.scan_eq (h : Written s ts) : scan position s = .ok ts := by
  induction h generalizing position with
  | nil => rw [scan]
  | blank hb _ ih => rw [scan_blank hb, ih]
  | string hq hn _ ih => rw [scan_string hq hn, ih]; rfl
  | leftParen _ ih => rw [scan_leftParen, ih]; rfl
  | rightParen _ ih => rw [scan_rightParen, ih]; rfl
  | comma _ ih => rw [scan_comma, ih]; rfl
  | star hs _ ih =>
    obtain ⟨ht, ha⟩ := operator_of_star hs
    rw [scan_operator rfl, ht, ha, ih]; rfl
  | pair hp _ ih =>
    obtain ⟨ht, ha⟩ := operator_of_pair hp
    rw [scan_operator (isOperatorChar_of_isPair hp), ht, ha, ih]; rfl
  | operator hc hs hp _ ih =>
    obtain ⟨ht, ha⟩ := operator_of_single hs hp
    rw [scan_operator hc, ht, ha, ih]; rfl
  | word hn hw hs _ ih => rw [scan_word hn hw hs, ih]; rfl

/-- The piece spells the tokens in any text that no word in it runs into. -/
def Writes (s : List Char) (ts : List Token) : Prop :=
  ∀ ⦃rest : List Char⦄ ⦃us : List Token⦄, Ends rest → Written rest us →
    Written (s ++ rest) (ts ++ us)

theorem Writes.written (h : Writes s ts) : Written s ts := by
  simpa using h (by simp [Ends]) .nil

theorem ends_blank (s : List Char) : Ends (' ' :: s) := by
  rintro c ⟨⟩
  rfl

theorem writes_word (hn : w ≠ []) (hw : ∀ c ∈ w, isWordChar c) : Writes w [ofWord w] :=
  fun _ _ he hr => .word hn hw he hr

theorem writes_string (hn : '\'' ∉ body) :
    Writes ('\'' :: (body ++ ['\''])) [⟨.string, String.ofList body⟩] := by
  intro rest us _ hr
  have h := Written.string rfl hn hr
  simpa using h

theorem Writes.append_blank (hs : Writes s ts) (hr : Writes r us) :
    Writes (s ++ ' ' :: r) (ts ++ us) := by
  intro rest vs he hv
  have h := hs (ends_blank _) (.blank rfl (hr he hv))
  simpa using h

theorem Writes.append_comma (hs : Writes s ts) (hr : Writes r us) :
    Writes (s ++ ',' :: ' ' :: r) (ts ++ ⟨.separator, ","⟩ :: us) := by
  intro rest vs he hv
  have hc : Ends (',' :: ' ' :: (r ++ rest)) := by
    rintro c ⟨⟩
    rfl
  have h := hs hc (.comma (.blank rfl (hr he hv)))
  simpa using h

theorem Writes.parenthesized (hs : Writes s ts) :
    Writes ('(' :: (s ++ [')'])) (⟨.leftParen, "("⟩ :: (ts ++ [⟨.rightParen, ")"⟩])) := by
  intro rest us _ hr
  have hc : Ends (')' :: rest) := by
    rintro c ⟨⟩
    rfl
  have h := Written.leftParen (hs hc (.rightParen hr))
  simpa using h

theorem Writes.minus (hs : Writes s ts) : Writes ('-' :: s) (⟨.operator, "-"⟩ :: ts) :=
  fun _ _ he hr => .operator rfl (by simp) (by simp [isPair]) (hs he hr)

end RecordSieve.Token
