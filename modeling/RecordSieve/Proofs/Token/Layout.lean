import RecordSieve.Proofs.Results
import RecordSieve.Proofs.Token.Written

/-! # The layout of a text

A text that splits into tokens is a row of spelled tokens with blanks around them. Which spellings
a token has, and what may stand right after it, is said without regard to how a text is read. A
text has at most one layout, and the tokens of the layout are those that splitting gives.
-/

namespace RecordSieve.Token

def IsWord (w : List Char) : Prop := w ≠ [] ∧ ∀ c ∈ w, isWordChar c

def symbols : List String :=
  ["+", "-", "*", "/", "%", "=", ">", "!", "<", "!=", "<=", ">=", "<>"]

inductive Spells : List Char → Token → Prop
  | string {q : Char} {body : List Char} : isQuote q → q ∉ body →
      Spells (q :: (body ++ [q])) ⟨.string, String.ofList body⟩
  | leftParen : Spells ['('] ⟨.leftParen, "("⟩
  | rightParen : Spells [')'] ⟨.rightParen, ")"⟩
  | comma : Spells [','] ⟨.separator, ","⟩
  | number {w : List Char} {x : Binary64} : IsWord w → Binary64.read? w = some x →
      Spells w ⟨.number, String.ofList w⟩
  | word {w : List Char} : IsWord w → Binary64.read? w = none → Spells w ⟨.word, String.ofList w⟩
  | star : Spells ['*'] ⟨.word, "*"⟩
  | operator {o : String} : o ∈ symbols → Spells o.toList ⟨.operator, o⟩

/-- What may stand right after a token. A star is told from a word by what follows, and no operator
is cut short. -/
structure Precedes (t : Token) (rest : List Char) : Prop where
  star : t = ⟨.word, "*"⟩ → ∀ c ∈ rest.head?, Text.isBlank c
  times : t = ⟨.operator, "*"⟩ → ∃ c ∈ rest.head?, Text.isBlank c = false
  equals : t ∈ [⟨.operator, "!"⟩, ⟨.operator, "<"⟩, ⟨.operator, ">"⟩] → rest.head? ≠ some '='
  greater : t = ⟨.operator, "<"⟩ → rest.head? ≠ some '>'

/-- Whether the token is spelled by a word, which must not run into another. -/
def isWordlike (t : Token) : Bool := t.kind = .number || (t.kind = .word && t.text ≠ "*")

structure Piece where
  spelling : List Char
  token : Token
  gap : List Char

def row (ps : List Piece) : List Char := ps.flatMap fun p => p.spelling ++ p.gap

inductive Arranged : List Piece → Prop
  | nil : Arranged []
  | cons {p : Piece} {ps : List Piece} : Spells p.spelling p.token → (∀ c ∈ p.gap, Text.isBlank c) →
      p.token.Precedes (p.gap ++ row ps) →
      (∀ q ∈ ps.head?, p.token.isWordlike → q.token.isWordlike → p.gap ≠ []) → Arranged ps →
      Arranged (p :: ps)

/-- The blanks at the start of a text and the pieces after them. -/
structure Layout where
  lead : List Char
  pieces : List Piece

namespace Layout

def text (l : Layout) : List Char := l.lead ++ row l.pieces

def tokens (l : Layout) : List Token := l.pieces.map Piece.token

structure Proper (l : Layout) : Prop where
  lead : ∀ c ∈ l.lead, Text.isBlank c
  pieces : Arranged l.pieces

end Layout

instance (t : Token) (rest : List Char) : Decidable (t.Precedes rest) :=
  decidable_of_iff
    ((t = ⟨.word, "*"⟩ → rest.head?.all Text.isBlank) ∧
      (t = ⟨.operator, "*"⟩ → rest.head?.any (!Text.isBlank ·)) ∧
      (t ∈ [⟨.operator, "!"⟩, ⟨.operator, "<"⟩, ⟨.operator, ">"⟩] → rest.head? ≠ some '=') ∧
      (t = ⟨.operator, "<"⟩ → rest.head? ≠ some '>'))
    ⟨fun ⟨hs, ht, he, hg⟩ => ⟨fun h => (Option.all_eq_true ..).mp (hs h),
      fun h => by simpa [Option.any_eq_true] using ht h, he, hg⟩,
    fun h => ⟨fun hs => (Option.all_eq_true ..).mpr (h.star hs),
      fun ht => by simpa [Option.any_eq_true] using h.times ht, h.equals, h.greater⟩⟩

variable {c d q : Char} {w v s : List Char} {t u : Token} {ts : List Token} {p : Piece}
  {ps qs : List Piece} {o : String} {position : Nat}

@[simp] theorem row_nil : row [] = [] := rfl

@[simp] theorem row_cons : row (p :: ps) = p.spelling ++ (p.gap ++ row ps) := by
  simp [row]

theorem isWordChar_eq_false_of_isBlank (h : Text.isBlank c) : isWordChar c = false := by
  simp [isWordChar, isDelimiter, h]

theorem singleton_mem_symbols (h : isOperatorChar c) : String.singleton c ∈ symbols := by
  have hs : "+-*/%=>!<".toList.all fun d => String.singleton d ∈ symbols := by decide
  exact of_decide_eq_true (List.all_eq_true.mp hs c (mem_operators_of_isOperatorChar h))

theorem pair_mem_symbols (h : isPair c d) : String.ofList [c, d] ∈ symbols := by
  simp only [isPair, Bool.or_eq_true, Bool.and_eq_true, decide_eq_true_eq] at h
  rcases h with ⟨(rfl | rfl) | rfl, rfl⟩ | ⟨rfl, rfl⟩ <;> decide

theorem exists_of_mem_symbols (h : o ∈ symbols) :
    (∃ c, isOperatorChar c ∧ o = String.singleton c) ∨
      ∃ c d, isPair c d ∧ o = String.ofList [c, d] := by
  simp only [symbols, List.mem_cons, List.not_mem_nil, or_false] at h
  rcases h with rfl | rfl | rfl | rfl | rfl | rfl | rfl | rfl | rfl | rfl | rfl | rfl | rfl
  · exact .inl ⟨'+', rfl, rfl⟩
  · exact .inl ⟨'-', rfl, rfl⟩
  · exact .inl ⟨'*', rfl, rfl⟩
  · exact .inl ⟨'/', rfl, rfl⟩
  · exact .inl ⟨'%', rfl, rfl⟩
  · exact .inl ⟨'=', rfl, rfl⟩
  · exact .inl ⟨'>', rfl, rfl⟩
  · exact .inl ⟨'!', rfl, rfl⟩
  · exact .inl ⟨'<', rfl, rfl⟩
  · exact .inr ⟨'!', '=', rfl, rfl⟩
  · exact .inr ⟨'<', '=', rfl, rfl⟩
  · exact .inr ⟨'>', '=', rfl, rfl⟩
  · exact .inr ⟨'<', '>', rfl, rfl⟩

theorem spells_ofWord (h : IsWord w) : Spells w (ofWord w) := by
  unfold ofWord
  cases hr : Binary64.read? w with
  | none => exact .word h hr
  | some x => exact .number h hr

theorem isBlank_eq_false_of_isWordChar (h : isWordChar c) : Text.isBlank c = false := by
  cases hb : Text.isBlank c with
  | false => rfl
  | true => simp [isWordChar_eq_false_of_isBlank hb] at h

theorem isOperatorChar_ends (h : isOperatorChar c) :
    Text.isBlank c = false ∧ isWordChar c = false := by
  have hs : "+-*/%=>!<".toList.all fun d => Text.isBlank d = false ∧ isWordChar d = false := by
    decide
  exact of_decide_eq_true (List.all_eq_true.mp hs c (mem_operators_of_isOperatorChar h))

theorem isWordlike_of_isWord (h : IsWord w) : isWordlike ⟨.word, String.ofList w⟩ := by
  have hs : String.ofList w ≠ "*" := by
    intro he
    obtain rfl : w = ['*'] := by simpa using congrArg String.toList he
    exact absurd (h.2 '*' (List.mem_singleton_self _)) (by decide)
  simp [isWordlike, hs]

/-- What is spelled starts with no blank, and exactly words start with a character of a word. -/
theorem Spells.exists_cons (h : Spells w t) :
    ∃ c v, w = c :: v ∧ Text.isBlank c = false ∧ isWordChar c = t.isWordlike := by
  have word {w : List Char} {t : Token} (hw : IsWord w) (ht : t.isWordlike) :
      ∃ c v, w = c :: v ∧ Text.isBlank c = false ∧ isWordChar c = t.isWordlike := by
    obtain ⟨c, v, rfl⟩ := List.exists_cons_of_ne_nil hw.1
    have hc := hw.2 c List.mem_cons_self
    exact ⟨c, v, rfl, isBlank_eq_false_of_isWordChar hc, hc.trans ht.symm⟩
  cases h with
  | string hq =>
    rcases isQuote_iff.mp hq with rfl | rfl <;> exact ⟨_, _, rfl, rfl, rfl⟩
  | leftParen | rightParen | comma | star => exact ⟨_, _, rfl, rfl, rfl⟩
  | number hw => exact word hw rfl
  | word hw => exact word hw (isWordlike_of_isWord hw)
  | operator ho =>
    rcases exists_of_mem_symbols ho with ⟨c, hc, rfl⟩ | ⟨c, d, hp, rfl⟩
    · obtain ⟨hb, hw⟩ := isOperatorChar_ends hc
      exact ⟨c, [], by simp, hb, hw⟩
    · obtain ⟨hb, hw⟩ := isOperatorChar_ends (isOperatorChar_of_isPair hp)
      exact ⟨c, [d], by simp, hb, hw⟩

theorem isPair_eq_false_of_precedes {o : Char} (h : Precedes ⟨.operator, String.singleton o⟩ s) :
    ∀ d ∈ s.head?, isPair o d = false := by
  intro d hd
  cases hp : isPair o d with
  | false => rfl
  | true =>
    simp only [isPair, Bool.or_eq_true, Bool.and_eq_true, decide_eq_true_eq] at hp
    rcases hp with ⟨(rfl | rfl) | rfl, rfl⟩ | ⟨rfl, rfl⟩
    · exact absurd hd (h.equals (by decide))
    · exact absurd hd (h.equals (by decide))
    · exact absurd hd (h.equals (by decide))
    · exact absurd hd (h.greater rfl)

theorem Spells.written (h : Spells w t) (hp : t.Precedes s) (he : t.isWordlike → Ends s)
    (hs : Written s ts) : Written (w ++ s) (t :: ts) := by
  cases h with
  | string hq hn => simpa using Written.string hq hn hs
  | leftParen => exact .leftParen hs
  | rightParen => exact .rightParen hs
  | comma => exact .comma hs
  | number hw hr =>
    have h := Written.word hw.1 hw.2 (he rfl) hs
    simpa [ofWord, hr] using h
  | word hw hr =>
    have h := Written.word hw.1 hw.2 (he (isWordlike_of_isWord hw)) hs
    simpa [ofWord, hr] using h
  | star => exact .star (hp.star rfl) hs
  | operator ho =>
    rcases exists_of_mem_symbols ho with ⟨c, hc, rfl⟩ | ⟨c, d, hcd, rfl⟩
    · have h := Written.operator hc (fun he => hp.times (he ▸ rfl))
        (isPair_eq_false_of_precedes hp) hs
      simpa using h
    · simpa using Written.pair hcd hs

theorem Written.append_blanks (h : Written s ts) (hw : ∀ c ∈ w, Text.isBlank c) :
    Written (w ++ s) ts := by
  induction w with
  | nil => exact h
  | cons c w ih =>
    obtain ⟨hc, hw⟩ := List.forall_mem_cons.mp hw
    exact .blank hc (ih hw)

theorem ends_of_gap (hg : ∀ c ∈ p.gap, Text.isBlank c) (hps : Arranged ps)
    (hn : ∀ q ∈ ps.head?, q.token.isWordlike → p.gap ≠ []) : Ends (p.gap ++ row ps) := by
  cases hgap : p.gap with
  | cons c g =>
    rintro _ ⟨⟩
    exact isWordChar_eq_false_of_isBlank (hg c (by simp [hgap]))
  | nil =>
    cases hps with
    | nil => simp [Ends]
    | @cons q qs hq _ _ _ _ =>
      obtain ⟨c, v, hc, -, hw⟩ := hq.exists_cons
      intro d hd
      obtain rfl : c = d := by simpa [hc] using hd
      cases hl : q.token.isWordlike with
      | false => exact hw.trans hl
      | true => exact absurd hgap (hn q rfl hl)

theorem Arranged.written (h : Arranged ps) : Written (row ps) (ps.map Piece.token) := by
  induction h with
  | nil => exact .nil
  | cons hp hg hb hn hps ih =>
    rw [row_cons]
    exact hp.written hb (fun hw => ends_of_gap hg hps fun q hq => hn q hq hw) (ih.append_blanks hg)

theorem Layout.Proper.written {l : Layout} (h : l.Proper) : Written l.text l.tokens :=
  h.pieces.written.append_blanks h.lead

theorem scan_unterminated (hq : isQuote q) (hn : q ∉ s) :
    scan position (q :: s) = .error (.unterminated position (String.ofList (q :: s))) := by
  have hb : Text.isBlank q = false := by
    rcases isQuote_iff.mp hq with rfl | rfl <;> rfl
  have hd : s.dropWhile (· ≠ q) = [] := by
    have hp : ∀ c ∈ s, decide (c ≠ q) := fun c hc => decide_eq_true fun he => hn (he ▸ hc)
    rw [← List.append_nil s, List.dropWhile_append_of_pos hp]
    rfl
  rw [scan]
  simp only [hb, hq, if_true, Bool.false_eq_true, if_false]
  split
  · rfl
  · rename_i h
    rw [hd] at h
    cases h

theorem exists_word_append (h : isWordChar c) :
    ∃ w r, c :: s = w ++ r ∧ IsWord w ∧ Ends r := by
  refine ⟨c :: s.takeWhile isWordChar, s.dropWhile isWordChar, by simp, ⟨by simp, ?_⟩, ?_⟩
  · rw [List.forall_mem_cons]
    exact ⟨h, List.all_eq_true.mp List.all_takeWhile⟩
  · intro d hd
    have := List.head?_dropWhile_not isWordChar s
    rw [Option.mem_def.mp hd] at this
    simpa using this

theorem written_operator_cons (hc : isOperatorChar c) (hs : Written (operator c s).2.val ts) :
    Written (c :: s) ((operator c s).1 :: ts) := by
  cases s with
  | nil =>
    by_cases h : c = '*'
    · subst h
      exact .star (by simp) hs
    · simp only [operator, h, if_false] at hs ⊢
      exact .operator hc (fun he => absurd he h) (by simp) hs
  | cons d s =>
    by_cases hstar : c = '*' ∧ Text.isBlank d
    · obtain ⟨rfl, hd⟩ := hstar
      simp only [operator, hd, and_self, if_true] at hs ⊢
      exact .star (by simpa using hd) hs
    · by_cases hp : isPair c d
      · simp only [operator, hstar, hp, if_true, if_false] at hs ⊢
        exact .pair hp hs
      · simp only [operator, hstar, hp, if_false] at hs ⊢
        refine .operator hc (fun he => ⟨d, rfl, ?_⟩) (by simpa using hp) hs
        simpa [he] using hstar

theorem isWordChar_of_not (hb : ¬ Text.isBlank c) (hq : ¬ isQuote c) (hl : c ≠ '(') (hr : c ≠ ')')
    (hc : c ≠ ',') (ho : ¬ isOperatorChar c) : isWordChar c := by
  simp [isWordChar, isDelimiter, hb, hq, hl, hr, hc, ho]

/-- Induction on a text by the steps that split it. What a step reads stands before the text that is
split next. -/
theorem scan_induction {motive : List Char → Prop} (nil : motive [])
    (blank : ∀ {c s}, Text.isBlank c → motive s → motive (c :: s))
    (string : ∀ {q body s}, isQuote q → q ∉ body → motive s → motive (q :: (body ++ q :: s)))
    (unclosed : ∀ {q s}, isQuote q → q ∉ s → motive (q :: s))
    (leftParen : ∀ {s}, motive s → motive ('(' :: s))
    (rightParen : ∀ {s}, motive s → motive (')' :: s))
    (comma : ∀ {s}, motive s → motive (',' :: s))
    (operator : ∀ {c s}, isOperatorChar c → motive (operator c s).2.val → motive (c :: s))
    (word : ∀ {w s}, IsWord w → Ends s → motive s → motive (w ++ s)) (s : List Char) :
    motive s := by
  induction hn : s.length using Nat.strongRecOn generalizing s with
  | ind n ih =>
  have rest {r : List Char} (hl : r.length < s.length) : motive r := ih r.length (hn ▸ hl) r rfl
  cases s with
  | nil => exact nil
  | cons c r =>
    by_cases hb : Text.isBlank c
    · exact blank hb (rest (by simp))
    by_cases hq : isQuote c
    · by_cases hm : c ∈ r
      · obtain ⟨body, after, rfl, hbody⟩ := List.eq_append_cons_of_mem hm
        exact string hq hbody (rest (by simp; omega))
      · exact unclosed hq hm
    by_cases hl : c = '('
    · exact hl ▸ leftParen (rest (by simp))
    by_cases hr : c = ')'
    · exact hr ▸ rightParen (rest (by simp))
    by_cases hc : c = ','
    · exact hc ▸ comma (rest (by simp))
    by_cases ho : isOperatorChar c
    · exact operator ho (rest (Nat.lt_succ_of_le (Token.operator c r).2.property))
    · obtain ⟨w, v, he, hw, hv⟩ := exists_word_append (s := r) (isWordChar_of_not hb hq hl hr hc ho)
      have hlen : v.length < (c :: r).length := by
        have := List.length_pos_iff.mpr hw.1
        simp only [he, List.length_append]
        omega
      exact he ▸ word hw hv (rest hlen)

/-- Each step of splitting reads one blank or one spelled token, whatever the rest is. -/
theorem written_of_scan (h : scan position s = .ok ts) : Written s ts := by
  induction s using scan_induction generalizing position ts with
  | nil =>
    obtain rfl : [] = ts := by simpa [scan] using h
    exact .nil
  | blank hb ih =>
    rw [scan_blank hb] at h
    exact .blank hb (ih h)
  | string hq hn ih =>
    rw [scan_string hq hn, map_eq_ok_iff] at h
    obtain ⟨us, hu, rfl⟩ := h
    exact .string hq hn (ih hu)
  | unclosed hq hn => simp [scan_unterminated hq hn] at h
  | leftParen ih =>
    rw [scan_leftParen, map_eq_ok_iff] at h
    obtain ⟨us, hu, rfl⟩ := h
    exact .leftParen (ih hu)
  | rightParen ih =>
    rw [scan_rightParen, map_eq_ok_iff] at h
    obtain ⟨us, hu, rfl⟩ := h
    exact .rightParen (ih hu)
  | comma ih =>
    rw [scan_comma, map_eq_ok_iff] at h
    obtain ⟨us, hu, rfl⟩ := h
    exact .comma (ih hu)
  | operator ho ih =>
    rw [scan_operator ho, map_eq_ok_iff] at h
    obtain ⟨us, hu, rfl⟩ := h
    exact written_operator_cons ho (ih hu)
  | word hw hs ih =>
    rw [scan_word hw.1 hw.2 hs, map_eq_ok_iff] at h
    obtain ⟨us, hu, rfl⟩ := h
    exact .word hw.1 hw.2 hs (ih hu)

theorem precedes_of_not_operator (hk : t.kind ≠ .operator) (hs : t ≠ ⟨.word, "*"⟩) :
    t.Precedes s where
  star h := absurd h hs
  times h := by simp [h] at hk
  equals h := by
    simp only [List.mem_cons, List.not_mem_nil, or_false] at h
    rcases h with rfl | rfl | rfl <;> simp at hk
  greater h := by simp [h] at hk

theorem precedes_ofWord (h : IsWord w) : (ofWord w).Precedes s := by
  refine precedes_of_not_operator ?_ fun he => ?_
  · unfold ofWord
    split <;> simp
  · have hl := isWordlike_of_isWord h
    have ht : String.ofList w = "*" := congrArg Token.text he
    simp [isWordlike, ht] at hl

theorem precedes_pair : Precedes ⟨.operator, String.ofList [c, d]⟩ s := by
  have hn (x : Char) :
      (⟨.operator, String.ofList [c, d]⟩ : Token) ≠ ⟨.operator, String.singleton x⟩ := by
    intro h
    simpa using congrArg (fun t => t.text.toList) h
  refine ⟨by simp, fun h => absurd h (hn '*'), fun h => ?_, fun h => absurd h (hn '<')⟩
  simp only [List.mem_cons, List.not_mem_nil, or_false] at h
  rcases h with h | h | h
  · exact absurd h (hn '!')
  · exact absurd h (hn '<')
  · exact absurd h (hn '>')

theorem precedes_single (hs : c = '*' → ∃ d ∈ s.head?, Text.isBlank d = false)
    (hp : ∀ d ∈ s.head?, isPair c d = false) : Precedes ⟨.operator, String.singleton c⟩ s := by
  have hc {x : Char}
      (h : (⟨.operator, String.singleton c⟩ : Token) = ⟨.operator, String.singleton x⟩) :
      c = x := by
    simpa using congrArg (fun t => t.text.toList) h
  refine ⟨by simp, fun h => hs (hc (x := '*') h), fun h he => ?_, fun h he => ?_⟩
  · have := hp '=' he
    simp only [List.mem_cons, List.not_mem_nil, or_false] at h
    rcases h with h | h | h
    · simp [isPair, hc (x := '!') h] at this
    · simp [isPair, hc (x := '<') h] at this
    · simp [isPair, hc (x := '>') h] at this
  · have := hp '>' he
    simp [isPair, hc (x := '<') h] at this

def Layout.cons (w : List Char) (t : Token) (l : Layout) : Layout :=
  ⟨[], ⟨w, t, l.lead⟩ :: l.pieces⟩

theorem Layout.Proper.cons {l : Layout} (h : l.Proper) (hw : Spells w t) (ht : t.Precedes l.text)
    (he : t.isWordlike → Ends l.text) : (l.cons w t).Proper := by
  refine ⟨by simp [Layout.cons], .cons hw h.lead ht (fun q hq hl hlq hgap => ?_) h.pieces⟩
  obtain ⟨lead, pieces⟩ := l
  obtain ⟨ps, rfl⟩ : ∃ ps, pieces = q :: ps := by
    simpa [Option.mem_def, List.head?_eq_some_iff] using hq
  obtain rfl : lead = [] := hgap
  cases h.pieces with
  | cons hs =>
    obtain ⟨c, v, hc, -, hw⟩ := hs.exists_cons
    have := he hl c (by simp [Layout.text, hc])
    simp [hw, hlq] at this

@[simp] theorem Layout.text_cons (w : List Char) (t : Token) (l : Layout) :
    (l.cons w t).text = w ++ l.text := by
  simp [Layout.cons, Layout.text]

@[simp] theorem Layout.tokens_cons (w : List Char) (t : Token) (l : Layout) :
    (l.cons w t).tokens = t :: l.tokens := rfl

theorem exists_layout_cons (h : ∃ l : Layout, l.Proper ∧ l.text = s ∧ l.tokens = ts)
    (hw : Spells w t) (ht : t.Precedes s) (he : t.isWordlike → Ends s) :
    ∃ l : Layout, l.Proper ∧ l.text = w ++ s ∧ l.tokens = t :: ts := by
  obtain ⟨l, hl, rfl, rfl⟩ := h
  exact ⟨l.cons w t, hl.cons hw ht he, l.text_cons w t, l.tokens_cons w t⟩

theorem Written.exists_layout (h : Written s ts) :
    ∃ l : Layout, l.Proper ∧ l.text = s ∧ l.tokens = ts := by
  have plain {s : List Char} {t : Token} (hk : t.kind ≠ .operator) (hs : t ≠ ⟨.word, "*"⟩) :
      t.Precedes s := precedes_of_not_operator hk hs
  induction h with
  | nil => exact ⟨⟨[], []⟩, ⟨by simp, .nil⟩, rfl, rfl⟩
  | @blank c s ts hc _ ih =>
    obtain ⟨l, hl, rfl, rfl⟩ := ih
    exact ⟨⟨c :: l.lead, l.pieces⟩, ⟨List.forall_mem_cons.mpr ⟨hc, hl.lead⟩, hl.pieces⟩, rfl, rfl⟩
  | string hq hn _ ih =>
    have h := exists_layout_cons ih (.string hq hn) (plain (by simp) (by simp))
      (by simp [isWordlike])
    simpa using h
  | leftParen _ ih =>
    exact exists_layout_cons ih .leftParen (plain (by simp) (by simp)) (by simp [isWordlike])
  | rightParen _ ih =>
    exact exists_layout_cons ih .rightParen (plain (by simp) (by simp)) (by simp [isWordlike])
  | comma _ ih =>
    exact exists_layout_cons ih .comma (plain (by simp) (by simp)) (by simp [isWordlike])
  | star hs _ ih =>
    exact exists_layout_cons ih .star ⟨fun _ => hs, by simp, by simp, by simp⟩
      (by simp [isWordlike])
  | pair hp _ ih =>
    have h := exists_layout_cons ih (.operator (pair_mem_symbols hp)) precedes_pair
      (by simp [isWordlike])
    simpa using h
  | operator hc hs hp _ ih =>
    have h := exists_layout_cons ih (.operator (singleton_mem_symbols hc)) (precedes_single hs hp)
      (by simp [isWordlike])
    simpa using h
  | word hn hw hs _ ih =>
    have hw := And.intro hn hw
    exact exists_layout_cons ih (spells_ofWord hw) (precedes_ofWord hw) fun _ => hs

theorem not_isWord_star {w : List Char} (h : String.ofList w = "*") : ¬ IsWord w := by
  intro hw
  have hl := isWordlike_of_isWord hw
  simp [isWordlike, h] at hl

/-- Only the quotes of a string are a matter of choice. -/
theorem Spells.eq_of_head (h : Spells w t) (h' : Spells v t) (hh : w.head? = v.head?) : w = v := by
  have same {w v : List Char} (he : String.ofList w = String.ofList v) : w = v := by
    simpa using congrArg String.toList he
  generalize ht : t = u at h'
  cases h with
  | string =>
    cases h' with
    | string =>
      obtain rfl := same (congrArg Token.text ht)
      simp_all
    | _ => simp at ht
  | leftParen | rightParen | comma =>
    cases h' with
    | leftParen | rightParen | comma => simp_all
    | _ => simp at ht
  | number =>
    cases h' with
    | number => exact same (congrArg Token.text ht)
    | _ => simp at ht
  | word hw =>
    cases h' with
    | word => exact same (congrArg Token.text ht)
    | star => exact absurd hw (not_isWord_star (congrArg Token.text ht))
    | _ => simp at ht
  | star =>
    cases h' with
    | star => rfl
    | word hw => exact absurd hw (not_isWord_star (congrArg Token.text ht).symm)
    | _ => simp at ht
  | operator =>
    cases h' with
    | operator => simp_all
    | _ => simp at ht

theorem row_blank_end (h : Arranged ps) : ∀ c ∈ (row ps).head?, Text.isBlank c = false := by
  cases h with
  | nil => simp
  | cons hs =>
    obtain ⟨c, v, hc, hb, -⟩ := hs.exists_cons
    simpa [hc] using hb

theorem eq_of_append_row (hps : Arranged ps) (hqs : Arranged qs) (hw : ∀ c ∈ w, Text.isBlank c)
    (hv : ∀ c ∈ v, Text.isBlank c) (h : w ++ row ps = v ++ row qs) : w = v ∧ row ps = row qs := by
  have hwv : w = v := by
    rw [← takeWhile_append_of_head hw (row_blank_end hps), h,
      takeWhile_append_of_head hv (row_blank_end hqs)]
  subst hwv
  exact ⟨rfl, List.append_cancel_left h⟩

theorem Arranged.eq_of_row (hps : Arranged ps) (hqs : Arranged qs)
    (ht : ps.map Piece.token = qs.map Piece.token) (h : row ps = row qs) : ps = qs := by
  induction hps generalizing qs with
  | nil => simpa using ht
  | @cons p ps hp hg _ _ hps ih =>
    cases hqs with
    | nil => simp at ht
    | @cons q qs hq hg' _ _ hqs =>
      obtain ⟨spelling, token, gap⟩ := p
      obtain ⟨spelling', token', gap'⟩ := q
      obtain ⟨rfl, hts⟩ : token = token' ∧ ps.map Piece.token = qs.map Piece.token := by
        simpa using ht
      obtain ⟨c, v, rfl, -, -⟩ : ∃ c v, spelling = c :: v ∧ _ := hp.exists_cons
      obtain ⟨c', v', rfl, -, -⟩ : ∃ c v, spelling' = c :: v ∧ _ := hq.exists_cons
      obtain ⟨rfl, -⟩ : c = c' ∧ _ := by simpa using h
      obtain ⟨rfl⟩ : v = v' := by simpa using hp.eq_of_head hq rfl
      obtain ⟨rfl, hr⟩ := eq_of_append_row (w := gap) (v := gap') hps hqs hg hg' (by simpa using h)
      rw [ih hqs hts hr]

theorem Layout.Proper.eq {l m : Layout} (hl : l.Proper) (hm : m.Proper) (h : l.text = m.text) :
    l = m := by
  obtain ⟨lead, ps⟩ := l
  obtain ⟨lead', qs⟩ := m
  have ht : ps.map Piece.token = qs.map Piece.token := by
    have hlt : scan 0 (Layout.text ⟨lead, ps⟩) = .ok (ps.map Piece.token) := hl.written.scan_eq
    have hmt : scan 0 (Layout.text ⟨lead', qs⟩) = .ok (qs.map Piece.token) := hm.written.scan_eq
    rw [h] at hlt
    exact Except.ok.inj (hlt.symm.trans hmt)
  obtain ⟨rfl, hr⟩ :=
    eq_of_append_row (w := lead) (v := lead') hl.pieces hm.pieces hl.lead hm.lead h
  obtain rfl : ps = qs := hl.pieces.eq_of_row hm.pieces ht hr
  rfl

theorem filter_blanks (hw : ∀ c ∈ w, Text.isBlank c) : w.filter (!Text.isBlank ·) = [] := by
  rw [List.filter_eq_nil_iff]
  intro c hc
  simp [hw c hc]

theorem filter_row (h : Arranged ps) :
    (row ps).filter (!Text.isBlank ·) = (ps.flatMap Piece.spelling).filter (!Text.isBlank ·) := by
  induction h with
  | nil => rfl
  | cons _ hg _ _ _ ih => simp [filter_blanks hg, ih]

theorem Layout.Proper.filter_text {l : Layout} (h : l.Proper) :
    l.text.filter (!Text.isBlank ·) =
      (l.pieces.flatMap Piece.spelling).filter (!Text.isBlank ·) := by
  simp [Layout.text, filter_blanks h.lead, filter_row h.pieces]

/-- Splitting a text gives the tokens of its layout, and fails where it has none. No text has two
layouts, and all characters but blanks between tokens are part of a spelling. -/
theorem ofText_eq_ok_iff_layout (s : String) :
    (∀ ts, ofText s = .ok ts ↔ ∃ l : Layout, l.Proper ∧ l.text = s.toList ∧ l.tokens = ts) ∧
    (∀ l m : Layout, l.Proper → m.Proper → l.text = s.toList → m.text = s.toList → l = m) ∧
    ∀ l : Layout, l.Proper → l.text = s.toList → s.toList.filter (!Text.isBlank ·) =
      (l.pieces.flatMap Piece.spelling).filter (!Text.isBlank ·) := by
  refine ⟨fun ts => ⟨fun h => (written_of_scan h).exists_layout, ?_⟩, ?_, ?_⟩
  · rintro ⟨l, hl, ht, rfl⟩
    rw [ofText, ← ht]
    exact hl.written.scan_eq
  · intro l m hl hm hlt hmt
    exact hl.eq hm (hlt.trans hmt.symm)
  · intro l hl ht
    rw [← ht]
    exact hl.filter_text

/-- `a<>1* b*'x y'`, where the first star is a word and the second an operator. -/
theorem ofText_layout_stars :
    let l : Layout := ⟨[], [⟨['a'], ⟨.word, "a"⟩, []⟩, ⟨['<', '>'], ⟨.operator, "<>"⟩, []⟩,
      ⟨['1'], ⟨.number, "1"⟩, []⟩, ⟨['*'], ⟨.word, "*"⟩, [' ']⟩, ⟨['b'], ⟨.word, "b"⟩, []⟩,
      ⟨['*'], ⟨.operator, "*"⟩, []⟩, ⟨"'x y'".toList, ⟨.string, "x y"⟩, []⟩]⟩
    let s := "a<>1* b*'x y'"
    (l.Proper ∧ l.text = s.toList) ∧ ofText s = .ok l.tokens ∧
      (∀ m : Layout, m.Proper → m.text = s.toList → m = l) ∧
      s.toList.filter (!Text.isBlank ·) =
        (l.pieces.flatMap Piece.spelling).filter (!Text.isBlank ·) := by
  intro l s
  have word (c : Char) (h : isWordChar c) : Spells [c] (ofWord [c]) :=
    spells_ofWord ⟨by simp, by simpa using h⟩
  have string : Spells "'x y'".toList ⟨.string, "x y"⟩ :=
    @Spells.string '\'' "x y".toList rfl (by decide)
  have nil : ∀ c ∈ ([] : List Char), Text.isBlank c := List.forall_mem_nil _
  have one : ∀ c ∈ [' '], Text.isBlank c := List.forall_mem_singleton.mpr rfl
  have hp : l.Proper := by
    refine ⟨nil, .cons (word 'a' rfl) nil ?_ ?_ (.cons (.operator (o := "<>") ?_) nil ?_ ?_
      (.cons (word '1' rfl) nil ?_ ?_ (.cons .star one ?_ ?_ (.cons (word 'b' rfl) nil ?_ ?_
      (.cons (.operator (o := "*") ?_) nil ?_ ?_ (.cons string nil ?_ ?_ .nil))))))⟩
    all_goals decide
  have ht : l.text = s.toList := by decide
  obtain ⟨ho, hu, hf⟩ := ofText_eq_ok_iff_layout s
  exact ⟨⟨hp, ht⟩, (ho _).mpr ⟨l, hp, ht, rfl⟩, fun m hm hmt => hu m l hm hp hmt ht, hf l hp ht⟩

end RecordSieve.Token
