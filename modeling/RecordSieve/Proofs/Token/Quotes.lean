import RecordSieve.Proofs.Token.Layout

/-! # Unmatched quotes

Splitting a text fails at a quote that has whole tokens before it and no quote of its kind after
it, and nowhere else. Whether a quote opens a string depends on all that stands before it, so that
a text has at most one such quote.
-/

namespace RecordSieve.Token

/-- A text that is cut at one of its characters. -/
structure Opening where
  before : String
  quote : Char
  after : String

namespace Opening

def rest (o : Opening) : String := String.singleton o.quote ++ o.after

def text (o : Opening) : String := o.before ++ o.rest

/-- The character is a quote that opens a string, and the string is not closed. -/
structure Unmatched (o : Opening) : Prop where
  quote : isQuote o.quote
  before : ∃ ts, ofText o.before = .ok ts
  after : o.quote ∉ o.after.toList

end Opening

variable {c q : Char} {s r : List Char} {ts us : List Token} {position : Nat} {e : LexError}
  {o p : Opening}

theorem isQuote_ends (hq : isQuote q) : Text.isBlank q = false ∧ isWordChar q = false := by
  rcases isQuote_iff.mp hq with rfl | rfl <;> exact ⟨rfl, rfl⟩

theorem isPair_eq_false_of_isQuote (hq : isQuote q) : isPair c q = false := by
  rcases isQuote_iff.mp hq with rfl | rfl <;> simp [isPair]

/-- An operator takes as much before a quote as it takes at the end of a text. Only a star is
another token there. -/
theorem operator_append_quote (hq : isQuote q) :
    (operator c (s ++ q :: r)).2.val = (operator c s).2.val ++ q :: r ∧
      (operator c (s ++ q :: r)).1.text.length = (operator c s).1.text.length := by
  cases s with
  | nil => simp [operator, isQuote_ends hq, isPair_eq_false_of_isQuote hq]
  | cons d s =>
    simp only [List.cons_append, operator]
    split
    · exact ⟨rfl, rfl⟩
    · split <;> exact ⟨rfl, rfl⟩

theorem ends_append_quote (hs : Ends s) (hq : isQuote q) : Ends (s ++ q :: r) := by
  cases s with
  | nil =>
    rintro _ ⟨⟩
    exact (isQuote_ends hq).2
  | cons d s => exact hs

theorem exists_operator_append (c : Char) (s : List Char) :
    ∃ w, s = w ++ (operator c s).2.val ∧ (operator c s).1.text.length = w.length + 1 := by
  cases s with
  | nil => exact ⟨[], by simp [operator]⟩
  | cons d s =>
    simp only [operator]
    split
    · exact ⟨[], by simp; decide⟩
    · split
      · exact ⟨[d], rfl, by simp⟩
      · exact ⟨[], rfl, by simp⟩

/-- The tokens of `s` are split off before the rest. -/
def Passes (s : List Char) (us : List Token) (r : List Char) : Prop :=
  ∀ position, scan position (s ++ r) = (us ++ ·) <$> scan (position + s.length) r

theorem Passes.step {t : Token} {w : List Char} (h : Passes s us r)
    (ht : ∀ position, scan position (w ++ (s ++ r)) =
      (t :: ·) <$> scan (position + w.length) (s ++ r)) :
    Passes (w ++ s) (t :: us) r := by
  intro position
  rw [List.append_assoc, ht, h, List.length_append, Nat.add_assoc]
  cases scan (position + (w.length + s.length)) r <;> rfl

theorem Passes.operator (hc : isOperatorChar c) (hq : isQuote q)
    (h : Passes (operator c s).2.val us (q :: r)) : ∃ t, Passes (c :: s) (t :: us) (q :: r) := by
  obtain ⟨w, hw, hl⟩ := exists_operator_append c s
  obtain ⟨hr, ht⟩ := operator_append_quote (c := c) (s := s) (r := r) hq
  refine ⟨(Token.operator c (s ++ q :: r)).1, ?_⟩
  rw [hw]
  refine h.step (w := c :: w) fun position => ?_
  rw [← List.append_assoc, List.cons_append, ← hw, List.cons_append, scan_operator hc, ht, hl, hr]
  rfl

/-- What is split into tokens is passed over when a quote follows it. -/
theorem Written.exists_passes (h : Written s ts) (hq : isQuote q) :
    ∃ us, Passes s us (q :: r) := by
  induction h with
  | nil => exact ⟨[], fun position => by simp⟩
  | @blank c s ts hb _ ih =>
    obtain ⟨us, h⟩ := ih
    refine ⟨us, fun position => ?_⟩
    rw [List.cons_append, scan_blank hb, h, List.length_cons, Nat.add_assoc, Nat.add_comm 1]
  | @string p body s ts hp hn _ ih =>
    obtain ⟨us, h⟩ := ih
    have h := h.step (w := p :: (body ++ [p])) (t := ⟨.string, String.ofList body⟩)
      fun position => by simpa [Nat.add_assoc] using scan_string hp hn
    exact ⟨_, by simpa using h⟩
  | leftParen _ ih =>
    obtain ⟨us, h⟩ := ih
    exact ⟨_, h.step (w := ['(']) fun _ => scan_leftParen⟩
  | rightParen _ ih =>
    obtain ⟨us, h⟩ := ih
    exact ⟨_, h.step (w := [')']) fun _ => scan_rightParen⟩
  | comma _ ih =>
    obtain ⟨us, h⟩ := ih
    exact ⟨_, h.step (w := [',']) fun _ => scan_comma⟩
  | star hs _ ih =>
    obtain ⟨us, h⟩ := ih
    rw [← (operator_of_star hs).2] at h
    obtain ⟨t, h⟩ := h.operator rfl hq
    exact ⟨_, h⟩
  | @pair c d s ts hp _ ih =>
    obtain ⟨us, h⟩ := ih
    rw [← (operator_of_pair (s := s) hp).2] at h
    obtain ⟨t, h⟩ := h.operator (isOperatorChar_of_isPair hp) hq
    exact ⟨_, h⟩
  | operator hc hs hp _ ih =>
    obtain ⟨us, h⟩ := ih
    rw [← (operator_of_single hs hp).2] at h
    obtain ⟨t, h⟩ := h.operator hc hq
    exact ⟨_, h⟩
  | word hn hw hs _ ih =>
    obtain ⟨us, h⟩ := ih
    exact ⟨_, h.step fun _ => scan_word hn hw (ends_append_quote hs hq)⟩

theorem Opening.Unmatched.ofText_eq (h : o.Unmatched) :
    ofText o.text = .error (.unterminated o.before.length o.rest) := by
  obtain ⟨ts, ht⟩ := h.before
  obtain ⟨us, hp⟩ := (written_of_scan ht).exists_passes h.quote
  have hs : scan 0 (o.before.toList ++ o.quote :: o.after.toList) = .error _ :=
    (hp 0).trans (congrArg _ (scan_unterminated h.quote h.after))
  simpa [ofText, Opening.text, Opening.rest, String.length_toList] using hs

theorem Opening.eq_of_text (ht : o.text = p.text) (hr : o.rest = p.rest) : o = p := by
  obtain ⟨a, q, b⟩ := o
  obtain ⟨a', q', b'⟩ := p
  simp only [Opening.text, hr, String.append_left_inj] at ht
  obtain ⟨rfl, hb⟩ : q = q' ∧ b.toList = b'.toList := by
    simpa [Opening.rest] using congrArg String.toList hr
  rw [ht, String.toList_inj.mp hb]

theorem exists_of_scan_eq_error (h : scan position s = .error e) :
    ∃ a q b, s = a ++ q :: b ∧ isQuote q ∧ q ∉ b ∧ ∃ ts, Written a ts := by
  induction s using scan_induction generalizing position e with
  | nil => simp [scan] at h
  | @blank c s hb ih =>
    rw [scan_blank hb] at h
    obtain ⟨a, q, b, rfl, hq, hqb, ts, ht⟩ := ih h
    exact ⟨c :: a, q, b, rfl, hq, hqb, ts, .blank hb ht⟩
  | @string p body s hp hn ih =>
    rw [scan_string hp hn, map_eq_error_iff] at h
    obtain ⟨a, q, b, rfl, hq, hqb, ts, ht⟩ := ih h
    exact ⟨p :: (body ++ p :: a), q, b, by simp, hq, hqb, _, .string hp hn ht⟩
  | @unclosed q s hq hn => exact ⟨[], q, s, rfl, hq, hn, [], .nil⟩
  | leftParen ih =>
    rw [scan_leftParen, map_eq_error_iff] at h
    obtain ⟨a, q, b, rfl, hq, hqb, ts, ht⟩ := ih h
    exact ⟨_, q, b, rfl, hq, hqb, _, .leftParen ht⟩
  | rightParen ih =>
    rw [scan_rightParen, map_eq_error_iff] at h
    obtain ⟨a, q, b, rfl, hq, hqb, ts, ht⟩ := ih h
    exact ⟨_, q, b, rfl, hq, hqb, _, .rightParen ht⟩
  | comma ih =>
    rw [scan_comma, map_eq_error_iff] at h
    obtain ⟨a, q, b, rfl, hq, hqb, ts, ht⟩ := ih h
    exact ⟨_, q, b, rfl, hq, hqb, _, .comma ht⟩
  | @operator c s ho ih =>
    rw [scan_operator ho, map_eq_error_iff] at h
    obtain ⟨a, q, b, hs, hq, hqb, ts, ht⟩ := ih h
    -- the operator that is read is the same with the quote cut off
    obtain ⟨w, hw, -⟩ := exists_operator_append c s
    obtain rfl : s = (w ++ a) ++ q :: b := by simpa [hs] using hw
    have ha : (operator c (w ++ a)).2.val = a := by
      have := (operator_append_quote (c := c) (s := w ++ a) (r := b) hq).1
      simpa [hs] using this.symm
    exact ⟨c :: (w ++ a), q, b, rfl, hq, hqb, _, written_operator_cons ho (ha.symm ▸ ht)⟩
  | @word w s hw hs ih =>
    rw [scan_word hw.1 hw.2 hs, map_eq_error_iff] at h
    obtain ⟨a, q, b, rfl, hq, hqb, ts, ht⟩ := ih h
    have ha : Ends a := by
      cases a with
      | nil => simp [Ends]
      | cons d a => exact hs
    exact ⟨w ++ a, q, b, by simp, hq, hqb, _, .word hw.1 hw.2 ha ht⟩

/-- Splitting a text fails where it has a quote that opens a string and is not closed. There is at
most one; the error gives the number of characters before it and the text from it on. -/
theorem ofText_eq_error_iff_unmatched (s : String) :
    (∀ e, ofText s = .error e ↔ ∃ o : Opening, o.Unmatched ∧ o.text = s ∧
      e = .unterminated o.before.length o.rest) ∧
    ∀ o p : Opening, o.Unmatched → p.Unmatched → o.text = s → p.text = s → o = p := by
  refine ⟨fun e => ⟨fun h => ?_, ?_⟩, fun o p ho hp hos hps => ?_⟩
  · obtain ⟨a, q, b, hs, hq, hqb, ts, ht⟩ := exists_of_scan_eq_error h
    let o : Opening := ⟨String.ofList a, q, String.ofList b⟩
    have ho : o.Unmatched :=
      ⟨hq, ⟨ts, by simpa [ofText, o] using ht.scan_eq⟩, by simpa [o] using hqb⟩
    have hos : o.text = s := by
      rw [← String.toList_inj, hs]
      simp [o, Opening.text, Opening.rest]
    refine ⟨o, ho, hos, ?_⟩
    have he := ho.ofText_eq
    rw [hos, h] at he
    exact Except.error.inj he
  · rintro ⟨o, ho, rfl, rfl⟩
    exact ho.ofText_eq
  · have he := ho.ofText_eq
    rw [hos, ← hps, hp.ofText_eq, Except.error.injEq, LexError.unterminated.injEq] at he
    exact Opening.eq_of_text (hos.trans hps.symm) he.2.symm

/-- `*"é's" <'b"c`, where the first quote of each kind is inside a string of the other kind. -/
theorem ofText_unmatched_quote :
    let s := "*\"é's\" <'b\"c"
    let o : Opening := ⟨"*\"é's\" <", '\'', "b\"c"⟩
    (o.Unmatched ∧ o.text = s) ∧ ofText s = .error (.unterminated 8 "'b\"c") ∧
      ∀ p : Opening, p.Unmatched → p.text = s → p = o := by
  intro s o
  have string : Written "\"é's\" <".toList [⟨.string, "é's"⟩, ⟨.operator, "<"⟩] :=
    @Written.string '"' "é's".toList _ _ rfl (by decide)
      (.blank rfl (.operator (c := '<') rfl (by simp) (by simp) .nil))
  have before : Written "*\"é's\" <".toList
      [⟨.operator, "*"⟩, ⟨.string, "é's"⟩, ⟨.operator, "<"⟩] :=
    .operator (c := '*') rfl (fun _ => ⟨'"', rfl, rfl⟩) (by simp [isPair]) string
  have ho : o.Unmatched := ⟨rfl, ⟨_, before.scan_eq⟩, by decide⟩
  have ht : o.text = s := rfl
  have hl : o.before.length = 8 := by decide
  obtain ⟨he, hu⟩ := ofText_eq_error_iff_unmatched s
  exact ⟨⟨ho, ht⟩, (he _).mpr ⟨o, ho, ht, hl ▸ rfl⟩, fun p hp hps => hu p o hp ho hps ht⟩

end RecordSieve.Token
