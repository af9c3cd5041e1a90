import RecordSieve.Proofs.Expr.Replacement
import RecordSieve.Proofs.Expr.Typing
import RecordSieve.Proofs.Token.Phrase

/-! # Stars between operands

A star that stands as a word multiplies as the operator does. The parser tells the two apart only
where no operand can be: alone, as a key, or as an item of a list. There the operator is an error,
so that what is read of an expression with one form of the star is read of it with the other.
-/

namespace RecordSieve

open Expr.Parser

namespace Token

variable {t : Token} {β : Type}

/-- What does not tell the two stars apart sees a token of a phrase as it is. -/
theorem eq_of_inPhrase (f : Token → β) (h : f ⟨.word, "*"⟩ = f ⟨.operator, "*"⟩) (t : Token) :
    f t.inPhrase = f t := by
  unfold inPhrase
  split
  · rename_i ht
    rw [ht, h]
  · rfl

theorem faithful_inPhrase : Faithful inPhrase where
  opens := eq_of_inPhrase opens rfl
  closes := eq_of_inPhrase closes rfl
  connective? := eq_of_inPhrase connective? (by decide)
  comparison? := eq_of_inPhrase comparison? (by decide)
  operation? := eq_of_inPhrase operation? (by decide)
  -- neither star ends an operand
  endsOperand := eq_of_inPhrase endsOperand (by decide)
  sign? := eq_of_inPhrase sign? (by decide)

theorem inPhrase_eq_self_of_kind (h : t.kind ≠ .operator) : t.inPhrase = t :=
  inPhrase_eq_self fun ht => h (by rw [ht])

theorem inPhrase_eq_self_of_spells {w : String} (h : t.spells w) : t.inPhrase = t := by
  apply inPhrase_eq_self_of_kind
  simp [(spells_iff.mp h).1]

end Token

namespace Expr.Parser

variable {α : Type} {levels : Nat} {span ts : List Token} {e : Expr} {negated : Bool}
  {f : FieldTest} {v : Value} {vs : List Value}

open Token

theorem Item.inPhrase_eq (h : Item ts v) : ∀ t ∈ ts, t.inPhrase = t := by
  cases h <;> simp [inPhrase]

theorem Items.inPhrase_eq (h : Items ts vs) : ∀ t ∈ ts, t.inPhrase = t := by
  induction h with
  | one hv => exact hv.inPhrase_eq
  | cons hv _ ih =>
    rw [List.forall_mem_append, List.forall_mem_cons]
    exact ⟨hv.inPhrase_eq, by decide, ih⟩

theorem PlainTest.inPhrase_eq (h : PlainTest ts f) : ∀ t ∈ ts, t.inPhrase = t := by
  cases h with
  | like p ht => simpa [inPhrase] using inPhrase_eq_self_of_spells ht
  | @oneOf t l r items vs ht hl hr hi =>
    have hl : l.inPhrase = l := inPhrase_eq_self_of_kind (by simp_all [Token.opens])
    have hr : r.inPhrase = r := inPhrase_eq_self_of_kind (by simp_all [Token.closes])
    simpa [hl, hr, or_imp, forall_and] using ⟨inPhrase_eq_self_of_spells ht, hi.inPhrase_eq⟩

theorem KeyTest.inPhrase_eq (h : KeyTest ts negated f) : ∀ t ∈ ts, t.inPhrase = t := by
  cases h with
  | null ht hu => simpa using ⟨inPhrase_eq_self_of_spells ht, inPhrase_eq_self_of_spells hu⟩
  | notNull ht hn hu =>
    simpa using ⟨inPhrase_eq_self_of_spells ht, inPhrase_eq_self_of_spells hn,
      inPhrase_eq_self_of_spells hu⟩
  | plain hf => exact hf.inPhrase_eq
  | negated hn hf => simpa using ⟨inPhrase_eq_self_of_spells hn, hf.inPhrase_eq⟩

theorem keyTest_inPhrase (h : keyTest span = .ok e) : keyTest (span.map inPhrase) = .ok e := by
  cases span with
  | nil => exact h
  | cons key ts =>
    obtain ⟨hk, negated, f, hf, -⟩ := keyTest_eq_ok_iff.mp h
    have hkey : key.inPhrase = key := inPhrase_eq_self_of_kind (by simp [hk])
    rwa [List.map_cons, hkey, List.map_congr_left hf.inPhrase_eq, List.map_id']

theorem single_inPhrase {t : Token} (h : single t = .ok e) : single t.inPhrase = .ok e := by
  have hk : t.kind ≠ .operator := by
    rcases single_eq_ok_iff.mp h with ⟨s, rfl, -⟩ | ⟨s, x, rfl, -⟩ | ⟨w, rfl, -⟩ <;> simp
  rwa [inPhrase_eq_self_of_kind hk]

theorem sides_inPhrase {c : Cut α} {needed : Capability} {l r : Expr}
    (ih : ∀ {span e}, ofSpan levels span = .ok e → ofSpan levels (span.map inPhrase) = .ok e)
    (h : sides (ofSpan levels) c needed = .ok (l, r)) :
    sides (ofSpan levels) (c.map inPhrase) needed = .ok (l, r) := by
  obtain ⟨⟨hb, ha⟩, ⟨hl, hr⟩, hc⟩ := sides_eq_ok_iff.mp h
  refine sides_eq_ok_iff.mpr ⟨⟨?_, ?_⟩, ⟨ih hl, ih hr⟩, hc⟩
  · simpa [Cut.map] using hb
  · simpa [Cut.map] using ha

theorem ofSpan_inPhrase (h : ofSpan levels span = .ok e) :
    ofSpan levels (span.map inPhrase) = .ok e := by
  induction levels generalizing span e with
  | zero => simp [ofSpan] at h
  | succ levels ih =>
    rw [ofSpan_succ_eq_ok_iff] at h ⊢
    rw [form_map faithful_inPhrase]
    generalize form span = f at h
    cases h with
    | single h => exact .single (single_inPhrase h)
    | group h => exact .group (ih h)
    | logical h => exact .logical (sides_inPhrase ih h)
    | compare h => exact .compare (sides_inPhrase ih h)
    | arith h => exact .arith (sides_inPhrase ih h)
    | signed negative h hn => exact .signed negative (ih h) hn
    | test h => exact .test (keyTest_inPhrase h)

end Expr.Parser

namespace Expr

variable {q : String} {ts : List Token} {e : Expr}

theorem ofTokens_inPhrase (h : ofTokens ts = .ok e) :
    ofTokens (ts.map Token.inPhrase) = .ok e := by
  unfold ofTokens at h ⊢
  rw [Parser.isBalanced_map Token.faithful_inPhrase]
  split at h
  · rename_i hb
    rw [if_pos hb]
    exact Parser.ofSpan_inPhrase h
  · cases h

/-- The tokens of a text, written as a phrase, are split into the same tokens, but for the stars
that stand as operators and become words. An expression that is read of the tokens is read of these
as well. -/
theorem ofTokens_of_phrase (h : Token.ofText q = .ok ts)
    (hq : ∀ t ∈ ts, t.kind = .string → '\'' ∉ t.text.toList) :
    Token.ofText (Token.phrase ts) = .ok (ts.map Token.inPhrase) ∧
      ∀ e, ofTokens ts = .ok e → ofTokens (ts.map Token.inPhrase) = .ok e :=
  ⟨Token.ofText_phrase h hq, fun _ => ofTokens_inPhrase⟩

/-- `a*b * c="x y"`, where the first star is an operator and the second one a word. -/
theorem ofTokens_of_phrase_stars :
    let q := "a*b * c=\"x y\""
    let ts : List Token := [⟨.word, "a"⟩, ⟨.operator, "*"⟩, ⟨.word, "b"⟩, ⟨.word, "*"⟩,
      ⟨.word, "c"⟩, ⟨.operator, "="⟩, ⟨.string, "x y"⟩]
    let e : Expr := .compare .equal (.arith .multiply (.field "a")
      (.arith .multiply (.field "b") (.field "c"))) (.text "x y")
    let us : List Token := [⟨.word, "a"⟩, ⟨.word, "*"⟩, ⟨.word, "b"⟩, ⟨.word, "*"⟩,
      ⟨.word, "c"⟩, ⟨.operator, "="⟩, ⟨.string, "x y"⟩]
    (Token.ofText q = .ok ts ∧ (∀ t ∈ ts, t.kind = .string → '\'' ∉ t.text.toList) ∧
      ofTokens ts = .ok e) ∧
    Token.ofText (Token.phrase ts) = .ok us ∧ ofTokens us = .ok e := by
  intro q ts e us
  have head {p : Char → Prop} {c : Char} {s : List Char} (h : p c) : ∀ d ∈ (c :: s).head?, p d := by
    rintro _ ⟨⟩
    exact h
  have word (c : Char) {s : List Char} {us : List Token} (hc : Token.isWordChar c)
      (hs : Token.Ends s) (h : Token.Written s us) :
      Token.Written (c :: s) (Token.ofWord [c] :: us) :=
    .word (w := [c]) (List.cons_ne_nil _ _) (List.forall_mem_singleton.mpr hc) hs h
  have string : Token.Written ['"', 'x', ' ', 'y', '"'] [⟨.string, "x y"⟩] :=
    @Token.Written.string '"' ['x', ' ', 'y'] [] [] rfl (by decide) .nil
  have right : Token.Written ['c', '=', '"', 'x', ' ', 'y', '"']
      [Token.ofWord ['c'], ⟨.operator, "="⟩, ⟨.string, "x y"⟩] :=
    word 'c' rfl (head rfl) (.operator rfl (fun h => absurd h (by decide)) (head rfl) string)
  have middle : Token.Written ('b' :: ' ' :: '*' :: ' ' :: ['c', '=', '"', 'x', ' ', 'y', '"'])
      (Token.ofWord ['b'] :: ⟨.word, "*"⟩ :: _) :=
    word 'b' rfl (head rfl) (.blank rfl (.star (head rfl) (.blank rfl right)))
  have hs : q.toList = 'a' :: '*' :: 'b' :: ' ' :: '*' :: ' ' ::
      ['c', '=', '"', 'x', ' ', 'y', '"'] := by decide
  have h : Token.ofText q = .ok ts := by
    rw [Token.ofText, hs]
    exact (word 'a' rfl (head rfl)
      (.operator rfl (fun _ => ⟨'b', rfl, rfl⟩) (head rfl) middle)).scan_eq
  have hq : ∀ t ∈ ts, t.kind = .string → '\'' ∉ t.text.toList := by decide
  have he : ofTokens ts = .ok e := by rfl
  obtain ⟨hp, hr⟩ := ofTokens_of_phrase h hq
  exact ⟨⟨h, hq, he⟩, hp, hr e he⟩

end Expr

end RecordSieve
