import RecordSieve.Proofs.Binary64.Equality
import RecordSieve.Proofs.Expr.Blame
import RecordSieve.Proofs.Expr.Words
import RecordSieve.Proofs.Token.Phrase

/-! # Numerals and names

The lexer tells numerals from words, and the parser reads the numerals again. Both agree on what a
numeral is, so that no query fails at one. What stands in a tree as a number comes from a numeral,
but for the zero that a minus leaves behind, and what stands in it as a key is a word.
-/

namespace RecordSieve

variable {ts us items : List Token} {e : Expr} {x : Binary64} {v : Value} {vs : List Value}
  {f : FieldTest} {negated : Bool} {k q s : String} {p : Phrase} {n : Nonterminal}

/-- The number of a value, a string being none. -/
def Value.numeral? : Value → Option Binary64
  | number x => some x
  | _ => none

def FieldTest.numbers : FieldTest → List Binary64
  | oneOf items => items.filterMap Value.numeral?
  | _ => []

/-- The numbers at the leaves and in the lists, from left to right. -/
def Expr.numbers : Expr → List Binary64
  | number x => [x]
  | test _ _ f => f.numbers
  | logical _ l r | compare _ l r | arith _ l r => l.numbers ++ r.numbers
  | _ => []

namespace Token

/-- A number token reads as the number or as its negation. -/
def Denotes (ts : List Token) (x : Binary64) : Prop :=
  ∃ s y, ⟨.number, s⟩ ∈ ts ∧ Binary64.read? s.toList = some y ∧ (x = y ∨ x = y.neg)

theorem Denotes.mono (h : Denotes ts x) (hs : ts ⊆ us) : Denotes us x := by
  obtain ⟨s, y, hmem, hread, hx⟩ := h
  exact ⟨s, y, hs hmem, hread, hx⟩

theorem Denotes.neg (h : Denotes ts x) : Denotes ts x.neg := by
  obtain ⟨s, y, hmem, hread, hx⟩ := h
  refine ⟨s, y, hmem, hread, ?_⟩
  rcases hx with hx | hx
  · exact .inr (congrArg Binary64.neg hx)
  · rw [hx]
    exact .inl y.neg_neg

end Token

open Token

namespace Expr

/-- Each number of a tree is denoted by a token, but for the zero from which a minus takes what is
not a literal. -/
inductive Accounted (ts : List Token) : Expr → Prop
  | text (s : String) : Accounted ts (.text s)
  | number {x : Binary64} : Denotes ts x → Accounted ts (.number x)
  | field (key : String) : Accounted ts (.field key)
  | test {f : FieldTest} (key : String) (negated : Bool) : (∀ x ∈ f.numbers, Denotes ts x) →
      Accounted ts (.test key negated f)
  | logical {l r : Expr} (op : Connective) : Accounted ts l → Accounted ts r →
      Accounted ts (.logical op l r)
  | compare {l r : Expr} (op : Comparison) : Accounted ts l → Accounted ts r →
      Accounted ts (.compare op l r)
  | arith {l r : Expr} (op : Operation) : Accounted ts l → Accounted ts r →
      Accounted ts (.arith op l r)
  | negated {e : Expr} : ⟨.operator, "-"⟩ ∈ ts → Accounted ts e → (∀ x, e ≠ .number x) →
      Accounted ts (.arith .subtract (.number (.zero false)) e)
  | always : Accounted ts .always

theorem Accounted.mono (h : e.Accounted ts) (hs : ts ⊆ us) : e.Accounted us := by
  induction h with
  | text s => exact .text s
  | number hx => exact .number (hx.mono hs)
  | field key => exact .field key
  | test key negated hf => exact .test key negated fun x hx => (hf x hx).mono hs
  | logical op _ _ ihl ihr => exact .logical op ihl ihr
  | compare op _ _ ihl ihr => exact .compare op ihl ihr
  | arith op _ _ ihl ihr => exact .arith op ihl ihr
  | negated hm _ hn ih => exact .negated (hs hm) ih hn
  | always => exact .always

theorem Accounted.mem_numbers (h : e.Accounted ts) (hx : x ∈ e.numbers) :
    Denotes ts x ∨ x = .zero false ∧ ⟨.operator, "-"⟩ ∈ ts := by
  induction h with
  | text | field | always => exact absurd hx List.not_mem_nil
  | number hd =>
    obtain rfl := List.mem_singleton.mp hx
    exact .inl hd
  | test key negated hf => exact .inl (hf x hx)
  | logical op _ _ ihl ihr | compare op _ _ ihl ihr | arith op _ _ ihl ihr =>
    exact (List.mem_append.mp hx).elim ihl ihr
  | negated hm _ _ ih =>
    rcases List.mem_cons.mp hx with rfl | hx
    · exact .inr ⟨rfl, hm⟩
    · exact ih hx

theorem accounted_negate (h : e.Accounted ts) (hm : ⟨.operator, "-"⟩ ∈ ts) :
    (Parser.negate e).Accounted ts := by
  unfold Parser.negate
  split
  · cases h with
    | number hx => exact .number hx.neg
  · rename_i hn
    exact .negated hm h hn

end Expr

namespace Expr.Parser

theorem Item.denotes (h : Item ts (.number x)) : Denotes ts x := by
  cases h with
  | number hx => exact ⟨_, x, List.mem_cons_self, hx, .inl rfl⟩
  | plus hx => exact ⟨_, x, List.mem_cons_of_mem _ List.mem_cons_self, hx, .inl rfl⟩
  | minus hx => exact ⟨_, _, List.mem_cons_of_mem _ List.mem_cons_self, hx, .inr rfl⟩

theorem Items.denotes (h : Items ts vs) (hx : .number x ∈ vs) : Denotes ts x := by
  induction h with
  | one hv =>
    obtain rfl := List.mem_singleton.mp hx
    exact hv.denotes
  | cons hv _ ih =>
    rcases List.mem_cons.mp hx with rfl | hx
    · exact hv.denotes.mono (List.subset_append_left _ _)
    · refine (ih hx).mono ?_
      exact List.subset_append_of_subset_right _ (List.subset_cons_self _ _)

theorem mem_numbers_oneOf : x ∈ (FieldTest.oneOf vs).numbers ↔ .number x ∈ vs := by
  simp only [FieldTest.numbers, List.mem_filterMap]
  constructor
  · rintro ⟨v, hv, hx⟩
    cases v <;> cases hx
    exact hv
  · intro hx
    exact ⟨_, hx, rfl⟩

theorem PlainTest.denotes (h : PlainTest ts f) (hx : x ∈ f.numbers) : Denotes ts x := by
  cases h with
  | like => exact absurd hx List.not_mem_nil
  | oneOf _ _ _ hi =>
    refine (hi.denotes (mem_numbers_oneOf.mp hx)).mono ?_
    intro t ht
    exact List.mem_cons_of_mem _ (List.mem_cons_of_mem _ (List.mem_append_left _ ht))

theorem KeyTest.denotes (h : KeyTest ts negated f) (hx : x ∈ f.numbers) : Denotes ts x := by
  cases h with
  | null | notNull => exact absurd hx List.not_mem_nil
  | plain h => exact h.denotes hx
  | negated _ h => exact (h.denotes hx).mono (List.subset_cons_self _ _)

end Expr.Parser

theorem Phrase.Derives.accounted (h : p.Derives n) : p.tree.Accounted p.tokens := by
  have operands {l r : Phrase} (t : Token) (hl : l.tree.Accounted l.tokens)
      (hr : r.tree.Accounted r.tokens) : l.tree.Accounted (l.tokens ++ t :: r.tokens) ∧
        r.tree.Accounted (l.tokens ++ t :: r.tokens) := by
    constructor
    · exact hl.mono (List.subset_append_left _ _)
    · exact hr.mono (List.subset_append_of_subset_right _ (List.subset_cons_self _ _))
  induction h with
  | string s => exact .text s
  | number hx => exact .number ⟨_, _, List.mem_cons_self, hx, .inl rfl⟩
  | word | connective => exact .field _
  | group _ _ _ ih =>
    exact ih.mono (List.subset_cons_of_subset _ (List.subset_append_left _ _))
  | @signed p negative _ _ ih =>
    have ih := ih.mono (List.subset_cons_self (signToken negative) p.tokens)
    cases negative with
    | false => exact ih
    | true => exact Expr.accounted_negate ih List.mem_cons_self
  | test _ hf =>
    exact .test _ _ fun x hx => (hf.denotes hx).mono (List.subset_cons_self _ _)
  | unit _ ih | sum _ ih | clause _ ih => exact ih
  | @arith _ _ t op _ _ _ _ _ _ ihl ihr =>
    obtain ⟨hl, hr⟩ := operands t ihl ihr
    exact .arith op hl hr
  | @compare _ _ t op _ _ _ _ _ ihl ihr =>
    obtain ⟨hl, hr⟩ := operands t ihl ihr
    exact .compare op hl hr
  | @logical _ _ t op _ _ _ _ _ ihl ihr =>
    obtain ⟨hl, hr⟩ := operands t ihl ihr
    exact .logical op hl hr

theorem Expr.accounted_of_ofTokens (h : ofTokens ts = .ok e) : e.Accounted ts := by
  unfold ofTokens at h
  split at h
  · obtain ⟨p, hp, rfl, rfl, -⟩ := Phrase.exists_derives_of_ofSpan h
    exact hp.accounted
  · cases h

namespace Token

/-- What the lexer leaves a word: it is not cut anywhere, and it is no numeral. -/
structure IsBare (w : String) : Prop where
  ne_empty : w ≠ ""
  unbroken : ∀ c ∈ w.toList, Text.isBlank c = false ∧ isQuote c = false ∧ c ∉ ['(', ')', ',']
  no_numeral : Binary64.read? w.toList = none

theorem not_delimiter_of_isWordChar {c : Char} (h : isWordChar c) :
    Text.isBlank c = false ∧ isQuote c = false ∧ c ∉ ['(', ')', ','] := by
  simp only [isWordChar, isDelimiter, Bool.not_eq_eq_eq_not, Bool.not_true, Bool.or_eq_false_iff,
    decide_eq_false_iff_not] at h
  simp [h]

theorem Spells.isBare {w : List Char} (h : Spells w ⟨.word, k⟩) : IsBare k := by
  cases h with
  | @word w hw hn =>
    constructor
    · simpa using hw.1
    · intro c hc
      exact not_delimiter_of_isWordChar (hw.2 c (by simpa using hc))
    · simpa using hn
  | star =>
    constructor
    · decide
    · intro c hc
      obtain rfl : c = '*' := by simpa using hc
      exact ⟨rfl, rfl, by decide⟩
    · rfl

theorem Spells.exists_numeral {w : List Char} (h : Spells w ⟨.number, s⟩) :
    ∃ x, Binary64.read? s.toList = some x := by
  cases h with
  | @number w x hw hr => exact ⟨x, by simpa using hr⟩

theorem isBare_of_ofText (h : ofText q = .ok ts) (hk : ⟨.word, k⟩ ∈ ts) : IsBare k := by
  obtain ⟨w, hw⟩ := exists_spells_of_ofText h hk
  exact hw.isBare

/-- What the lexer takes for a numeral is one for the parser. -/
theorem exists_numeral_of_ofText (h : ofText q = .ok ts) (hs : ⟨.number, s⟩ ∈ ts) :
    ∃ x, Binary64.read? s.toList = some x := by
  obtain ⟨w, hw⟩ := exists_spells_of_ofText h hs
  exact hw.exists_numeral

end Token

theorem Expr.ofTokens_ne_noNumeral (h : Token.ofText q = .ok ts) (hs : us ⊆ ts) (s : String) :
    ofTokens us ≠ .error (.noNumeral s) := by
  intro he
  unfold ofTokens at he
  split at he
  · cases Parser.blames_of_ofSpan he with
    | noNumeral hmem hread =>
      obtain ⟨x, hx⟩ := Token.exists_numeral_of_ofText h (hs hmem)
      rw [hread] at hx
      cases hx
  · cases he

/-- Where the numbers and the keys of a tree come from. -/
structure Expr.Traceable (ts : List Token) (e : Expr) : Prop where
  accounted : e.Accounted ts
  numbers : ∀ x ∈ e.numbers, Denotes ts x ∨ x = .zero false ∧ ⟨.operator, "-"⟩ ∈ ts
  keys : ∀ k ∈ e.keys, ⟨.word, k⟩ ∈ ts ∧ IsBare k

theorem Expr.Traceable.mono (h : e.Traceable us) (hs : us ⊆ ts) : e.Traceable ts where
  accounted := h.accounted.mono hs
  numbers _ hx := (h.accounted.mono hs).mem_numbers hx
  keys k hk := ⟨hs (h.keys k hk).1, (h.keys k hk).2⟩

theorem Expr.traceable_always (ts : List Token) : Expr.always.Traceable ts where
  accounted := .always
  numbers _ hx := absurd hx List.not_mem_nil
  keys _ hk := absurd hk List.not_mem_nil

theorem Expr.traceable_of_ofTokens (h : Token.ofText q = .ok ts) (hs : us ⊆ ts)
    (he : ofTokens us = .ok e) : e.Traceable us where
  accounted := accounted_of_ofTokens he
  numbers _ hx := (accounted_of_ofTokens he).mem_numbers hx
  keys k hk := by
    have hmem := word_mem_of_ofTokens he hk
    exact ⟨hmem, isBare_of_ofText h (hs hmem)⟩

theorem Plan.exists_of_ofText_eq_parse {err : ParseError}
    (h : Plan.ofText q = .error (.parse err)) : ∃ ts clause, Token.ofText q = .ok ts ∧
      clause <:+ ts ∧ Expr.predicateOfTokens clause = .error err := by
  rcases bind_eq_error_iff.mp h with h | ⟨ts, hts, h⟩
  · obtain ⟨l, -, hl⟩ := mapError_eq_error_iff.mp h
    cases hl
  · refine ⟨ts, ?_⟩
    cases Query.ofTokens_eq_error_iff.mp h with
    | @clause c _ hc hl hf =>
      cases hclause : c.clause with
      | nil =>
        rw [hclause] at hf
        cases hf
      | cons t rest =>
        rw [hclause] at hf
        cases hf with
        | parse ht hn he =>
          refine ⟨rest, mapError_eq_ok_iff.mp hts, ?_, he⟩
          have hsuffix : c.clause <:+ c.tokens := List.suffix_append _ _
          rw [hclause] at hsuffix
          exact (List.suffix_cons t rest).trans hsuffix

/-- Nothing that the lexer takes for a numeral fails to be one, whatever tokens of a text are read,
in whatever order. What is read of them has its numbers from their numerals, but for zeros before
a minus, and its keys from their words. So has the condition of a query. -/
theorem Expr.traceable_of_ofText (h : Token.ofText q = .ok ts) :
    (∀ us, us ⊆ ts → (∀ s, ofTokens us ≠ .error (.noNumeral s)) ∧
      ∀ e, ofTokens us = .ok e → e.Traceable us) ∧
    (∀ s, Plan.ofText q ≠ .error (.parse (.noNumeral s))) ∧
    ∀ p, Plan.ofText q = .ok p → p.predicate.Traceable ts := by
  refine ⟨fun us hs => ⟨ofTokens_ne_noNumeral h hs, fun e => traceable_of_ofTokens h hs⟩, ?_, ?_⟩
  · intro s hq
    obtain ⟨vs, clause, hvs, hc, he⟩ := Plan.exists_of_ofText_eq_parse hq
    obtain rfl := Except.ok.inj (h.symm.trans hvs)
    rcases bind_eq_error_iff.mp he with he | ⟨e, -, he⟩
    · exact ofTokens_ne_noNumeral h hc.subset s he
    · split at he
      · cases he
      · cases he
  · intro p hp
    rcases Plan.predicate_of_ofText hp with hp | ⟨vs, clause, hvs, hc, he, -⟩
    · rw [hp]
      exact traceable_always ts
    · obtain rfl := Except.ok.inj (h.symm.trans hvs)
      exact (traceable_of_ofTokens h hc.subset he).mono hc.subset

/-- `select a from t where -b < 2 and c in (x, -1)`, with a minus before a key and one before an
item. -/
theorem Expr.traceable_of_ofText_signs :
    let q := "select a from t where -b < 2 and c in (x, -1)"
    let clause : List Token := [⟨.operator, "-"⟩, ⟨.word, "b"⟩, ⟨.operator, "<"⟩, ⟨.number, "2"⟩,
      ⟨.word, "and"⟩, ⟨.word, "c"⟩, ⟨.word, "in"⟩, ⟨.leftParen, "("⟩, ⟨.word, "x"⟩,
      ⟨.separator, ","⟩, ⟨.operator, "-"⟩, ⟨.number, "1"⟩, ⟨.rightParen, ")"⟩]
    let ts : List Token := [⟨.word, "select"⟩, ⟨.word, "a"⟩, ⟨.word, "from"⟩, ⟨.word, "t"⟩,
      ⟨.word, "where"⟩] ++ clause
    let e : Expr := .logical .and
      (.compare .less (.arith .subtract (.number (.zero false)) (.field "b"))
        (.number (.ofInt 2)))
      (.test "c" false (.oneOf [.string "x", .number (Binary64.ofInt 1).neg]))
    (Token.ofText q = .ok ts ∧ ofTokens clause = .ok e ∧ Plan.ofText q = .ok ⟨["a"], e⟩) ∧
      e.Traceable clause ∧ e.Traceable ts := by
  intro q clause ts e
  let tree (x y : Binary64) : Expr := .logical .and
    (.compare .less (.arith .subtract (.number (.zero false)) (.field "b")) (.number x))
    (.test "c" false (.oneOf [.string "x", .number y.neg]))
  have htwo : Parser.numberOf ⟨.number, "2"⟩ = .ok (.ofInt 2) := by
    rw [Parser.numberOf, show Binary64.read? "2".toList = some (.ofInt 2) by decide +kernel]
  have hone : Parser.numberOf ⟨.number, "1"⟩ = .ok (.ofInt 1) := by
    rw [Parser.numberOf, show Binary64.read? "1".toList = some (.ofInt 1) by decide +kernel]
  have hts : Token.ofText q = .ok ts := by decide +kernel
  have he : ofTokens clause = .ok e := by
    calc
      ofTokens clause = (do
        let x ← Parser.numberOf ⟨.number, "2"⟩
        let y ← Parser.numberOf ⟨.number, "1"⟩
        .ok (tree x y)) := rfl
      _ = .ok e := by rw [htwo, hone]; rfl
  have hp : Plan.ofText q = .ok ⟨["a"], e⟩ := by
    have hd : Expr.predicateOfTokens clause = .ok e :=
      Query.predicateOfTokens_eq_ok_iff.mpr ⟨he, rfl⟩
    calc
      Plan.ofText q = Plan.ofTokens ts := by rw [Plan.ofText, hts]; rfl
      _ = (do
        let p ← (Expr.predicateOfTokens clause).mapError .parse
        .ok ⟨["a"], p⟩) := rfl
      _ = .ok ⟨["a"], e⟩ := by rw [hd]; rfl
  have hc : clause ⊆ ts := List.subset_append_right _ clause
  obtain ⟨hread, -, hplan⟩ := traceable_of_ofText hts
  exact ⟨⟨hts, he, hp⟩, (hread clause hc).2 e he, hplan ⟨["a"], e⟩ hp⟩

end RecordSieve
