import RecordSieve.Proofs.Binary64.RoundTrip
import RecordSieve.Proofs.Expr.Recognition
import RecordSieve.Proofs.Token.Written

/-! # Expressions read back

The text of an expression spells the tokens of a derivation that stands for the expression. Its
names must be words of their own, and its strings must hold no quote. The derivation has two levels
for each operator, since every operator is written in parentheses.
-/

namespace RecordSieve

open Token Expr.Parser

def keyword (w : String) : Token := ⟨.word, w⟩

def Operation.token (op : Operation) : Token :=
  match op with
  | multiply => keyword "*"
  | _ => ⟨.operator, op.symbol⟩

def Binary64.tokens (x : Binary64) : List Token :=
  if x.isNegative then [⟨.operator, "-"⟩, ⟨.number, x.abs.text⟩] else [⟨.number, x.abs.text⟩]

def Value.tokens : Value → List Token
  | string s => [⟨.string, s⟩]
  | number x => x.tokens
  | _ => []

def listTokens : List Value → List Token
  | [] => []
  | [v] => v.tokens
  | v :: w :: rest => v.tokens ++ comma :: listTokens (w :: rest)

def FieldTest.tokens : (negated : Bool) → FieldTest → List Token
  | false, null => [keyword "is", keyword "null"]
  | true, null => [keyword "is", keyword "not", keyword "null"]
  | false, like p => [keyword "like", ⟨.string, p⟩]
  | true, like p => [keyword "not", keyword "like", ⟨.string, p⟩]
  | false, oneOf items =>
    [keyword "in", ⟨.leftParen, "("⟩] ++ (listTokens items ++ [⟨.rightParen, ")"⟩])
  | true, oneOf items =>
    [keyword "not", keyword "in", ⟨.leftParen, "("⟩] ++ (listTokens items ++ [⟨.rightParen, ")"⟩])

namespace Expr

def parenthesized (p : Phrase) : Phrase := .group ⟨.leftParen, "("⟩ p ⟨.rightParen, ")"⟩

/-- The derivation of the tokens in the text of an expression. -/
def phrase : Expr → Phrase
  | text s => .string s
  | number x =>
    if x.isNegative then .signed true (.number x.abs.text x.abs) else .number x.abs.text x.abs
  | field key => .word key
  | test key negated f => .test key (f.tokens negated) negated f
  | logical op l r => parenthesized (.logical l.phrase (keyword op.symbol) op r.phrase)
  | compare op l r => parenthesized (.compare l.phrase ⟨.operator, op.symbol⟩ op r.phrase)
  | arith op l r => parenthesized (.arith l.phrase op.token op r.phrase)
  | always => .word "true"

def literals : Expr → List String
  | text s => [s]
  | test _ _ (.like p) => [p]
  | test _ _ (.oneOf items) => items.filterMap Value.text?
  | logical _ l r | compare _ l r | arith _ l r => l.literals ++ r.literals
  | _ => []

end Expr

/-- A word that names a field: no number and no connective. -/
structure IsName (w : String) : Prop where
  ne_empty : w ≠ ""
  isWordChar : ∀ c ∈ w.toList, Token.isWordChar c
  no_number : Binary64.read? w.toList = none
  no_connective : Phrase.isConnective w = false

/-- An expression whose text is read back: a typed tree of names, of strings without a quote and of
numbers, half as high as spans may nest. -/
structure Expr.Printable (e : Expr) : Prop where
  wellTyped : e.WellTyped
  isName : ∀ k ∈ e.keys, IsName k
  no_quote : ∀ s ∈ e.literals, '\'' ∉ s.toList
  height_le : e.height ≤ 127

variable {e l r : Expr} {f : FieldTest} {negated : Bool} {k w : String} {x : Binary64} {v : Value}
  {vs : List Value} {s : List Char} {ts us : List Token}

theorem tree_phrase (h : e.WellTyped) : e.phrase.tree = e := by
  induction h with
  | text | field | test => rfl
  | number x =>
    unfold Expr.phrase
    split
    · rename_i hx
      simp [Phrase.tree, negate, Binary64.neg_abs hx]
    · rename_i hx
      simp [Phrase.tree, Binary64.abs_eq_self hx]
  | logical _ _ _ _ _ ihl ihr | compare _ _ _ _ ihl ihr | arith _ _ _ _ _ ihl ihr =>
    simp [Expr.phrase, Expr.parenthesized, Phrase.tree, ihl, ihr]

theorem height_phrase_le (e : Expr) : e.phrase.height ≤ 2 * e.height + 1 := by
  induction e with
  | text | field | test | always => simp [Expr.phrase, Phrase.height]
  | number x =>
    unfold Expr.phrase
    split <;> simp [Phrase.height]
  | logical _ _ _ ihl ihr | compare _ _ _ ihl ihr | arith _ _ _ ihl ihr =>
    simp only [Expr.phrase, Expr.parenthesized, Phrase.height, Expr.height]
    omega

theorem item_tokens (h : v.isLiteral) : Item v.tokens v := by
  cases v with
  | string s => exact .string s
  | number x =>
    have hr := Binary64.read?_text x.abs
    by_cases hx : x.isNegative
    · have hi := Item.minus hr
      rw [Binary64.neg_abs hx] at hi
      simpa [Value.tokens, Binary64.tokens, hx] using hi
    · have hi := Item.number hr
      rw [Binary64.abs_eq_self hx] at hi
      simpa [Value.tokens, Binary64.tokens, hx, Binary64.abs_eq_self hx] using hi
  | _ => cases h

theorem items_listTokens (hn : vs ≠ []) (h : ∀ v ∈ vs, v.isLiteral) : Items (listTokens vs) vs := by
  induction vs with
  | nil => exact (hn rfl).elim
  | cons v vs ih =>
    obtain ⟨hv, hvs⟩ := List.forall_mem_cons.mp h
    cases vs with
    | nil => exact .one (item_tokens hv)
    | cons w vs => exact .cons (item_tokens hv) (ih (by simp) hvs)

theorem keyTest_tokens (h : f.HoldsLiterals) : KeyTest (f.tokens negated) negated f := by
  cases f with
  | null =>
    cases negated with
    | false => exact .null rfl rfl
    | true => exact .notNull rfl rfl rfl
  | like p =>
    cases negated with
    | false => exact .plain (.like p rfl)
    | true => exact .negated rfl (.like p rfl)
  | oneOf items =>
    have hi := items_listTokens h.1 h.2
    cases negated with
    | false => exact .plain (.oneOf rfl rfl rfl hi)
    | true => exact .negated rfl (.oneOf rfl rfl rfl hi)

theorem endsInStar_phrase (hk : ∀ k ∈ e.keys, IsName k) : e.phrase.endsInStar = false := by
  cases e with
  | number x =>
    unfold Expr.phrase
    split <;> rfl
  | field key =>
    have hn := hk key (by simp [Expr.keys])
    simp only [Expr.phrase, Phrase.endsInStar, decide_eq_false_iff_not]
    rintro rfl
    exact absurd (hn.isWordChar '*' (by decide)) (by decide)
  | _ => rfl

theorem operation?_token (op : Operation) : op.token.operation? = some op := by
  cases op <;> rfl

theorem comparison?_symbol (op : Comparison) :
    (⟨.operator, op.symbol⟩ : Token).comparison? = some op :=
  op.ofSymbol?_symbol

theorem connective?_symbol (op : Connective) : (keyword op.symbol).connective? = some op := by
  cases op <;> rfl

theorem derives_phrase (h : e.WellTyped) (hk : ∀ k ∈ e.keys, IsName k) :
    e.phrase.Derives .unit := by
  induction h with
  | text s => exact .string s
  | number x =>
    have hr := Binary64.read?_text x.abs
    unfold Expr.phrase
    split
    · exact .signed true (.number hr) rfl
    · exact .number hr
  | field key => exact .word (hk key (by simp [Expr.keys])).no_connective
  | @test f key negated hf =>
    exact .test (hk key (by simp [Expr.keys])).no_connective (keyTest_tokens hf)
  | @logical l r op hl hr hdl hdr ihl ihr =>
    obtain ⟨hkl, hkr⟩ := List.forall_mem_append.mp hk
    rw [← tree_phrase hl] at hdl
    rw [← tree_phrase hr] at hdr
    exact .group rfl rfl (.logical (.sum (.unit (ihl hkl))) (.clause (.sum (.unit (ihr hkr))))
      (connective?_symbol op) hdl hdr)
  | @compare l r op hl hr hcl hcr ihl ihr =>
    obtain ⟨hkl, hkr⟩ := List.forall_mem_append.mp hk
    rw [← tree_phrase hl] at hcl
    rw [← tree_phrase hr] at hcr
    exact .group rfl rfl (.clause (.compare (.unit (ihl hkl)) (.unit (ihr hkr))
      (comparison?_symbol op) hcl hcr))
  | @arith l r op hl hr hgl hgr ihl ihr =>
    obtain ⟨hkl, hkr⟩ := List.forall_mem_append.mp hk
    rw [← tree_phrase hl] at hgl
    rw [← tree_phrase hr] at hgr
    exact .group rfl rfl (.clause (.sum (.arith (ihl hkl) (.unit (ihr hkr))
      (endsInStar_phrase hkl) (operation?_token op) hgl hgr)))

theorem writes_keyword (hn : w ≠ "") (hw : w.toList.all isWordChar)
    (hr : Binary64.read? w.toList = none) : Writes w.toList [keyword w] := by
  have hn : w.toList ≠ [] := by simpa using hn
  have h := writes_word hn (List.all_eq_true.mp hw)
  simpa [keyword, ofWord, hr] using h

theorem writes_connective (op : Connective) : Writes op.symbol.toList [keyword op.symbol] := by
  cases op
  · exact writes_keyword (by decide) (by decide) rfl
  · exact writes_keyword (by decide) (by decide) rfl

theorem isBlank_head_blank : ∀ c ∈ (' ' :: s).head?, Text.isBlank c := by
  rintro c ⟨⟩
  rfl

theorem written_operator {c : Char} (hc : isOperatorChar c) (hs : c ≠ '*')
    (h : Written (' ' :: s) ts) :
    Written (c :: ' ' :: s) (⟨.operator, String.singleton c⟩ :: ts) :=
  .operator hc (fun he => (hs he).elim) (by simp [isPair]) h

theorem writes_comparison (hs : Writes s ts) (op : Comparison) :
    Writes (op.symbol.toList ++ ' ' :: s) (⟨.operator, op.symbol⟩ :: ts) := by
  intro rest us he hr
  have hb : Written (' ' :: (s ++ rest)) (ts ++ us) := .blank rfl (hs he hr)
  cases op with
  | equal => exact written_operator (c := '=') rfl (by decide) hb
  | less => exact written_operator (c := '<') rfl (by decide) hb
  | greater => exact written_operator (c := '>') rfl (by decide) hb
  | notEqual | lessEqual | greaterEqual => exact .pair rfl hb

theorem writes_operation (hs : Writes s ts) (op : Operation) :
    Writes (op.symbol.toList ++ ' ' :: s) (op.token :: ts) := by
  intro rest us he hr
  have hb : Written (' ' :: (s ++ rest)) (ts ++ us) := .blank rfl (hs he hr)
  cases op with
  | multiply => exact .star isBlank_head_blank hb
  | add => exact written_operator (c := '+') rfl (by decide) hb
  | subtract => exact written_operator (c := '-') rfl (by decide) hb
  | divide => exact written_operator (c := '/') rfl (by decide) hb
  | modulo => exact written_operator (c := '%') rfl (by decide) hb

theorem writes_number (x : Binary64) : Writes x.text.toList x.tokens := by
  have hw : "0123456789.infNa".toList.all isWordChar := by decide
  have ha : Writes x.abs.text.toList [⟨.number, x.abs.text⟩] := by
    have h := writes_word (Binary64.text_abs_ne_nil x) fun c hc =>
      List.all_eq_true.mp hw c (Binary64.mem_text_abs hc)
    simpa [ofWord, Binary64.read?_text] using h
  rw [Binary64.toList_text]
  by_cases hx : x.isNegative
  · simpa [Binary64.tokens, hx, Binary64.sign] using ha.minus
  · simpa [Binary64.tokens, hx, Binary64.sign] using ha

theorem writes_quoted (h : '\'' ∉ w.toList) : Writes ("'" ++ w ++ "'").toList [⟨.string, w⟩] := by
  simpa using writes_string h

theorem writes_literal (hv : v.isLiteral) (hq : ∀ w, v.text? = some w → '\'' ∉ w.toList) :
    Writes v.literal.toList v.tokens := by
  cases v with
  | string w => exact writes_quoted (hq w rfl)
  | number x => exact writes_number x
  | _ => cases hv

theorem writes_listTokens (hn : vs ≠ []) (hv : ∀ v ∈ vs, v.isLiteral)
    (hq : ∀ w ∈ vs.filterMap Value.text?, '\'' ∉ w.toList) :
    Writes (", ".intercalate (vs.map Value.literal)).toList (listTokens vs) := by
  induction vs with
  | nil => exact (hn rfl).elim
  | cons v vs ih =>
    obtain ⟨hv, hvs⟩ := List.forall_mem_cons.mp hv
    have hl := writes_literal hv fun w hw => hq w (by simp [hw])
    cases vs with
    | nil => simpa [listTokens] using hl
    | cons w vs =>
      have hr := ih (by simp) hvs fun u hu => hq u (by
        obtain ⟨a, ha, hu⟩ := List.mem_filterMap.mp hu
        exact List.mem_filterMap.mpr ⟨a, List.mem_cons_of_mem v ha, hu⟩)
      simpa [listTokens, comma] using hl.append_comma hr

theorem writes_test (hk : IsName k) (hf : f.HoldsLiterals)
    (hq : ∀ w ∈ (Expr.test k negated f).literals, '\'' ∉ w.toList) :
    Writes (f.render k negated).toList (keyword k :: f.tokens negated) := by
  have hname := writes_keyword hk.ne_empty (List.all_eq_true.mpr hk.isWordChar) hk.no_number
  have hnot : Writes ['n', 'o', 't'] [keyword "not"] :=
    writes_keyword (w := "not") (by decide) (by decide) rfl
  cases f with
  | null =>
    have his : Writes ['i', 's'] [keyword "is"] :=
      writes_keyword (w := "is") (by decide) (by decide) rfl
    have hnull : Writes ['n', 'u', 'l', 'l'] [keyword "null"] :=
      writes_keyword (w := "null") (by decide) (by decide) rfl
    cases negated with
    | false =>
      simpa [FieldTest.render, FieldTest.tokens] using
        hname.append_blank (his.append_blank hnull)
    | true =>
      simpa [FieldTest.render, FieldTest.tokens] using
        hname.append_blank (his.append_blank (hnot.append_blank hnull))
  | like p =>
    have hlike : Writes ['l', 'i', 'k', 'e'] [keyword "like"] :=
      writes_keyword (w := "like") (by decide) (by decide) rfl
    have hpattern := writes_quoted (hq p (by simp [Expr.literals]))
    have htest := hlike.append_blank hpattern
    cases negated with
    | false =>
      simpa [FieldTest.render, FieldTest.tokens] using hname.append_blank htest
    | true =>
      simpa [FieldTest.render, FieldTest.tokens] using hname.append_blank (hnot.append_blank htest)
  | oneOf items =>
    have hin : Writes ['i', 'n'] [keyword "in"] :=
      writes_keyword (w := "in") (by decide) (by decide) rfl
    have hlist := (writes_listTokens hf.1 hf.2 hq).parenthesized
    have htest := hin.append_blank hlist
    cases negated with
    | false =>
      simpa [FieldTest.render, FieldTest.tokens] using hname.append_blank htest
    | true =>
      simpa [FieldTest.render, FieldTest.tokens] using hname.append_blank (hnot.append_blank htest)

theorem writes_render (h : e.WellTyped) (hk : ∀ k ∈ e.keys, IsName k)
    (hq : ∀ w ∈ e.literals, '\'' ∉ w.toList) : Writes e.render.toList e.phrase.tokens := by
  induction h with
  | text s => exact writes_quoted (hq s (by simp [Expr.literals]))
  | number x =>
    have hx := writes_number x
    unfold Binary64.tokens at hx
    by_cases hn : x.isNegative
    · simpa [Expr.render, Expr.phrase, hn, Phrase.tokens, Phrase.signToken] using hx
    · simpa [Expr.render, Expr.phrase, hn, Phrase.tokens] using hx
  | field key =>
    have hn := hk key (by simp [Expr.keys])
    exact writes_keyword hn.ne_empty (List.all_eq_true.mpr hn.isWordChar) hn.no_number
  | test key negated hf => exact writes_test (hk key (by simp [Expr.keys])) hf hq
  | logical op _ _ _ _ ihl ihr =>
    obtain ⟨hkl, hkr⟩ := List.forall_mem_append.mp hk
    obtain ⟨hql, hqr⟩ := List.forall_mem_append.mp hq
    have h := ((ihl hkl hql).append_blank
      ((writes_connective op).append_blank (ihr hkr hqr))).parenthesized
    simpa [Expr.render, Expr.phrase, Expr.parenthesized, Phrase.tokens] using h
  | @compare _ _ op _ _ _ _ ihl ihr =>
    obtain ⟨hkl, hkr⟩ := List.forall_mem_append.mp hk
    obtain ⟨hql, hqr⟩ := List.forall_mem_append.mp hq
    have h := ((ihl hkl hql).append_blank (writes_comparison (ihr hkr hqr) op)).parenthesized
    simpa [Expr.render, Expr.phrase, Expr.parenthesized, Phrase.tokens] using h
  | arith op _ _ _ _ ihl ihr =>
    obtain ⟨hkl, hkr⟩ := List.forall_mem_append.mp hk
    obtain ⟨hql, hqr⟩ := List.forall_mem_append.mp hq
    have h := ((ihl hkl hql).append_blank (writes_operation (ihr hkr hqr) op)).parenthesized
    simpa [Expr.render, Expr.phrase, Expr.parenthesized, Phrase.tokens] using h

namespace Expr.Printable

theorem writes_render (h : e.Printable) : Writes e.render.toList e.phrase.tokens :=
  RecordSieve.writes_render h.wellTyped h.isName h.no_quote

theorem ofText_render (h : e.Printable) : Token.ofText e.render = .ok e.phrase.tokens :=
  h.writes_render.written.scan_eq

theorem ofTokens_phrase (h : e.Printable) : Expr.ofTokens e.phrase.tokens = .ok e := by
  have hd := derives_phrase h.wellTyped h.isName
  have hh := height_phrase_le e
  have hl := h.height_le
  have hn : e.phrase.height < nestingLimit + 1 := by
    simp only [nestingLimit]
    omega
  rw [Phrase.Derives.ofTokens_tokens (.clause (.sum (.unit hd))), bounded, if_pos hn,
    tree_phrase h.wellTyped]

end Expr.Printable

end RecordSieve
