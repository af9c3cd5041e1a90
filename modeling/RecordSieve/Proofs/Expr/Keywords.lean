import RecordSieve.Proofs.Token.Keywords

/-! # Expressions whatever the case of keywords

A keyword can also be a field, a key or an item of a list, by its place. In the tree its case is
then kept, and nothing else of the tree depends on it. Tokens that differ in the case of keywords
form trees that differ in the case of these words, or fail with errors that do.
-/

namespace RecordSieve

open Token

/-- The value, which is an item of a list, with a keyword in lower case. -/
def Value.lowerKeyword : Value → Value
  | string s => string (lowerWord s)
  | v => v

def FieldTest.lowerKeywords : FieldTest → FieldTest
  | oneOf items => oneOf (items.map Value.lowerKeyword)
  | f => f

/-- The tree with the keywords among its fields, its keys and the items of its lists in lower
case. -/
def Expr.lowerKeywords : Expr → Expr
  | field key => field (lowerWord key)
  | test key negated f => test (lowerWord key) negated f.lowerKeywords
  | logical op l r => logical op l.lowerKeywords r.lowerKeywords
  | compare op l r => compare op l.lowerKeywords r.lowerKeywords
  | arith op l r => arith op l.lowerKeywords r.lowerKeywords
  | e => e

def ParseError.lowerKeywords : ParseError → ParseError
  | noOperand op side => noOperand op.lowerKeyword side
  | unbalanced span => unbalanced (span.map lowerKeyword)
  | incapable op side needed operand =>
    incapable op.lowerKeyword side needed operand.lowerKeywords
  | stray t => stray t.lowerKeyword
  | noKey keyword found => noKey keyword found.lowerKeyword
  | badItem items => badItem (items.map lowerKeyword)
  | shapeless span => shapeless (span.map lowerKeyword)
  | indecisive e => indecisive e.lowerKeywords
  | err => err

theorem ParseError.ctorIdx_lowerKeywords (err : ParseError) :
    err.lowerKeywords.ctorIdx = err.ctorIdx := by
  cases err <;> rfl

namespace Expr

variable {e e' : Expr}

theorem has_lowerKeywords (e : Expr) (c : Capability) : e.lowerKeywords.has c = e.has c := by
  cases e <;> cases c <;> rfl

theorem has_congr (h : e.lowerKeywords = e'.lowerKeywords) (c : Capability) :
    e.has c = e'.has c := by
  rw [← has_lowerKeywords e, h, has_lowerKeywords]

theorem lowerKeywords_negate (e : Expr) :
    (Parser.negate e).lowerKeywords = Parser.negate e.lowerKeywords := by
  cases e <;> rfl

end Expr

namespace Expr.Parser

variable {α γ : Type} {levels : Nat} {x y z : Except ParseError α} {e e' : Expr}

/-- The results are values that `f` does not tell apart, or errors that differ in the case of
keywords at most. -/
def Alike (f : α → γ) (x y : Except ParseError α) : Prop :=
  Related (fun err err' => err.lowerKeywords = err'.lowerKeywords) (fun a b => f a = f b) x y

theorem Alike.refl (f : α → γ) (x : Except ParseError α) : Alike f x x := by
  cases x with
  | ok a => exact .ok rfl
  | error err => exact .error rfl

theorem Alike.of_common {f : α → γ} (hy : Alike f x y) (hz : Alike f x z) : Alike f y z := by
  cases hy with
  | ok h =>
    cases hz with
    | ok h' => exact .ok (h.symm.trans h')
  | error h =>
    cases hz with
    | error h' => exact .error (h.symm.trans h')

theorem Alike.exists_ok_iff {f : α → γ} (h : Alike f x y) :
    (∃ a, x = .ok a) ↔ ∃ b, y = .ok b := by
  cases h with
  | ok => exact ⟨fun _ => ⟨_, rfl⟩, fun _ => ⟨_, rfl⟩⟩
  | error => simp

theorem Alike.eq_of_ok {f : α → γ} {a b : α} (h : Alike f x y) (hx : x = .ok a)
    (hy : y = .ok b) : f a = f b := by
  subst hx hy
  cases h with
  | ok h => exact h

theorem Alike.eq_of_error {f : α → γ} {err err' : ParseError} (h : Alike f x y)
    (hx : x = .error err) (hy : y = .error err') :
    err.ctorIdx = err'.ctorIdx ∧ err.lowerKeywords = err'.lowerKeywords := by
  subst hx hy
  cases h with
  | error h =>
    have hkind := congrArg ParseError.ctorIdx h
    rw [ParseError.ctorIdx_lowerKeywords, ParseError.ctorIdx_lowerKeywords] at hkind
    exact ⟨hkind, h⟩

theorem check_alike (op : Token) (side : Side) (needed : Capability)
    (h : e.lowerKeywords = e'.lowerKeywords) :
    Alike id (check op.lowerKeyword side needed e) (check op side needed e') := by
  unfold check
  rw [has_congr h]
  split
  · exact .ok rfl
  · exact .error (by simp [ParseError.lowerKeywords, h])

theorem sides_alike {read : List Token → Except ParseError Expr}
    (ih : ∀ span, Alike lowerKeywords (read (span.map lowerKeyword)) (read span)) (c : Cut α)
    (needed : Capability) : Alike (Prod.map lowerKeywords lowerKeywords)
      (sides read (c.map lowerKeyword) needed) (sides read c needed) := by
  unfold sides
  simp only [Cut.map, List.map_eq_nil_iff]
  split
  · exact .error (by simp [ParseError.lowerKeywords])
  · split
    · exact .error (by simp [ParseError.lowerKeywords])
    · refine (ih c.before).bind fun l l' hl => (ih c.after).bind fun r r' hr => ?_
      refine (check_alike c.token .left needed hl).bind fun _ _ _ => ?_
      refine (check_alike c.token .right needed hr).bind fun _ _ _ => ?_
      exact .ok (Prod.ext hl hr)

theorem single_alike (t : Token) : Alike lowerKeywords (single t.lowerKeyword) (single t) := by
  obtain ⟨kind, s⟩ := t
  cases kind with
  | word => exact .ok (by simp [lowerKeywords, lowerKeyword])
  | _ => exact .refl _ _

theorem keyOf_alike (keyword : String) (t : Token) :
    Alike lowerWord (keyOf keyword t.lowerKeyword) (keyOf keyword t) := by
  obtain ⟨kind, s⟩ := t
  cases kind with
  | word => exact .ok (lowerWord_lowerWord s)
  | _ => exact .refl _ _

theorem itemValue_alike (items item : List Token) : Alike Value.lowerKeyword
    (itemValue (items.map lowerKeyword) (item.map lowerKeyword)) (itemValue items item) := by
  -- the error names the list as a whole
  have hbad : Alike Value.lowerKeyword (.error (.badItem (items.map lowerKeyword)))
      (.error (.badItem items)) := .error (by simp [ParseError.lowerKeywords])
  match item with
  | [] | _ :: _ :: _ :: _ => exact hbad
  | [⟨kind, s⟩] =>
    cases kind with
    | word => exact .ok (congrArg Value.string (lowerWord_lowerWord s))
    | string | number => exact .refl _ _
    | _ => exact hbad
  | [t, u] =>
    simp only [List.map_cons, List.map_nil, itemValue, kind_lowerKeyword,
      faithful_lowerKeyword.sign?]
    split
    · rename_i hu
      rw [lowerKeyword_of_kind (by simp [hu])]
      split
      · exact .refl _ _
      · exact .refl _ _
      · exact hbad
    · exact hbad

theorem splitOnP_map {φ : Token → Token} {p : Token → Bool} (h : ∀ t, p (φ t) = p t)
    (ts : List Token) : (ts.map φ).splitOnP p = (ts.splitOnP p).map (List.map φ) := by
  induction ts with
  | nil => rfl
  | cons t ts ih =>
    rw [List.map_cons, List.splitOnP_cons_eq_if_modifyHead, List.splitOnP_cons_eq_if_modifyHead, ih,
      h]
    split
    · rfl
    · cases ts.splitOnP p <;> rfl

theorem separatesItems_lowerKeyword (t : Token) :
    t.lowerKeyword.separatesItems = t.separatesItems :=
  eq_of_lowerKeyword separatesItems (fun _ _ _ _ => rfl) t

theorem listValues_alike (items : List Token) : Alike (List.map Value.lowerKeyword)
    (listValues (items.map lowerKeyword)) (listValues items) := by
  unfold listValues
  rw [splitOnP_map separatesItems_lowerKeyword, List.mapM_map]
  exact (Related.mapM (itemValue_alike items) _).mono fun _ _ => map_eq_map_of_forall₂

theorem nullShape?_lowerKeyword (ts : List Token) :
    nullShape? (ts.map lowerKeyword) = nullShape? ts := by
  match ts with
  | [] | [_] | _ :: _ :: _ :: _ :: _ => rfl
  | [a, b] => simp [nullShape?]
  | [a, b, c] => simp [nullShape?]

theorem splitNot_lowerKeyword (ts : List Token) :
    splitNot (ts.map lowerKeyword) = ((splitNot ts).1, (splitNot ts).2.map lowerKeyword) := by
  cases ts with
  | nil => rfl
  | cons t ts =>
    simp only [splitNot, List.map_cons, spells_lowerKeyword]
    split <;> rfl

def Shape.lowerKeywords : Shape → Shape
  | like p => like p
  | oneOf items => oneOf (items.map lowerKeyword)

theorem shape?_lowerKeyword (ts : List Token) :
    shape? (ts.map lowerKeyword) = (shape? ts).map Shape.lowerKeywords := by
  match ts with
  | [] | [_] => rfl
  | [a, ⟨kind, s⟩] =>
    simp only [List.map_cons, List.map_nil, shape?, spells_lowerKeyword, kind_lowerKeyword]
    split
    · rename_i h
      obtain rfl : kind = .string := h.2
      rfl
    · rfl
  | a :: b :: c :: rest =>
    have hlast : ((c :: rest).map lowerKeyword).getLast?.map closes =
        (c :: rest).getLast?.map closes := by
      rw [List.getLast?_map, Option.map_map]
      congr 1
      funext t
      exact faithful_lowerKeyword.closes t
    have hinit : ((c :: rest).map lowerKeyword).dropLast = (c :: rest).dropLast.map lowerKeyword :=
      List.map_dropLast.symm
    rw [List.map_cons] at hlast hinit
    simp only [List.map_cons, shape?, spells_lowerKeyword, faithful_lowerKeyword.opens, hlast,
      hinit, ne_eq, List.map_eq_nil_iff]
    split <;> rfl

theorem Shape.keyword_lowerKeywords (shape : Shape) :
    shape.lowerKeywords.keyword = shape.keyword := by
  cases shape <;> rfl

theorem Shape.test_alike (shape : Shape) :
    Alike FieldTest.lowerKeywords shape.lowerKeywords.test shape.test := by
  cases shape with
  | like p => exact .refl _ _
  | oneOf items => exact (listValues_alike items).map fun _ _ h => congrArg FieldTest.oneOf h

theorem keyTest_alike (span : List Token) :
    Alike lowerKeywords (keyTest (span.map lowerKeyword)) (keyTest span) := by
  cases span with
  | nil => exact .refl _ _
  | cons key rest =>
    simp only [List.map_cons, keyTest, nullShape?_lowerKeyword, splitNot_lowerKeyword,
      shape?_lowerKeyword]
    cases nullShape? rest with
    | some negated => exact (keyOf_alike "is" key).map fun _ _ h => by simp [lowerKeywords, h]
    | none =>
      cases shape? (splitNot rest).2 with
      | none => exact .error (by simp [ParseError.lowerKeywords])
      | some shape =>
        simp only [Option.map_some, Shape.keyword_lowerKeywords]
        refine (keyOf_alike _ key).bind fun k k' hk => shape.test_alike.bind fun f f' hf => ?_
        exact .ok (by simp [lowerKeywords, hk, hf])

theorem readForm_alike {read : List Token → Except ParseError Expr}
    (ih : ∀ span, Alike lowerKeywords (read (span.map lowerKeyword)) (read span))
    (span : List Token) (f : Form) : Alike lowerKeywords
      (readForm read (span.map lowerKeyword) (f.map lowerKeyword)) (readForm read span f) := by
  cases f with
  | empty => exact .refl _ _
  | single t => exact single_alike t
  | group inner => exact ih inner
  | logical c | compare c | arith c =>
    refine (sides_alike ih c _).map fun (l, r) (l', r') h => ?_
    obtain ⟨hl, hr⟩ := Prod.mk.inj h
    simp only [lowerKeywords, hl, hr, Cut.map]
  | signed t negative operand =>
    refine (ih operand).bind fun e e' h => ?_
    refine (check_alike t .right .numeric h).bind fun _ _ _ => .ok ?_
    cases negative with
    | false => exact h
    | true => rw [if_pos rfl, if_pos rfl, lowerKeywords_negate, h, lowerKeywords_negate]
  | test => exact keyTest_alike span

theorem ofSpan_alike (levels : Nat) (span : List Token) :
    Alike lowerKeywords (ofSpan levels (span.map lowerKeyword)) (ofSpan levels span) := by
  induction levels generalizing span with
  | zero => exact .refl _ _
  | succ levels ih =>
    -- the forms differ in their tokens only, and the parts they name are read with fewer levels
    rw [ofSpan_succ, ofSpan_succ, form_map faithful_lowerKeyword]
    exact readForm_alike ih span (form span)

end Expr.Parser

namespace Expr

theorem ofTokens_alike (ts : List Token) :
    Parser.Alike lowerKeywords (ofTokens (ts.map lowerKeyword)) (ofTokens ts) := by
  unfold ofTokens
  rw [Parser.isBalanced_map faithful_lowerKeyword]
  split
  · exact Parser.ofSpan_alike _ ts
  · exact .error (by simp [ParseError.lowerKeywords])

/-- Whatever the case of the keywords among the tokens, an expression is read, or none is. The
expressions are the same but for the case of such words in them, and so are the errors, which are of
one kind. -/
theorem ofTokens_sameButCase {ts us : List Token} (h : List.Forall₂ SameButCase ts us) :
    ((∃ e, ofTokens ts = .ok e) ↔ ∃ e, ofTokens us = .ok e) ∧
      (∀ e e', ofTokens ts = .ok e → ofTokens us = .ok e' →
        e.lowerKeywords = e'.lowerKeywords) ∧
      ∀ err err', ofTokens ts = .error err → ofTokens us = .error err' →
        err.ctorIdx = err'.ctorIdx ∧ err.lowerKeywords = err'.lowerKeywords := by
  have hmap : ts.map lowerKeyword = us.map lowerKeyword :=
    map_eq_map_of_forall₂ (h.imp fun _ _ => lowerKeyword_eq_iff.mpr)
  have hts := ofTokens_alike ts
  rw [hmap] at hts
  have halike := hts.of_common (ofTokens_alike us)
  exact ⟨halike.exists_ok_iff, fun _ _ => halike.eq_of_ok, fun _ _ => halike.eq_of_error⟩

/-- `a IS NOT null AND Not In (NULL, 'AND', Like)`, where the second `Not` is a key and the list has
words and a string, with other cases of all words. -/
theorem ofTokens_sameButCase_places :
    let tokens (is not null and key isIn first last : String) : List Token :=
      [⟨.word, "a"⟩, ⟨.word, is⟩, ⟨.word, not⟩, ⟨.word, null⟩, ⟨.word, and⟩, ⟨.word, key⟩,
        ⟨.word, isIn⟩, ⟨.leftParen, "("⟩, ⟨.word, first⟩, ⟨.separator, ","⟩, ⟨.string, "AND"⟩,
        ⟨.separator, ","⟩, ⟨.word, last⟩, ⟨.rightParen, ")"⟩]
    let tree (key first last : String) : Expr := .logical .and (.test "a" true .null)
      (.test key false (.oneOf [.string first, .string "AND", .string last]))
    let ts := tokens "IS" "NOT" "null" "AND" "Not" "In" "NULL" "Like"
    let us := tokens "is" "Not" "NULL" "and" "NOT" "in" "Null" "like"
    List.Forall₂ SameButCase ts us ∧
      ofTokens ts = .ok (tree "Not" "NULL" "Like") ∧ ofTokens us = .ok (tree "NOT" "Null" "like") ∧
      (tree "Not" "NULL" "Like").lowerKeywords = (tree "NOT" "Null" "like").lowerKeywords := by
  intro tokens tree ts us
  have h : List.Forall₂ SameButCase ts us := by
    simp only [ts, us, tokens, List.forall₂_cons, List.forall₂_nil_left_iff]
    decide
  have hts : ofTokens ts = .ok (tree "Not" "NULL" "Like") := by rfl
  have hus : ofTokens us = .ok (tree "NOT" "Null" "like") := by rfl
  exact ⟨h, hts, hus, (ofTokens_sameButCase h).2.1 _ _ hts hus⟩

end Expr

end RecordSieve
