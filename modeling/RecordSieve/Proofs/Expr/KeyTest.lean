import RecordSieve.Expr.Parser
import RecordSieve.Proofs.Results

/-! # Tests of a single key

The token lists that spell a test of a key, and what each of them tests. Reading such a test
succeeds exactly on these lists.
-/

namespace RecordSieve.Expr.Parser

def comma : Token := ⟨.separator, ","⟩

/-- An item of a list: a literal, a word, which stands for a string, or a number with a sign. -/
inductive Item : List Token → Value → Prop
  | string (s : String) : Item [⟨.string, s⟩] (.string s)
  | word (s : String) : Item [⟨.word, s⟩] (.string s)
  | number {s : String} {x : Binary64} : Binary64.read? s.toList = some x →
      Item [⟨.number, s⟩] (.number x)
  | plus {s : String} {x : Binary64} : Binary64.read? s.toList = some x →
      Item [⟨.operator, "+"⟩, ⟨.number, s⟩] (.number x)
  | minus {s : String} {x : Binary64} : Binary64.read? s.toList = some x →
      Item [⟨.operator, "-"⟩, ⟨.number, s⟩] (.number x.neg)

/-- One or more items with commas between them. -/
inductive Items : List Token → List Value → Prop
  | one {ts : List Token} {v : Value} : Item ts v → Items ts [v]
  | cons {ts rest : List Token} {v : Value} {vs : List Value} : Item ts v → Items rest vs →
      Items (ts ++ comma :: rest) (v :: vs)

/-- The tests that can be negated by a `not` in front. -/
inductive PlainTest : List Token → FieldTest → Prop
  | like {t : Token} (p : String) : t.spells "like" → PlainTest [t, ⟨.string, p⟩] (.like p)
  | oneOf {t l r : Token} {items : List Token} {vs : List Value} : t.spells "in" → l.opens →
      r.closes → Items items vs → PlainTest (t :: l :: (items ++ [r])) (.oneOf vs)

/-- What follows the key in a test, whether that is negated, and the test. -/
inductive KeyTest : List Token → Bool → FieldTest → Prop
  | null {t u : Token} : t.spells "is" → u.spells "null" → KeyTest [t, u] false .null
  | notNull {t n u : Token} : t.spells "is" → n.spells "not" → u.spells "null" →
      KeyTest [t, n, u] true .null
  | plain {ts : List Token} {f : FieldTest} : PlainTest ts f → KeyTest ts false f
  | negated {n : Token} {ts : List Token} {f : FieldTest} : n.spells "not" → PlainTest ts f →
      KeyTest (n :: ts) true f

variable {t key : Token} {ts items : List Token} {v : Value} {vs : List Value} {f : FieldTest}
  {negated : Bool} {e : Expr}

theorem spells_iff {w : String} :
    t.spells w ↔ t.kind = .word ∧ Token.lowered t.text = Token.lowered w := by
  simp [Token.spells]

theorem spells_ne {v w : String} (h : t.spells v) (hn : Token.lowered v ≠ Token.lowered w) :
    t.spells w = false := by
  simp [Token.spells, (spells_iff.mp h).2, hn]

theorem numberOf_eq_ok_iff {x : Binary64} :
    numberOf t = .ok x ↔ Binary64.read? t.text.toList = some x := by
  unfold numberOf
  split <;> simp_all

theorem sign?_eq_some_iff {negative : Bool} :
    t.sign? = some negative ↔ t = ⟨.operator, if negative then "-" else "+"⟩ := by
  obtain ⟨kind, text⟩ := t
  unfold Token.sign?
  cases negative <;> grind

theorem itemValue_eq_ok_iff : itemValue items ts = .ok v ↔ Item ts v := by
  constructor
  · intro h
    unfold itemValue at h
    split at h
    · rename_i t
      obtain ⟨kind, s⟩ := t
      cases kind <;> simp only [map_eq_ok_iff, numberOf_eq_ok_iff, reduceCtorEq,
        Except.ok.injEq] at h
      · exact h ▸ .word s
      · exact h ▸ .string s
      · obtain ⟨x, hx, rfl⟩ := h
        exact .number hx
    · rename_i s t
      split at h
      · rename_i hk
        obtain ⟨kind, text⟩ := t
        obtain rfl : kind = .number := hk
        split at h
        · rename_i hs
          obtain ⟨x, hx, rfl⟩ := map_eq_ok_iff.mp h
          obtain rfl := sign?_eq_some_iff.mp hs
          exact .minus (numberOf_eq_ok_iff.mp hx)
        · rename_i hs
          obtain ⟨x, hx, rfl⟩ := map_eq_ok_iff.mp h
          obtain rfl := sign?_eq_some_iff.mp hs
          exact .plus (numberOf_eq_ok_iff.mp hx)
        · simp at h
      · simp at h
    · simp at h
  · intro h
    cases h with
    | string => rfl
    | word => rfl
    | number hx => simp [itemValue, numberOf, hx, Functor.map, Except.map]
    | plus hx => simp [itemValue, Token.sign?, numberOf, hx, Functor.map, Except.map]
    | minus hx => simp [itemValue, Token.sign?, numberOf, hx, Functor.map, Except.map]

theorem Item.separatesItems_eq_false (h : Item ts v) : ∀ t ∈ ts, t.separatesItems = false := by
  cases h <;> simp [Token.separatesItems]

theorem separatesItems_eq : Token.separatesItems = (· == comma) := by
  funext t
  obtain ⟨kind, text⟩ := t
  rw [Bool.eq_iff_iff]
  simp [Token.separatesItems, comma]

theorem items_intercalate {pieces : List (List Token)} (hn : pieces ≠ [])
    (h : pieces.mapM (itemValue items) = .ok vs) : Items ([comma].intercalate pieces) vs := by
  induction pieces generalizing vs with
  | nil => exact (hn rfl).elim
  | cons ts pieces ih =>
    simp only [List.mapM_cons, bind_eq_ok_iff, pure, Except.pure, Except.ok.injEq] at h
    obtain ⟨v, hv, ws, hws, rfl⟩ := h
    have hv := itemValue_eq_ok_iff.mp hv
    cases pieces with
    | nil =>
      obtain rfl : ws = [] := by simpa [pure, Except.pure, eq_comm] using hws
      simpa using Items.one hv
    | cons next pieces =>
      rw [List.intercalate_cons_cons, List.append_assoc, List.singleton_append]
      exact .cons hv (ih (List.cons_ne_nil _ _) hws)

theorem Items.mapM_itemValue (h : Items ts vs) :
    (ts.splitOnP Token.separatesItems).mapM (itemValue items) = .ok vs := by
  induction h with
  | one hv =>
    rw [List.splitOnP_eq_singleton hv.separatesItems_eq_false]
    simp [itemValue_eq_ok_iff.mpr hv, bind, Except.bind, pure, Except.pure]
  | cons hv _ ih =>
    rw [List.splitOnP_append_cons_of_forall_mem hv.separatesItems_eq_false _ (by decide)]
    simp [itemValue_eq_ok_iff.mpr hv, ih, bind, Except.bind, pure, Except.pure]

theorem listValues_eq_ok_iff : listValues items = .ok vs ↔ Items items vs := by
  refine ⟨fun h => ?_, Items.mapM_itemValue⟩
  have := items_intercalate (List.splitOnP_ne_nil _ _) h
  rwa [separatesItems_eq, ← List.splitOn_eq_splitOnP, List.intercalate_splitOn] at this

theorem Items.ne_nil (h : Items ts vs) : ts ≠ [] := by
  cases h with
  | one hv => cases hv <;> simp
  | cons => simp

theorem nullShape?_eq_some_iff : nullShape? ts = some negated ↔ KeyTest ts negated .null := by
  constructor
  · intro h
    unfold nullShape? at h
    split at h
    · simp only [Option.ite_none_right_eq_some, Option.some.injEq] at h
      exact h.2 ▸ .null h.1.1 h.1.2
    · simp only [Option.ite_none_right_eq_some, Option.some.injEq] at h
      exact h.2 ▸ .notNull h.1.1 h.1.2.1 h.1.2.2
    · simp at h
  · intro h
    cases h with
    | null ht hu => simp [nullShape?, ht, hu]
    | notNull ht hn hu => simp [nullShape?, ht, hn, hu]
    | plain hf => cases hf
    | negated _ hf => cases hf

theorem plainTest_iff : PlainTest ts f ↔ ∃ shape, shape? ts = some shape ∧ shape.test = .ok f := by
  constructor
  · intro h
    cases h with
    | like p ht => exact ⟨.like p, by simp [shape?, ht], rfl⟩
    | @oneOf t l r items vs ht hl hr hi =>
      refine ⟨.oneOf items, ?_, ?_⟩
      · unfold shape?
        split
        · rename_i he
          simp only [List.cons.injEq] at he
          simp_all
        · rename_i he
          obtain ⟨rfl, rfl, rfl⟩ : t = _ ∧ l = _ ∧ items ++ [r] = _ := by simpa using he
          simp [ht, hl, hr, hi.ne_nil]
        · simp_all
      · simp [Shape.test, listValues_eq_ok_iff.mpr hi, Functor.map, Except.map]
  · rintro ⟨shape, hs, hf⟩
    unfold shape? at hs
    split at hs
    · rename_i t u
      obtain ⟨kind, text⟩ := u
      simp only [Option.ite_none_right_eq_some, Option.some.injEq] at hs
      obtain ⟨⟨ht, rfl⟩, rfl⟩ := hs
      obtain rfl := Except.ok.inj hf
      exact .like text ht
    · rename_i t l rest _
      simp only [Option.ite_none_right_eq_some, Option.some.injEq] at hs
      obtain ⟨⟨ht, hl, hr, hn⟩, rfl⟩ := hs
      obtain ⟨vs, hvs, rfl⟩ := map_eq_ok_iff.mp hf
      obtain ⟨r, hr, hc⟩ := Option.map_eq_some_iff.mp hr
      have he : rest = rest.dropLast ++ [r] := by
        have := List.getLast?_eq_some_iff.mp hr
        grind
      rw [he]
      exact .oneOf ht hl hc (listValues_eq_ok_iff.mp hvs)
    · simp at hs

theorem PlainTest.splitNot (h : PlainTest ts f) : Parser.splitNot ts = (false, ts) := by
  cases h with
  | like p ht => simp [Parser.splitNot, spells_ne (w := "not") ht (by decide)]
  | oneOf ht => simp [Parser.splitNot, spells_ne (w := "not") ht (by decide)]

theorem PlainTest.nullShape?_eq_none (h : PlainTest ts f) : nullShape? ts = none := by
  cases h with
  | like p ht => simp [nullShape?, Token.spells]
  | @oneOf t l r items vs ht _ _ hi =>
    cases items with
    | nil => exact (hi.ne_nil rfl).elim
    | cons u items => cases items <;> simp [nullShape?]

theorem KeyTest.of_splitNot (h : PlainTest (Parser.splitNot ts).2 f) :
    KeyTest ts (Parser.splitNot ts).1 f := by
  cases ts with
  | nil => cases h
  | cons t ts =>
    by_cases ht : t.spells "not"
    · simp only [Parser.splitNot, ht, if_true] at h ⊢
      exact .negated ht h
    · simp only [Parser.splitNot, ht] at h ⊢
      exact .plain h

theorem nullShape?_cons_not (h : t.spells "not") : nullShape? (t :: ts) = none := by
  have hn : t.spells "is" = false := spells_ne h (by decide)
  unfold nullShape?
  split <;> simp_all

theorem keyOf_eq_ok_iff {keyword k : String} :
    keyOf keyword t = .ok k ↔ t.kind = .word ∧ k = t.text := by
  unfold keyOf
  split <;> simp_all [eq_comm]

theorem keyTest_of_plainTest (hw : key.kind = .word)
    (h : PlainTest (splitNot ts).2 f) (hs : nullShape? ts = none) :
    keyTest (key :: ts) = .ok (.test key.text (splitNot ts).1 f) := by
  obtain ⟨shape, hshape, hf⟩ := plainTest_iff.mp h
  simp [keyTest, hs, hshape, hf, keyOf, hw, bind, Except.bind, pure, Except.pure]

theorem keyTest_eq_ok_iff : keyTest (key :: ts) = .ok e ↔
    key.kind = .word ∧ ∃ negated f, KeyTest ts negated f ∧ e = .test key.text negated f := by
  constructor
  · intro h
    unfold keyTest at h
    cases hs : nullShape? ts with
    | some negated =>
      simp only [hs] at h
      obtain ⟨k, hk, rfl⟩ := map_eq_ok_iff.mp h
      obtain ⟨hw, rfl⟩ := keyOf_eq_ok_iff.mp hk
      exact ⟨hw, negated, .null, nullShape?_eq_some_iff.mp hs, rfl⟩
    | none =>
      cases hshape : shape? (splitNot ts).2 with
      | none => simp [hs, hshape] at h
      | some shape =>
        simp only [hs, hshape, bind_eq_ok_iff, pure, Except.pure, Except.ok.injEq] at h
        obtain ⟨k, hk, f, hf, rfl⟩ := h
        obtain ⟨hw, rfl⟩ := keyOf_eq_ok_iff.mp hk
        exact ⟨hw, _, f, .of_splitNot (plainTest_iff.mpr ⟨shape, hshape, hf⟩), rfl⟩
  · rintro ⟨hw, negated, f, hf, rfl⟩
    cases hf with
    | null ht hu =>
      simp [keyTest, nullShape?_eq_some_iff.mpr (.null ht hu), keyOf, hw, Functor.map, Except.map]
    | notNull ht hn hu =>
      simp [keyTest, nullShape?_eq_some_iff.mpr (.notNull ht hn hu), keyOf, hw, Functor.map,
        Except.map]
    | plain hp =>
      have hn := hp.splitNot
      have h := keyTest_of_plainTest hw (by rwa [hn]) hp.nullShape?_eq_none
      rwa [hn] at h
    | @negated n ts f ht hp =>
      have hn : splitNot (n :: ts) = (true, ts) := by simp [splitNot, ht]
      have h := keyTest_of_plainTest hw (by rwa [hn]) (nullShape?_cons_not ht)
      rwa [hn] at h

end RecordSieve.Expr.Parser
