import Mathlib.Data.List.Chain
import RecordSieve.Proofs.Results
import RecordSieve.Query

/-! # The clauses of a query

A query has a list of fields between `select` and the first `from` that the table's name follows,
and a condition after it or nothing. Queries of this shape have a plan and no others do; what is
wrong with the others is told by the first clause, from left to right, that is not as it should be.
-/

namespace RecordSieve

namespace Query

def IsSource (a b : Token) : Prop := a.spells "from" ∧ b.spells theTable

def IsListed (t : Token) : Prop :=
  t.separatesItems ∨ (t.kind = .word ∨ t.kind = .string ∨ t.kind = .number) ∨ t = ⟨.operator, "*"⟩

/-- Nothing but commas stands beside the fields, of which there is one at least. -/
structure IsFieldList (ts : List Token) : Prop where
  listed : ∀ t ∈ ts, IsListed t
  nonempty : ∃ t ∈ ts, t.separatesItems = false

def fieldsOf (ts : List Token) : List String := (ts.filter (!·.separatesItems)).map Token.text

/-- The tokens of a query, clause by clause. -/
structure Clauses where
  opening : Token
  list : List Token
  source : Token
  table : Token
  clause : List Token

namespace Clauses

def head (c : Clauses) : List Token := c.opening :: (c.list ++ [c.source, c.table])

def tokens (c : Clauses) : List Token := c.head ++ c.clause

structure Proper (c : Clauses) : Prop where
  opening : c.opening.spells "select"
  source : IsSource c.source c.table
  /-- No `from` before that one has the table's name after it. -/
  first : (c.list ++ [c.source]).IsChain fun a b => ¬ IsSource a b

end Clauses

/-- What follows the table is nothing, or `where` and the tokens of a predicate. -/
inductive Conditions : List Token → Expr → Prop
  | always : Conditions [] .always
  | predicate {w : Token} {ts : List Token} {e : Expr} : w.spells "where" → ts ≠ [] →
      Expr.predicateOfTokens ts = .ok e → Conditions (w :: ts) e

structure Clauses.Forms (c : Clauses) (p : Plan) : Prop where
  proper : c.Proper
  list : IsFieldList c.list
  fields : p.fields = fieldsOf c.list
  condition : Conditions c.clause p.predicate

/-- Why tokens name no source: the table is another one, or there is none. -/
inductive Sourceless : List Token → ShapeError → Prop
  | wrongTable {l r : List Token} {a b : Token} : (∀ u ∈ l, u.spells "from" = false) →
      a.spells "from" → (l ++ a :: b :: r).IsChain (fun a b => ¬ IsSource a b) →
      Sourceless (l ++ a :: b :: r) (.wrongTable b)
  | noFrom {ts : List Token} : ts.IsChain (fun a _ => a.spells "from" = false) →
      Sourceless ts .noFrom

inductive Fieldless : List Token → ShapeError → Prop
  | strayField {l r : List Token} {t : Token} : (∀ u ∈ l, IsListed u) → ¬ IsListed t →
      Fieldless (l ++ t :: r) (.strayField t)
  | noFields {ts : List Token} : (∀ t ∈ ts, t.separatesItems) → Fieldless ts .noFields

/-- Why tokens after the table, which start at a position of the query, are no condition. -/
inductive Conditionless (position : Nat) : List Token → QueryError → Prop
  | noWhere {t : Token} {ts : List Token} : t.spells "where" = false →
      Conditionless position (t :: ts) (.shape (.noWhere t position))
  | noCondition {t : Token} : t.spells "where" →
      Conditionless position [t] (.shape .noCondition)
  | parse {t : Token} {ts : List Token} {e : ParseError} : t.spells "where" → ts ≠ [] →
      Expr.predicateOfTokens ts = .error e → Conditionless position (t :: ts) (.parse e)

/-- The first clause that is not as it should be, and the error that tells it. -/
inductive Fails : List Token → QueryError → Prop
  | empty : Fails [] (.shape .empty)
  | opening {t : Token} {ts : List Token} : t.spells "select" = false →
      Fails (t :: ts) (.shape (.noSelect t))
  | source {t : Token} {ts : List Token} {e : ShapeError} : t.spells "select" →
      Sourceless ts e → Fails (t :: ts) (.shape e)
  | list {c : Clauses} {e : ShapeError} : c.Proper → Fieldless c.list e → Fails c.tokens (.shape e)
  | clause {c : Clauses} {e : QueryError} : c.Proper → IsFieldList c.list →
      Conditionless c.head.length c.clause e → Fails c.tokens e

variable {ts list clause : List Token} {a b t : Token} {unknown : Option Token} {e : ShapeError}
  {names : List String} {position : Nat}

theorem splitFrom_source (h : IsSource a b) : splitFrom unknown (a :: b :: ts) = .ok ([], ts) := by
  rw [splitFrom]
  exact if_pos h

theorem splitFrom_step (h : ¬ IsSource a b) : splitFrom unknown (a :: b :: ts) =
    (fun (list, clause) => (a :: list, clause)) <$>
      splitFrom (if a.spells "from" then unknown.or (some b) else unknown) (b :: ts) := by
  rw [splitFrom]
  exact if_neg h

theorem isChain_cons_append {R : Token → Token → Prop} {c : Token} {r : List Token}
    (h : b :: ts = list ++ c :: r) :
    (a :: (list ++ [c])).IsChain R ↔ R a b ∧ (list ++ [c]).IsChain R := by
  cases list with
  | nil =>
    obtain ⟨rfl, -⟩ := List.cons.inj h
    exact List.isChain_cons_cons
  | cons d list =>
    obtain ⟨rfl, -⟩ := List.cons.inj h
    exact List.isChain_cons_cons

theorem splitFrom_eq_ok_iff : splitFrom unknown ts = .ok (list, clause) ↔
    ∃ a b, ts = list ++ a :: b :: clause ∧ IsSource a b ∧
      (list ++ [a]).IsChain fun a b => ¬ IsSource a b := by
  induction ts generalizing unknown list with
  | nil => cases unknown <;> simp [splitFrom]
  | cons a ts ih =>
    cases ts with
    | nil => cases unknown <;> simp [splitFrom, List.cons_eq_append_iff]
    | cons b ts =>
      by_cases h : IsSource a b
      · rw [splitFrom_source h, Except.ok.injEq, Prod.mk.injEq]
        constructor
        · rintro ⟨rfl, rfl⟩
          exact ⟨a, b, rfl, h, .singleton a⟩
        · rintro ⟨c, d, hts, -, hc⟩
          cases list with
          | nil => exact ⟨rfl, (List.cons.inj (List.cons.inj hts).2).2⟩
          | cons u list =>
            obtain ⟨rfl, hrest⟩ := List.cons.inj hts
            have hc := (isChain_cons_append hrest).mp hc
            exact absurd h hc.1
      · rw [splitFrom_step h, map_eq_ok_iff]
        constructor
        · rintro ⟨⟨list, clause⟩, hs, heq⟩
          obtain ⟨rfl, rfl⟩ := Prod.mk.inj heq
          obtain ⟨c, d, hts, hcd, hc⟩ := ih.mp hs
          exact ⟨c, d, congrArg _ hts, hcd, (isChain_cons_append hts).mpr ⟨h, hc⟩⟩
        · rintro ⟨c, d, hts, hcd, hc⟩
          cases list with
          | nil =>
            obtain ⟨rfl, rfl, -⟩ : a = c ∧ b = d ∧ _ := by simpa using hts
            exact absurd hcd h
          | cons u list =>
            obtain ⟨rfl, hrest⟩ := List.cons.inj hts
            exact ⟨_, ih.mpr ⟨c, d, hrest, hcd, ((isChain_cons_append hrest).mp hc).2⟩, rfl⟩

theorem splitFrom_some_eq_error_iff : splitFrom (some t) ts = .error e ↔
    ts.IsChain (fun a b => ¬ IsSource a b) ∧ e = .wrongTable t := by
  induction ts with
  | nil => simp [splitFrom, eq_comm]
  | cons a ts ih =>
    cases ts with
    | nil => simp [splitFrom, eq_comm]
    | cons b ts =>
      rw [List.isChain_cons_cons]
      by_cases h : IsSource a b
      · simp [splitFrom_source h, h]
      · rw [splitFrom_step h, map_eq_error_iff, Option.some_or, ite_self, ih]
        simp [h]

theorem sourceless_of_from (ha : a.spells "from") : Sourceless (a :: b :: ts) e ↔
    (a :: b :: ts).IsChain (fun a b => ¬ IsSource a b) ∧ e = .wrongTable b := by
  constructor
  · intro h
    generalize hus : a :: b :: ts = us at h
    cases h with
    | @wrongTable l r c d hl hc hn =>
      cases l with
      | nil =>
        obtain ⟨-, rfl, -⟩ : a = c ∧ b = d ∧ ts = r := by simpa using hus
        exact ⟨hn, rfl⟩
      | cons u l =>
        obtain ⟨rfl, -⟩ := List.cons.inj hus
        simp [hl a] at ha
    | noFrom hn =>
      subst hus
      simp [(List.isChain_cons_cons.mp hn).1] at ha
  · rintro ⟨hn, rfl⟩
    exact .wrongTable (l := []) (by simp) ha hn

theorem sourceless_cons (ha : a.spells "from" = false) :
    Sourceless (a :: ts) e ↔ Sourceless ts e := by
  have hs (b : Token) : ¬ IsSource a b := by simp [IsSource, ha]
  constructor
  · intro h
    generalize hus : a :: ts = us at h
    cases h with
    | @wrongTable l r c d hl hc hn =>
      cases l with
      | nil =>
        obtain ⟨rfl, -⟩ := List.cons.inj hus
        simp [ha] at hc
      | cons u l =>
        obtain ⟨rfl, rfl⟩ := List.cons.inj hus
        exact .wrongTable (fun v hv => hl v (List.mem_cons_of_mem _ hv)) hc hn.tail
    | noFrom hn =>
      subst hus
      exact .noFrom hn.tail
  · intro h
    cases h with
    | wrongTable hl hc hn =>
      exact .wrongTable (List.forall_mem_cons.mpr ⟨ha, hl⟩) hc
        (List.isChain_cons.mpr ⟨fun b _ => hs b, hn⟩)
    | noFrom hn => exact .noFrom (List.isChain_cons.mpr ⟨fun _ _ => ha, hn⟩)

theorem sourceless_of_length (h : ts.length < 2) : Sourceless ts e ↔ e = .noFrom := by
  constructor
  · intro hs
    cases hs with
    | wrongTable =>
      simp only [List.length_append, List.length_cons] at h
      omega
    | noFrom => rfl
  · rintro rfl
    refine .noFrom ?_
    match ts with
    | [] => exact .nil
    | [a] => exact .singleton a

/-- The first table that is named is told, if one is. -/
theorem splitFrom_eq_error_iff : splitFrom none ts = .error e ↔ Sourceless ts e := by
  induction ts with
  | nil => simp [splitFrom, sourceless_of_length, eq_comm]
  | cons a ts ih =>
    cases ts with
    | nil => simp [splitFrom, sourceless_of_length, eq_comm]
    | cons b ts =>
      by_cases h : IsSource a b
      · rw [splitFrom_source h, sourceless_of_from h.1]
        simp [h]
      · rw [splitFrom_step h, map_eq_error_iff, Option.none_or]
        cases ha : a.spells "from" with
        | false => simpa [sourceless_cons ha] using ih
        | true => simp [splitFrom_some_eq_error_iff, sourceless_of_from ha, h]

instance (t : Token) : Decidable (IsListed t) := inferInstanceAs (Decidable (_ ∨ _ ∨ _))

theorem selected_eq (t : Token) : selected t =
    if IsListed t then .ok (if t.separatesItems then [] else [t.text])
    else .error (.strayField t) := by
  obtain ⟨kind, s⟩ := t
  cases kind with
  | separator => by_cases h : s = "," <;> simp [selected, IsListed, Token.separatesItems, h]
  | operator =>
    by_cases h : s = "*" <;> simp [selected, IsListed, Token.separatesItems, wholeRecord, h]
  | _ => simp [selected, IsListed, Token.separatesItems]

theorem mapM_selected (h : ∀ t ∈ ts, IsListed t) :
    ∃ names, ts.mapM selected = .ok names ∧ names.flatten = fieldsOf ts := by
  induction ts with
  | nil => exact ⟨[], rfl, rfl⟩
  | cons t ts ih =>
    obtain ⟨ht, hts⟩ := List.forall_mem_cons.mp h
    obtain ⟨names, hm, hn⟩ := ih hts
    refine ⟨(if t.separatesItems then [] else [t.text]) :: names, ?_, ?_⟩
    · rw [List.mapM_cons, selected_eq, if_pos ht, hm]
      rfl
    · cases hc : t.separatesItems <;> simp [fieldsOf, hc, hn]

theorem fieldsOf_ne_nil_iff : fieldsOf ts ≠ [] ↔ ∃ t ∈ ts, t.separatesItems = false := by
  simp [fieldsOf]

theorem fieldList_of_listed (h : ∀ t ∈ ts, IsListed t) :
    fieldList ts = if fieldsOf ts = [] then .error .noFields else .ok (fieldsOf ts) := by
  obtain ⟨names, hm, hn⟩ := mapM_selected h
  rw [fieldList, hm, ← hn]
  rfl

theorem fieldList_of_not_listed {l r : List Token} (hl : ∀ u ∈ l, IsListed u)
    (ht : ¬ IsListed t) : fieldList (l ++ t :: r) = .error (.strayField t) := by
  obtain ⟨names, hm, -⟩ := mapM_selected hl
  rw [fieldList, List.mapM_append, hm, List.mapM_cons, selected_eq, if_neg ht]
  rfl

theorem listed_or_exists (ts : List Token) : (∀ t ∈ ts, IsListed t) ∨
    ∃ l t r, ts = l ++ t :: r ∧ (∀ u ∈ l, IsListed u) ∧ ¬ IsListed t := by
  induction ts with
  | nil => exact .inl (by simp)
  | cons t ts ih =>
    by_cases ht : IsListed t
    · rcases ih with h | ⟨l, u, r, rfl, hl, hu⟩
      · exact .inl (List.forall_mem_cons.mpr ⟨ht, h⟩)
      · exact .inr ⟨t :: l, u, r, rfl, List.forall_mem_cons.mpr ⟨ht, hl⟩, hu⟩
    · exact .inr ⟨[], t, ts, rfl, by simp, ht⟩

theorem fieldList_eq_ok_iff : fieldList ts = .ok names ↔ IsFieldList ts ∧ names = fieldsOf ts := by
  constructor
  · intro h
    rcases listed_or_exists ts with hts | ⟨l, t, r, rfl, hl, ht⟩
    · rw [fieldList_of_listed hts] at h
      split at h
      · cases h
      · rename_i hn
        exact ⟨⟨hts, fieldsOf_ne_nil_iff.mp hn⟩, (Except.ok.inj h).symm⟩
    · rw [fieldList_of_not_listed hl ht] at h
      cases h
  · rintro ⟨h, rfl⟩
    rw [fieldList_of_listed h.listed, if_neg (fieldsOf_ne_nil_iff.mpr h.nonempty)]

theorem fieldList_eq_error_iff : fieldList ts = .error e ↔ Fieldless ts e := by
  constructor
  · intro h
    rcases listed_or_exists ts with hts | ⟨l, t, r, rfl, hl, ht⟩
    · rw [fieldList_of_listed hts] at h
      split at h
      · rename_i hn
        obtain rfl := Except.error.inj h
        exact .noFields (by simpa [fieldsOf] using hn)
      · cases h
    · rw [fieldList_of_not_listed hl ht] at h
      obtain rfl := Except.error.inj h
      exact .strayField hl ht
  · intro h
    cases h with
    | strayField hl ht => exact fieldList_of_not_listed hl ht
    | noFields hts =>
      rw [fieldList_of_listed fun t ht => .inl (hts t ht), if_pos (by simpa [fieldsOf] using hts)]

theorem predicateOfTokens_eq_ok_iff {p : Expr} :
    Expr.predicateOfTokens ts = .ok p ↔ Expr.ofTokens ts = .ok p ∧ p.isDecision := by
  rw [Expr.predicateOfTokens, bind_eq_ok_iff]
  constructor
  · rintro ⟨f, hf, h⟩
    split at h
    · rename_i hd
      obtain rfl := Except.ok.inj h
      exact ⟨hf, hd⟩
    · cases h
  · rintro ⟨hp, hd⟩
    exact ⟨p, hp, if_pos hd⟩

theorem Conditions.exists_suffix {p : Expr} (h : Conditions ts p) : p = .always ∨
    ∃ rest, rest <:+ ts ∧ Expr.ofTokens rest = .ok p ∧ p.isDecision := by
  cases h with
  | always => exact .inl rfl
  | @predicate w rest _ _ _ he =>
    exact .inr ⟨rest, List.suffix_cons w rest, predicateOfTokens_eq_ok_iff.mp he⟩

theorem condition_eq_ok_iff {p : Expr} :
    condition position ts = .ok p ↔ Conditions ts p := by
  constructor
  · intro h
    cases ts with
    | nil =>
      obtain rfl := Except.ok.inj h
      exact .always
    | cons t ts =>
      rw [condition] at h
      split at h
      · rename_i ht
        split at h
        · cases h
        · rename_i hn
          exact .predicate ht hn (mapError_eq_ok_iff.mp h)
      · cases h
  · intro h
    cases h with
    | always => rfl
    | predicate hw hn he =>
      rw [condition, if_pos hw, if_neg hn]
      exact mapError_eq_ok_iff.mpr he

theorem condition_eq_error_iff {e : QueryError} :
    condition position ts = .error e ↔ Conditionless position ts e := by
  constructor
  · intro h
    cases ts with
    | nil => cases h
    | cons t ts =>
      rw [condition] at h
      split at h
      · rename_i ht
        split at h
        · rename_i hn
          subst hn
          obtain rfl := Except.error.inj h
          exact .noCondition ht
        · rename_i hn
          obtain ⟨e, he, rfl⟩ := mapError_eq_error_iff.mp h
          exact .parse ht hn he
      · rename_i ht
        obtain rfl := Except.error.inj h
        exact .noWhere (by simpa using ht)
  · intro h
    cases h with
    | noWhere ht => rw [condition, if_neg (by simp [ht])]
    | noCondition ht => rw [condition, if_pos ht, if_pos rfl]
    | parse ht hn he =>
      rw [condition, if_pos ht, if_neg hn]
      exact mapError_eq_error_iff.mpr ⟨_, he, rfl⟩

theorem fails_or_clauses (ts : List Token) : (∃ e, Fails ts e ∧ Plan.ofTokens ts = .error e) ∨
    ∃ c : Clauses, c.Proper ∧ ts = c.tokens := by
  cases ts with
  | nil => exact .inl ⟨_, .empty, rfl⟩
  | cons t ts =>
    cases ht : t.spells "select" with
    | false => exact .inl ⟨_, .opening ht, by simp [Plan.ofTokens, ht]⟩
    | true =>
      cases hs : splitFrom none ts with
      | error e =>
        refine .inl ⟨_, .source ht (splitFrom_eq_error_iff.mp hs), ?_⟩
        rw [Plan.ofTokens, if_pos ht, hs]
        rfl
      | ok parts =>
        obtain ⟨list, clause⟩ := parts
        obtain ⟨a, b, rfl, hab, hc⟩ := splitFrom_eq_ok_iff.mp hs
        exact .inr ⟨⟨t, list, a, b, clause⟩, ⟨ht, hab, hc⟩, by simp [Clauses.tokens, Clauses.head]⟩

variable {c : Clauses} {p : Plan}

theorem Clauses.Proper.ofTokens_eq (h : c.Proper) : Plan.ofTokens c.tokens =
    ((fieldList c.list).mapError QueryError.shape >>= fun fields =>
      condition c.head.length c.clause >>= fun predicate => pure ⟨fields, predicate⟩) := by
  have hs : splitFrom none (c.list ++ c.source :: c.table :: c.clause) = .ok (c.list, c.clause) :=
    splitFrom_eq_ok_iff.mpr ⟨_, _, rfl, h.source, h.first⟩
  have ht : c.tokens = c.opening :: (c.list ++ c.source :: c.table :: c.clause) := by
    simp [Clauses.tokens, Clauses.head]
  have hl : c.head.length = c.list.length + 3 := by simp [Clauses.head]
  rw [ht, Plan.ofTokens, if_pos h.opening, hs, hl]
  rfl

theorem Clauses.Proper.ofTokens_eq_ok_iff (h : c.Proper) :
    Plan.ofTokens c.tokens = .ok p ↔ c.Forms p := by
  obtain ⟨fields, predicate⟩ := p
  rw [h.ofTokens_eq, bind_eq_ok_iff]
  simp only [mapError_eq_ok_iff, fieldList_eq_ok_iff, bind_eq_ok_iff, condition_eq_ok_iff]
  constructor
  · rintro ⟨fs, ⟨hl, rfl⟩, e, hc, heq⟩
    obtain ⟨rfl, rfl⟩ := Plan.mk.inj (Except.ok.inj heq)
    exact ⟨h, hl, rfl, hc⟩
  · rintro ⟨-, hl, rfl, hc⟩
    exact ⟨_, ⟨hl, rfl⟩, _, hc, rfl⟩

theorem ofTokens_eq_ok_iff :
    Plan.ofTokens ts = .ok p ↔ ∃ c : Clauses, c.Forms p ∧ ts = c.tokens := by
  constructor
  · intro h
    rcases fails_or_clauses ts with ⟨e, -, he⟩ | ⟨c, hc, rfl⟩
    · rw [he] at h
      cases h
    · exact ⟨c, hc.ofTokens_eq_ok_iff.mp h, rfl⟩
  · rintro ⟨c, hc, rfl⟩
    exact hc.proper.ofTokens_eq_ok_iff.mpr hc

theorem Clauses.Proper.fails_of_error {e : QueryError} (h : c.Proper)
    (he : Plan.ofTokens c.tokens = .error e) : Fails c.tokens e := by
  rw [h.ofTokens_eq, bind_eq_error_iff] at he
  rcases he with he | ⟨fields, hf, he⟩
  · obtain ⟨e, hl, rfl⟩ := mapError_eq_error_iff.mp he
    exact .list h (fieldList_eq_error_iff.mp hl)
  · rcases bind_eq_error_iff.mp he with he | ⟨predicate, -, he⟩
    · exact .clause h (fieldList_eq_ok_iff.mp (mapError_eq_ok_iff.mp hf)).1
        (condition_eq_error_iff.mp he)
    · cases he

theorem ofTokens_eq_error_iff {e : QueryError} : Plan.ofTokens ts = .error e ↔ Fails ts e := by
  constructor
  · intro h
    rcases fails_or_clauses ts with ⟨e, hf, he⟩ | ⟨c, hc, rfl⟩
    · obtain rfl := Except.error.inj (he.symm.trans h)
      exact hf
    · exact hc.fails_of_error h
  · intro h
    cases h with
    | empty => rfl
    | opening ht => rw [Plan.ofTokens, if_neg (by simp [ht])]
    | source ht hs =>
      rw [Plan.ofTokens, if_pos ht, splitFrom_eq_error_iff.mpr hs]
      rfl
    | list hc hl =>
      rw [hc.ofTokens_eq, fieldList_eq_error_iff.mpr hl]
      rfl
    | clause hc hl hf =>
      rw [hc.ofTokens_eq, fieldList_eq_ok_iff.mpr ⟨hl, rfl⟩, condition_eq_error_iff.mpr hf]
      rfl

end Query

open Query

/-- A text has a plan if its tokens are the clauses of the plan, and the error of its first fault
otherwise: that of its tokens, or that of the first clause that is not as it should be. -/
theorem Plan.ofText_eq_iff_clauses (query : String) :
    (∀ p, Plan.ofText query = .ok p ↔
      ∃ c : Clauses, c.Forms p ∧ Token.ofText query = .ok c.tokens) ∧
    ∀ e, Plan.ofText query = .error e ↔ (∃ l, Token.ofText query = .error l ∧ e = .lex l) ∨
      ∃ ts, Token.ofText query = .ok ts ∧ Fails ts e := by
  have ok {ts : List Token} (h : Token.ofText query = .ok ts) :
      Plan.ofText query = Plan.ofTokens ts := by
    rw [Plan.ofText, h]
    rfl
  have error {l : LexError} (h : Token.ofText query = .error l) :
      Plan.ofText query = .error (.lex l) := by
    rw [Plan.ofText, h]
    rfl
  cases ht : Token.ofText query with
  | error l => simp [error ht, eq_comm]
  | ok ts =>
    simp [ok ht, ofTokens_eq_ok_iff, ofTokens_eq_error_iff]

/-- `select from, t from t from`, with `from` and `t` as fields, and a word after the table. -/
example : Plan.ofTokens [⟨.word, "select"⟩, ⟨.word, "from"⟩, ⟨.separator, ","⟩, ⟨.word, "t"⟩,
    ⟨.word, "from"⟩, ⟨.word, "t"⟩, ⟨.word, "from"⟩] =
      .error (.shape (.noWhere ⟨.word, "from"⟩ 6)) := rfl

end RecordSieve
