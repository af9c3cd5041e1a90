import RecordSieve.Expr.Parser
import RecordSieve.Proofs.Results

/-! # The form of a span

One level of reading looks at a span, finds its form, and then reads the parts that the form
names. The form is found without reading anything, so that facts about it are facts about lists of
tokens.
-/

namespace RecordSieve.Expr.Parser

/-- What a span is, from the outside. -/
inductive Form
  | empty
  | single (t : Token)
  | group (inner : List Token)
  | logical (c : Cut Connective)
  | compare (c : Cut Comparison)
  | arith (c : Cut Operation)
  | signed (t : Token) (negative : Bool) (operand : List Token)
  | test

def form : List Token → Form
  | [] => .empty
  | [t] => .single t
  | t :: u :: rest =>
    match enclosed? (t :: u :: rest) with
    | some inner => .group inner
    | none =>
    match logicalCut? (t :: u :: rest) with
    | some c => .logical c
    | none =>
    match comparisonCut? (t :: u :: rest) with
    | some c => .compare c
    | none =>
    match operationCut? (t :: u :: rest) with
    | some c => .arith c
    | none =>
    match t.sign? with
    | some negative => .signed t negative (u :: rest)
    | none => .test

/-- Reads a span of a form; its parts are left to `read`. -/
def readForm (read : List Token → Except ParseError Expr) (span : List Token) :
    Form → Except ParseError Expr
  | .empty => .error .empty
  | .single t => Parser.single t
  | .group inner => read inner
  | .logical c => (fun (l, r) => .logical c.op l r) <$> sides read c .predicate
  | .compare c => (fun (l, r) => .compare c.op l r) <$> sides read c c.op.needs
  | .arith c => (fun (l, r) => .arith c.op l r) <$> sides read c .numeric
  | .signed t negative operand => do
    let e ← read operand
    check t .right .numeric e
    return if negative then negate e else e
  | .test => keyTest span

variable {α : Type} {levels : Nat} {span : List Token} {e l r : Expr}
  {read : List Token → Except ParseError Expr} {c : Cut α} {needed : Capability} {t : Token}

theorem ofSpan_succ (levels : Nat) (span : List Token) :
    ofSpan (levels + 1) span = readForm (ofSpan levels) span (form span) := by
  match span with
  | [] => rfl
  | [t] => rfl
  | t :: u :: rest =>
    simp only [ofSpan, form]
    cases enclosed? (t :: u :: rest) with
    | some inner => rfl
    | none =>
      cases logicalCut? (t :: u :: rest) with
      | some c => rfl
      | none =>
        cases comparisonCut? (t :: u :: rest) with
        | some c => rfl
        | none =>
          cases operationCut? (t :: u :: rest) with
          | some c => rfl
          | none => cases t.sign? <;> rfl

/-- No operator outside parentheses, and no parentheses around the span, divide it. -/
structure Whole (span : List Token) : Prop where
  enclosed : enclosed? span = none
  logical : logicalCut? span = none
  comparison : comparisonCut? span = none
  operation : operationCut? span = none

/-- What the form of a span says about it. -/
def Form.Describes (span : List Token) : Form → Prop
  | empty => span = []
  | single t => span = [t]
  | group inner => enclosed? span = some inner
  | logical c => 2 ≤ span.length ∧ enclosed? span = none ∧ logicalCut? span = some c
  | compare c => 2 ≤ span.length ∧ enclosed? span = none ∧ logicalCut? span = none ∧
      comparisonCut? span = some c
  | arith c => 2 ≤ span.length ∧ enclosed? span = none ∧ logicalCut? span = none ∧
      comparisonCut? span = none ∧ operationCut? span = some c
  | signed t negative operand => span = t :: operand ∧ operand ≠ [] ∧ Whole span ∧
      t.sign? = some negative
  | test => ∃ t rest, span = t :: rest ∧ rest ≠ [] ∧ Whole span ∧ t.sign? = none

theorem form_eq_of_describes {f : Form} (h : f.Describes span) : form span = f := by
  cases f with
  | empty => obtain rfl : span = [] := h; rfl
  | single t => obtain rfl : span = [t] := h; rfl
  | group inner =>
    have h : enclosed? span = some inner := h
    match span with
    | [] => simp [enclosed?] at h
    | [t] => simp [enclosed?, untilLast?] at h
    | t :: u :: rest => simp [form, h]
  | logical c =>
    obtain ⟨hn, he, hl⟩ := h
    match span with
    | [] | [t] => simp at hn
    | t :: u :: rest => simp [form, he, hl]
  | compare c =>
    obtain ⟨hn, he, hl, hc⟩ := h
    match span with
    | [] | [t] => simp at hn
    | t :: u :: rest => simp [form, he, hl, hc]
  | arith c =>
    obtain ⟨hn, he, hl, hc, ho⟩ := h
    match span with
    | [] | [t] => simp at hn
    | t :: u :: rest => simp [form, he, hl, hc, ho]
  | signed t negative operand =>
    obtain ⟨rfl, hn, hw, hs⟩ := h
    obtain ⟨u, rest, rfl⟩ := List.exists_cons_of_ne_nil hn
    simp [form, hw.enclosed, hw.logical, hw.comparison, hw.operation, hs]
  | test =>
    obtain ⟨t, rest, rfl, hn, hw, hs⟩ := h
    obtain ⟨u, rest, rfl⟩ := List.exists_cons_of_ne_nil hn
    simp [form, hw.enclosed, hw.logical, hw.comparison, hw.operation, hs]

theorem exists_describes (span : List Token) : ∃ f : Form, f.Describes span := by
  match span with
  | [] => exact ⟨.empty, rfl⟩
  | [t] => exact ⟨.single t, rfl⟩
  | t :: u :: rest =>
    cases he : enclosed? (t :: u :: rest) with
    | some inner => exact ⟨.group inner, he⟩
    | none =>
      cases hl : logicalCut? (t :: u :: rest) with
      | some c => exact ⟨.logical c, by simp, he, hl⟩
      | none =>
        cases hc : comparisonCut? (t :: u :: rest) with
        | some c => exact ⟨.compare c, by simp, he, hl, hc⟩
        | none =>
          cases ho : operationCut? (t :: u :: rest) with
          | some c => exact ⟨.arith c, by simp, he, hl, hc, ho⟩
          | none =>
            cases hs : t.sign? with
            | some negative => exact ⟨.signed t negative _, rfl, by simp, ⟨he, hl, hc, ho⟩, hs⟩
            | none => exact ⟨.test, t, _, rfl, by simp, ⟨he, hl, hc, ho⟩, hs⟩

theorem form_eq_iff {f : Form} : form span = f ↔ f.Describes span := by
  refine ⟨?_, form_eq_of_describes⟩
  rintro rfl
  obtain ⟨f, hf⟩ := exists_describes span
  rwa [form_eq_of_describes hf]

theorem check_eq_ok_iff {op : Token} {side : Side} {u : Unit} :
    check op side needed e = .ok u ↔ e.has needed := by
  unfold check
  split <;> simp_all

theorem sides_eq_ok_iff : sides read c needed = .ok (l, r) ↔
    (c.before ≠ [] ∧ c.after ≠ []) ∧ (read c.before = .ok l ∧ read c.after = .ok r) ∧
      l.has needed ∧ r.has needed := by
  unfold sides
  split
  · simp_all
  · split
    · simp_all
    · rename_i hb ha
      simp only [bind_eq_ok_iff, check_eq_ok_iff, pure, Except.pure, Except.ok.injEq,
        Prod.mk.injEq]
      constructor
      · rintro ⟨_, hl, _, hr, _, hl', _, hr', rfl, rfl⟩
        exact ⟨⟨hb, ha⟩, ⟨hl, hr⟩, hl', hr'⟩
      · rintro ⟨-, ⟨hl, hr⟩, hl', hr'⟩
        exact ⟨l, hl, r, hr, (), hl', (), hr', rfl, rfl⟩

/-- What a span of a form is read to, by what its parts are read to. -/
inductive Form.Reads (read : List Token → Except ParseError Expr) (span : List Token) :
    Form → Expr → Prop
  | single {t : Token} {e : Expr} : Parser.single t = .ok e → Reads read span (single t) e
  | group {inner : List Token} {e : Expr} : read inner = .ok e → Reads read span (group inner) e
  | logical {c : Cut Connective} {l r : Expr} : sides read c .predicate = .ok (l, r) →
      Reads read span (logical c) (.logical c.op l r)
  | compare {c : Cut Comparison} {l r : Expr} : sides read c c.op.needs = .ok (l, r) →
      Reads read span (compare c) (.compare c.op l r)
  | arith {c : Cut Operation} {l r : Expr} : sides read c .numeric = .ok (l, r) →
      Reads read span (arith c) (.arith c.op l r)
  | signed {t : Token} {operand : List Token} {e : Expr} (negative : Bool) :
      read operand = .ok e → e.has .numeric →
      Reads read span (signed t negative operand) (if negative then negate e else e)
  | test {e : Expr} : keyTest span = .ok e → Reads read span test e

theorem readForm_eq_ok_iff {f : Form} : readForm read span f = .ok e ↔ f.Reads read span e := by
  constructor
  · intro h
    cases f with
    | empty => cases h
    | single t => exact .single h
    | group inner => exact .group h
    | logical c =>
      obtain ⟨⟨l, r⟩, hs, rfl⟩ := map_eq_ok_iff.mp h
      exact .logical hs
    | compare c =>
      obtain ⟨⟨l, r⟩, hs, rfl⟩ := map_eq_ok_iff.mp h
      exact .compare hs
    | arith c =>
      obtain ⟨⟨l, r⟩, hs, rfl⟩ := map_eq_ok_iff.mp h
      exact .arith hs
    | signed t negative operand =>
      obtain ⟨e, he, h⟩ := bind_eq_ok_iff.mp h
      obtain ⟨_, hc, h⟩ := bind_eq_ok_iff.mp h
      obtain rfl := Except.ok.inj h
      exact .signed negative he (check_eq_ok_iff.mp hc)
    | test => exact .test h
  · rintro (h | h | h | h | h | ⟨negative, he, hn⟩ | h)
    · exact h
    · exact h
    · exact map_eq_ok_iff.mpr ⟨_, h, rfl⟩
    · exact map_eq_ok_iff.mpr ⟨_, h, rfl⟩
    · exact map_eq_ok_iff.mpr ⟨_, h, rfl⟩
    · exact bind_eq_ok_iff.mpr ⟨_, he, bind_eq_ok_iff.mpr ⟨(), check_eq_ok_iff.mpr hn, rfl⟩⟩
    · exact h

/-- With one more level, a span is read as its form says. -/
theorem ofSpan_succ_eq_ok_iff :
    ofSpan (levels + 1) span = .ok e ↔ (form span).Reads (ofSpan levels) span e := by
  rw [ofSpan_succ, readForm_eq_ok_iff]

end RecordSieve.Expr.Parser
