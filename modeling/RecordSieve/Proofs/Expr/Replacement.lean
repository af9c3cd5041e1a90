import RecordSieve.Proofs.Expr.Form

/-! # Tokens replaced one by one

Where each token of a span is replaced by one that the parser looks at in the same way, the span is
balanced as before, and it has the form that it had, with its tokens replaced.
-/

namespace RecordSieve.Expr.Parser

variable {α : Type} {φ : Token → Token} {d : Nat} {span : List Token}

/-- The replacement keeps what the form of a span depends on. -/
structure Faithful (φ : Token → Token) : Prop where
  opens (t : Token) : (φ t).opens = t.opens
  closes (t : Token) : (φ t).closes = t.closes
  connective? (t : Token) : (φ t).connective? = t.connective?
  comparison? (t : Token) : (φ t).comparison? = t.comparison?
  operation? (t : Token) : (φ t).operation? = t.operation?
  endsOperand (t : Token) : (φ t).endsOperand = t.endsOperand
  sign? (t : Token) : (φ t).sign? = t.sign?

def Cut.map (φ : Token → Token) (c : Cut α) : Cut α :=
  ⟨c.before.map φ, φ c.token, c.op, c.after.map φ⟩

def Form.map (φ : Token → Token) : Form → Form
  | empty => empty
  | single t => single (φ t)
  | group inner => group (inner.map φ)
  | logical c => logical (c.map φ)
  | compare c => compare (c.map φ)
  | arith c => arith (c.map φ)
  | signed t negative operand => signed (φ t) negative (operand.map φ)
  | test => test

variable (h : Faithful φ)

include h

theorem isBalanced_map : isBalanced d (span.map φ) = isBalanced d span := by
  induction span generalizing d with
  | nil => rfl
  | cons t span ih => simp only [List.map_cons, isBalanced, h.opens, h.closes, ih]

theorem untilLast?_map : untilLast? d (span.map φ) = (untilLast? d span).map (List.map φ) := by
  induction span generalizing d with
  | nil => rfl
  | cons t span ih =>
    simp only [List.map_cons, untilLast?, h.opens, h.closes, ih, List.map_eq_nil_iff]
    split
    · simp [Function.comp_def]
    · split
      · split
        · split <;> simp
        · simp [Function.comp_def]
      · simp [Function.comp_def]

theorem enclosed?_map (span : List Token) :
    enclosed? (span.map φ) = (enclosed? span).map (List.map φ) := by
  cases span with
  | nil => rfl
  | cons t span =>
    simp only [List.map_cons, enclosed?, h.opens, untilLast?_map h]
    split <;> rfl

/-- Operators that are in place before the replacement, and no others, are so after it. -/
theorem cut?_map {g : Option Token → Token → List Token → Option α}
    (hg : ∀ prev t rest, g (prev.map φ) (φ t) (rest.map φ) = g prev t rest) (d : Nat)
    (prev : Option Token) (span : List Token) :
    cut? g d (prev.map φ) (span.map φ) = (cut? g d prev span).map (Cut.map φ) := by
  induction span generalizing d prev with
  | nil => rfl
  | cons t span ih =>
    have ih (d : Nat) : cut? g d (some (φ t)) (span.map φ) =
      (cut? g d (some t) span).map (Cut.map φ) := ih d (some t)
    simp only [List.map_cons, cut?, h.opens, h.closes, ih, hg]
    split
    · simp [Cut.map, Function.comp_def]
    · split
      · simp [Cut.map, Function.comp_def]
      · split
        · simp [Cut.map, Function.comp_def]
        · cases g prev t span with
          | some op => simp [Cut.map]
          | none => simp [Cut.map, Function.comp_def]

theorem logicalCut?_map (span : List Token) :
    logicalCut? (span.map φ) = (logicalCut? span).map (Cut.map φ) :=
  cut?_map h (fun _ t _ => h.connective? t) 0 none span

theorem comparisonCut?_map (span : List Token) :
    comparisonCut? (span.map φ) = (comparisonCut? span).map (Cut.map φ) :=
  cut?_map h (fun _ t _ => h.comparison? t) 0 none span

theorem operationInPlace?_map (prev : Option Token) (t : Token) (rest : List Token) :
    operationInPlace? (prev.map φ) (φ t) (rest.map φ) = operationInPlace? prev t rest := by
  cases prev with
  | none => rfl
  | some p => simp [operationInPlace?, h.endsOperand, h.operation?]

theorem operationCut?_map (span : List Token) :
    operationCut? (span.map φ) = (operationCut? span).map (Cut.map φ) :=
  cut?_map h (operationInPlace?_map h) 0 none span

theorem form_map (span : List Token) : form (span.map φ) = (form span).map φ := by
  match span with
  | [] => rfl
  | [t] => rfl
  | t :: u :: rest =>
    have he := enclosed?_map h (t :: u :: rest)
    have hl := logicalCut?_map h (t :: u :: rest)
    have hc := comparisonCut?_map h (t :: u :: rest)
    have ho := operationCut?_map h (t :: u :: rest)
    simp only [List.map_cons] at he hl hc ho
    simp only [List.map_cons, form, he, hl, hc, ho, h.sign?]
    cases enclosed? (t :: u :: rest) with
    | some inner => rfl
    | none =>
      cases logicalCut? (t :: u :: rest) with
      | some c => rfl
      | none =>
        cases comparisonCut? (t :: u :: rest) with
        | some c => rfl
        | none =>
          cases operationCut? (t :: u :: rest) with
          | some c => rfl
          | none => cases t.sign? <;> rfl

end RecordSieve.Expr.Parser
