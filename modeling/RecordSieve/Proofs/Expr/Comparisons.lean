import RecordSieve.Proofs.Binary64.Equality
import RecordSieve.Proofs.Expr.Traced

/-! # Comparisons of numbers

The equalities compare values and the orderings compare numbers, but of operands that give numbers
both read the same. So the six comparisons of two such operands fail together, and their results
fit one another.
-/

namespace RecordSieve

namespace Comparison

/-- The comparison that holds of two operands exactly if this one holds of them the other way
round. -/
def converse : Comparison → Comparison
  | less => greater
  | lessEqual => greaterEqual
  | greater => less
  | greaterEqual => lessEqual
  | op => op

/-- Which comparisons hold makes sense: inequality is the negation of equality, the orderings that
let equality in are made of it and the strict ones, and of numbers exactly one of less, equal and
greater holds. Of a NaN nothing holds but inequality. -/
structure Consistent (x y : Binary64) (holds : Comparison → Bool) : Prop where
  notEqual_eq : holds notEqual = !holds equal
  lessEqual_iff : holds lessEqual ↔ holds less ∨ holds equal
  greaterEqual_iff : holds greaterEqual ↔ holds greater ∨ holds equal
  ordered : x ≠ .nan → y ≠ .nan → ∃! op, op ∈ [less, equal, greater] ∧ holds op
  unordered : x = .nan ∨ y = .nan → ∀ op, holds op ↔ op = notEqual

theorem holds_converse (op : Comparison) (x y : Binary64) :
    op.converse.holds y x = op.holds x y := by
  cases op <;> simp [converse, holds, Binary64.equal_comm y x]

/-- No two of less, equal and greater hold of the same numbers. -/
theorem eq_of_holds {x y : Binary64} {op op' : Comparison} (hop : op ∈ [less, equal, greater])
    (hop' : op' ∈ [less, equal, greater]) (h : op.holds x y) (h' : op'.holds x y) : op = op' := by
  have hless : x.less y → y.less x = false := Binary64.not_less_of_less
  have hequal : x.equal y → x.less y = false ∧ y.less x = false := fun h =>
    ⟨Binary64.not_less_of_equal h, Binary64.not_less_of_equal (Binary64.equal_comm x y ▸ h)⟩
  cases op <;> cases op' <;> simp_all [holds]

theorem exists_holds {x y : Binary64} (hx : x ≠ .nan) (hy : y ≠ .nan) :
    ∃ op ∈ [less, equal, greater], op.holds x y := by
  rcases Binary64.less_or_equal_or_less hx hy with h | h | h
  · exact ⟨less, by simp, h⟩
  · exact ⟨equal, by simp, h⟩
  · exact ⟨greater, by simp, h⟩

theorem consistent_holds (x y : Binary64) : Consistent x y (·.holds x y) where
  notEqual_eq := rfl
  lessEqual_iff := by simp [holds, Binary64.lessEqual]
  greaterEqual_iff := by simp [holds, Binary64.lessEqual, Binary64.equal_comm y x]
  ordered hx hy := by
    obtain ⟨op, hop, h⟩ := exists_holds hx hy
    exact ⟨op, ⟨hop, h⟩, fun op' ⟨hop', h'⟩ => eq_of_holds hop' hop h' h⟩
  unordered h op := by
    have hxy : x.equal y = false ∧ x.less y = false ∧ y.less x = false :=
      ⟨Binary64.not_equal_of_nan h, Binary64.not_less_of_nan h, Binary64.not_less_of_nan h.symm⟩
    cases op <;> simp [holds, Binary64.lessEqual, Binary64.equal_comm y x, hxy]

end Comparison

namespace Expr

variable {view : View} {e l r : Expr}

/-- If the expression is a field, its key holds a number. A field in arithmetic can also hold a
numeral as a string, which no equality takes for a number. -/
def HoldsNumber (view : View) (e : Expr) : Prop :=
  ∀ key, e = .field key → ∃ x, view key = .ok (.number x)

theorem evalValue_eq_number (hn : e.givesNumber) (h : e.HoldsNumber view) :
    e.evalValue view = .number <$> e.evalNumber view := by
  cases e with
  | number x => rfl
  | field key =>
    obtain ⟨x, hx⟩ := h key rfl
    simp only [evalValue, evalNumber, Traced.ask, hx, Traced.ok_bind]
    rfl
  | arith op l r => rfl
  | _ => cases hn

theorem comparison_eq (hl : l.givesNumber) (hr : r.givesNumber) (hvl : l.HoldsNumber view)
    (hvr : r.HoldsNumber view) (op : Comparison) : comparison view op l r = do
      let x ← l.evalNumber view
      let y ← r.evalNumber view
      return op.holds x y := by
  cases op
  case equal | notEqual =>
    simp only [comparison, evalValue_eq_number hl hvl, evalValue_eq_number hr hvr,
      bind_map_left, Value.same, Comparison.holds]
  all_goals rfl

/-- All comparisons of one pair of operands ask for the same keys. Either all of them fail with the
same error, or all have results, which are consistent and those of the converse comparisons with
the operands exchanged. -/
theorem evalTruth_compare_consistent (hl : l.givesNumber) (hr : r.givesNumber)
    (hvl : l.HoldsNumber view) (hvr : r.HoldsNumber view) : ∃ asked,
      (∃ err, ∀ op, (compare op l r).evalTruth view = ⟨asked, .error err⟩) ∨
      ∃ x y holds, (l.evalNumber view).result = .ok x ∧ (r.evalNumber view).result = .ok y ∧
        (∀ op, (compare op l r).evalTruth view = ⟨asked, .ok (holds op)⟩) ∧
        Comparison.Consistent x y holds ∧
        ∀ op : Comparison, ((compare op.converse r l).evalTruth view).result = .ok (holds op) := by
  have heq (op : Comparison) := comparison_eq hl hr hvl hvr op
  have hconverse (op : Comparison) := comparison_eq hr hl hvr hvl op.converse
  simp only [evalTruth, heq, hconverse]
  cases hx : (l.evalNumber view).result with
  | error err =>
    refine ⟨(l.evalNumber view).asked, .inl ⟨err, fun op => ?_⟩⟩
    rw [Traced.bind_of_error hx]
  | ok x =>
    cases hy : (r.evalNumber view).result with
    | error err =>
      refine ⟨(l.evalNumber view).asked ++ (r.evalNumber view).asked, .inl ⟨err, fun op => ?_⟩⟩
      rw [Traced.bind_of_ok hx, Traced.bind_of_error hy]
    | ok y =>
      refine ⟨(l.evalNumber view).asked ++ (r.evalNumber view).asked, .inr ⟨x, y, (·.holds x y),
        rfl, rfl, fun op => ?_, Comparison.consistent_holds x y, fun op => ?_⟩⟩
      · rw [Traced.bind_of_ok hx, Traced.bind_of_ok hy, Traced.asked_pure, List.append_nil,
          Traced.result_pure]
      · rw [Traced.bind_of_ok hy, Traced.bind_of_ok hx, Traced.result_pure,
          Comparison.holds_converse]

/-- `a` and `s + a`, where `a` holds a zero and `s` a string that is read as NaN. -/
theorem evalTruth_compare_consistent_nan :
    let l : Expr := .field "a"
    let r : Expr := .arith .add (.field "s") (.field "a")
    let view : View := fun key => .ok (if key = "s" then .string "NaN" else .number (.zero true))
    (l.givesNumber ∧ r.givesNumber ∧ l.HoldsNumber view ∧ r.HoldsNumber view ∧
      (r.evalNumber view).result = .ok .nan) ∧
    ∀ op, ((compare op l r).evalTruth view).result = .ok (op = .notEqual) := by
  intro l r view
  have hl : (Expr.field "a").HoldsNumber view := by
    rintro key ⟨⟩
    exact ⟨_, rfl⟩
  have hr : (Expr.arith .add (.field "s") (.field "a")).HoldsNumber view := by
    rintro key ⟨⟩
  have hnan : (r.evalNumber view).result = .ok .nan := by rfl
  refine ⟨⟨rfl, rfl, hl, hr, hnan⟩, fun op => ?_⟩
  obtain ⟨asked, h⟩ := evalTruth_compare_consistent (l := l) (r := r) rfl rfl hl hr
  have hok : ((compare .equal l r).evalTruth view).result = .ok false := by rfl
  obtain ⟨err, herr⟩ | ⟨x, y, holds, -, hy, hholds, hconsistent, -⟩ := h
  · rw [herr .equal] at hok
    cases hok
  · rw [hnan] at hy
    cases hy
    have hop := hconsistent.unordered (.inr rfl) op
    rw [hholds op, Except.ok.injEq, Bool.eq_iff_iff, hop, decide_eq_true_iff]

end Expr

end RecordSieve
