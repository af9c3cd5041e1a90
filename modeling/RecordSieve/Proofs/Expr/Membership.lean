import Mathlib.Data.List.Forall2
import RecordSieve.Proofs.Expr.Grouping
import RecordSieve.Proofs.Value

/-! # Membership and equality

A test of membership in a list says the same as equalities with the items of the list, connected
one after the other. It asks for the key once, where the equalities ask for it anew until one of
them decides.
-/

namespace RecordSieve

open Connective

/-- A literal and its value. -/
inductive Expr.Literal : Expr → Value → Prop
  | text (s : String) : Literal (.text s) (.string s)
  | number (x : Binary64) : Literal (.number x) (.number x)

variable {view : View} {key : String} {op : Connective} {v w : Value}
  {tests : List (Value → Bool)} {e literal : Expr} {literals : List Expr} {items : List Value}
  {negated : Bool}

/-- What tests of a value decide together: the first that decides for all is not undone. -/
def Connective.settle (op : Connective) (tests : List (Value → Bool)) (v : Value) : Bool :=
  if tests.any (· v = op.decisive) then op.decisive else !op.decisive

theorem connectAll_of_ok (op : Connective) (tests : List (Value → Bool)) (h : view key = .ok v) :
    ∃ n ≤ tests.length, (tests ≠ [] → 1 ≤ n) ∧ op.connectAll (tests.map (· <$> .ask view key)) =
      ⟨List.replicate n key, .ok (op.settle tests v)⟩ := by
  induction tests with
  | nil => exact ⟨0, Nat.le_refl 0, by simp, rfl⟩
  | cons f tests ih =>
    obtain ⟨n, hn, -, ih⟩ := ih
    have hf : f <$> Traced.ask view key = ⟨[key], .ok (f v)⟩ := by rw [Traced.map_ask, h]; rfl
    have hc : op.connectAll ((f :: tests).map (· <$> .ask view key)) =
        op.connect ⟨[key], .ok (f v)⟩ (op.connectAll (tests.map (· <$> .ask view key))) := by
      rw [← hf]
      rfl
    rw [hc, ih, connect, Traced.ok_bind]
    by_cases hd : f v = op.decisive
    · exact ⟨1, by simp, by simp, by simp [hd, settle]⟩
    · exact ⟨n + 1, by simpa using hn, by simp, by simp [hd, settle, List.replicate_succ]⟩

theorem connectAll_tests (op : Connective) (view : View) (key : String) (hn : tests ≠ []) :
    ∃ n, (1 ≤ n ∧ n ≤ tests.length) ∧ op.connectAll (tests.map (· <$> .ask view key)) =
      ⟨List.replicate n key, op.settle tests <$> view key⟩ := by
  cases h : view key with
  | ok v =>
    obtain ⟨n, hle, hpos, hc⟩ := connectAll_of_ok op tests h
    exact ⟨n, ⟨hpos hn, hle⟩, hc⟩
  | error err =>
    obtain ⟨f, tests, rfl⟩ := List.exists_cons_of_ne_nil hn
    have hf : f <$> Traced.ask view key = ⟨[key], .error err⟩ := by rw [Traced.map_ask, h]; rfl
    refine ⟨1, by simp, ?_⟩
    rw [List.map_cons, hf]
    rfl

theorem evalTruth_oneOf : (Expr.test key negated (.oneOf items)).evalTruth view =
    (FieldTest.oneOf items).passes negated <$> Traced.ask view key := rfl

theorem passes_oneOf_true : (FieldTest.oneOf items).passes true =
    fun v => !(FieldTest.oneOf items).passes false v := by
  funext v
  simp [FieldTest.passes]

theorem Expr.Literal.evalTruth_equal (h : literal.Literal w) :
    (Expr.compare .equal (.field key) literal).evalTruth view =
      (fun v => v.same w) <$> Traced.ask view key := by
  cases h <;> rfl

theorem Expr.Literal.evalTruth_notEqual (h : literal.Literal w) :
    (Expr.compare .notEqual (.field key) literal).evalTruth view =
      (fun v => !v.same w) <$> Traced.ask view key := by
  cases h <;> rfl

theorem settle_or_same : Connective.or.settle (items.map fun w v => v.same w) =
    (FieldTest.oneOf items).passes false := by
  funext v
  rw [settle, FieldTest.passes, List.any_map, Bool.bne_false]
  simp only [Function.comp_def, decisive, Value.same_comm v, Bool.decide_eq_true]
  cases items.any (·.same v) <;> rfl

theorem settle_and_not_same : Connective.and.settle (items.map fun w v => !v.same w) =
    (FieldTest.oneOf items).passes true := by
  funext v
  rw [settle, FieldTest.passes, List.any_map, Bool.bne_true]
  simp only [Function.comp_def, decisive, Value.same_comm v, Bool.not_eq_false',
    Bool.decide_eq_true]
  cases items.any (·.same v) <;> rfl

theorem Expr.Groups.evalTruth_compare {cmp : Comparison} {f : Value → Value → Bool}
    (hc : ∀ {literal : Expr} {w : Value}, literal.Literal w →
      (Expr.compare cmp (.field key) literal).evalTruth view = f w <$> Traced.ask view key)
    (hl : List.Forall₂ Expr.Literal literals items) (hn : items ≠ [])
    (he : Expr.Groups op (literals.map (.compare cmp (.field key) ·)) e) :
    ∃ n, (1 ≤ n ∧ n ≤ items.length) ∧
      e.evalTruth view = ⟨List.replicate n key, op.settle (items.map f) <$> view key⟩ := by
  have hx : (literals.map (Expr.compare cmp (.field key) ·)).map (·.evalTruth view) =
      (items.map f).map (· <$> Traced.ask view key) := by
    clear hn he
    induction hl with
    | nil => rfl
    | cons h _ ih => rw [List.map_cons, List.map_cons, List.map_cons, List.map_cons, ih, hc h]
  obtain ⟨n, hle, h⟩ := connectAll_tests op view key (mt List.map_eq_nil_iff.1 hn)
  rw [he.evalTruth_eq, hx, h]
  exact ⟨n, by simpa using hle, rfl⟩

/-- A test of membership gives what equalities with the items give, connected by `or` in any
grouping, and its negation what inequalities give, connected by `and`; the one is the contrary of
the other, and fails as it does. The tests ask for their key once, a chain at least once and at
most once for each item. -/
theorem Expr.evalTruth_membership (hl : List.Forall₂ Expr.Literal literals items)
    (hn : items ≠ []) (view : View) (key : String) :
    (∀ e, Groups .or (literals.map (.compare .equal (.field key) ·)) e →
      ((test key false (.oneOf items)).evalTruth view).result = (e.evalTruth view).result ∧
      ∃ n, (1 ≤ n ∧ n ≤ items.length) ∧ (e.evalTruth view).asked = List.replicate n key) ∧
    (∀ e, Groups .and (literals.map (.compare .notEqual (.field key) ·)) e →
      ((test key true (.oneOf items)).evalTruth view).result = (e.evalTruth view).result ∧
      ∃ n, (1 ≤ n ∧ n ≤ items.length) ∧ (e.evalTruth view).asked = List.replicate n key) ∧
    ((test key true (.oneOf items)).evalTruth view).result =
      (!·) <$> ((test key false (.oneOf items)).evalTruth view).result ∧
    ∀ negated, ((test key negated (.oneOf items)).evalTruth view).asked = [key] := by
  have ht : ∀ negated, (test key negated (.oneOf items)).evalTruth view =
      ⟨[key], (FieldTest.oneOf items).passes negated <$> view key⟩ := fun negated => by
    rw [evalTruth_oneOf, Traced.map_ask]
  refine ⟨fun e he => ?equal, fun e he => ?notEqual, ?contrary, fun negated => by rw [ht]⟩
  case equal =>
    obtain ⟨n, hle, h⟩ := he.evalTruth_compare (fun h => h.evalTruth_equal) hl hn
    rw [ht, h, settle_or_same]
    exact ⟨rfl, n, hle, rfl⟩
  case notEqual =>
    obtain ⟨n, hle, h⟩ := he.evalTruth_compare (fun h => h.evalTruth_notEqual) hl hn
    rw [ht, h, settle_and_not_same]
    exact ⟨rfl, n, hle, rfl⟩
  case contrary =>
    rw [ht, ht, passes_oneOf_true]
    cases view key <;> rfl

/-- A key that holds text, asked for in the list `(NaN, 'b', 'b')`: the equalities, grouped to the
right, decide at the second, and the inequalities, grouped to the left, likewise. -/
theorem Expr.evalTruth_membership_text :
    let literals : List Expr := [.number .nan, .text "b", .text "b"]
    let items : List Value := [.number .nan, .string "b", .string "b"]
    let view : View := fun _ => .ok (.string "b")
    let equal (l : Expr) := Expr.compare .equal (.field "k") l
    let notEqual (l : Expr) := Expr.compare .notEqual (.field "k") l
    let anyOf := logical .or (equal (.number .nan)) (logical .or (equal (.text "b"))
      (equal (.text "b")))
    let noneOf := logical .and (logical .and (notEqual (.number .nan)) (notEqual (.text "b")))
      (notEqual (.text "b"))
    (List.Forall₂ Literal literals items ∧ items ≠ [] ∧ Groups .or (literals.map equal) anyOf ∧
      Groups .and (literals.map notEqual) noneOf) ∧
    (((test "k" false (.oneOf items)).evalTruth view).result = (anyOf.evalTruth view).result ∧
      anyOf.evalTruth view = ⟨["k", "k"], .ok true⟩) ∧
    ((test "k" true (.oneOf items)).evalTruth view).result = (noneOf.evalTruth view).result ∧
      noneOf.evalTruth view = ⟨["k", "k"], .ok false⟩ := by
  intro literals items view equal notEqual anyOf noneOf
  have hl : List.Forall₂ Literal literals items :=
    .cons (.number _) (.cons (.text _) (.cons (.text _) .nil))
  have hn : items ≠ [] := List.cons_ne_nil _ _
  have hor : Groups .or (literals.map equal) anyOf :=
    .connect (.operand _) (.connect (.operand _) (.operand _))
  have hand : Groups .and (literals.map notEqual) noneOf :=
    .connect (.connect (.operand _) (.operand _)) (.operand _)
  obtain ⟨he, hne, -, -⟩ := evalTruth_membership hl hn view "k"
  exact ⟨⟨hl, hn, hor, hand⟩, ⟨(he anyOf hor).1, rfl⟩, (hne noneOf hand).1, rfl⟩

end RecordSieve
