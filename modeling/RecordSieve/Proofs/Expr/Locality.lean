import Mathlib.Logic.Function.Basic
import RecordSieve.Proofs.Expr.Traced

/-! # What evaluation depends on

Evaluation sees of a record only the keys that it asks for. Where two records answer those keys
alike, it comes to the same result by the same questions, and a key that it never asks for can hold
anything.
-/

namespace RecordSieve

def Capability.Result : Capability → Type
  | .value => Value
  | .numeric => Binary64
  | .predicate => Bool

def Expr.eval (view : View) (e : Expr) : (needed : Capability) → Traced needed.Result
  | .value => e.evalValue view
  | .numeric => e.evalNumber view
  | .predicate => e.evalTruth view

variable {α β : Type} {v w : View} {e l r : Expr}

namespace Traced

/-- A view that answers as another does what is asked under that one leads to the same result, and
to the same questions in the same order. -/
def Local (f : View → Traced α) : Prop :=
  ∀ v w : View, (∀ key ∈ (f v).asked, w key = v key) → f w = f v

theorem local_const (x : Traced α) : Local fun _ => x :=
  fun _ _ _ => rfl

theorem local_ask (key : String) : Local fun v => ask v key := by
  intro v w h
  have hk : w key = v key := h key (List.mem_singleton_self key)
  simp only [ask, hk]

/-- The second computation asks only if the first one has a result, and then it is the same
computation under both views. -/
theorem Local.bind {f : View → Traced α} {g : α → View → Traced β} (hf : Local f)
    (hg : ∀ a, Local (g a)) : Local fun v => f v >>= fun a => g a v := by
  intro v w h
  cases hr : (f v).result with
  | error err =>
    have hfw : f w = f v := hf v w (by simpa only [bind_of_error hr] using h)
    simp only [hfw, bind_of_error hr]
  | ok a =>
    simp only [bind_of_ok hr, List.mem_append] at h
    have hfw : f w = f v := hf v w fun key hk => h key (.inl hk)
    have hgw : g a w = g a v := hg a v w fun key hk => h key (.inr hk)
    simp only [hfw, bind_of_ok hr, hgw]

theorem Local.map {f : View → Traced α} (g : α → β) (hf : Local f) : Local fun v => g <$> f v :=
  hf.bind fun a => local_const (pure (g a))

end Traced

namespace Expr

open Traced

theorem local_evalNumber (e : Expr) : Local e.evalNumber := by
  induction e with
  | field key => exact (local_ask key).bind fun a => local_const _
  | arith op l r ihl ihr =>
    refine ihl.bind fun a => ihr.bind fun b => ?_
    cases op.result? a b with
    | some x => exact local_const (pure x)
    | none => exact local_const (.fail .divisionByZero)
  | text | number | test | logical | compare | always => exact local_const _

theorem local_evalValue (e : Expr) : Local e.evalValue := by
  cases e with
  | field key => exact local_ask key
  | arith op l r => exact (local_evalNumber (.arith op l r)).map Value.number
  | text | number | test | logical | compare | always => exact local_const _

theorem local_comparison (op : Comparison) (l r : Expr) : Local fun v => comparison v op l r := by
  cases op
  case equal | notEqual =>
    exact (local_evalValue l).bind fun a => (local_evalValue r).bind fun b => local_const _
  all_goals
    exact (local_evalNumber l).bind fun a => (local_evalNumber r).bind fun b => local_const _

theorem local_evalTruth (e : Expr) : Local e.evalTruth := by
  induction e with
  | test key negated t => exact (local_ask key).bind fun a => local_const _
  | logical op l r ihl ihr =>
    cases op with
    | and =>
      refine ihl.bind fun holds => ?_
      cases holds with
      | false => exact local_const (pure false)
      | true => exact ihr
    | or =>
      refine ihl.bind fun holds => ?_
      cases holds with
      | false => exact ihr
      | true => exact local_const (pure true)
  | compare op l r => exact local_comparison op l r
  | text | number | field | arith | always => exact local_const _

theorem local_eval (e : Expr) (needed : Capability) : Local fun v => e.eval v needed := by
  cases needed with
  | value => exact local_evalValue e
  | numeric => exact local_evalNumber e
  | predicate => exact local_evalTruth e

/-- A view that answers alike what is asked of another leads to the same result, be it an error,
and to the same questions in the same order. So a key that is not asked for can be anything. -/
theorem eval_depends_on_asked (e : Expr) (needed : Capability) (v : View) :
    (∀ w : View, (∀ key ∈ (e.eval v needed).asked, w key = v key) →
      (e.eval w needed).result = (e.eval v needed).result ∧
        (e.eval w needed).asked = (e.eval v needed).asked) ∧
    ∀ key ∉ (e.eval v needed).asked, ∀ answer : Except EvalError Value,
      (e.eval (Function.update v key answer) needed).result = (e.eval v needed).result := by
  constructor
  · intro w h
    have he : e.eval w needed = e.eval v needed := local_eval e needed v w h
    rw [he]
    exact ⟨rfl, rfl⟩
  · intro key hk answer
    have h : ∀ k ∈ (e.eval v needed).asked, Function.update v key answer k = v k := by
      intro k hmem
      have hne : k ≠ key := by
        rintro rfl
        exact hk hmem
      exact Function.update_of_ne hne answer v
    have he : e.eval (Function.update v key answer) needed = e.eval v needed :=
      local_eval e needed v _ h
    rw [he]

/-- `a = 1 or b < c / d`, where `a` decides and no other key can be read. -/
theorem eval_depends_on_asked_short_circuit :
    let e : Expr := .logical .or (.compare .equal (.field "a") (.number (.ofInt 1)))
      (.compare .less (.field "b") (.arith .divide (.field "c") (.field "d")))
    let v : View := fun key => .ok (.number (if key = "a" then .ofInt 1 else .ofInt 0))
    let w : View := fun key => if key = "a" then v key else .error (.access key)
    ((∀ key ∈ (e.eval v .predicate).asked, w key = v key) ∧
      "b" ∉ (e.eval v .predicate).asked) ∧
    ((e.eval w .predicate).result = (e.eval v .predicate).result ∧
      (e.eval w .predicate).asked = (e.eval v .predicate).asked) ∧
    (e.eval (Function.update v "b" (.error .divisionByZero)) .predicate).result =
      (e.eval v .predicate).result := by
  intro e v w
  have hasked : (e.eval v .predicate).asked = ["a"] := by decide +kernel
  have hw : ∀ key ∈ (e.eval v .predicate).asked, w key = v key := by
    intro key hk
    rw [hasked, List.mem_singleton] at hk
    simp only [w, hk, if_true]
  have hb : "b" ∉ (e.eval v .predicate).asked := by
    rw [hasked]
    decide
  exact ⟨⟨hw, hb⟩, (eval_depends_on_asked e .predicate v).1 w hw,
    (eval_depends_on_asked e .predicate v).2 "b" hb _⟩

end Expr

end RecordSieve
