import RecordSieve.Proofs.Expr.Grouping
import RecordSieve.Proofs.Expr.Locality
import RecordSieve.Proofs.Expr.Typing

/-! # Questions in order

Evaluation asks for the keys of an expression as they stand in it, from left to right and each as
often as it occurs at the most. An error cuts off what is to its right, and only a connective
leaves an operand out for another reason.
-/

namespace RecordSieve

variable {α β : Type} {view : View} {ks ks' : List String}

namespace Traced

variable {x : Traced α} {f : α → Traced β}

/-- A computation asks for keys from the left on, and for all of them if it has a result. -/
structure AsksThrough (ks : List String) (x : Traced α) : Prop where
  begins : x.asked <+: ks
  all : ∀ a, x.result = .ok a → x.asked = ks

theorem asksThrough_pure (a : α) : AsksThrough [] (pure a) :=
  ⟨List.prefix_rfl, fun _ _ => rfl⟩

theorem asksThrough_fail (ks : List String) (err : EvalError) :
    AsksThrough ks (fail err : Traced α) := by
  constructor
  · exact List.nil_prefix
  · rintro a ⟨⟩

theorem asksThrough_ask (view : View) (key : String) : AsksThrough [key] (ask view key) :=
  ⟨List.prefix_rfl, fun _ _ => rfl⟩

theorem asksThrough_silent (r : Except EvalError α) : AsksThrough [] ⟨[], r⟩ :=
  ⟨List.prefix_rfl, fun _ _ => rfl⟩

theorem AsksThrough.bind (hx : AsksThrough ks x) (hf : ∀ a, AsksThrough ks' (f a)) :
    AsksThrough (ks ++ ks') (x >>= f) := by
  cases hr : x.result with
  | error err =>
    rw [bind_of_error hr]
    constructor
    · exact hx.begins.trans (List.prefix_append ks ks')
    · rintro b ⟨⟩
  | ok a =>
    rw [bind_of_ok hr, hx.all a hr]
    constructor
    · exact (List.prefix_append_right_inj ks).mpr (hf a).begins
    · intro b hb
      exact congrArg (ks ++ ·) ((hf a).all b hb)

theorem AsksThrough.map (hx : AsksThrough ks x) (g : α → β) : AsksThrough ks (g <$> x) := by
  have h := hx.bind fun a => asksThrough_pure (g a)
  rwa [List.append_nil] at h

theorem sublist_bind (hx : x.asked.Sublist ks) (hf : ∀ a, (f a).asked.Sublist ks') :
    (x >>= f).asked.Sublist (ks ++ ks') := by
  cases hr : x.result with
  | error err =>
    rw [bind_of_error hr]
    exact hx.trans (List.sublist_append_left ks ks')
  | ok a =>
    rw [bind_of_ok hr]
    exact hx.append (hf a)

end Traced

namespace Expr

open Traced

variable {e l r : Expr} {op : Operation} {a b : Binary64}

theorem asksThrough_evalNumber (view : View) (e : Expr) :
    AsksThrough e.keys (e.evalNumber view) := by
  induction e with
  | number x => exact asksThrough_pure x
  | field key => exact (asksThrough_ask view key).bind fun v => asksThrough_silent _
  | arith op l r ihl ihr =>
    refine ihl.bind fun a => ?_
    rw [← List.append_nil r.keys]
    refine ihr.bind fun b => ?_
    cases op.result? a b with
    | some x => exact asksThrough_pure x
    | none => exact asksThrough_fail [] _
  | text | test | logical | compare | always => exact asksThrough_fail _ _

theorem asksThrough_evalValue (view : View) (e : Expr) : AsksThrough e.keys (e.evalValue view) := by
  cases e with
  | text s => exact asksThrough_pure _
  | number x => exact asksThrough_pure _
  | field key => exact asksThrough_ask view key
  | arith op l r => exact (asksThrough_evalNumber view (.arith op l r)).map Value.number
  | test | logical | compare | always => exact asksThrough_fail _ _

theorem asksThrough_comparison (view : View) (op : Comparison) (l r : Expr) :
    AsksThrough (l.keys ++ r.keys) (comparison view op l r) := by
  cases op
  case equal | notEqual =>
    refine (asksThrough_evalValue view l).bind fun v => ?_
    exact (asksThrough_evalValue view r).map _
  all_goals
    refine (asksThrough_evalNumber view l).bind fun x => ?_
    exact (asksThrough_evalNumber view r).map _

/-- What is decided other than by connecting decisions asks for all keys or ends in an error. -/
theorem asksThrough_evalTruth (he : ∀ op l r, e ≠ .logical op l r) (view : View) :
    AsksThrough e.keys (e.evalTruth view) := by
  cases e with
  | always => exact asksThrough_pure true
  | test key negated t => exact (asksThrough_ask view key).map _
  | logical op l r => exact absurd rfl (he op l r)
  | compare op l r => exact asksThrough_comparison view op l r
  | text | number | field | arith => exact asksThrough_fail _ _

theorem asksThrough_eval (he : ∀ op l r, e ≠ .logical op l r) (needed : Capability) (view : View) :
    AsksThrough e.keys (e.eval view needed) := by
  cases needed with
  | value => exact asksThrough_evalValue view e
  | numeric => exact asksThrough_evalNumber view e
  | predicate => exact asksThrough_evalTruth he view

theorem sublist_evalTruth (view : View) (e : Expr) : (e.evalTruth view).asked.Sublist e.keys := by
  induction e with
  | logical op l r ihl ihr =>
    rw [evalTruth_logical]
    refine sublist_bind ihl fun b => ?_
    split
    · exact List.nil_sublist _
    · exact ihr
  | text | number | field | test | compare | arith | always =>
    exact (asksThrough_evalTruth (by simp) view).begins.sublist

theorem sublist_eval (view : View) (e : Expr) (needed : Capability) :
    (e.eval view needed).asked.Sublist e.keys := by
  cases needed with
  | value => exact (asksThrough_evalValue view e).begins.sublist
  | numeric => exact (asksThrough_evalNumber view e).begins.sublist
  | predicate => exact sublist_evalTruth view e

theorem eval_congr {v w : View} (h : ∀ key ∈ e.keys, w key = v key) (needed : Capability) :
    e.eval w needed = e.eval v needed :=
  local_eval e needed v w fun key hk => h key ((sublist_eval v e needed).subset hk)

/-- A zero that divides is found out when both operands have been asked for. -/
theorem evalNumber_of_zeroDivisor (ha : (l.evalNumber view).result = .ok a)
    (hb : (r.evalNumber view).result = .ok b) (hop : op.result? a b = none) :
    (arith op l r).evalNumber view = ⟨(arith op l r).keys, .error .divisionByZero⟩ := by
  have hl := (asksThrough_evalNumber view l).all a ha
  have hr := (asksThrough_evalNumber view r).all b hb
  rw [evalNumber, bind_of_ok ha, bind_of_ok hb, hop, hl, hr]
  simp only [fail, keys, List.append_nil]

/-- The keys that are asked for are keys of the expression in their order, no occurrence twice. But
for an expression that connects others they are the first of its keys, and all of them if it has a
result or a zero divides at its root. A connective asks what its left operand asks, and then what
its right operand asks unless the left one decides or fails. -/
theorem eval_asks_in_order (e : Expr) (needed : Capability) (view : View) :
    (e.eval view needed).asked.Sublist e.keys ∧
    ((∀ op l r, e ≠ .logical op l r) → (e.eval view needed).asked <+: e.keys ∧
      ∀ a, (e.eval view needed).result = .ok a → (e.eval view needed).asked = e.keys) ∧
    (∀ op l r a b, e = .arith op l r → (l.evalNumber view).result = .ok a →
      (r.evalNumber view).result = .ok b → op.result? a b = none → needed ≠ .predicate →
      (e.eval view needed).result = .error .divisionByZero ∧
        (e.eval view needed).asked = e.keys) ∧
    ∀ op l r, e = .logical op l r →
      ((l.evalTruth view).result = .ok (!op.decisive) →
        (e.evalTruth view).asked = (l.evalTruth view).asked ++ (r.evalTruth view).asked) ∧
      ((l.evalTruth view).result ≠ .ok (!op.decisive) →
        (e.evalTruth view).asked = (l.evalTruth view).asked) := by
  refine ⟨sublist_eval view e needed, fun he => ?connected, ?zero, ?logical⟩
  case connected =>
    obtain ⟨hbegins, hall⟩ := asksThrough_eval he needed view
    exact ⟨hbegins, hall⟩
  case zero =>
    rintro op l r a b rfl ha hb hop hn
    have h := evalNumber_of_zeroDivisor ha hb hop
    cases needed with
    | value =>
      rw [eval, evalValue, h]
      exact ⟨rfl, rfl⟩
    | numeric =>
      rw [eval, h]
      exact ⟨rfl, rfl⟩
    | predicate => exact absurd rfl hn
  case logical =>
    rintro op l r rfl
    rw [evalTruth_logical]
    constructor
    · intro h
      have hs := Connective.settles_eq_false_iff.mpr h
      rw [Connective.connect_of_not_settles hs]
    · intro h
      have hs := eq_true_of_ne_false (mt Connective.settles_eq_false_iff.mp h)
      rw [Connective.connect_of_settles hs]

/-- `a / b`, and that after `a <= b and` or after `a < b and`, where every key holds zero. -/
theorem eval_asks_in_order_quotient :
    let quotient : Expr := .arith .divide (.field "a") (.field "b")
    let before (op : Comparison) : Expr := .compare op (.field "a") (.field "b")
    let after : Expr := .compare .equal quotient (.field "c")
    let view : View := fun _ => .ok (.number (.zero false))
    ((∀ op l r, quotient ≠ .logical op l r) ∧
      ((Expr.field "a").evalNumber view).result = .ok (.zero false) ∧
      ((Expr.field "b").evalNumber view).result = .ok (.zero false) ∧
      Operation.divide.result? (.zero false) (.zero false) = none ∧
      ((before .lessEqual).evalTruth view).result = .ok true ∧
      ((before .less).evalTruth view).result ≠ .ok true) ∧
    ((quotient.eval view .numeric).asked <+: ["a", "b"] ∧
      (quotient.eval view .numeric).result = .error .divisionByZero ∧
      (quotient.eval view .numeric).asked = ["a", "b"]) ∧
    ((Expr.logical .and (before .lessEqual) after).evalTruth view).asked =
      ((before .lessEqual).evalTruth view).asked ++ (after.evalTruth view).asked ∧
    ((Expr.logical .and (before .less) after).evalTruth view).asked =
      ((before .less).evalTruth view).asked := by
  intro quotient before after view
  have hq : ∀ op l r, quotient ≠ .logical op l r := by simp [quotient]
  have ha : ((Expr.field "a").evalNumber view).result = .ok (.zero false) := rfl
  have hb : ((Expr.field "b").evalNumber view).result = .ok (.zero false) := rfl
  have hz : Operation.divide.result? (.zero false) (.zero false) = none := rfl
  have hle : ((before .lessEqual).evalTruth view).result = .ok true := rfl
  have hless : ((before .less).evalTruth view).result = .ok false := rfl
  have hne : ((before .less).evalTruth view).result ≠ .ok true := by simp [hless]
  obtain ⟨-, hbegins, hzero, -⟩ := eval_asks_in_order quotient .numeric view
  obtain ⟨-, -, -, hboth⟩ :=
    eval_asks_in_order (.logical .and (before .lessEqual) after) .predicate view
  obtain ⟨-, -, -, hleft⟩ := eval_asks_in_order (.logical .and (before .less) after) .predicate view
  exact ⟨⟨hq, ha, hb, hz, hle, hne⟩,
    ⟨(hbegins hq).1, hzero _ _ _ _ _ rfl ha hb hz (by decide)⟩,
    (hboth _ _ _ rfl).1 hle, (hleft _ _ _ rfl).2 hne⟩

end Expr

end RecordSieve
