import RecordSieve.Arithmetic
import RecordSieve.Expr.Printer
import RecordSieve.Like

/-! # Evaluation

An expression is evaluated over a record that is known only through its keys. The result comes
with the keys that were asked for, in order; a connective leaves its right operand alone where the
left one decides, and an error ends the evaluation.
-/

namespace RecordSieve

inductive EvalError
  | notValue (e : Expr)
  | notNumber (e : Expr)
  | notPredicate (e : Expr)
  | nonNumericText (key text : String)
  | nonNumericKind (key kind : String)
  | keysOf (kind : String)
  | access (reason : String)
  | divisionByZero

def EvalError.message : EvalError → String
  | notValue e => "Type error: `" ++ e.render ++ "` does not produce a value"
  | notNumber e => "Type error: `" ++ e.render ++ "` does not produce a number"
  | notPredicate e => "Type error: `" ++ e.render ++ "` is not a predicate"
  | nonNumericText key text =>
    "Type error: field `" ++ key ++ "` holds non-numeric string " ++ Text.quote text
  | nonNumericKind key kind =>
    "Type error: field `" ++ key ++ "` is " ++ kind ++ ", expected a number"
  | keysOf kind => "Type error: [keys] requires an object record, got " ++ kind
  | access reason => "Access error: " ++ reason
  | divisionByZero => "Division by zero"

/-- A record as evaluation sees it: what each key holds, or why it cannot be read. -/
abbrev View := String → Except EvalError Value

/-- The view of a plain map; a key that is missing is absent. -/
def View.ofMembers (m : Members Value) : View := fun key => .ok ((m.find? key).getD .absent)

/-- A result and the keys that were asked for on the way to it. -/
structure Traced (α : Type) where
  asked : List String
  result : Except EvalError α

namespace Traced

variable {α β : Type}

def fail (e : EvalError) : Traced α := ⟨[], .error e⟩

def ask (view : View) (key : String) : Traced Value := ⟨[key], view key⟩

protected def bind (x : Traced α) (f : α → Traced β) : Traced β :=
  match x.result with
  | .ok a =>
    let y := f a
    ⟨x.asked ++ y.asked, y.result⟩
  | .error e => ⟨x.asked, .error e⟩

instance : Monad Traced where
  pure a := ⟨[], .ok a⟩
  bind := Traced.bind

@[simp] theorem result_pure (a : α) : (pure a : Traced α).result = .ok a := rfl

@[simp] theorem asked_pure (a : α) : (pure a : Traced α).asked = [] := rfl

@[simp] theorem result_fail (e : EvalError) : (fail e : Traced α).result = .error e := rfl

@[simp] theorem result_ask (view : View) (key : String) : (ask view key).result = view key := rfl

@[simp] theorem result_bind (x : Traced α) (f : α → Traced β) :
    (x >>= f).result = x.result >>= fun a => (f a).result := by
  change (Traced.bind x f).result = _
  unfold Traced.bind
  cases x.result <;> rfl

@[simp] theorem result_map (f : α → β) (x : Traced α) : (f <$> x).result = f <$> x.result := by
  change (x >>= fun a => pure (f a)).result = _
  rw [result_bind]
  cases x.result <;> rfl

end Traced

def Value.numberOf (key : String) (v : Value) : Except EvalError Binary64 :=
  match v.number?, v with
  | some x, _ => .ok x
  | none, .string s => .error (.nonNumericText key s)
  | none, v => .error (.nonNumericKind key v.kind)

def Comparison.holds : Comparison → Binary64 → Binary64 → Bool
  | equal, x, y => x.equal y
  | notEqual, x, y => !x.equal y
  | less, x, y => x.less y
  | lessEqual, x, y => x.lessEqual y
  | greater, x, y => y.less x
  | greaterEqual, x, y => y.lessEqual x

namespace FieldTest

/-- Whether a value passes a test. What is no string passes neither form of a pattern test. -/
def passes (negated : Bool) : FieldTest → Value → Bool
  | null, v => v.isMissing != negated
  | like p, .string s => Like.accepts p s != negated
  | like _, _ => false
  | oneOf items, v => (items.any fun i => i.same v) != negated

end FieldTest

namespace Expr

def evalNumber (view : View) : Expr → Traced Binary64
  | number x => pure x
  | field key => do
    let v ← .ask view key
    ⟨[], v.numberOf key⟩
  | arith op l r => do
    let a ← l.evalNumber view
    let b ← r.evalNumber view
    match op.result? a b with
    | some x => pure x
    | none => .fail .divisionByZero
  | e => .fail (.notNumber e)

def evalValue (view : View) : Expr → Traced Value
  | text s => pure (.string s)
  | number x => pure (.number x)
  | field key => .ask view key
  | arith op l r => .number <$> (arith op l r).evalNumber view
  | e => .fail (.notValue e)

def comparison (view : View) (op : Comparison) (l r : Expr) : Traced Bool :=
  match op with
  | .equal => do
    let v ← l.evalValue view
    let w ← r.evalValue view
    return v.same w
  | .notEqual => do
    let v ← l.evalValue view
    let w ← r.evalValue view
    return !v.same w
  | op => do
    let x ← l.evalNumber view
    let y ← r.evalNumber view
    return op.holds x y

def evalTruth (view : View) : Expr → Traced Bool
  | always => pure true
  | logical .and l r => do if ← l.evalTruth view then r.evalTruth view else pure false
  | logical .or l r => do if ← l.evalTruth view then pure true else r.evalTruth view
  | test key negated t => do
    let v ← .ask view key
    return t.passes negated v
  | compare op l r => comparison view op l r
  | e => .fail (.notPredicate e)

end Expr

end RecordSieve
