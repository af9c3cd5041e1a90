import RecordSieve.Operator
import RecordSieve.Value

/-! # Expressions

The tree of a query's condition. An expression can have up to three capabilities: to give a value,
to give a number and to decide; the operators ask of their operands the one they need.
-/

namespace RecordSieve

inductive FieldTest
  | null
  | like (pattern : String)
  | oneOf (items : List Value)

inductive Expr
  | text (value : String)
  | number (value : Binary64)
  | field (key : String)
  | test (key : String) (negated : Bool) (test : FieldTest)
  | logical (op : Connective) (left right : Expr)
  | compare (op : Comparison) (left right : Expr)
  | arith (op : Operation) (left right : Expr)
  | always

inductive Capability
  | value
  | numeric
  | predicate
deriving DecidableEq, Repr

namespace Expr

instance : Inhabited Expr := ⟨always⟩

def givesValue : Expr → Bool
  | text _ | number _ | field _ | arith .. => true
  | _ => false

def givesNumber : Expr → Bool
  | number _ | field _ | arith .. => true
  | _ => false

def isDecision : Expr → Bool
  | test .. | logical .. | compare .. | always => true
  | _ => false

def has (e : Expr) : Capability → Bool
  | .value => e.givesValue
  | .numeric => e.givesNumber
  | .predicate => e.isDecision

theorem givesValue_of_givesNumber {e : Expr} (h : e.givesNumber) : e.givesValue := by
  cases e <;> simp_all [givesNumber, givesValue]

end Expr

/-- The capability that a comparison needs of both operands. -/
def Comparison.needs (op : Comparison) : Capability := if op.comparesAny then .value else .numeric

end RecordSieve
