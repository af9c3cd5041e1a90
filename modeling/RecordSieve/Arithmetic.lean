import RecordSieve.Decimal

/-! # Arithmetic of expressions

Operations on numbers run in decimal, so that `0.1 + 0.2` is `0.3`, and fall back to binary
floating point where an operand or the result is no decimal, or where rounding to 28 places has
cost a product or quotient its digits.
-/

namespace RecordSieve.Operation

def onBinary : Operation → Binary64 → Binary64 → Binary64
  | add => .add
  | subtract => .sub
  | multiply => .mul
  | divide => .div
  | modulo => .rem

/-- The relative gap beyond which a decimal result counts as imprecise. -/
def tolerance : Binary64 := .ofDecimal false 1 (-9)

def isImprecise (op : Operation) (decimal binary : Binary64) : Bool :=
  match op with
  | multiply | divide => (binary.abs.mul tolerance).less (decimal.sub binary).abs
  | _ => false

def onDecimal? (op : Operation) (a b : Binary64) : Option Binary64 := do
  let x ← Decimal.ofBinary64? a
  let y ← Decimal.ofBinary64? b
  let r ← Decimal.result? op x y
  if op.isImprecise r.toBinary64 (op.onBinary a b) then none else some r.toBinary64

/-- The result of an operation; there is none exactly when zero divides. -/
def result? (op : Operation) (a b : Binary64) : Option Binary64 :=
  if (op = divide ∨ op = modulo) ∧ b.isZero then none
  else some ((op.onDecimal? a b).getD (op.onBinary a b))

theorem result?_eq_none_iff {op : Operation} {a b : Binary64} :
    op.result? a b = none ↔ (op = divide ∨ op = modulo) ∧ b.isZero := by
  unfold result?; split <;> simp_all

end RecordSieve.Operation
