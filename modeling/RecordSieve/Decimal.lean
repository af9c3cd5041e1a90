import RecordSieve.Binary64.Arithmetic
import RecordSieve.Binary64.Shortest
import RecordSieve.Operator

/-! # Decimals of 96 bits

An integer coefficient below 2⁹⁶ in magnitude over a power of ten of at most 28 places. Operations
are exact and then rounded to the most places that fit, a tie going to the even neighbour.

The program takes decimals from a library. What stands here as definitions is taken for granted of
it: that a text is read as it stands up to 28 places, and rounded with a half away from zero beyond
them; that sums, differences, products and quotients are rounded once, and are none where no number
of places fits; that a remainder is exact and has the sign of the dividend; and that a decimal is
printed without loss, so that its text is read as the nearest 64-bit number, zero without a sign.
-/

namespace RecordSieve

structure Decimal where
  coefficient : Int
  scale : Nat
  fits : coefficient.natAbs < 2 ^ 96
  scale_le : scale ≤ 28
deriving DecidableEq

namespace Decimal

def mk? (coefficient : Int) (scale : Nat) : Option Decimal :=
  if h : coefficient.natAbs < 2 ^ 96 ∧ scale ≤ 28 then some ⟨coefficient, scale, h.1, h.2⟩
  else none

/-- The nearest 64-bit number; zero is positive. -/
def toBinary64 (d : Decimal) : Binary64 :=
  .ofRatio (d.coefficient < 0) d.coefficient.natAbs (10 ^ d.scale)

/-- Rounds a scientific decimal to at most 28 places, a half away from zero. -/
def ofScientific? (negative : Bool) (d : Scientific) : Option Decimal :=
  if 0 ≤ d.exponent then mk? (Binary64.signed negative (d.coefficient * 10 ^ d.exponent.toNat)) 0
  else
    let places := (-d.exponent).toNat
    if places ≤ 28 then mk? (Binary64.signed negative d.coefficient) places
    else
      let unit := 10 ^ (places - 28)
      mk? (Binary64.signed negative ((2 * d.coefficient + unit) / (2 * unit))) 28

/-- The shortest decimal of a number, if it is finite and the decimal denotes it again. -/
def ofBinary64? : Binary64 → Option Decimal
  | .finite negative units h =>
    (ofScientific? negative (.shortest .larger units)).filter
      fun d => d.toBinary64.equal (.finite negative units h)
  | _ => none

/-- Rounds `n / d` to the most places, at most `scale`, with which the coefficient fits. -/
def round? (n : Int) (d : Nat) : Nat → Option Decimal
  | 0 => mk? (Binary64.signed (n < 0) (nearestEven n.natAbs d)) 0
  | scale + 1 =>
    (mk? (Binary64.signed (n < 0) (nearestEven (n.natAbs * 10 ^ (scale + 1)) d)) (scale + 1)).or
      (round? n d scale)

/-- The numerators of two decimals over the denominator `10 ^ (a.scale + b.scale)`. -/
def common (a b : Decimal) : Int × Int :=
  (a.coefficient * 10 ^ b.scale, b.coefficient * 10 ^ a.scale)

def fraction? (op : Operation) (a b : Decimal) : Option (Int × Nat) :=
  let (x, y) := common a b
  let unit := 10 ^ (a.scale + b.scale)
  match op with
  | .add => some (x + y, unit)
  | .subtract => some (x - y, unit)
  | .multiply => some (a.coefficient * b.coefficient, unit)
  | .divide => if y = 0 then none else some (x * y.sign, y.natAbs)
  | .modulo => if y = 0 then none else some (x.tmod y, unit)

def result? (op : Operation) (a b : Decimal) : Option Decimal :=
  (fraction? op a b).bind fun (n, d) => round? n d 28

end Decimal

end RecordSieve
