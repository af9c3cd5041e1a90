import RecordSieve.Binary64.Arithmetic
import RecordSieve.Json.Basic

/-! # Numbers of JSON texts

Reading a number keeps a significand of 64 bits and scales it once at the end by a power of ten,
so the result can differ from the nearest number in its last bits. Digits that no longer fit the
significand count only by their place.
-/

namespace RecordSieve.Json

/-- A significand of 64 bits and the power of ten it is to be scaled by. -/
structure Significand where
  value : Nat
  exponent : Int
deriving DecidableEq, Repr

namespace Significand

@[irreducible]
def push? (value : Nat) (digit : Char) : Option Nat :=
  let v := value * 10 + (digit.toNat - '0'.toNat)
  if v < 2 ^ 64 then some v else none

/-- Takes in the digits before the point; those from the first that does not fit count only by
their place. -/
def whole (value : Nat) : List Char → Significand
  | [] => ⟨value, 0⟩
  | c :: rest =>
    match push? value c with
    | some v => whole v rest
    | none => ⟨value, rest.length + 1⟩

/-- Takes in the digits after the point up to the first that does not fit. -/
def fraction (s : Significand) : List Char → Significand
  | [] => s
  | c :: rest =>
    match push? s.value c with
    | some v => fraction ⟨v, s.exponent - 1⟩ rest
    | none => s

/-- Multiplies by a power of ten, in steps within the range of the powers; nothing if the result
is out of range. -/
def scale? (x : Binary64) (e : Int) : Option Binary64 :=
  if e < -308 then
    if x.isZero then some x else scale? (x.div (.ofDecimal false 1 308)) (e + 308)
  else if e < 0 then some (x.div (.ofDecimal false 1 (-e)))
  else if e ≤ 308 then some (x.mul (.ofDecimal false 1 e))
  else if x.isZero then some x
  else none
termination_by e.natAbs

def toBinary64? (negative : Bool) (s : Significand) : Option Binary64 :=
  match scale? (.ofInt s.value) s.exponent with
  | some (.finite _ units h) => some (.finite negative units h)
  | _ => none

/-- The number of a significand without point and exponent: an integer if it is one of 64 bits and
not the negative zero. -/
def toNumber? (negative : Bool) (s : Significand) : Option Number :=
  if s.exponent = 0 ∧ !negative then some (.int s.value)
  else if s.exponent = 0 ∧ s.value ≠ 0 ∧ s.value ≤ 2 ^ 63 then some (.int (-s.value))
  else (s.toBinary64? negative).map .real

end Significand

end RecordSieve.Json
