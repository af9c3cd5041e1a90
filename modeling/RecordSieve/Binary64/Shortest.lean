import RecordSieve.Binary64.Basic

/-! # Shortest decimals

The decimal with the fewest digits that rounds to a given number, and of several the nearest. For
each count of digits only the two neighbours of the number on that decimal grid can do.
-/

namespace RecordSieve

/-- A decimal `coefficient · 10 ^ exponent`. -/
structure Scientific where
  coefficient : Nat
  exponent : Int
deriving DecidableEq, Repr

/-- Where an exact tie between two equally short decimals goes. -/
inductive Tie
  | larger
  | even
deriving DecidableEq, Repr

namespace Scientific

def dropZeros : Nat → Scientific → Scientific
  | 0, d => d
  | n + 1, d =>
    if d.coefficient % 10 = 0 then dropZeros n ⟨d.coefficient / 10, d.exponent + 1⟩ else d

/-- Whether the decimal rounds to `units` steps. -/
def denotes (d : Scientific) (units : Nat) : Bool :=
  match Binary64.ofDecimal false d.coefficient d.exponent with
  | .finite _ n _ => n = units
  | _ => false

/-- The decimal exponent just above `units` steps: `units · 2⁻¹⁰⁷⁴ < 10ᵏ`. -/
def magnitude (units : Nat) : Int :=
  (Nat.toDigits 10 (units * 10 ^ 400 / 2 ^ 1074)).length - 400

/-- The number of `units` steps in units of `10 ^ exponent`, as a fraction. -/
def scaled (units : Nat) (exponent : Int) : Nat × Nat :=
  if 0 ≤ exponent then (units, 2 ^ 1074 * 10 ^ exponent.toNat)
  else (units * 10 ^ (-exponent).toNat, 2 ^ 1074)

def nearer (tie : Tie) (n d : Nat) : Nat :=
  let below := n / d
  if 2 * (n % d) < d then below
  else if 2 * (n % d) = d ∧ tie = .even ∧ below % 2 = 0 then below
  else below + 1

/-- The best decimal on the grid of `10 ^ exponent`, if one of the neighbours will do. -/
def onGrid? (tie : Tie) (units : Nat) (exponent : Int) : Option Scientific :=
  let (n, d) := scaled units exponent
  let best : Scientific := ⟨nearer tie n d, exponent⟩
  let below : Scientific := ⟨n / d, exponent⟩
  let above : Scientific := ⟨n / d + 1, exponent⟩
  if best.denotes units then some best
  else if below.denotes units then some below
  else if above.denotes units then some above
  else none

def firstOnGrid (tie : Tie) (units : Nat) : Nat → Int → Option Scientific
  | 0, _ => none
  | n + 1, exponent => (onGrid? tie units exponent).or (firstOnGrid tie units n (exponent - 1))

def exact (units : Nat) : Scientific := ⟨units * 5 ^ 1074, -1074⟩

def shortest (tie : Tie) (units : Nat) : Scientific :=
  if units = 0 then ⟨0, 0⟩
  else
    match (firstOnGrid tie units 17 (magnitude units - 1)).map (dropZeros 20) with
    | some d => if d.denotes units then d else exact units
    | none => exact units

def digits (d : Scientific) : List Char := Nat.toDigits 10 d.coefficient

def leading (d : Scientific) : Int := d.digits.length + d.exponent - 1

/-- The decimal without an exponent, with no point if it is an integer. -/
def positional (d : Scientific) : List Char :=
  let ds := d.digits
  if 0 ≤ d.exponent then ds ++ List.replicate d.exponent.toNat '0'
  else
    let places := (-d.exponent).toNat
    if places < ds.length then
      ds.take (ds.length - places) ++ '.' :: ds.drop (ds.length - places)
    else '0' :: '.' :: List.replicate (places - ds.length) '0' ++ ds

def pointed (d : Scientific) : List Char :=
  match d.digits with
  | [] => []
  | [c] => [c]
  | c :: cs => c :: '.' :: cs

end Scientific

end RecordSieve
