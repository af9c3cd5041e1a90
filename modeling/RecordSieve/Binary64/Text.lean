import RecordSieve.Binary64.Shortest

/-! # Numbers as text

The plain text of a number is positional throughout. The marked text always shows that the number
is no integer literal: by a point, or by an exponent outside `10⁻⁴` to `10¹⁶`.
-/

namespace RecordSieve.Binary64

def sign (negative : Bool) : List Char := if negative then ['-'] else []

/-- The shortest decimal without an exponent; a tie between two goes to the larger. -/
def text : Binary64 → String
  | nan => "NaN"
  | infinite negative => String.ofList (sign negative ++ "inf".toList)
  | finite negative units _ =>
    String.ofList (sign negative ++ (Scientific.shortest .larger units).positional)

def markedDecimal (d : Scientific) : List Char :=
  if d.coefficient ≠ 0 ∧ (d.leading < -4 ∨ 16 ≤ d.leading) then
    d.pointed ++ 'e' :: (toString d.leading).toList
  else if 0 ≤ d.exponent then d.positional ++ ".0".toList
  else d.positional

def markedText : Binary64 → String
  | nan => "NaN"
  | infinite negative => String.ofList (sign negative ++ "inf".toList)
  | finite negative units _ =>
    String.ofList (sign negative ++ markedDecimal (Scientific.shortest .larger units))

end RecordSieve.Binary64
