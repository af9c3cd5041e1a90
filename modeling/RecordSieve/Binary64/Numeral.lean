import RecordSieve.Binary64.Basic

/-! # Numerals

Which texts are numbers, and the number that a text denotes: an optional sign, then `inf`,
`infinity` or `nan` in any case, or digits with an optional point and an optional exponent. The
denoted number is the one nearest to the decimal value.
-/

namespace RecordSieve.Binary64

def splitSign : List Char → Bool × List Char
  | '-' :: r => (true, r)
  | '+' :: r => (false, r)
  | r => (false, r)

/-- Reads an exponent: nothing, or the letter `e`, an optional sign and at least one digit. -/
def readExponent? : List Char → Option Int
  | [] => some 0
  | c :: r =>
    if c.toLower = 'e' then
      let (negative, digits) := splitSign r
      if digits ≠ [] ∧ digits.all Char.isDigit then
        let n : Nat := Nat.ofDigitChars 10 digits 0
        some (if negative then -n else n)
      else none
    else none

def splitFraction : List Char → List Char × List Char
  | '.' :: r => (r.takeWhile Char.isDigit, r.dropWhile Char.isDigit)
  | r => ([], r)

def readDecimal? (negative : Bool) (s : List Char) : Option Binary64 :=
  let whole := s.takeWhile Char.isDigit
  let (fraction, rest) := splitFraction (s.dropWhile Char.isDigit)
  if whole = [] ∧ fraction = [] then none
  else
    (readExponent? rest).map fun e =>
      ofDecimal negative (Nat.ofDigitChars 10 (whole ++ fraction) 0) (e - fraction.length)

def read? (s : List Char) : Option Binary64 :=
  let (negative, body) := splitSign s
  let word := body.map Char.toLower
  if word = "inf".toList ∨ word = "infinity".toList then some (infinite negative)
  else if word = "nan".toList then some nan
  else readDecimal? negative body

end RecordSieve.Binary64
