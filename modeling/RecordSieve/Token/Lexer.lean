import RecordSieve.Binary64.Numeral
import RecordSieve.Text.Blank
import RecordSieve.Token

/-! # Tokens of a text

Splits the text of a query into tokens. A string runs to the next quote like its first, an
operator takes a second character where that makes one, and a word runs to the next delimiter; a
word that is a numeral is a number.
-/

namespace RecordSieve

/-- A quote with no other after it: its place, counted in characters, and the text from it on. -/
inductive LexError
  | unterminated (position : Nat) (rest : String)
deriving DecidableEq, Repr

def LexError.message : LexError → String
  | unterminated position rest =>
    s!"unterminated string literal at position {position}: {rest}"

namespace Token

def isQuote (c : Char) : Bool := c = '\'' || c = '"'

def isOperatorChar (c : Char) : Bool :=
  c = '+' || c = '-' || c = '*' || c = '/' || c = '%' || c = '=' || c = '>' || c = '!' || c = '<'

def isDelimiter (c : Char) : Bool :=
  Text.isBlank c || isQuote c || c = '(' || c = ')' || c = ',' || isOperatorChar c

def isWordChar (c : Char) : Bool := !isDelimiter c

def isPair (c d : Char) : Bool :=
  ((c = '!' || c = '<' || c = '>') && d = '=') || (c = '<' && d = '>')

/-- The token that starts with an operator character, and the text after it. A star before a blank
or at the end is a word. -/
def operator (c : Char) (rest : List Char) : Token × { r : List Char // r.length ≤ rest.length } :=
  match rest with
  | [] => (⟨if c = '*' then .word else .operator, String.singleton c⟩, ⟨[], Nat.le.refl⟩)
  | d :: r =>
    if c = '*' ∧ Text.isBlank d then (⟨.word, "*"⟩, ⟨d :: r, Nat.le.refl⟩)
    else if isPair c d then (⟨.operator, String.ofList [c, d]⟩, ⟨r, Nat.le.step Nat.le.refl⟩)
    else (⟨.operator, String.singleton c⟩, ⟨d :: r, Nat.le.refl⟩)

def ofWord (w : List Char) : Token :=
  ⟨if (Binary64.read? w).isSome then .number else .word, String.ofList w⟩

theorem length_dropWhile_lt_succ (p : Char → Bool) (s : List Char) :
    (s.dropWhile p).length < s.length + 1 :=
  Nat.lt_succ_of_le (List.dropWhile_suffix p).length_le

/-- The tokens of the text that starts at character `position`. -/
def scan (position : Nat) (s : List Char) : Except LexError (List Token) :=
  match s with
  | [] => .ok []
  | c :: rest =>
    if Text.isBlank c then scan (position + 1) rest
    else if isQuote c then
      let body := rest.takeWhile (· ≠ c)
      match h : rest.dropWhile (· ≠ c) with
      | [] => .error (.unterminated position (String.ofList (c :: rest)))
      | _ :: after =>
        have : after.length < rest.length + 1 := by
          have := length_dropWhile_lt_succ (· ≠ c) rest
          rw [h, List.length_cons] at this
          omega
        (⟨.string, String.ofList body⟩ :: ·) <$> scan (position + body.length + 2) after
    else if c = '(' then (⟨.leftParen, "("⟩ :: ·) <$> scan (position + 1) rest
    else if c = ')' then (⟨.rightParen, ")"⟩ :: ·) <$> scan (position + 1) rest
    else if c = ',' then (⟨.separator, ","⟩ :: ·) <$> scan (position + 1) rest
    else if isOperatorChar c then
      let (t, ⟨after, h⟩) := operator c rest
      (t :: ·) <$> scan (position + t.text.length) after
    else
      let tail := rest.takeWhile isWordChar
      have := length_dropWhile_lt_succ isWordChar rest
      (ofWord (c :: tail) :: ·) <$>
        scan (position + tail.length + 1) (rest.dropWhile isWordChar)
termination_by s.length
decreasing_by all_goals simp only [List.length_cons]; omega

def ofText (s : String) : Except LexError (List Token) := scan 0 s.toList

end Token

end RecordSieve
