/-! # Tokens

A token is a kind and a text. Which words are keywords is not decided here: a word is a keyword
only by its place in a query, and in any ASCII case.
-/

namespace RecordSieve

inductive Token.Kind
  | word
  | string
  | number
  | operator
  | separator
  | leftParen
  | rightParen
deriving DecidableEq, Repr

structure Token where
  kind : Token.Kind
  text : String
deriving DecidableEq, Repr

namespace Token

def lowered (s : String) : List Char := s.toList.map Char.toLower

/-- Whether the token is a given word, in any ASCII case. -/
def spells (w : String) (t : Token) : Bool := t.kind = .word && lowered t.text = lowered w

def separatesItems (t : Token) : Bool := t.kind = .separator && t.text = ","

def opens (t : Token) : Bool := t.kind = .leftParen

def closes (t : Token) : Bool := t.kind = .rightParen

/-- The token as it stands in a query; a string is put between single quotes. -/
def spelling (t : Token) : String :=
  match t.kind with
  | .string => "'" ++ t.text ++ "'"
  | _ => t.text

def phrase (ts : List Token) : String := " ".intercalate (ts.map spelling)

end Token

end RecordSieve
