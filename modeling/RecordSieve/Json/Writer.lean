import RecordSieve.Binary64.Text
import RecordSieve.Json.Basic

/-! # Writing JSON

The compact text of a document: no blanks, members in the order of their keys, and every control
character escaped, so that a document is always one line.

The program writes JSON with the library that it reads it with. Taken for granted of that are which
characters are escaped and how, the order of the members, and the form of a floating-point number:
its shortest digits, with an exponent where the point would be far from them.
-/

namespace RecordSieve.Json

def escape (c : Char) : List Char :=
  match c with
  | '"' => ['\\', '"']
  | '\\' => ['\\', '\\']
  | '\x08' => ['\\', 'b']
  | '\x0c' => ['\\', 'f']
  | '\n' => ['\\', 'n']
  | '\r' => ['\\', 'r']
  | '\t' => ['\\', 't']
  | c =>
    if c.toNat < 0x10 then "\\u000".toList ++ Nat.toDigits 16 c.toNat
    else if c.toNat < 0x20 then "\\u00".toList ++ Nat.toDigits 16 c.toNat
    else [c]

def stringText (s : String) : String :=
  String.ofList ('"' :: s.toList.flatMap escape ++ ['"'])

/-- A decimal with at least one place, or with an exponent outside `10⁻⁵` to `10¹⁵`. -/
def decimalText (d : Scientific) : List Char :=
  if d.leading < -5 then d.pointed ++ 'e' :: (toString d.leading).toList
  else if 15 < d.leading then d.pointed ++ 'e' :: '+' :: (toString d.leading).toList
  else if 0 ≤ d.exponent then d.positional ++ ".0".toList
  else d.positional

/-- The shortest decimal that reads as a floating-point number; a tie between two goes to the even
one. What is no finite number is written as null. -/
def realText : Binary64 → String
  | .finite negative units _ =>
    String.ofList (Binary64.sign negative ++ decimalText (.shortest .even units))
  | _ => "null"

def Number.text : Number → String
  | int i => toString i
  | real x => realText x

mutual

def text : Json → String
  | null => "null"
  | bool true => "true"
  | bool false => "false"
  | number n => n.text
  | string s => stringText s
  | array items => "[" ++ ",".intercalate (itemTexts items) ++ "]"
  | object members => "\x7b" ++ ",".intercalate (memberTexts members) ++ "\x7d"

def itemTexts : List Json → List String
  | [] => []
  | j :: rest => j.text :: itemTexts rest

def memberTexts : List (String × Json) → List String
  | [] => []
  | (k, j) :: rest => (stringText k ++ ":" ++ j.text) :: memberTexts rest

end

end RecordSieve.Json
