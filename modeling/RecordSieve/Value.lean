import RecordSieve.Binary64.Arithmetic
import RecordSieve.Binary64.Numeral
import RecordSieve.Binary64.Text
import RecordSieve.Json.Basic
import RecordSieve.Text.Quoted

/-! # Values

What a key of a record can hold. A missing key and a JSON null are both absent, and every number
is a 64-bit floating-point number. Values of different kinds are never the same.
-/

namespace RecordSieve

inductive Value
  | absent
  | boolean (value : Bool)
  | number (value : Binary64)
  | string (value : String)
  | array (items : List Value)
  | object (members : List (String × Value))

namespace Value

instance : Inhabited Value := ⟨absent⟩

def isMissing : Value → Bool
  | absent => true
  | _ => false

def text? : Value → Option String
  | string s => some s
  | _ => none

/-- The number of a number, or of a string that is a numeral as a whole. -/
def number? : Value → Option Binary64
  | number x => some x
  | string s => Binary64.read? s.toList
  | _ => none

def kind : Value → String
  | absent => "absent"
  | boolean _ => "boolean"
  | number _ => "number"
  | string _ => "string"
  | array _ => "array"
  | object _ => "object"

mutual

/-- Whether two values are the same: of one kind, and equal in it member by member. -/
def same : Value → Value → Bool
  | absent, absent => true
  | boolean a, boolean b => a = b
  | number x, number y => x.equal y
  | string s, string t => s = t
  | array a, array b => sameItems a b
  | object a, object b => sameMembers a b
  | _, _ => false

def sameItems : List Value → List Value → Bool
  | [], [] => true
  | v :: vs, w :: ws => v.same w && sameItems vs ws
  | _, _ => false

def sameMembers : List (String × Value) → List (String × Value) → Bool
  | [], [] => true
  | (k, v) :: vs, (l, w) :: ws => k = l && v.same w && sameMembers vs ws
  | _, _ => false

end

mutual

def ofJson : Json → Value
  | .null => absent
  | .bool b => boolean b
  | .number n => number n.toBinary64
  | .string s => string s
  | .array items => array (ofItems items)
  | .object members => object (ofMembers members)

def ofItems : List Json → List Value
  | [] => []
  | j :: rest => ofJson j :: ofItems rest

def ofMembers : List (String × Json) → List (String × Value)
  | [] => []
  | (k, j) :: rest => (k, ofJson j) :: ofMembers rest

end

mutual

/-- A text that shows how a value is built. -/
def outline : Value → String
  | absent => "Absent"
  | boolean true => "Boolean(true)"
  | boolean false => "Boolean(false)"
  | number x => "Number(" ++ x.markedText ++ ")"
  | string s => "String(" ++ Text.quote s ++ ")"
  | array items => "Array([" ++ ", ".intercalate (itemOutlines items) ++ "])"
  | object members =>
    "Object(\x7b" ++ ", ".intercalate (memberOutlines members) ++ "\x7d)"

def itemOutlines : List Value → List String
  | [] => []
  | v :: rest => v.outline :: itemOutlines rest

def memberOutlines : List (String × Value) → List String
  | [] => []
  | (k, v) :: rest => (Text.quote k ++ ": " ++ v.outline) :: memberOutlines rest

end

end Value

end RecordSieve
