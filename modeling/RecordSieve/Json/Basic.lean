import RecordSieve.Binary64.Basic
import RecordSieve.Members

/-! # JSON documents

A number without fraction and exponent stays an integer; any other is a 64-bit floating-point
number.
-/

namespace RecordSieve

inductive Json.Number
  | int (value : Int)
  | real (value : Binary64)
deriving DecidableEq

inductive Json
  | null
  | bool (value : Bool)
  | number (value : Json.Number)
  | string (value : String)
  | array (items : List Json)
  | object (members : List (String × Json))

namespace Json

instance : Inhabited Json := ⟨null⟩

def Number.toBinary64 : Number → Binary64
  | int i => .ofInt i
  | real x => x

def kind : Json → String
  | null => "null"
  | bool _ => "boolean"
  | number _ => "number"
  | string _ => "string"
  | array _ => "array"
  | object _ => "object"

end Json

end RecordSieve
