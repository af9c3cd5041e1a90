import RecordSieve.Expr.Evaluation
import RecordSieve.Json.Reader
import RecordSieve.Query
import RecordSieve.Text.Blank

/-! # Records

A record is a line without the blanks around it and the document that it spells. A path leads
through objects by key and through arrays by index, from the end if the index is negative.
-/

namespace RecordSieve

structure Record where
  raw : String
  document : Json

/-- The field that stands for the keys of the record. -/
def keyListField : String := "[keys]"

/-- An index: an optional sign and digits, of 64 bits. -/
def index? (segment : List Char) : Option Int :=
  let (negative, digits) := Binary64.splitSign segment
  if digits ≠ [] ∧ digits.all Char.isDigit then
    let i := Binary64.signed negative (Nat.ofDigitChars 10 digits 0)
    if -2 ^ 63 ≤ i ∧ i < 2 ^ 63 then some i else none
  else none

namespace Json

/-- The item at an index, which counts from the end if it is negative. -/
def item? (items : List Json) (i : Int) : Option Json :=
  if 0 ≤ i then items[i.toNat]?
  else if i.natAbs ≤ items.length then items[items.length - i.natAbs]?
  else none

def child? (j : Json) (segment : List Char) : Option Json :=
  match j with
  | .object members => Members.find? (String.ofList segment) members
  | .array items => (index? segment).bind (item? items)
  | _ => none

def follow? (j : Json) (path : String) : Option Json :=
  (path.toList.splitOn '.').foldlM child? j

end Json

namespace Record

/-- Reads a line; the blanks around it are no part of the record. -/
def read (line : String) : Except Json.Fault Record := do
  let raw := String.ofList (Text.trim line.toList)
  let document ← Json.read raw
  return ⟨raw, document⟩

/-- The keys of the record in order, with commas between them. -/
def keys (r : Record) : Except EvalError String :=
  match r.document with
  | .object members => .ok (",".intercalate (Members.keys members))
  | j => .error (.keysOf j.kind)

/-- What a selected field holds; null if there is nothing. -/
def select (r : Record) (field : String) : Except EvalError Json :=
  if field = keyListField then .string <$> r.keys
  else .ok ((r.document.follow? field).getD .null)

/-- The object of the selected fields; the field for the whole record has no part in it. -/
def pick (r : Record) (fields : List String) : Except EvalError Json := do
  let pairs ← (fields.filter (· ≠ wholeRecord)).mapM fun f => (f, ·) <$> r.select f
  return .object (Members.ofList pairs)

def view (r : Record) : View := fun key =>
  if key = keyListField then .string <$> r.keys
  else .ok (((r.document.follow? key).map Value.ofJson).getD .absent)

end Record

end RecordSieve
