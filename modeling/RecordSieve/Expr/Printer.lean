import RecordSieve.Expr

/-! # Expressions as text

The text of an expression in the language of queries, with parentheses around every binary
operator.
-/

namespace RecordSieve

/-- An item of a list, which in a query is a string or a number. -/
def Value.literal : Value → String
  | .string s => "'" ++ s ++ "'"
  | .number x => x.text
  | v => v.outline

namespace FieldTest

def render (key : String) : (negated : Bool) → FieldTest → String
  | false, null => key ++ " is null"
  | true, null => key ++ " is not null"
  | false, like p => key ++ " like '" ++ p ++ "'"
  | true, like p => key ++ " not like '" ++ p ++ "'"
  | false, oneOf items => key ++ " in (" ++ ", ".intercalate (items.map Value.literal) ++ ")"
  | true, oneOf items => key ++ " not in (" ++ ", ".intercalate (items.map Value.literal) ++ ")"

end FieldTest

namespace Expr

def render : Expr → String
  | text s => "'" ++ s ++ "'"
  | number x => x.text
  | field key => key
  | test key negated t => t.render key negated
  | logical op l r => "(" ++ l.render ++ " " ++ op.symbol ++ " " ++ r.render ++ ")"
  | compare op l r => "(" ++ l.render ++ " " ++ op.symbol ++ " " ++ r.render ++ ")"
  | arith op l r => "(" ++ l.render ++ " " ++ op.symbol ++ " " ++ r.render ++ ")"
  | always => "true"

end Expr

end RecordSieve
