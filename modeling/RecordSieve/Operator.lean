/-! # Operators

The three tiers of operators, from the loosest to the tightest: connectives, comparisons and
arithmetic operations.
-/

namespace RecordSieve

inductive Connective
  | and
  | or
deriving DecidableEq, Repr

def Connective.symbol : Connective → String
  | .and => "and"
  | .or => "or"

inductive Comparison
  | equal
  | notEqual
  | less
  | lessEqual
  | greater
  | greaterEqual
deriving DecidableEq, Repr

namespace Comparison

def ofSymbol? : String → Option Comparison
  | "=" => some equal
  | "!=" => some notEqual
  | "<>" => some notEqual
  | "<" => some less
  | "<=" => some lessEqual
  | ">" => some greater
  | ">=" => some greaterEqual
  | _ => none

def symbol : Comparison → String
  | equal => "="
  | notEqual => "!="
  | less => "<"
  | lessEqual => "<="
  | greater => ">"
  | greaterEqual => ">="

/-- Whether the comparison compares values of any kind; the others order numbers. -/
def comparesAny : Comparison → Bool
  | equal | notEqual => true
  | _ => false

theorem ofSymbol?_symbol (c : Comparison) : ofSymbol? c.symbol = some c := by
  cases c <;> simp [symbol, ofSymbol?]

end Comparison

inductive Operation
  | add
  | subtract
  | multiply
  | divide
  | modulo
deriving DecidableEq, Repr

namespace Operation

def ofSymbol? : String → Option Operation
  | "+" => some add
  | "-" => some subtract
  | "*" => some multiply
  | "/" => some divide
  | "%" => some modulo
  | _ => none

def symbol : Operation → String
  | add => "+"
  | subtract => "-"
  | multiply => "*"
  | divide => "/"
  | modulo => "%"

end Operation

end RecordSieve
