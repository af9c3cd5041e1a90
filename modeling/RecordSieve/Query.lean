import RecordSieve.Expr.Parser
import RecordSieve.Token.Lexer

/-! # Queries

A query is `select`, a list of fields, `from t` and, if records are to be chosen, `where` and a
condition. Its plan is the fields and the condition. The first step of reading that fails gives
the error: the tokens, then the shape of the query from left to right, then the condition.
-/

namespace RecordSieve

/-- The field that stands for the whole record. -/
def wholeRecord : String := "*"

def theTable : String := "t"

structure Plan where
  fields : List String
  predicate : Expr

def Plan.passesWhole (p : Plan) : Bool := p.fields = [wholeRecord]

inductive ShapeError
  | empty
  | noSelect (found : Token)
  | noFrom
  | wrongTable (table : Token)
  | noFields
  | strayField (found : Token)
  | noWhere (found : Token) (position : Nat)
  | noCondition
deriving DecidableEq, Repr

def ShapeError.message : ShapeError → String
  | empty => "empty query"
  | noSelect found => "query must start with `select`, found `" ++ found.spelling ++ "`"
  | noFrom => "missing `from t`"
  | wrongTable table => "unknown table `" ++ table.spelling ++ "`, only `t` is supported"
  | noFields => "no fields selected"
  | strayField found => "invalid field `" ++ found.spelling ++ "` in select list"
  | noWhere found position =>
    "expected `where` after `from t`, found `" ++ found.spelling ++ "` at token " ++
      toString position
  | noCondition => "empty `where` clause"

inductive QueryError
  | lex (e : LexError)
  | shape (e : ShapeError)
  | parse (e : ParseError)

def QueryError.message : QueryError → String
  | lex e => "tokenize error: " ++ e.message
  | shape e => "syntax error: " ++ e.message
  | parse e => "parse error: " ++ e.message

namespace Query

/-- Splits tokens at the first `from` with the table's name after it, and drops both. If there is
none, the token after the first `from` is the unknown table. -/
def splitFrom (unknown : Option Token) : List Token → Except ShapeError (List Token × List Token)
  | a :: b :: rest =>
    if a.spells "from" ∧ b.spells theTable then .ok ([], rest)
    else
      (fun (fields, clause) => (a :: fields, clause)) <$>
        splitFrom (if a.spells "from" then unknown.or (some b) else unknown) (b :: rest)
  | _ =>
    match unknown with
    | some t => .error (.wrongTable t)
    | none => .error .noFrom

/-- The fields that a token of the list names: none for a comma. -/
def selected (t : Token) : Except ShapeError (List String) :=
  match t.kind with
  | .word | .string | .number => .ok [t.text]
  | .operator => if t.text = wholeRecord then .ok [t.text] else .error (.strayField t)
  | .separator => if t.separatesItems then .ok [] else .error (.strayField t)
  | .leftParen | .rightParen => .error (.strayField t)

def fieldList (ts : List Token) : Except ShapeError (List String) := do
  let fields ← ts.mapM selected
  if fields.flatten = [] then .error .noFields else return fields.flatten

/-- Reads what follows the table's name, which is token number `position`. -/
def condition (position : Nat) : List Token → Except QueryError Expr
  | [] => .ok .always
  | t :: rest =>
    if t.spells "where" then
      if rest = [] then .error (.shape .noCondition)
      else (Expr.predicateOfTokens rest).mapError .parse
    else .error (.shape (.noWhere t position))

end Query

def Plan.ofTokens : List Token → Except QueryError Plan
  | [] => .error (.shape .empty)
  | t :: rest =>
    if t.spells "select" then do
      let (list, clause) ← (Query.splitFrom none rest).mapError .shape
      let fields ← (Query.fieldList list).mapError .shape
      let predicate ← Query.condition (list.length + 3) clause
      return ⟨fields, predicate⟩
    else .error (.shape (.noSelect t))

def Plan.ofText (query : String) : Except QueryError Plan := do
  let ts ← (Token.ofText query).mapError .lex
  ofTokens ts

end RecordSieve
