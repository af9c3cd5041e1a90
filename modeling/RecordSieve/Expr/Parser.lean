import RecordSieve.Expr.Printer
import RecordSieve.Token

/-! # Expressions of tokens

A span of tokens is cut at its first connective outside parentheses, else at its first comparison,
else at its first operation between operands, and both sides are read in the same way, so that a
chain of one tier groups to the right. Parentheses around a whole span are taken off first. What
has no operator is a sign before an operand, a test of a single key, or a single token.
-/

namespace RecordSieve

inductive Side
  | left
  | right
deriving DecidableEq, Repr

def Side.name : Side → String
  | left => "left"
  | right => "right"

/-- How an error text names a capability that is missing. -/
def Capability.demand : Capability → String
  | value => "a value"
  | numeric => "numeric"
  | predicate => "a predicate"

/-- How deep parentheses, signs and operators of one span may nest. -/
def nestingLimit : Nat := 256

inductive ParseError
  | empty
  | noOperand (op : Token) (side : Side)
  | unbalanced (span : List Token)
  | tooDeep
  | incapable (op : Token) (side : Side) (needed : Capability) (operand : Expr)
  | stray (token : Token)
  | noNumeral (text : String)
  | noKey (keyword : String) (found : Token)
  | badItem (items : List Token)
  | shapeless (span : List Token)
  | indecisive (e : Expr)

def ParseError.message : ParseError → String
  | empty => "empty expression"
  | noOperand op side => "missing " ++ side.name ++ " operand of `" ++ op.spelling ++ "`"
  | unbalanced span => "unbalanced parentheses in `" ++ Token.phrase span ++ "`"
  | tooDeep => s!"expression nested more than {nestingLimit} levels deep"
  | incapable op side needed operand =>
    side.name ++ " operand of `" ++ op.spelling ++ "` must be " ++ needed.demand ++ ", found `" ++
      operand.render ++ "`"
  | stray token => "unexpected token `" ++ token.spelling ++ "`"
  | noNumeral text => "invalid number `" ++ text ++ "`"
  | noKey keyword found =>
    "expected a field name before `" ++ keyword ++ "`, found `" ++ found.spelling ++ "`"
  | badItem items => "invalid value list `" ++ Token.phrase items ++ "`"
  | shapeless span => "unrecognized expression shape: `" ++ Token.phrase span ++ "`"
  | indecisive e => "expression is not a predicate: `" ++ e.render ++ "`"

namespace Token

def connective? (t : Token) : Option Connective :=
  if t.spells "and" then some .and else if t.spells "or" then some .or else none

def comparison? (t : Token) : Option Comparison :=
  if t.kind = .operator then Comparison.ofSymbol? t.text else none

/-- The operation of an operator, or of a star that stands as a word. -/
def operation? (t : Token) : Option Operation :=
  if t.kind = .operator then Operation.ofSymbol? t.text
  else if t.kind = .word ∧ t.text = "*" then some .multiply
  else none

def endsOperand (t : Token) : Bool :=
  match t.kind with
  | .string | .number | .rightParen => true
  | .word => t.operation?.isNone
  | .operator | .separator | .leftParen => false

def sign? (t : Token) : Option Bool :=
  if t.kind ≠ .operator then none
  else if t.text = "-" then some true
  else if t.text = "+" then some false
  else none

end Token

namespace Expr.Parser

variable {α : Type}

/-- Whether parentheses are balanced, `depth` of them being open. -/
def isBalanced (depth : Nat) : List Token → Bool
  | [] => depth = 0
  | t :: rest =>
    if t.opens then isBalanced (depth + 1) rest
    else if t.closes then depth ≠ 0 && isBalanced (depth - 1) rest
    else isBalanced depth rest

/-- What stands before a closing parenthesis that ends the span, `depth` others being open. -/
def untilLast? (depth : Nat) : List Token → Option (List Token)
  | [] => none
  | t :: rest =>
    if t.opens then (t :: ·) <$> untilLast? (depth + 1) rest
    else if t.closes then
      if depth = 0 then (if rest = [] then some [] else none)
      else (t :: ·) <$> untilLast? (depth - 1) rest
    else (t :: ·) <$> untilLast? depth rest

def enclosed? : List Token → Option (List Token)
  | [] => none
  | t :: rest => if t.opens then untilLast? 0 rest else none

structure Cut (α : Type) where
  before : List Token
  token : Token
  op : α
  after : List Token

/-- Cuts a span at the first token outside parentheses that is an operator in its place: after
`previous` and before the rest. -/
def cut? (operator? : (previous : Option Token) → Token → (rest : List Token) → Option α)
    (depth : Nat) (previous : Option Token) : List Token → Option (Cut α)
  | [] => none
  | t :: rest =>
    let further (depth : Nat) : Option (Cut α) :=
      (cut? operator? depth (some t) rest).map fun c => { c with before := t :: c.before }
    if t.opens then further (depth + 1)
    else if t.closes then further (depth - 1)
    else if depth ≠ 0 then further depth
    else
      match operator? previous t rest with
      | some op => some ⟨[], t, op, rest⟩
      | none => further 0

def logicalCut? (span : List Token) : Option (Cut Connective) :=
  cut? (fun _ t _ => t.connective?) 0 none span

def comparisonCut? (span : List Token) : Option (Cut Comparison) :=
  cut? (fun _ t _ => t.comparison?) 0 none span

/-- An operation stands after the end of an operand and before another token; elsewhere its symbol
is a sign. -/
def operationInPlace? (previous : Option Token) (t : Token) (rest : List Token) :
    Option Operation :=
  match previous with
  | none => none
  | some p => if p.endsOperand ∧ rest ≠ [] then t.operation? else none

def operationCut? (span : List Token) : Option (Cut Operation) :=
  cut? operationInPlace? 0 none span

def check (op : Token) (side : Side) (needed : Capability) (operand : Expr) :
    Except ParseError Unit :=
  if operand.has needed then .ok () else .error (.incapable op side needed operand)

/-- Reads both operands of a cut and then checks what they can. -/
def sides (read : List Token → Except ParseError Expr) (c : Cut α) (needed : Capability) :
    Except ParseError (Expr × Expr) :=
  if c.before = [] then .error (.noOperand c.token .left)
  else if c.after = [] then .error (.noOperand c.token .right)
  else do
    let l ← read c.before
    let r ← read c.after
    check c.token .left needed l
    check c.token .right needed r
    return (l, r)

/-- The expression after a minus: a literal is negated, all else is taken from zero. -/
def negate : Expr → Expr
  | .number x => .number x.neg
  | e => .arith .subtract (.number (.zero false)) e

def numberOf (t : Token) : Except ParseError Binary64 :=
  match Binary64.read? t.text.toList with
  | some x => .ok x
  | none => .error (.noNumeral t.text)

def single (t : Token) : Except ParseError Expr :=
  match t.kind with
  | .string => .ok (.text t.text)
  | .number => .number <$> numberOf t
  | .word => .ok (.field t.text)
  | _ => .error (.stray t)

def keyOf (keyword : String) (t : Token) : Except ParseError String :=
  if t.kind = .word then .ok t.text else .error (.noKey keyword t)

/-- The value of one item of the list `items`: a literal, a word, or a number with a sign. -/
def itemValue (items : List Token) : (item : List Token) → Except ParseError Value
  | [t] =>
    match t.kind with
    | .string | .word => .ok (.string t.text)
    | .number => .number <$> numberOf t
    | _ => .error (.badItem items)
  | [s, t] =>
    if t.kind = .number then
      match s.sign? with
      | some true => (fun x => .number x.neg) <$> numberOf t
      | some false => .number <$> numberOf t
      | none => .error (.badItem items)
    else .error (.badItem items)
  | _ => .error (.badItem items)

def listValues (items : List Token) : Except ParseError (List Value) :=
  (items.splitOnP Token.separatesItems).mapM (itemValue items)

/-- A test of a key as it stands after the key. -/
inductive Shape
  | like (pattern : String)
  | oneOf (items : List Token)

def Shape.keyword : Shape → String
  | like _ => "like"
  | oneOf _ => "in"

def Shape.test : Shape → Except ParseError FieldTest
  | like p => .ok (.like p)
  | oneOf items => .oneOf <$> listValues items

def nullShape? : List Token → Option Bool
  | [a, b] => if a.spells "is" ∧ b.spells "null" then some false else none
  | [a, b, c] => if a.spells "is" ∧ b.spells "not" ∧ c.spells "null" then some true else none
  | _ => none

def shape? : List Token → Option Shape
  | [a, b] => if a.spells "like" ∧ b.kind = .string then some (.like b.text) else none
  | a :: b :: rest =>
    if a.spells "in" ∧ b.opens ∧ (rest.getLast?.map Token.closes) = some true ∧
        rest.dropLast ≠ [] then
      some (.oneOf rest.dropLast)
    else none
  | _ => none

def splitNot : List Token → Bool × List Token
  | [] => (false, [])
  | t :: rest => if t.spells "not" then (true, rest) else (false, t :: rest)

def keyTest (span : List Token) : Except ParseError Expr :=
  match span with
  | [] => .error (.shapeless span)
  | key :: rest =>
    match nullShape? rest with
    | some negated => (.test · negated .null) <$> keyOf "is" key
    | none =>
      let (negated, rest) := splitNot rest
      match shape? rest with
      | none => .error (.shapeless span)
      | some shape => do
        let k ← keyOf (if negated then "not" else shape.keyword) key
        return .test k negated (← shape.test)

/-- Reads a span with at most `levels` levels of nesting. -/
def ofSpan : (levels : Nat) → (span : List Token) → Except ParseError Expr
  | 0, _ => .error .tooDeep
  | _ + 1, [] => .error .empty
  | _ + 1, [t] => single t
  | levels + 1, t :: u :: rest =>
    let span := t :: u :: rest
    match enclosed? span with
    | some inner => ofSpan levels inner
    | none =>
    match logicalCut? span with
    | some c => (fun (l, r) => .logical c.op l r) <$> sides (ofSpan levels) c .predicate
    | none =>
    match comparisonCut? span with
    | some c => (fun (l, r) => .compare c.op l r) <$> sides (ofSpan levels) c c.op.needs
    | none =>
    match operationCut? span with
    | some c => (fun (l, r) => .arith c.op l r) <$> sides (ofSpan levels) c .numeric
    | none =>
    match t.sign? with
    | some negative => do
      let e ← ofSpan levels (u :: rest)
      check t .right .numeric e
      return if negative then negate e else e
    | none => keyTest span

end Expr.Parser

def Expr.ofTokens (ts : List Token) : Except ParseError Expr :=
  if Parser.isBalanced 0 ts then Parser.ofSpan (nestingLimit + 1) ts else .error (.unbalanced ts)

def Expr.predicateOfTokens (ts : List Token) : Except ParseError Expr := do
  let e ← ofTokens ts
  if e.isDecision then return e else .error (.indecisive e)

end RecordSieve
