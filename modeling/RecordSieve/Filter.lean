import RecordSieve.Json.Writer
import RecordSieve.Record
import RecordSieve.Text.Utf8

/-! # Filtering

A plan applied to lines of bytes, one record a line. Blank lines are passed over, and a line that
fails is reported by its number and does not stop the run, so that no line bears on another.
-/

namespace RecordSieve

inductive Failure.Cause
  | json (e : Json.Fault)
  | utf8 (e : Text.Malformed)
  | eval (e : EvalError)

/-- Why the line of a number, counted from one, could not be processed. -/
structure Failure where
  line : Nat
  cause : Failure.Cause

def Failure.Cause.message : Failure.Cause → String
  | json e => "invalid JSON: " ++ e.message
  | utf8 e => "invalid UTF-8: " ++ e.message
  | eval e => e.message

def Failure.message (f : Failure) : String :=
  "line " ++ toString f.line ++ ": " ++ f.cause.message

structure Tally where
  read : Nat
  kept : Nat
  dropped : Nat
  failed : Nat
deriving DecidableEq, Repr

namespace Tally

def zero : Tally := ⟨0, 0, 0, 0⟩

def add (a b : Tally) : Tally :=
  ⟨a.read + b.read, a.kept + b.kept, a.dropped + b.dropped, a.failed + b.failed⟩

instance : Add Tally := ⟨add⟩

end Tally

structure Report where
  kept : Array String
  failures : Array Failure
  tally : Tally

inductive Outcome
  | blank
  | kept (text : String)
  | dropped
  | failed (f : Failure)

namespace Outcome

def output : Outcome → List Char
  | kept text => text.toList ++ ['\n']
  | _ => []

def errors : Outcome → List Char
  | failed f => ("check line error: " ++ f.message).toList ++ ['\n']
  | _ => []

def tally : Outcome → Tally
  | blank => .zero
  | kept _ => ⟨1, 1, 0, 0⟩
  | dropped => ⟨1, 0, 1, 0⟩
  | failed _ => ⟨1, 0, 0, 1⟩

end Outcome

namespace Report

def empty : Report := ⟨#[], #[], .zero⟩

def countRead (r : Report) : Report := { r with tally.read := r.tally.read + 1 }

/-- Takes in what became of one line, and counts it unless it is blank. -/
def push (r : Report) (o : Outcome) : Report :=
  match o with
  | .blank => r
  | .kept text =>
    { r.countRead with kept := r.kept.push text, tally.kept := r.tally.kept + 1 }
  | .dropped => { r.countRead with tally.dropped := r.tally.dropped + 1 }
  | .failed f =>
    { r.countRead with failures := r.failures.push f, tally.failed := r.tally.failed + 1 }

def output (r : Report) : List Char := r.kept.toList.flatMap fun t => (Outcome.kept t).output

def errors (r : Report) : List Char := r.failures.toList.flatMap fun f => (Outcome.failed f).errors

end Report

namespace Plan

def keeps (p : Plan) (r : Record) : Except EvalError Bool :=
  (p.predicate.evalTruth r.view).result

def emit (p : Plan) (r : Record) : Except EvalError String :=
  if p.passesWhole then .ok r.raw else Json.text <$> r.pick p.fields

/-- Applies the plan to the line of a number; there is no text if the record is dropped. -/
def filterLine (p : Plan) (number : Nat) (line : String) : Except Failure (Option String) := do
  let r ← (Record.read line).mapError fun e => ⟨number, .json e⟩
  let keep ← (p.keeps r).mapError fun e => ⟨number, .eval e⟩
  if keep then some <$> (p.emit r).mapError fun e => ⟨number, .eval e⟩
  else return none

def newline : UInt8 := 10

def carriageReturn : UInt8 := 13

def stripReturn (line : List UInt8) : List UInt8 :=
  if line.getLast? = some carriageReturn then line.dropLast else line

/-- What becomes of the line of a number, given without its newline. -/
def outcome (p : Plan) (number : Nat) (line : List UInt8) : Outcome :=
  match Text.decode (stripReturn line) with
  | .error e => .failed ⟨number, .utf8 e⟩
  | .ok s =>
    if s.all Text.isBlank then .blank
    else
      match p.filterLine number (String.ofList s) with
      | .ok (some text) => .kept text
      | .ok none => .dropped
      | .error f => .failed f

def splitLine (input : List UInt8) : List UInt8 × List UInt8 :=
  (input.takeWhile (· ≠ newline), (input.dropWhile (· ≠ newline)).drop 1)

theorem length_splitLine_lt {b : UInt8} {rest : List UInt8} :
    (splitLine (b :: rest)).2.length < (b :: rest).length := by
  have h := (List.dropWhile_suffix (l := rest) (· ≠ newline)).length_le
  unfold splitLine
  rw [List.dropWhile_cons]
  split
  · exact Nat.lt_succ_of_le (Nat.le_trans (List.drop_suffix ..).length_le h)
  · simp

/-- Reads lines from number `number` on and adds what becomes of them to a report. -/
def filterFrom (p : Plan) (number : Nat) (report : Report) (input : List UInt8) : Report :=
  match input with
  | [] => report
  | b :: rest =>
    p.filterFrom (number + 1) (report.push (p.outcome number (splitLine (b :: rest)).1))
      (splitLine (b :: rest)).2
termination_by input.length
decreasing_by exact length_splitLine_lt

def filter (p : Plan) (input : List UInt8) : Report := p.filterFrom 1 .empty input

end Plan

end RecordSieve
