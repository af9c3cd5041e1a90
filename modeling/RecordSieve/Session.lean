import RecordSieve.Filter
import RecordSieve.Store

/-! # Sessions

A plan filters one source after another into one output. Kept records go through a buffer that is
emptied when it is full and at the end of every source; failures are written at once. A source is
read until there is nothing more in it, so that what is written to it meanwhile is read too.
-/

namespace RecordSieve

inductive Source
  | given (bytes : List UInt8)
  | file (place : Place)
deriving DecidableEq

/-- A file that is being written, from a position on, and the bytes still to be written to it. -/
structure Writer where
  place : Place
  position : Nat
  pending : Array UInt8

/-- Output and failures go to files where there are any, else to the standard streams. -/
structure Session where
  store : Store
  output : Option Writer
  errors : Option Place
  stdout : Array UInt8
  stderr : Array UInt8
  tally : Tally

def Source.content (s : Store) : Source → List UInt8
  | given bytes => bytes
  | file p => s.content p

namespace Session

def bufferSize : Nat := 8192

def flush (s : Session) : Session :=
  match s.output with
  | none => s
  | some w =>
    if w.pending.isEmpty then s
    else
      { s with
        store := s.store.writeAt w.place w.position w.pending.toList
        output := some ⟨w.place, w.position + w.pending.size, #[]⟩ }

/-- Writes bytes through the buffer, which is emptied first if they do not fit; bytes that would
fill it alone are not kept in it. -/
def write (s : Session) (bytes : List UInt8) : Session :=
  match s.output with
  | none => { s with stdout := s.stdout.appendList bytes }
  | some w =>
    if bytes.length < bufferSize ∧ w.pending.size + bytes.length ≤ bufferSize then
      { s with output := some { w with pending := w.pending.appendList bytes } }
    else
      let t := { s.flush with
        output := some ⟨w.place, w.position + w.pending.size, bytes.toArray⟩ }
      if bytes.length < bufferSize then t else t.flush

def report (s : Session) (bytes : List UInt8) : Session :=
  match s.errors with
  | none => { s with stderr := s.stderr.appendList bytes }
  | some p => { s with store := s.store.append p bytes }

def take (s : Session) (o : Outcome) : Session :=
  let s := { s with tally := s.tally + o.tally }
  match o with
  | .kept text => (s.write (Text.encode text.toList)).write [Plan.newline]
  | .failed _ => s.report (Text.encode o.errors)
  | _ => s

def feed (p : Plan) (s : Session) (number : Nat) : List (List UInt8) → Session
  | [] => s
  | line :: rest => feed p (s.take (p.outcome number line)) (number + 1) rest

/-- The lines that end in a newline, and what comes after the last of them. -/
def completeLines (bytes : List UInt8) : List (List UInt8) × List UInt8 :=
  let pieces := bytes.splitOn Plan.newline
  (pieces.dropLast, pieces.getLastD [])

/-- Filters a source of which `consumed` bytes have been read, those of an unfinished line among
them. Looks at most `looks` times for more. -/
def drain (p : Plan) (source : Source) :
    (looks consumed number : Nat) → (unfinished : List UInt8) → Session → Option Session
  | 0, _, _, _, _ => none
  | looks + 1, consumed, number, unfinished, s =>
    let fresh := (source.content s.store).drop consumed
    if fresh = [] ∧ unfinished = [] then some s.flush
    else
      let (lines, unfinished) :=
        if fresh = [] then ([unfinished], []) else completeLines (unfinished ++ fresh)
      drain p source looks (consumed + fresh.length) (number + lines.length) unfinished
        (s.feed p number lines)

/-- How often a source is looked at. One that does not grow while it is filtered needs three looks.
The program that is described has no such bound: on a source that has grown at every look it goes on
without end. The bound is there for `drain` to have a value. -/
def maxLooks : Nat := 4096

/-- Why filtering stops before the end. Only a source that cannot be read stops the program;
`endless` stands for runs that do not end. -/
inductive Halt
  | unreadable (e : FileError)
  | endless
deriving DecidableEq, Repr

/-- Filters sources in turn, up to the first that cannot be read. -/
def drainAll (p : Plan) (s : Session) : List Source → Session × Except Halt Unit
  | [] => (s, .ok ())
  | source :: rest =>
    let readable := match source with
      | .given _ => true
      | .file place => !s.store.isDirectory place
    if readable then
      match drain p source maxLooks 0 1 [] s with
      | some s => drainAll p s rest
      | none => (s, .error .endless)
    else (s, .error (.unreadable .isDirectory))

end Session

end RecordSieve
