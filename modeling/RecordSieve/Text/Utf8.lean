/-! # UTF-8

Bytes of a text and the text of bytes. Decoding reads one byte at a time and stops at the first
sequence that is not well formed; it tells a wrong byte from an end inside a sequence.
-/

namespace RecordSieve.Text

/-- Why bytes are no text. Positions count bytes from the start. -/
inductive Malformed
  | invalid (length start : Nat)
  | incomplete (start : Nat)
deriving DecidableEq, Repr

def Malformed.message : Malformed → String
  | .invalid length start => s!"invalid utf-8 sequence of {length} bytes from index {start}"
  | .incomplete start => s!"incomplete utf-8 byte sequence from index {start}"

/-- A sequence of which some bytes are still to come, the next of them within bounds. -/
structure Sequence where
  start : Nat
  more : Nat
  bits : Nat
  low : Nat := 0x80
  high : Nat := 0xBF
deriving DecidableEq, Repr

def Sequence.open? (start byte : Nat) : Option Sequence :=
  if byte < 0x80 then some { start, more := 0, bits := byte }
  else if byte < 0xC2 then none
  else if byte < 0xE0 then some { start, more := 1, bits := byte - 0xC0 }
  else if byte < 0xF0 then
    some { start, more := 2, bits := byte - 0xE0,
           low := if byte = 0xE0 then 0xA0 else 0x80, high := if byte = 0xED then 0x9F else 0xBF }
  else if byte < 0xF5 then
    some { start, more := 3, bits := byte - 0xF0,
           low := if byte = 0xF0 then 0x90 else 0x80, high := if byte = 0xF4 then 0x8F else 0xBF }
  else none

def Sequence.extend? (s : Sequence) (byte : Nat) : Option Sequence :=
  if s.low ≤ byte ∧ byte ≤ s.high then
    some { start := s.start, more := s.more - 1, bits := s.bits * 64 + (byte - 0x80) }
  else none

/-- Decodes from position `index` on, after the characters `done` (last first) and the bytes of an
unfinished sequence. -/
def decodeFrom (index : Nat) (done : List Char) :
    Option Sequence → List UInt8 → Except Malformed (List Char)
  | none, [] => .ok done.reverse
  | some s, [] => .error (.incomplete s.start)
  | none, b :: rest =>
    match Sequence.open? index b.toNat with
    | none => .error (.invalid 1 index)
    | some s =>
      if s.more = 0 then decodeFrom (index + 1) (Char.ofNat s.bits :: done) none rest
      else decodeFrom (index + 1) done (some s) rest
  | some s, b :: rest =>
    match s.extend? b.toNat with
    | none => .error (.invalid (index - s.start) s.start)
    | some s =>
      if s.more = 0 then decodeFrom (index + 1) (Char.ofNat s.bits :: done) none rest
      else decodeFrom (index + 1) done (some s) rest

def decode (bytes : List UInt8) : Except Malformed (List Char) := decodeFrom 0 [] none bytes

def encode (s : List Char) : List UInt8 := s.flatMap String.utf8EncodeChar

@[simp] theorem encode_nil : encode [] = [] := rfl

@[simp] theorem encode_append (s t : List Char) : encode (s ++ t) = encode s ++ encode t := by
  simp [encode]

end RecordSieve.Text
