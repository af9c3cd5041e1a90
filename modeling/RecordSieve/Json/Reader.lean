import RecordSieve.Json.Fault
import RecordSieve.Json.Number

/-! # Reading JSON

One document from a text. Every reader takes the characters it is to read and returns what is
left, with a bound on its length, so that reading ends; a document may nest 127 arrays and
objects.

The program reads JSON with a library. Taken for granted of it are the grammar and the limit of the
nesting, what makes a number an integer and how another one is rounded, that the last of several
members of one name stands, and the texts and the places of its errors.
-/

namespace RecordSieve.Json

namespace Reader

/-- A flaw and the count of the bytes after its place. -/
structure Failure where
  flaw : Flaw
  left : Nat
deriving DecidableEq, Repr

/-- What was read and what is left, which has at most `bound` characters. -/
abbrev Read (α : Type) (bound : Nat) := Except Failure (α × { r : List Char // r.length ≤ bound })

variable {α : Type} {m n : Nat}

def Read.widen (h : m ≤ n) : Read α m → Read α n
  | .ok (a, ⟨r, hr⟩) => .ok (a, ⟨r, Nat.le_trans hr h⟩)
  | .error e => .error e

def failHere (flaw : Flaw) (s : List Char) : Read α n := .error ⟨flaw, byteCount s⟩

/-- Fails after the first byte of the text that is left, or at its end. -/
def failNext (flaw : Flaw) (s : List Char) : Read α n := .error ⟨flaw, byteCount s - 1⟩

def isSpace (c : Char) : Bool := c = ' ' || c = '\t' || c = '\n' || c = '\r'

def skipSpace (s : List Char) : List Char := s.dropWhile isSpace

theorem length_dropWhile_le (p : Char → Bool) (s : List Char) :
    (s.dropWhile p).length ≤ s.length := (List.dropWhile_suffix p).length_le

theorem length_le_of_skipSpace {s r : List Char} {c : Char} (h : skipSpace s = c :: r) :
    r.length + 1 ≤ s.length := by
  have := length_dropWhile_le isSpace s
  simp only [skipSpace] at h
  rw [h] at this
  exact this

def word (a : α) : (letters s : List Char) → s.length ≤ n → Read α n
  | [], s, h => .ok (a, ⟨s, h⟩)
  | _ :: _, [], _ => failHere .endInValue []
  | l :: ls, c :: r, h =>
    if c = l then word a ls r (Nat.le_of_succ_le h) else failNext .expectedWord (c :: r)

/-- The value of the exponent digits at the start of a text and what follows them. An exponent of
31 bits or more has no value, and what follows the digit that makes it so is returned. -/
def exponentDigits (value : Nat) :
    (s : List Char) → Option Nat × { r : List Char // r.length ≤ s.length }
  | [] => (some value, ⟨[], Nat.le_refl _⟩)
  | c :: r =>
    if c.isDigit then
      let v := value * 10 + (c.toNat - '0'.toNat)
      if 2 ^ 31 ≤ v then (none, ⟨r, Nat.le_succ _⟩)
      else
        let (v, ⟨t, h⟩) := exponentDigits v r
        (v, ⟨t, Nat.le_succ_of_le h⟩)
    else (some value, ⟨c :: r, Nat.le_refl _⟩)

def real (negative : Bool) (s : Significand) (r : List Char) (h : r.length ≤ n) : Read Number n :=
  match s.toBinary64? negative with
  | some x => .ok (.real x, ⟨r, h⟩)
  | none => failHere .outOfRange r

def exponentTail (negative minus : Bool) (s : Significand) (r : List Char) (h : r.length ≤ n) :
    Read Number n :=
  match r with
  | [] => failHere .endInValue []
  | c :: t =>
    if c.isDigit then
      match exponentDigits 0 (c :: t) with
      | (some e, ⟨u, hu⟩) =>
        real negative ⟨s.value, if minus then s.exponent - e else s.exponent + e⟩ u
          (Nat.le_trans hu h)
      | (none, ⟨u, hu⟩) =>
        if s.value ≠ 0 ∧ !minus then failHere .outOfRange u
        else
          .ok (.real (.zero negative), ⟨u.dropWhile Char.isDigit,
            Nat.le_trans (length_dropWhile_le ..) (Nat.le_trans hu h)⟩)
    else failNext .invalidNumber (c :: t)

def exponent (negative : Bool) (s : Significand) (r : List Char) (h : r.length ≤ n) :
    Read Number n :=
  match r with
  | '+' :: t => exponentTail negative false s t (Nat.le_of_succ_le h)
  | '-' :: t => exponentTail negative true s t (Nat.le_of_succ_le h)
  | r => exponentTail negative false s r h

def numberTail (negative : Bool) (s : Significand) (r : List Char) (h : r.length ≤ n) :
    Read Number n :=
  match r with
  | '.' :: t =>
    let digits := t.takeWhile Char.isDigit
    if digits = [] then failNext (if t = [] then .endInValue else .invalidNumber) t
    else
      let u := t.dropWhile Char.isDigit
      have hu : u.length ≤ n := Nat.le_trans (length_dropWhile_le ..) (Nat.le_of_succ_le h)
      match u, hu with
      | 'e' :: v, hu => exponent negative (s.fraction digits) v (Nat.le_of_succ_le hu)
      | 'E' :: v, hu => exponent negative (s.fraction digits) v (Nat.le_of_succ_le hu)
      | u, hu => real negative (s.fraction digits) u hu
  | 'e' :: t => exponent negative s t (Nat.le_of_succ_le h)
  | 'E' :: t => exponent negative s t (Nat.le_of_succ_le h)
  | r =>
    match s.toNumber? negative with
    | some x => .ok (x, ⟨r, h⟩)
    | none => failHere .outOfRange r

/-- Reads a number that starts with `c`, its minus apart. -/
def number (negative : Bool) (c : Char) (r : List Char) : Read Number r.length :=
  if c = '0' then
    if (r.head?.map Char.isDigit).getD false then failNext .invalidNumber r
    else numberTail negative ⟨0, 0⟩ r (Nat.le_refl _)
  else if c.isDigit then
    numberTail negative (.whole 0 (c :: r.takeWhile Char.isDigit)) (r.dropWhile Char.isDigit)
      (length_dropWhile_le ..)
  else failNext .invalidNumber (c :: r)

def negativeNumber (s : List Char) : Read Number s.length :=
  match s with
  | [] => failHere .endInValue []
  | c :: r => (number true c r).widen (Nat.le_succ _)

def hexDigit? (c : Char) : Option Nat :=
  if c.isDigit then some (c.toNat - '0'.toNat)
  else if 'a' ≤ c ∧ c ≤ 'f' then some (c.toNat - 'a'.toNat + 10)
  else if 'A' ≤ c ∧ c ≤ 'F' then some (c.toNat - 'A'.toNat + 10)
  else none

def hexValue? (s : List Char) : Option Nat :=
  s.foldlM (fun n c => (hexDigit? c).map (n * 16 + ·)) 0

/-- Reads four hexadecimal digits; they are taken as four bytes even if they are none. -/
def fourDigits (s : List Char) : Read Nat s.length :=
  match hexValue? (s.take 4) with
  | some v =>
    if s.length < 4 then .error ⟨.endInString, 0⟩
    else .ok (v, ⟨s.drop 4, by simp⟩)
  | none =>
    if byteCount s < 4 then .error ⟨.endInString, 0⟩
    else .error ⟨.invalidEscape, byteCount s - 4⟩

def lowSurrogate (high : Nat) (s : List Char) : Read Char s.length :=
  match s with
  | [] => failHere .endInString []
  | '\\' :: [] => failHere .endInString []
  | '\\' :: 'u' :: r =>
    match fourDigits r with
    | .error e => .error e
    | .ok (low, ⟨t, h⟩) =>
      if 0xDC00 ≤ low ∧ low ≤ 0xDFFF then
        .ok (Char.ofNat (0x10000 + (high - 0xD800) * 0x400 + (low - 0xDC00)),
          ⟨t, by simp only [List.length_cons]; omega⟩)
      else failHere .loneSurrogate t
  | '\\' :: r => failNext .unfinishedSurrogates r
  | s => failNext .unfinishedSurrogates s

def codeEscape (s : List Char) : Read Char s.length :=
  match fourDigits s with
  | .error e => .error e
  | .ok (v, ⟨r, h⟩) =>
    if 0xDC00 ≤ v ∧ v ≤ 0xDFFF then failHere .loneSurrogate r
    else if 0xD800 ≤ v ∧ v ≤ 0xDBFF then (lowSurrogate v r).widen h
    else .ok (Char.ofNat v, ⟨r, h⟩)

def escaped (s : List Char) : Read Char s.length :=
  match s with
  | [] => failHere .endInString []
  | '"' :: r => .ok ('"', ⟨r, Nat.le_succ _⟩)
  | '\\' :: r => .ok ('\\', ⟨r, Nat.le_succ _⟩)
  | '/' :: r => .ok ('/', ⟨r, Nat.le_succ _⟩)
  | 'b' :: r => .ok ('\x08', ⟨r, Nat.le_succ _⟩)
  | 'f' :: r => .ok ('\x0c', ⟨r, Nat.le_succ _⟩)
  | 'n' :: r => .ok ('\n', ⟨r, Nat.le_succ _⟩)
  | 'r' :: r => .ok ('\r', ⟨r, Nat.le_succ _⟩)
  | 't' :: r => .ok ('\t', ⟨r, Nat.le_succ _⟩)
  | 'u' :: r => (codeEscape r).widen (Nat.le_succ _)
  | s => failNext .invalidEscape s

/-- Reads a string after its opening quote; `done` holds its characters so far, last first. -/
def string (done : List Char) (s : List Char) (h : s.length ≤ n) : Read String n :=
  match s, h with
  | [], _ => failHere .endInString []
  | '"' :: r, h => .ok (String.ofList done.reverse, ⟨r, Nat.le_of_succ_le h⟩)
  | '\\' :: r, h =>
    match escaped r with
    | .error e => .error e
    | .ok (c, ⟨t, _⟩) =>
      string (c :: done) t (by simp only [List.length_cons] at h; omega)
  | c :: r, h =>
    if c.toNat < 0x20 then failNext .controlCharacter (c :: r)
    else string (c :: done) r (Nat.le_of_succ_le h)
termination_by s.length

/-- Reads the items of an array up to its end, the next of them being due. -/
def items (item : Char → (r : List Char) → Read Json r.length) (done : List Json) (s : List Char)
    (h : s.length ≤ n) : Read Json n :=
  match hs : skipSpace s with
  | [] => failNext .endInValue []
  | c :: r =>
    have hr := length_le_of_skipSpace hs
    if c = ']' then failNext .trailingComma (c :: r)
    else
      match item c r with
      | .error e => .error e
      | .ok (j, ⟨t, ht⟩) =>
        match hu : skipSpace t with
        | [] => failNext .endInArray []
        | d :: u =>
          have := length_le_of_skipSpace hu
          if d = ',' then items item (j :: done) u (by omega)
          else if d = ']' then .ok (.array (j :: done).reverse, ⟨u, by omega⟩)
          else failNext .expectedItemEnd (d :: u)
termination_by s.length

def members (item : Char → (r : List Char) → Read Json r.length) (done : List (String × Json))
    (s : List Char) (h : s.length ≤ n) : Read Json n :=
  match hs : skipSpace s with
  | [] => failNext .endInValue []
  | c :: r =>
    have hr := length_le_of_skipSpace hs
    if c = '}' then failNext .trailingComma (c :: r)
    else if c ≠ '"' then failNext .keyNotString (c :: r)
    else
      match string [] r (Nat.le_refl r.length) with
      | .error e => .error e
      | .ok (key, ⟨t, ht⟩) =>
        match hu : skipSpace t with
        | [] => failNext .endInObject []
        | d :: u =>
          have := length_le_of_skipSpace hu
          if d ≠ ':' then failNext .expectedColon (d :: u)
          else
            match hv : skipSpace u with
            | [] => failNext .endInValue []
            | e :: v =>
              have := length_le_of_skipSpace hv
              match item e v with
              | .error e => .error e
              | .ok (j, ⟨w, hw⟩) =>
                match hx : skipSpace w with
                | [] => failNext .endInObject []
                | f :: x =>
                  have := length_le_of_skipSpace hx
                  if f = ',' then members item ((key, j) :: done) x (by omega)
                  else if f = '}' then
                    .ok (.object (Members.ofList ((key, j) :: done).reverse), ⟨x, by omega⟩)
                  else failNext .expectedMemberEnd (f :: x)
termination_by s.length

def array (item : Char → (r : List Char) → Read Json r.length) (s : List Char) :
    Read Json s.length :=
  match h : skipSpace s with
  | [] => failNext .endInArray []
  | c :: r =>
    if c = ']' then .ok (.array [], ⟨r, by have := length_le_of_skipSpace h; omega⟩)
    else items item [] s (Nat.le_refl _)

def object (item : Char → (r : List Char) → Read Json r.length) (s : List Char) :
    Read Json s.length :=
  match h : skipSpace s with
  | [] => failNext .endInObject []
  | c :: r =>
    if c = '}' then .ok (.object [], ⟨r, by have := length_le_of_skipSpace h; omega⟩)
    else members item [] s (Nat.le_refl _)

/-- Reads a document that starts with `c` and nests at most `depth` arrays and objects. -/
def value (depth : Nat) (c : Char) (r : List Char) : Read Json r.length :=
  match depth, c with
  | 0, '[' => failNext .tooDeep (c :: r)
  | 0, '{' => failNext .tooDeep (c :: r)
  | depth + 1, '[' => array (value depth) r
  | depth + 1, '{' => object (value depth) r
  | _, '"' => (string [] r (Nat.le_refl _)).map fun (s, t) => (.string s, t)
  | _, '-' => (negativeNumber r).map fun (x, t) => (.number x, t)
  | _, 't' => word (.bool true) "rue".toList r (Nat.le_refl _)
  | _, 'f' => word (.bool false) "alse".toList r (Nat.le_refl _)
  | _, 'n' => word .null "ull".toList r (Nat.le_refl _)
  | _, c =>
    if c.isDigit then (number false c r).map fun (x, t) => (.number x, t)
    else failNext .expectedValue (c :: r)

def nestingLimit : Nat := 127

def document (s : List Char) : Except Failure Json :=
  match skipSpace s with
  | [] => .error ⟨.endInValue, 0⟩
  | c :: r =>
    match value nestingLimit c r with
    | .error e => .error e
    | .ok (j, ⟨t, _⟩) =>
      match skipSpace t with
      | [] => .ok j
      | u => .error ⟨.trailingText, byteCount u - 1⟩

end Reader

def read (s : String) : Except Fault Json :=
  match Reader.document s.toList with
  | .ok j => .ok j
  | .error ⟨flaw, left⟩ =>
    let (line, column) := locate 1 0 s.toList (byteCount s.toList - left)
    .error ⟨flaw, line, column⟩

end RecordSieve.Json
