import RecordSieve.Text.Utf8

/-! # Stores of files

Files and directories by place. A path leads to a place through directories that exist; whether
there is something at the place itself is another question, so that a path can also name a file to
create. A path with a slash at its end can only name a directory.

Places are canonical: a file has one place, and any other way to it is entered as a link to that
place. A store cannot tell by itself how the working directory is reached from the root or from
above it. Whoever fills a store resolves such ways, and symbolic links, and enters a link for each;
a way for which none is entered leads to a place of its own, and two hard links are two files.
-/

namespace RecordSieve

/-- The names on the way to an entry, from the working directory; those of an absolute path start
with a slash, and those of a path out of the working directory with dots. -/
abbrev Place := List String

/-- Whether a place is the root, the working directory, or above it. -/
def Place.isBase (p : Place) : Bool := p = ["/"] || p.all (· = "..")

/-- Where a name leads from a directory, if not to a link. -/
def Place.next (p : Place) (name : String) : Place :=
  if name = "" ∨ name = "." then p
  else if name ≠ ".." then p ++ [name]
  else if p = ["/"] then p
  else if p.isBase then p ++ [name]
  else p.dropLast

inductive Entry
  | file (content : List UInt8)
  | directory
  | link (target : Place)
deriving DecidableEq

inductive FileError
  | missing
  | notDirectory
  | isDirectory
  | notText
deriving DecidableEq, Repr

def FileError.message : FileError → String
  | missing => "No such file or directory (os error 2)"
  | notDirectory => "Not a directory (os error 20)"
  | isDirectory => "Is a directory (os error 21)"
  | notText => "stream did not contain valid UTF-8"

structure Store where
  entries : List (Place × Entry)

namespace Store

/-- The entry at a place; the working directory, those above it and the root are always there. -/
def get? (s : Store) (p : Place) : Option Entry :=
  if p.isBase then some .directory else s.entries.lookup p

def put (s : Store) (p : Place) (e : Entry) : Store :=
  ⟨(p, e) :: s.entries.filter fun q => q.1 ≠ p⟩

theorem get?_put_self {s : Store} {p : Place} {e : Entry} (h : p.isBase = false) :
    (s.put p e).get? p = some e := by
  simp [get?, put, h]

theorem lookup_filter_ne {l : List (Place × Entry)} {p q : Place} (h : q ≠ p) :
    (l.filter fun r => r.1 ≠ p).lookup q = l.lookup q := by
  induction l with
  | nil => rfl
  | cons r rest ih =>
    obtain ⟨a, e⟩ := r
    by_cases ha : a = p
    · have hq : (q == a) = false := by simp [ha, h]
      simp only [List.filter_cons, ha, ne_eq, not_true_eq_false, decide_false, Bool.false_eq_true,
        if_false]
      rw [← ha, List.lookup_cons, hq, ha]
      exact ih
    · simp only [List.filter_cons, ne_eq, ha, not_false_eq_true, decide_true, if_true,
        List.lookup_cons]
      rw [← ih]

theorem lookup_put_ne {s : Store} {p q : Place} {e : Entry} (h : q ≠ p) :
    (s.put p e).entries.lookup q = s.entries.lookup q := by
  have hq : (q == p) = false := by simp [h]
  simp only [put, List.lookup_cons, hq, lookup_filter_ne h]

theorem get?_put_ne {s : Store} {p q : Place} {e : Entry} (h : q ≠ p) :
    (s.put p e).get? q = s.get? q := by
  simp only [get?, lookup_put_ne h]

def link? (s : Store) (p : Place) : Option Place :=
  match s.entries.lookup p with
  | some (.link target) => some target
  | _ => none

/-- The place that is meant by another one. The target of a link is canonical, so that a link to a
link leads nowhere. -/
def follow (s : Store) (p : Place) : Except FileError Place :=
  match s.link? p with
  | none => .ok p
  | some target => if (s.link? target).isSome then .error .missing else .ok target

/-- One step of a path, which only a directory allows. -/
def enter (s : Store) (p : Place) (name : String) : Except FileError Place :=
  match s.get? p with
  | some .directory => s.follow (p.next name)
  | some (.file _) => .error .notDirectory
  | _ => .error .missing

def start (path : List Char) : Place := if path.head? = some '/' then ["/"] else []

/-- The place that a path leads to; an empty path leads nowhere. -/
def locate (s : Store) (path : String) : Except FileError Place :=
  if path = "" then .error .missing
  else do
    let p ← s.follow (start path.toList)
    ((path.toList.splitOn '/').map String.ofList).foldlM s.enter p

def content (s : Store) (p : Place) : List UInt8 :=
  match s.get? p with
  | some (.file bytes) => bytes
  | _ => []

def isDirectory (s : Store) (p : Place) : Bool := s.get? p = some .directory

/-- The place of something that exists. A directory opens like a file and fails when it is read.
-/
def openRead (s : Store) (path : String) : Except FileError Place := do
  let p ← s.locate path
  if (s.get? p).isSome then return p else throw .missing

def readText (s : Store) (path : String) : Except FileError (List Char) := do
  let p ← s.openRead path
  match s.get? p with
  | some (.file bytes) => (Text.decode bytes).mapError fun _ => .notText
  | _ => .error .isDirectory

/-- The place of a file to write, which may have to be created. Slashes at the end of its path are
refused as a directory even if there is none, once the way to it is clear. -/
def locateFile (s : Store) (path : String) : Except FileError Place := do
  let trimmed := path.toList.reverse.dropWhile (· = '/')
  let p ← s.locate (if trimmed = [] then path else String.ofList trimmed.reverse)
  if path.toList.getLast? = some '/' ∨ s.isDirectory p then throw .isDirectory else return p

def create (s : Store) (path : String) : Except FileError (Store × Place) := do
  let p ← s.locateFile path
  return (s.put p (.file []), p)

def openAppend (s : Store) (path : String) : Except FileError (Store × Place) := do
  let p ← s.locateFile path
  return (if (s.get? p).isSome then s else s.put p (.file []), p)

/-- Writes bytes at a position of a file, over what is there. -/
def writeAt (s : Store) (p : Place) (position : Nat) (bytes : List UInt8) : Store :=
  let old := s.content p
  s.put p (.file (old.take position ++ List.replicate (position - old.length) 0 ++ bytes ++
    old.drop (position + bytes.length)))

def append (s : Store) (p : Place) (bytes : List UInt8) : Store :=
  s.put p (.file (s.content p ++ bytes))

end Store

end RecordSieve
