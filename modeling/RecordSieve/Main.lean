import RecordSieve.Command.Arguments

/-! # The program

Loads the files that the arguments name, each at its canonical place, lets the command answer, and
writes back what has changed.
-/

namespace RecordSieve.Command

def probe (path : String) : IO (Option Entry) := do
  try
    return some (.file (← IO.FS.readBinFile path).toList)
  catch
  | .noFileOrDirectory .. => return none
  | .inappropriateType _ code _ => return if code = 21 then some .directory else none
  | e => throw e

def namesOf (path : String) : List String :=
  ((path.toList.splitOn '/').filter (· ≠ [])).map String.ofList

/-- The place of a path from the root that has no links and dots on it. -/
def canonical (workingDirectory path : String) : Place :=
  let (here, names) := (namesOf workingDirectory, namesOf path)
  if here.isPrefixOf names then names.drop here.length else "/" :: names

/-- Loads what a path leads to; if not to the place itself, then by a link from it. -/
def loadPlace (workingDirectory : String) (s : Store) (place : Place) (path : String) :
    IO Store := do
  match ← probe path with
  | none => return s
  | some e =>
    let target := canonical workingDirectory (← IO.FS.realPath path).toString
    let s := if target = place then s else s.put place (.link target)
    return if (s.get? target).isSome then s else s.put target e

/-- Loads what is on the way of names from a place, to which a path has led. A link to nothing is
taken for a file that is still to be created. -/
def loadFrom (workingDirectory : String) (s : Store) (place : Place) (path : List Char) :
    List (List Char) → IO Store
  | [] => return s
  | name :: names => do
    let path := path ++ name
    let next := place.next (String.ofList name)
    let s ← if next = place ∨ (s.entries.lookup next).isSome then pure s
      else loadPlace workingDirectory s next (String.ofList path)
    match s.enter place (String.ofList name) with
    | .error _ => return s
    | .ok place => loadFrom workingDirectory s place (path ++ ['/']) names

def load (workingDirectory : String) (s : Store) (path : String) : IO Store :=
  loadFrom workingDirectory s (Store.start path.toList) [] (path.toList.splitOn '/')

def Options.paths (o : Options) : List String :=
  o.sqlFile.toList ++ o.inputs ++ o.output.toList ++ o.errorOutput.toList

def save (old new : Store) (path : String) : IO Unit := do
  match new.locate path with
  | .error _ => return
  | .ok p =>
    match new.get? p with
    | some (.file content) =>
      if old.get? p ≠ some (.file content) then
        IO.FS.writeBinFile path (ByteArray.mk content.toArray)
    | _ => return

partial def readAll (stream : IO.FS.Stream) (done : ByteArray) : IO ByteArray := do
  let block ← stream.read 65536
  if block.isEmpty then return done else readAll stream (done ++ block)

def pipedInput : IO (Option (List UInt8)) := do
  let stdin ← IO.getStdin
  if ← stdin.isTty then return none
  else return some (← readAll stdin .empty).toList

def Request.options : Request → Options
  | version => { syntaxOnly := true }
  | run o => o

def runProgram (arguments : List String) : IO UInt32 := do
  let o := match Arguments.read arguments with
    | .ok request => request.options
    | .error _ => Request.version.options
  let workingDirectory ← IO.FS.realPath (← IO.currentDir)
  let before ← o.paths.foldlM (load workingDirectory.toString) ⟨[]⟩
  let stdin ← if o.inputs = [] ∧ !o.syntaxOnly then pipedInput else pure (some [])
  let r := respond arguments stdin before
  for path in o.output.toList ++ o.errorOutput.toList do
    save before r.store path
  (← IO.getStdout).write (ByteArray.mk r.stdout.toArray)
  (← IO.getStderr).write (ByteArray.mk r.stderr.toArray)
  return UInt32.ofNat r.exit

end RecordSieve.Command

def main (arguments : List String) : IO UInt32 := RecordSieve.Command.runProgram arguments
