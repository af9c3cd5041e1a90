import RecordSieve.Query
import RecordSieve.Session

/-! # Commands

A command compiles a query and filters files, or the standard input, with it. It fails in the
order of its steps: the query is found, compiled, the inputs are opened, the output is created,
the errors are opened, and then the inputs are read.
-/

namespace RecordSieve.Command

structure Options where
  sql : Option String := none
  sqlFile : Option String := none
  inputs : List String := []
  output : Option String := none
  errorOutput : Option String := none
  syntaxOnly : Bool := false
deriving DecidableEq, Repr

inductive Error
  | query (e : QueryError)
  | unopened (path : String) (e : FileError)
  | halted (h : Session.Halt)
  | noInput

/-- The text of an error. That of `endless` is never seen, since the program does not end there. -/
def Error.message : Error → String
  | query e => e.message
  | unopened path e => "cannot open " ++ path ++ ": " ++ e.message
  | halted (.unreadable e) => "IO error: " ++ e.message
  | halted .endless => "IO error: input grows while it is filtered"
  | noInput => "No input provided. Pass input files or pipe NDJSON to stdin."

inductive Outcome
  | valid
  | done (tally : Tally)
deriving DecidableEq, Repr

structure Result where
  outcome : Except Error Outcome
  store : Store
  stdout : List UInt8
  stderr : List UInt8

def passAll : String := "select * from t"

/-- The text of the query: the trimmed text of the query file if there is one, else the query
given unless it is blank. -/
def Options.queryText (o : Options) (s : Store) : Except Error String :=
  match o.sqlFile with
  | some path =>
    match s.readText path with
    | .ok text => .ok (String.ofList (Text.trim text))
    | .error e => .error (.unopened path e)
  | none =>
    match o.sql with
    | some q => .ok (if q.toList.all Text.isBlank then passAll else q)
    | none => .ok passAll

def inputPlaces (s : Store) (paths : List String) : Except Error (List Place) :=
  paths.mapM fun path => (s.openRead path).mapError (.unopened path)

def freshOutput (s : Store) : Option String → Except Error (Store × Option Writer)
  | none => .ok (s, none)
  | some path =>
    match s.create path with
    | .ok (s, place) => .ok (s, some ⟨place, 0, #[]⟩)
    | .error e => .error (.unopened path e)

def errorLog (s : Store) : Option String → Except Error (Store × Option Place)
  | none => .ok (s, none)
  | some path =>
    match s.openAppend path with
    | .ok (s, place) => .ok (s, some place)
    | .error e => .error (.unopened path e)

def filterAll (p : Plan) (places : List Place) (stdin : List UInt8) (s : Session) : Result :=
  let (s, ended) :=
    s.drainAll p (if places = [] then [.given stdin] else places.map Source.file)
  { outcome := match ended with
      | .ok () => .ok (.done s.tally)
      | .error h => .error (.halted h)
    store := s.store
    stdout := s.stdout.toList
    stderr := s.stderr.toList }

def Options.run (o : Options) (stdin : List UInt8) (s : Store) : Result :=
  let failed (e : Error) (s : Store) : Result := ⟨.error e, s, [], []⟩
  match o.queryText s with
  | .error e => failed e s
  | .ok q =>
  match Plan.ofText q with
  | .error e => failed (.query e) s
  | .ok p =>
  if o.syntaxOnly then ⟨.ok .valid, s, [], []⟩
  else
  match inputPlaces s o.inputs with
  | .error e => failed e s
  | .ok places =>
  match freshOutput s o.output with
  | .error e => failed e s
  | .ok (s, output) =>
  match errorLog s o.errorOutput with
  | .error e => failed e s
  | .ok (s, errors) => filterAll p places stdin ⟨s, output, errors, #[], #[], .zero⟩

end RecordSieve.Command
