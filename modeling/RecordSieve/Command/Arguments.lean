import RecordSieve.Command

/-! # Arguments

Options with a value take it from the same argument or from the next one, which must not look like
an option. Every other argument is an input file, and after `--` all are.
-/

namespace RecordSieve.Command

inductive Flag
  | sql
  | sqlFile
  | output
  | errorOutput
  | syntaxOnly
  | version
deriving DecidableEq, Repr

namespace Flag

def ofLong? : String → Option Flag
  | "sql" => some sql
  | "sql-file" => some sqlFile
  | "output" => some output
  | "error-output" => some errorOutput
  | "syntax-only" => some syntaxOnly
  | "version" => some version
  | _ => none

def ofShort? : Char → Option Flag
  | 'q' => some sql
  | 'f' => some sqlFile
  | 'o' => some output
  | 'V' => some version
  | _ => none

def takesValue : Flag → Bool
  | syntaxOnly | version => false
  | _ => true

def name : Flag → String
  | sql => "--sql"
  | sqlFile => "--sql-file"
  | output => "--output"
  | errorOutput => "--error-output"
  | syntaxOnly => "--syntax-only"
  | version => "--version"

end Flag

inductive UsageError
  | unknown (argument : String)
  | repeated (flag : Flag)
  | missingValue (flag : Flag)
  | unexpectedValue (flag : Flag)
  | emptyPath
  | conflict (a b : Flag)
deriving DecidableEq, Repr

def UsageError.message : UsageError → String
  | unknown argument => "error: unexpected argument '" ++ argument ++ "' found"
  | repeated flag => "error: the argument '" ++ flag.name ++ "' cannot be used multiple times"
  | missingValue flag =>
    "error: a value is required for '" ++ flag.name ++ "' but none was supplied"
  | unexpectedValue flag => "error: unexpected value for '" ++ flag.name ++ "' found"
  | emptyPath => "error: a path must not be empty"
  | conflict a b => "error: the argument '" ++ a.name ++ "' cannot be used with '" ++ b.name ++ "'"

inductive Request
  | version
  | run (o : Options)
deriving DecidableEq, Repr

namespace Arguments

def looksLikeOption (a : String) : Bool := a ≠ "-" && a.toList.head? = some '-'

/-- Sets what may be set once, to a path that is not empty. -/
def setPath (flag : Flag) (old : Option String) (value : String) :
    Except UsageError (Option String) :=
  if old.isSome then .error (.repeated flag)
  else if value = "" then .error .emptyPath
  else .ok (some value)

def set (o : Options) (flag : Flag) (value : String) : Except UsageError Options :=
  match flag with
  | .sql => if o.sql.isSome then .error (.repeated flag) else .ok { o with sql := some value }
  | .sqlFile => (fun v => { o with sqlFile := v }) <$> setPath flag o.sqlFile value
  | .output => (fun v => { o with output := v }) <$> setPath flag o.output value
  | .errorOutput => (fun v => { o with errorOutput := v }) <$> setPath flag o.errorOutput value
  | .syntaxOnly | .version => .error (.unexpectedValue flag)

def addInput (o : Options) (path : String) : Except UsageError Options :=
  if path = "" then .error .emptyPath else .ok { o with inputs := o.inputs ++ [path] }

/-- A flag at the start of an argument and its value in the same argument; nothing if the argument
is no option. -/
def flag? (a : String) : Option (Except UsageError (Flag × Option String)) :=
  match a.toList with
  | '-' :: '-' :: body =>
    let name := body.takeWhile (· ≠ '=')
    match Flag.ofLong? (String.ofList name), body.drop name.length with
    | none, _ => some (.error (.unknown a))
    | some f, [] => some (.ok (f, none))
    | some f, _ :: value => some (.ok (f, some (String.ofList value)))
  | '-' :: c :: body =>
    match Flag.ofShort? c with
    | none => some (.error (.unknown a))
    | some f =>
      if !f.takesValue ∨ body = [] then some (.ok (f, none))
      else some (.ok (f, some (String.ofList (if body.head? = some '=' then body.tail else body))))
  | _ => none

def finish (o : Options) : Except UsageError Request :=
  if o.sql.isSome ∧ o.sqlFile.isSome then .error (.conflict .sql .sqlFile) else .ok (.run o)

/-- Reads arguments one by one; the version is answered as soon as it is asked for. -/
def readFrom (o : Options) : List String → Except UsageError Request
  | [] => finish o
  | a :: rest =>
    if a = "--" then do finish (← rest.foldlM addInput o)
    else
      match flag? a with
      | none => do readFrom (← addInput o a) rest
      | some (.error e) => .error e
      | some (.ok (.version, none)) => .ok .version
      | some (.ok (.syntaxOnly, none)) =>
        if o.syntaxOnly then .error (.repeated .syntaxOnly)
        else readFrom { o with syntaxOnly := true } rest
      | some (.ok (f, some value)) => do readFrom (← set o f value) rest
      | some (.ok (f, none)) =>
        match rest with
        | [] => .error (.missingValue f)
        | value :: rest =>
          if looksLikeOption value then .error (.missingValue f)
          else do readFrom (← set o f value) rest

def read (arguments : List String) : Except UsageError Request := readFrom {} arguments

end Arguments

def versionText : String := "json-filter 0.1.0"

structure Response where
  exit : Nat
  stdout : List UInt8
  stderr : List UInt8
  store : Store

def line (text : String) : List UInt8 := Text.encode (text.toList ++ ['\n'])

/-- The answer to a request; there is no standard input when none is piped. -/
def answer (request : Request) (stdin : Option (List UInt8)) (s : Store) : Response :=
  match request with
  | .version => ⟨0, line versionText, [], s⟩
  | .run o =>
    if stdin.isNone ∧ o.inputs = [] ∧ !o.syntaxOnly then ⟨1, [], line Error.noInput.message, s⟩
    else
      let r := o.run (stdin.getD []) s
      match r.outcome with
      | .ok .valid => ⟨0, r.stdout ++ line "Syntax is valid", r.stderr, r.store⟩
      | .ok (.done _) => ⟨0, r.stdout, r.stderr, r.store⟩
      | .error e => ⟨1, r.stdout, r.stderr ++ line e.message, r.store⟩

def respond (arguments : List String) (stdin : Option (List UInt8)) (s : Store) : Response :=
  match Arguments.read arguments with
  | .error e => ⟨2, [], line e.message, s⟩
  | .ok request => answer request stdin s

end RecordSieve.Command
