import ElmBindings.Module.Options

set_option autoImplicit false

/-! # Command line

The arguments are an endpoint, the options `--schema`, `--method` and `--root` with their values, and
the flags `--init`, `--no-format` and `--verbose`. They are read from left to right. The value of an
option that stands in an argument of its own is checked when the next known argument is read, or at the
end; an argument that is not known is reported before that. -/

namespace ElmBindings

/-! ## What is given -/

/-- The arguments of a run. -/
structure Arguments where
  endpoint : Option String := none
  /-- Whether to write a configuration only. -/
  init : Bool := false
  schema : Option String := none
  method : Option HttpMethod := none
  /-- The directory to look for query files in. -/
  root : String := "."
  noFormat : Bool := false
  /-- How much to report, up to 255. -/
  verbose : Nat := 0
  deriving DecidableEq

/-- Why there is no run. Help and version are asked for instead of one. -/
inductive ArgumentError
  | unknownArgument
  | invalidValue
  | conflict
  | tooManyValues
  | help
  | version
  deriving DecidableEq

/-- Arguments without a value. -/
inductive Flag
  | init
  | noFormat
  | verbose
  | help
  | version
  deriving DecidableEq

/-- Arguments with a value. -/
inductive ValueOption
  | schema
  | method
  | root
  deriving DecidableEq

/-- A name after `--`. -/
def longName? : String → Option (Flag ⊕ ValueOption)
  | "init" => some (.inl .init)
  | "no-format" => some (.inl .noFormat)
  | "verbose" => some (.inl .verbose)
  | "help" => some (.inl .help)
  | "version" => some (.inl .version)
  | "schema" => some (.inr .schema)
  | "method" => some (.inr .method)
  | "root" => some (.inr .root)
  | _ => none

/-- A letter after `-`. -/
def shortName? : Char → Option Flag
  | 'v' => some .verbose
  | 'h' => some .help
  | 'V' => some .version
  | _ => none

/-! ## Forms of an argument -/

/-- How an argument is written. -/
inductive ArgumentForm
  /-- `--`, after which every argument is a plain one. -/
  | separator
  /-- `--name` or `--name=value`. -/
  | long (name : String) (value : Option String)
  /-- `-abc`, three flags. -/
  | short (letters : List Char)
  | plain (text : String)

/-- The text before the first `=`, and what follows it. -/
def splitAtEquals (cs : List Char) : String × Option String :=
  let name := cs.takeWhile (· ≠ '=')
  (String.ofList name,
   if name.length < cs.length then some (String.ofList (cs.drop (name.length + 1))) else none)

/-- The form of an argument. A dash alone is plain. -/
def ArgumentForm.of (argument : String) : ArgumentForm :=
  match argument.toList with
  | ['-', '-'] => .separator
  | '-' :: '-' :: cs =>
    let (name, value) := splitAtEquals cs
    .long name value
  | '-' :: c :: cs => .short (c :: cs)
  | _ => .plain argument

/-! ## Reading -/

/-- The arguments so far. -/
structure Reading where
  result : Arguments := {}
  /-- The flags that are given. -/
  flags : List Flag := []
  /-- The options that are given. -/
  options : List ValueOption := []
  /-- The latest option, if its value is not checked yet. -/
  waiting : Option (ValueOption × Option String) := none
  /-- Whether `--` has been read. -/
  plainOnly : Bool := false

namespace Reading

/-- Sets the value of an option. A path is not empty. -/
def setOption (reading : Reading) (option : ValueOption) (value : String) :
    Except ArgumentError Reading := do
  let result := reading.result
  let result ← match option with
    | .schema => if value = "" then .error .invalidValue else .ok { result with schema := some value }
    | .root => if value = "" then .error .invalidValue else .ok { result with root := value }
    | .method =>
      match HttpMethod.parse value with
      | .ok method => .ok { result with method := some method }
      | .error _ => .error .invalidValue
  .ok { reading with result, options := option :: reading.options }

/-- Takes an option with its value. It needs a value, and may be given once. -/
def takeOption (reading : Reading) (option : ValueOption) (value : Option String) :
    Except ArgumentError Reading :=
  match value with
  | none => .error .invalidValue
  | some value =>
    if option ∈ reading.options then .error .conflict else reading.setOption option value

/-- Checks the option that is waiting. -/
def settle (reading : Reading) : Except ArgumentError Reading :=
  match reading.waiting with
  | none => .ok reading
  | some (option, value) => { reading with waiting := none }.takeOption option value

/-- Takes a flag. Only `verbose` may be given more than once. -/
def takeFlag (reading : Reading) (flag : Flag) : Except ArgumentError Reading := do
  let reading ← reading.settle
  let result := reading.result
  let again : Bool := flag ∈ reading.flags
  let result ← match flag with
    | .init => if again then .error .conflict else .ok { result with init := true }
    | .noFormat => if again then .error .conflict else .ok { result with noFormat := true }
    | .verbose => .ok { result with verbose := min 255 (result.verbose + 1) }
    | .help => .error .help
    | .version => .error .version
  .ok { reading with result, flags := flag :: reading.flags }

/-- Takes the flags of a group. -/
def takeLetters (reading : Reading) : List Char → Except ArgumentError Reading
  | [] => .ok reading
  | c :: cs =>
    match shortName? c with
    | none => .error .unknownArgument
    | some flag => do
      let reading ← reading.takeFlag flag
      reading.takeLetters cs

/-- Takes a long argument. -/
def takeLong (reading : Reading) (name : String) (value : Option String) :
    Except ArgumentError Reading :=
  match longName? name, value with
  | none, _ => .error .unknownArgument
  | some (.inl _), some _ => .error .tooManyValues
  | some (.inl flag), none => reading.takeFlag flag
  | some (.inr option), some value => do
    let reading ← reading.settle
    reading.takeOption option (some value)
  | some (.inr option), none => do
    let reading ← reading.settle
    .ok { reading with waiting := some (option, none) }

/-- Takes the endpoint, of which there is one. -/
def takeEndpoint (reading : Reading) (text : String) : Except ArgumentError Reading :=
  if reading.result.endpoint.isSome then .error .unknownArgument
  else do
    let reading ← reading.settle
    .ok { reading with result := { reading.result with endpoint := some text } }

/-- Takes a plain argument: the value that an option waits for, or the endpoint. -/
def takePlain (reading : Reading) (text : String) : Except ArgumentError Reading :=
  match reading.waiting with
  | some (option, none) => .ok { reading with waiting := some (option, some text) }
  | _ => reading.takeEndpoint text

/-- Takes one argument. -/
def take (reading : Reading) (argument : String) : Except ArgumentError Reading :=
  if reading.plainOnly then reading.takeEndpoint argument
  else
    match ArgumentForm.of argument with
    | .separator => .ok { reading with plainOnly := true }
    | .long name value => reading.takeLong name value
    | .short letters => reading.takeLetters letters
    | .plain text => reading.takePlain text

end Reading

/-- The arguments that a command line gives. -/
def Arguments.parse (arguments : List String) : Except ArgumentError Arguments := do
  let reading ← arguments.foldlM Reading.take {}
  let reading ← reading.settle
  .ok reading.result

end ElmBindings
