import ElmBindings.Json.Record
import ElmBindings.Json.Skim
import ElmBindings.Project.Arguments
import ElmBindings.Project.Path
import ElmBindings.Schema.Basic

set_option autoImplicit false

/-! # Configuration and settings

A project keeps its configuration in a file of the working directory. The settings of a run come from
the command line and, where that says nothing, from the configuration. -/

namespace ElmBindings

/-! ## Errors of a run -/

/-- What is at the bottom of a failed run. -/
inductive RunCause
  | generate (error : GenerateError)
  | load (error : LoadError)
  | schema (error : SchemaError)
  /-- A configuration that is no JSON text, or not of the right shape. -/
  | malformedConfig
  /-- A file that cannot be read or written. -/
  | file
  | usage (message : String)
  deriving DecidableEq

/-- A failed run: what was being done, the outermost task first, and what went wrong. -/
structure RunError where
  cause : RunCause
  context : List String := []
  deriving DecidableEq

namespace RunError

/-- The error of a task that is part of another one. -/
def within (task : String) (e : RunError) : RunError :=
  { e with context := task :: e.context }

/-- The error that tells the user what to do. -/
def usage (message : String) : RunError := { cause := .usage message }

/-- The error in words. -/
def message (e : RunError) : String :=
  let cause := match e.cause with
    | .generate e => e.message
    | .load e => e.message
    | .schema e => e.message
    | .malformedConfig => "malformed configuration"
    | .file => "the file cannot be used"
    | .usage message => message
  ": ".intercalate (e.context ++ [cause])

end RunError

/-! ## Configuration -/

/-- The configuration of a project. -/
structure Config where
  endpoint : Option String := none
  /-- The schema file, seen from the working directory. -/
  schema : Option String := none
  method : Option String := none
  deriving DecidableEq

namespace Config

/-- The name of the configuration file. -/
def fileName : String := "graphelm.json"

/-- The keys of a configuration. -/
def keys : List String := ["endpoint", "schema", "method"]

/-- The configuration in a JSON value. -/
def ofJson? (json : Json) : Option Config := do
  let slots ← json.slots? keys
  let endpoint ← slots.omissible 0 Json.string?
  let schema ← slots.omissible 1 Json.string?
  let method ← slots.omissible 2 Json.string?
  some { endpoint, schema, method }

/-- The configuration in a JSON text. What stands under other keys is passed over. -/
def parse? (text : String) : Option Config :=
  (Json.skim? keys text).bind ofJson?

/-- The entries of a configuration that are given. -/
def entries (config : Config) : List (String × String) :=
  [("endpoint", config.endpoint), ("schema", config.schema), ("method", config.method)].filterMap
    fun (key, value) => value.map (key, ·)

/-- A configuration as JSON text, one entry on a line. -/
def text (config : Config) : String :=
  match config.entries with
  | [] => "\x7b\x7d\n"
  | entries =>
    let lines := entries.map fun (key, value) => "  " ++ Json.quoted key ++ ": " ++ Json.quoted value
    "\x7b\n" ++ ",\n".intercalate lines ++ "\n\x7d\n"

/-- The configuration that a command line asks for, if it gives an endpoint. -/
def ofArguments? (arguments : Arguments) : Option Config :=
  arguments.endpoint.map fun endpoint =>
    { endpoint := some endpoint
      schema := arguments.schema
      method := arguments.method.map HttpMethod.name }

end Config

/-! ## Settings -/

/-- The settings of a run. -/
structure Settings where
  endpoint : String
  /-- The schema file. -/
  schema : String
  method : HttpMethod
  /-- The directory to look for query files in. -/
  root : String
  /-- Whether to format what is generated. -/
  format : Bool
  deriving DecidableEq

/-- The method that the command line gives, or else the configuration, or else the usual one. -/
def resolveMethod (given : Option HttpMethod) (configured : Option String) :
    Except RunError HttpMethod :=
  match given, configured with
  | some method, _ => .ok method
  | none, some name =>
    (HttpMethod.parse name).mapError fun e =>
      { cause := .generate e, context := ["invalid method in " ++ Config.fileName] }
  | none, none => .ok .get

/-- The settings of a run in a directory. -/
def Settings.resolve (arguments : Arguments) (config : Config) (dir : String) :
    Except RunError Settings :=
  match arguments.endpoint <|> config.endpoint with
  | none =>
    .error (.usage
      "graphelm is not configured for this project; run \x60graphelm --init ENDPOINT\x60")
  | some endpoint => do
    let method ← resolveMethod arguments.method config.method
    match arguments.schema <|> config.schema with
    | none =>
      .error (.usage ("no schema file given; pass --schema PATH or set \"schema\" in "
        ++ Config.fileName))
    | some schema =>
      .ok
        { endpoint, method
          schema := Path.join dir schema
          root := Path.normalized (Path.join dir arguments.root)
          format := !arguments.noFormat }

end ElmBindings
