import ElmBindings.Module.Emit
import ElmBindings.Project.Files
import ElmBindings.Project.ModuleName
import ElmBindings.Project.Settings
import ElmBindings.Schema.Load
import ElmBindings.Schema.Validate

set_option autoImplicit false

/-! # Runs

One run writes the configuration of a project, or generates a module beside every query file of the
project. A run that fails keeps what it has written until then. -/

namespace ElmBindings

/-! ## Query files -/

/-- The end of the name of a query file. -/
def querySuffix : List Char := ".graphql".toList

/-- Whether a name is that of a query file: there is something before the suffix. -/
def isQueryName (name : String) : Bool :=
  querySuffix.isSuffixOf name.toList && querySuffix.length < name.length

/-- Whether a name is hidden. -/
def isHidden (name : String) : Bool :=
  name.toList.head? == some '.'

/-- Whether the names below a directory lead to a query file. -/
def isQueryFile (names : List String) : Bool :=
  names.getLast?.any isQueryName && !names.any isHidden

/-- The characters that stand for other characters in a pattern of names. -/
def isWildcard (c : Char) : Bool :=
  c == '?' || c == '*' || c == '[' || c == ']'

/-- Whether a scan gets through a segment of the path of its directory. A segment with a wildcard is
looked for among the names that are not hidden; any other one is taken as it is. -/
def isPassable (segment : String) : Bool :=
  !(isHidden segment && segment.toList.any isWildcard)

/-- The order of paths: name by name, each by its characters. -/
def namesLE : List String → List String → Bool
  | [], _ => true
  | _ :: _, [] => false
  | a :: as, b :: bs => a < b || (a == b && namesLE as bs)

/-- The directory of a scan as it is written in the paths that are found. -/
def scanBase (root : String) : String :=
  (if Path.isAbsolute root then "/" else "")
    ++ "/".intercalate ((Path.segments root).filter (· ≠ ""))

/-- A file below a directory, by the names that lead there. -/
structure QueryFile where
  base : String
  names : List String

namespace QueryFile

/-- The path of a file below its directory. -/
def relative (file : QueryFile) : String := "/".intercalate file.names

/-- The path of a file. -/
def path (file : QueryFile) : String := Path.join file.base file.relative

end QueryFile

/-- The query files among what stands below a directory, in order. There are none if the scan does not
get to the directory. -/
def queryFiles (root : String) (below : List (List String)) : List QueryFile :=
  if (Path.segments root).all isPassable then
    ((below.filter isQueryFile).mergeSort namesLE).map fun names => ⟨scanBase root, names⟩
  else []

/-! ## Outcomes -/

/-- What a run has done. -/
inductive Outcome
  | initialized (path : String)
  | generated (count : Nat)
  deriving DecidableEq

/-- The outcome in words. -/
def Outcome.message : Outcome → String
  | initialized path => "Success! Wrote " ++ path ++ "."
  | generated count =>
    "Success! Generated " ++ toString count ++ " module" ++ (if count = 1 then "" else "s") ++ "."

/-! ## Steps of a run -/

section Steps

variable {m : Type → Type} [Monad m]

/-- An outcome of a step, with the task it is part of. -/
def attempt {ε α : Type} (task : String) (cause : ε → RunCause) (outcome : Except ε α) :
    ExceptT RunError m α :=
  match outcome with
  | .ok a => pure a
  | .error e => throw { cause := cause e, context := [task] }

/-- Writes a file. -/
def writeFile (files : FileStore m) (path content : String) : ExceptT RunError m Unit := do
  if ← files.writeText path content then pure ()
  else throw { cause := .file, context := ["writing " ++ path] }

/-- The configuration of a directory, which is empty if there is none. -/
def loadConfig (files : FileStore m) (dir : String) : ExceptT RunError m Config := do
  let path := Path.join dir Config.fileName
  if ← files.isPresent path then
    match ← files.readText path with
    | none => throw { cause := .file, context := ["reading " ++ path] }
    | some text =>
      match Config.parse? text with
      | none => throw { cause := .malformedConfig, context := ["parsing " ++ path] }
      | some config => pure config
  else pure {}

/-- Writes the configuration that the command line asks for. -/
def writeConfig (files : FileStore m) (arguments : Arguments) (dir : String) :
    ExceptT RunError m Outcome := do
  match Config.ofArguments? arguments with
  | none => throw (.usage "usage: graphelm --init ENDPOINT [--schema PATH] [--method GET|POST]")
  | some config =>
    let path := Path.join dir Config.fileName
    writeFile files path config.text
    pure (.initialized path)

/-- The schema of a project, checked. -/
def loadSchema (files : FileStore m) (path : String) : ExceptT RunError m Schema := do
  let text ← files.readText path
  let schema ← attempt ("loading schema " ++ path) .load (Schema.ofFile path text)
  attempt ("invalid schema " ++ path) .schema schema.validate
  pure schema

/-- The files that do not stand at a place. -/
def filesElsewhere (files : FileStore m) (place : List String) :
    List QueryFile → ExceptT RunError m (List QueryFile)
  | [] => pure []
  | file :: rest => do
    let here ← files.location file.path
    let others ← filesElsewhere files place rest
    pure (if here = some place then others else file :: others)

/-- The query files of a project. The schema file is none of them. -/
def findQueryFiles (files : FileStore m) (settings : Settings) :
    ExceptT RunError m (List QueryFile) := do
  match ← files.location settings.schema with
  | none => throw { cause := .file, context := ["resolving schema path " ++ settings.schema] }
  | some place =>
    let below ← files.descendants settings.root
    filesElsewhere files place (queryFiles settings.root below)

/-- The module for the text of a query file, which is missing if the file cannot be read. -/
def moduleText (settings : Settings) (schema : Schema) (file : QueryFile) (text : Option String) :
    Except RunError String := do
  let name ← (moduleName file.relative).mapError fun e => RunError.usage e.message
  let options : ModuleOptions := { name, endpoint := settings.endpoint, method := settings.method }
  let generated : Except GenerateError String := match text with
    | none => .error .unreadable
    | some source => generateModule schema options source
  generated.mapError fun e =>
    { cause := .generate e, context := ["Error processing " ++ file.path] }

/-- Generates the module for one query file. -/
def generateFile (files : FileStore m) (settings : Settings) (schema : Schema) (file : QueryFile) :
    ExceptT RunError m Unit := do
  let text ← files.readText file.path
  let elm ← ExceptT.mk (pure (moduleText settings schema file text))
  let out := outputPath file.path
  writeFile files out elm
  if settings.format then files.format [out, "--yes"]

/-- Generates the modules for query files, one after the other. -/
def generateFiles (files : FileStore m) (settings : Settings) (schema : Schema) :
    List QueryFile → ExceptT RunError m Unit
  | [] => pure ()
  | file :: rest => do
    generateFile files settings schema file
    generateFiles files settings schema rest

/-- Generates a module beside every query file of a project. -/
def generateProject (files : FileStore m) (settings : Settings) : ExceptT RunError m Outcome := do
  let schema ← loadSchema files settings.schema
  let found ← findQueryFiles files settings
  generateFiles files settings schema found
  pure (.generated found.length)

/-- A run in a working directory. -/
def run (files : FileStore m) (arguments : Arguments) (dir : String) :
    ExceptT RunError m Outcome := do
  if arguments.init then writeConfig files arguments dir
  else
    let config ← loadConfig files dir
    let settings ← ExceptT.mk (pure (Settings.resolve arguments config dir))
    generateProject files settings

end Steps

end ElmBindings
