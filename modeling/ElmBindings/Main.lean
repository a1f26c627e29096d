import ElmBindings.Project.Run

set_option autoImplicit false

/-! # The command

Runs in the working directory on the files of the disk. -/

namespace ElmBindings

/-- A path of the disk, seen from the working directory. -/
def onDisk (path : String) := do
  return (← IO.currentDir) / path

/-- The result of an action on the disk, if it succeeds. -/
def ifPossible {α : Type} (action : IO α) : IO (Option α) := do
  try
    return some (← action)
  catch _ =>
    return none

/-- The files of the disk. No formatter is called. -/
def disk : FileStore IO where
  isPresent path := do (← onDisk path).pathExists
  readText path := ifPossible do IO.FS.readFile (← onDisk path)
  location path := ifPossible do
    return Path.names (← IO.FS.realPath (← onDisk path)).toString
  descendants path := do
    let base ← onDisk path
    let depth := (Path.names base.toString).length
    let found ← ifPossible base.walkDir
    return (found.getD #[]).toList.map fun below => (Path.names below.toString).drop depth
  writeText path content := do
    return (← ifPossible do IO.FS.writeFile (← onDisk path) content).isSome
  format _ := pure ()

/-- How the command is called. -/
def usageText : String :=
  "Usage: graphelm [ENDPOINT] [--init] [--schema PATH] [--method GET|POST] [--root DIR] "
    ++ "[--no-format] [-v]..."

/-- What the command says about arguments that it cannot use. -/
def ArgumentError.text : ArgumentError → String
  | unknownArgument => "unexpected argument"
  | invalidValue => "invalid value"
  | conflict => "argument given more than once"
  | tooManyValues => "unexpected value"
  | help => usageText
  | version => "graphelm"

end ElmBindings

open ElmBindings in
/-- The command. -/
def main (arguments : List String) : IO UInt32 := do
  match Arguments.parse arguments with
  | .error .help =>
    IO.println ArgumentError.help.text
    return 0
  | .error .version =>
    IO.println ArgumentError.version.text
    return 0
  | .error e =>
    IO.eprintln ("error: " ++ e.text)
    return 2
  | .ok arguments =>
    let dir := (← IO.currentDir).toString
    match ← (run disk arguments dir).run with
    | .ok outcome =>
      IO.println outcome.message
      return 0
    | .error e =>
      IO.eprintln ("Error: " ++ e.message)
      return 1
