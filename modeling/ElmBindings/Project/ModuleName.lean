import ElmBindings.Naming
import ElmBindings.Project.Path

set_option autoImplicit false

/-! # Modules of a project

The module that is generated for a query file has its name from the path of the file below the source
directory, and stands beside the file. -/

namespace ElmBindings

/-- Why a path gives no module name. -/
inductive ModuleNameError
  | notUnicode (path : String)
  | noFileName (path : String)
  | invalidName (path : String)
  deriving DecidableEq

/-- The error in words. -/
def ModuleNameError.message : ModuleNameError → String
  | notUnicode path => "path is not valid UTF-8: " ++ path
  | noFileName path => "path has no file name: " ++ path
  | invalidName path => "path is not a valid Elm module name: " ++ path

/-- The directory under which module names start. -/
def sourceDirectory : String := "src"

/-- The part of a module name for a segment of a path: the words of letters and digits, each with a
capital at its start. The first word has to start with a letter. -/
def moduleSegment? (segment : String) : Option String :=
  let words := Text.wordsBetween (fun c => !c.isAlphanum) segment
  let name := String.join (words.map Naming.capitalize)
  if name.toList.head?.any Char.isUpper then some name else none

/-- The names that follow the last source directory, of which the last name is none. -/
def belowSource (names : List String) : List String :=
  (names.dropLast.reverse.takeWhile (· ≠ sourceDirectory)).reverse ++ names.getLast?.toList

/-- The name of the module for a path that has the given names without the extension of its file name. -/
def moduleNameOf (path : String) (names : List String) : Except ModuleNameError String :=
  if names.isEmpty then .error (.noFileName path)
  else
    match (belowSource names).mapM moduleSegment? with
    | some parts => .ok (".".intercalate parts)
    | none => .error (.invalidName path)

/-- The name of the module for a query file. -/
def moduleName (path : String) : Except ModuleNameError String :=
  moduleNameOf path (Path.names (Path.withExtension path ""))

/-- The path of the module for a query file. -/
def outputPath (path : String) : String :=
  Path.withExtension path "elm"

end ElmBindings
