import ElmBindings.Text.Split

set_option autoImplicit false

/-! # Paths

A path is a text whose segments are divided by `/`. Joining paths and changing an extension keep the
text as it is written; `components` is the view in which empty segments and `.` do not count. -/

namespace ElmBindings.Path

/-! ## Segments -/

/-- The texts between the slashes of a path. -/
def segments (path : String) : List String :=
  (Text.runsBetween (· == '/') path.toList).map String.ofList

/-- Whether a path starts at the top. -/
def isAbsolute (path : String) : Bool :=
  path.toList.head? == some '/'

/-- A path seen from a base directory. -/
def join (base path : String) : String :=
  if isAbsolute path || base = "" then path
  else if base.toList.getLast? = some '/' then base ++ path
  else base ++ "/" ++ path

/-! ## Components -/

/-- A part of a path. Only at the start of a path does `.` count. -/
inductive Component
  | top
  | current
  | parent
  | normal (name : String)
  deriving DecidableEq

/-- The component that a segment stands for. -/
def Component.ofSegment? : String → Option Component
  | "" => none
  | "." => none
  | ".." => some .parent
  | name => some (.normal name)

/-- The components of a path. -/
def components (path : String) : List Component :=
  let first : List Component :=
    if isAbsolute path then [.top]
    else if (segments path).head? = some "." then [.current]
    else []
  first ++ (segments path).filterMap Component.ofSegment?

/-- The names among the components of a path. -/
def names (path : String) : List String :=
  (components path).filterMap fun
    | .normal name => some name
    | _ => none

/-- A component as a segment. -/
def Component.text : Component → String
  | top => ""
  | current => "."
  | parent => ".."
  | normal name => name

/-- The path with the given components. -/
def ofComponents : List Component → String
  | [.top] => "/"
  | parts => "/".intercalate (parts.map Component.text)

/-- The path written with its components alone. -/
def normalized (path : String) : String :=
  ofComponents (components path)

/-! ## File names -/

/-- The characters of a path, last one first, without the slashes and `.` segments at its end. -/
def withoutTrail : List Char → List Char
  | '/' :: cs => withoutTrail cs
  | '.' :: '/' :: cs => withoutTrail cs
  | cs => cs

/-- The text before the file name of a path, and the name. A path that ends in `..` has none. -/
def splitName? (path : String) : Option (List Char × List Char) :=
  let cs := withoutTrail path.toList.reverse
  let name := (cs.takeWhile (· ≠ '/')).reverse
  if name = [] ∨ name = ['.'] ∨ name = ['.', '.'] then none
  else some ((cs.dropWhile (· ≠ '/')).reverse, name)

/-- A file name as its stem and its extension, which follows the last dot. A dot at the start of the
name begins no extension. -/
def splitExtension (name : List Char) : List Char × Option (List Char) :=
  let extension := (name.reverse.takeWhile (· ≠ '.')).reverse
  let stem := name.take (name.length - extension.length - 1)
  if stem = [] then (name, none) else (stem, some extension)

/-- The extension of a path. -/
def extension? (path : String) : Option String :=
  (splitName? path).bind fun (_, name) => (splitExtension name).2.map String.ofList

/-- The path with the extension of its file name replaced; an empty extension has no dot. A path without
a file name stays as it is. -/
def setExtension (path : String) (extension : String) : String :=
  match splitName? path with
  | none => path
  | some (before, name) =>
    String.ofList (before ++ (splitExtension name).1)
      ++ if extension = "" then "" else "." ++ extension

/-- The path with another extension. The old one is cut off first, so that a name such as `..x`, which
leaves `..`, gets none. -/
def withExtension (path : String) (extension : String) : String :=
  match extension? path with
  | none => setExtension path extension
  | some old =>
    setExtension (String.ofList (path.toList.take (path.length - old.length))) extension

end ElmBindings.Path
