import ElmBindings.Project.Path
import ElmBindings.Schema.Definitions
import ElmBindings.Schema.Introspection
import ElmBindings.Text.Case

set_option autoImplicit false

/-! # Schema files

A file whose extension is `json` holds an introspection result, any other one holds definitions. -/

namespace ElmBindings

/-- The schema in a file of the given path, whose text is missing if the file cannot be read. -/
def Schema.ofFile (path : String) (text : Option String) : Except LoadError Schema :=
  match text with
  | none => .error .unreadable
  | some text =>
    if (Path.extension? path).any (Text.sameIgnoringAsciiCase · "json") then
      Schema.parseIntrospection text
    else Schema.parseDefinitions text

end ElmBindings
