import ElmBindings.Document.Fragments

set_option autoImplicit false

/-! # Printing query documents

Operations and fragments on one line, as they are sent to the server. Directives are not printed. -/

namespace ElmBindings

open GraphQL

/-! ## Selections -/

/-- Named values between parentheses, or nothing if there are none. -/
def argumentsText (arguments : List (String × Value)) : String :=
  if arguments.isEmpty then "" else "(" ++ ", ".intercalate (entryTexts arguments) ++ ")"

/-- A field without its sub-selections. -/
def Field.text (f : Field) : String :=
  (match f.label with
    | some label => label ++ ": "
    | none => "") ++ f.name ++ argumentsText f.arguments

mutual

/-- One selection. -/
def Selection.text : Selection → String
  | .field f selections =>
    f.text ++ if selections.isEmpty then "" else " \x7b" ++ selectionTexts selections ++ " \x7d"
  | .spread name _ => "..." ++ name
  | .inline condition selections _ =>
    "..." ++
      (match condition with
        | some name => " on " ++ name
        | none => "") ++
      " \x7b" ++ selectionTexts selections ++ " \x7d"

/-- Selections, each after a space. -/
def selectionTexts : List Selection → String
  | [] => ""
  | selection :: selections => " " ++ selection.text ++ selectionTexts selections

end

/-- A selection set between braces. -/
def selectionSetText (selections : List Selection) : String :=
  "\x7b" ++ selectionTexts selections ++ " \x7d"

/-! ## Definitions -/

/-- The definition of a variable. -/
def VariableDefinition.text (v : VariableDefinition) : String :=
  "$" ++ v.name ++ ": " ++ v.type.text ++
    match v.defaultValue with
    | some value => " = " ++ value.text
    | none => ""

/-- An operation on its own. -/
def Operation.text (op : Operation) : String :=
  op.kind.keyword ++
    (match op.name with
      | some name => " " ++ name
      | none => "") ++
    (if op.parameters.isEmpty then ""
      else "(" ++ ", ".intercalate (op.parameters.map VariableDefinition.text) ++ ")") ++
    " " ++ selectionSetText op.selections

/-- A fragment. -/
def Fragment.text (f : Fragment) : String :=
  "fragment " ++ f.name ++ " on " ++ f.condition ++ " " ++ selectionSetText f.selections

/-- An operation with every fragment that it needs. -/
def Operation.documentText (op : Operation) (index : FragmentIndex) : String :=
  " ".intercalate (op.text :: (index.reachable op.selections).map Fragment.text)

end ElmBindings
