import ElmBindings.Binary64.Shortest

set_option autoImplicit false

/-! # Literal values

The input values of GraphQL texts, and how they are printed. -/

namespace ElmBindings.GraphQL

/-- An input value. The entries of an object stand in the order of their keys. -/
inductive Value
  | variable (name : String)
  | int (value : Int)
  | float (value : Binary64)
  | string (value : String)
  | boolean (value : Bool)
  | null
  | enum (name : String)
  | list (items : List Value)
  | object (entries : List (String × Value))

/-! ## Objects -/

/-- The entries with one more, in the order of their keys; a key that is already there gets the new
value. -/
def insertEntry (key : String) (value : Value) : List (String × Value) → List (String × Value)
  | [] => [(key, value)]
  | (k, v) :: entries =>
    if key = k then (k, value) :: entries
    else if key < k then (key, value) :: (k, v) :: entries
    else (k, v) :: insertEntry key value entries

/-- The object with the given entries, of which the last one wins for each key. -/
def Value.ofEntries (entries : List (String × Value)) : Value :=
  .object (entries.foldl (fun sorted (k, v) => insertEntry k v sorted) [])

/-! ## Printing -/

/-- One character inside a printed string: quotes, backslashes and line feeds are escaped. -/
def quotedChar : Char → List Char
  | '\\' => ['\\', '\\']
  | '"' => ['\\', '"']
  | '\n' => ['\\', 'n']
  | c => [c]

/-- A text as a GraphQL string. -/
def quoted (s : String) : String :=
  String.ofList ('"' :: (s.toList.flatMap quotedChar ++ ['"']))

/-- A number as a GraphQL float, which always shows a fraction. -/
def floatText (x : Binary64) : String :=
  let text := x.text
  if text.toList.any (fun c => c == '.' || c == 'e' || c == 'E') then text else text ++ ".0"

mutual

/-- A value as GraphQL text. -/
def Value.text : Value → String
  | .variable name => "$" ++ name
  | .int value => toString value
  | .float value => floatText value
  | .string value => quoted value
  | .boolean true => "true"
  | .boolean false => "false"
  | .null => "null"
  | .enum name => name
  | .list items => "[" ++ ", ".intercalate (itemTexts items) ++ "]"
  | .object entries => "\x7b" ++ ", ".intercalate (entryTexts entries) ++ "\x7d"

/-- The texts of the items of a list. -/
def itemTexts : List Value → List String
  | [] => []
  | value :: items => value.text :: itemTexts items

/-- The texts of the entries of an object. -/
def entryTexts : List (String × Value) → List String
  | [] => []
  | (key, value) :: entries => (key ++ ": " ++ value.text) :: entryTexts entries

end

end ElmBindings.GraphQL
