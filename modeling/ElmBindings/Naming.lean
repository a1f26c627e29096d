import ElmBindings.Text.Case
import ElmBindings.Text.Split

set_option autoImplicit false

/-! # Elm names and literals

How names of a GraphQL document become Elm identifiers, and how a text is written as an Elm string
literal. -/

namespace ElmBindings.Naming

open Text

/-! ## Case of the first letter -/

/-- The name with its first character in upper case. -/
def capitalize (s : String) : String :=
  match s.toList with
  | [] => ""
  | c :: cs => String.ofList (upper c ++ cs)

/-- The name with its first character in lower case. -/
def lowerFirst (s : String) : String :=
  match s.toList with
  | [] => ""
  | c :: cs => String.ofList (lower c ++ cs)

/-! ## Identifiers -/

/-- Words that Elm does not accept as the name of a value. -/
def reservedWords : List String :=
  ["if", "then", "else", "case", "of", "let", "in", "type", "module", "where", "import", "exposing",
   "as", "port", "alias", "infix", "effect", "command", "subscription"]

/-- The Elm value name for a GraphQL name: leading underscores go, the first letter is lowered, an
empty name becomes `x`, and a reserved word gets an underscore at its end. -/
def valueName (s : String) : String :=
  let name := lowerFirst (String.ofList (s.toList.dropWhile (· == '_')))
  if name = "" then "x"
  else if name ∈ reservedWords then name ++ "_"
  else name

/-- One word of a constructor name. A word with a lower-case letter only has its first letter raised;
any other word, such as `NEW`, keeps a capital at its start alone. -/
def pascalWord (word : String) : String :=
  if word.toList.any isLowercase then capitalize word else capitalize (lowerText word)

/-- The constructor name for an enum value: words are divided by `_` and `-`. -/
def pascalCase (s : String) : String :=
  String.join ((wordsBetween (fun c => c == '_' || c == '-') s).map pascalWord)

/-! ## String literals -/

/-- One character inside an Elm string literal. -/
def escaped : Char → List Char
  | '"' => ['\\', '"']
  | '\\' => ['\\', '\\']
  | '\n' => ['\\', 'n']
  | '\r' => ['\\', 'r']
  | '\t' => ['\\', 't']
  | c => [c]

/-- A text as an Elm string literal. -/
def stringLiteral (s : String) : String :=
  String.ofList ('"' :: (s.toList.flatMap escaped ++ ['"']))

end ElmBindings.Naming
