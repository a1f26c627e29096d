import ElmBindings.GraphQL.Lexer
import ElmBindings.GraphQL.Value
import ElmBindings.TypeRef

set_option autoImplicit false

/-! # Reading types, values and directives

The parts that query documents and schema definitions have in common. A reader looks at the next token
only, never goes back, and returns what it read with the tokens that are left. The readers of nested
parts have a budget of steps; the number of tokens is always enough, since every step takes one. -/

namespace ElmBindings.GraphQL

/-- What reads an `α` from the front of a list of tokens. -/
abbrev Reader (α : Type) := List Lexeme → Option (α × List Lexeme)

/-! ## Types -/

/-- The type that was read, made non-null if an exclamation mark follows. -/
def afterType (t : TypeRef) : List Lexeme → TypeRef × List Lexeme
  | ⟨.punct .bang, _⟩ :: rest => (t.required, rest)
  | rest => (t, rest)

/-- Reads a type. -/
def type? : Nat → Reader TypeRef
  | budget + 1, ⟨.punct .openBracket, _⟩ :: rest => do
    let (item, rest) ← type? budget rest
    match rest with
    | ⟨.punct .closeBracket, _⟩ :: rest => some (afterType (.list item) rest)
    | _ => none
  | _ + 1, ⟨.name name, _⟩ :: rest => some (afterType (.named name) rest)
  | _, _ => none

/-! ## Values -/

/-- The value that a bare name stands for. -/
def nameValue (name : String) : Value :=
  if name = "true" then .boolean true
  else if name = "false" then .boolean false
  else if name = "null" then .null
  else .enum name

mutual

/-- Reads a value, which may hold variables unless it has to be a constant. -/
def value? (constant : Bool) : Nat → Reader Value
  | _ + 1, ⟨.name name, _⟩ :: rest => some (nameValue name, rest)
  | _ + 1, ⟨.int value, _⟩ :: rest => some (.int value, rest)
  | _ + 1, ⟨.float value, _⟩ :: rest => some (.float value, rest)
  | _ + 1, ⟨.string value, _⟩ :: rest => some (.string value, rest)
  | _ + 1, ⟨.punct .dollar, _⟩ :: ⟨.name name, _⟩ :: rest =>
    if constant then none else some (.variable name, rest)
  | budget + 1, ⟨.punct .openBracket, _⟩ :: rest => do
    let (items, rest) ← items? constant budget rest
    some (.list items, rest)
  | budget + 1, ⟨.punct .openBrace, _⟩ :: rest => do
    let (entries, rest) ← entries? constant .closeBrace budget rest
    some (.ofEntries entries, rest)
  | _, _ => none

/-- Reads the items of a list up to its closing bracket. -/
def items? (constant : Bool) : Nat → Reader (List Value)
  | _ + 1, ⟨.punct .closeBracket, _⟩ :: rest => some ([], rest)
  | budget + 1, tokens => do
    let (item, rest) ← value? constant budget tokens
    let (items, rest) ← items? constant budget rest
    some (item :: items, rest)
  | _, _ => none

/-- Reads named values up to a closing bracket of the given kind. -/
def entries? (constant : Bool) (close : Punctuator) : Nat → Reader (List (String × Value))
  | budget + 1, ⟨.name name, _⟩ :: ⟨.punct .colon, _⟩ :: rest => do
    let (value, rest) ← value? constant budget rest
    let (entries, rest) ← entries? constant close budget rest
    some ((name, value) :: entries, rest)
  | _ + 1, ⟨.punct p, _⟩ :: rest => if p = close then some ([], rest) else none
  | _, _ => none

end

/-- Reads the arguments of a field or directive, if there are any. There is at least one between the
parentheses. -/
def arguments? : Reader (List (String × Value))
  | ⟨.punct .openParen, _⟩ :: rest => do
    let (arguments, rest) ← entries? false .closeParen rest.length rest
    if arguments.isEmpty then none else some (arguments, rest)
  | rest => some ([], rest)

/-- Reads the default value that an equals sign announces, if there is one. -/
def defaultValue? : Reader (Option Value)
  | ⟨.punct .equals, _⟩ :: rest => do
    let (value, rest) ← value? true rest.length rest
    some (some value, rest)
  | rest => some (none, rest)

/-! ## Directives -/

/-- A directive with its arguments. -/
structure Directive where
  name : String
  arguments : List (String × Value)

/-- Reads directives as long as there are any. -/
def directivesUpTo? : Nat → Reader (List Directive)
  | budget + 1, ⟨.punct .atSign, _⟩ :: ⟨.name name, _⟩ :: rest => do
    let (arguments, rest) ← arguments? rest
    let (directives, rest) ← directivesUpTo? budget rest
    some (⟨name, arguments⟩ :: directives, rest)
  | _, ⟨.punct .atSign, _⟩ :: _ => none
  | _, rest => some ([], rest)

/-- Reads the directives that stand here. -/
def directives? : Reader (List Directive) := fun tokens =>
  directivesUpTo? tokens.length tokens

end ElmBindings.GraphQL
