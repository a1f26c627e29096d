import ElmBindings.Document.Basic
import ElmBindings.GraphQL.Reader

set_option autoImplicit false

/-! # Reading query documents

`Document.parse` reads the text of a query file. -/

namespace ElmBindings

open GraphQL

/-! ## Selections -/

/-- Whether directives decide if a field is part of the answer. -/
def areConditional (directives : List Directive) : Bool :=
  directives.any fun d => d.name == "include" || d.name == "skip"

/-- Reads the selection set that stands here, if there is one, with a reader for what follows its
opening brace. -/
def optionalSelections? (inner : Reader (List Selection)) : Reader (List Selection)
  | ⟨.punct .openBrace, _⟩ :: rest => inner rest
  | rest => some ([], rest)

/-- Reads a selection set, with a reader for what follows its opening brace. -/
def requiredSelections? (inner : Reader (List Selection)) : Reader (List Selection)
  | ⟨.punct .openBrace, _⟩ :: rest => inner rest
  | _ => none

/-- Reads what follows the first name of a field, or the name after its label. -/
def fieldTail? (inner : Reader (List Selection)) (label : Option String) (name : String)
    (position : Position) : Reader Selection := fun tokens => do
  let (arguments, tokens) ← arguments? tokens
  let (directives, tokens) ← directives? tokens
  let (selections, tokens) ← optionalSelections? inner tokens
  some (.field ⟨label, name, arguments, areConditional directives, position⟩ selections, tokens)

/-- Reads what follows the dots of an inline fragment and its condition. -/
def inlineTail? (inner : Reader (List Selection)) (condition : Option String)
    (position : Position) : Reader Selection := fun tokens => do
  let (_, tokens) ← directives? tokens
  let (selections, tokens) ← requiredSelections? inner tokens
  some (.inline condition selections position, tokens)

/-- Reads one selection, with a reader for what follows an opening brace. -/
def selection? (inner : Reader (List Selection)) : Reader Selection
  | ⟨.name label, position⟩ :: ⟨.punct .colon, _⟩ :: rest =>
    match rest with
    | ⟨.name name, _⟩ :: rest => fieldTail? inner (some label) name position rest
    | _ => none
  | ⟨.name name, position⟩ :: rest => fieldTail? inner none name position rest
  | ⟨.spread, _⟩ :: ⟨.name name, position⟩ :: rest =>
    if name = "on" then
      match rest with
      | ⟨.name condition, _⟩ :: rest => inlineTail? inner (some condition) position rest
      | _ => none
    else do
      let (_, rest) ← directives? rest
      some (.spread name position, rest)
  | ⟨.spread, _⟩ :: next :: rest => inlineTail? inner none next.position (next :: rest)
  | _ => none

/-- Reads selections up to the closing brace. There is at least one. -/
def selections? : Nat → Reader (List Selection)
  | 0, _ => none
  | budget + 1, tokens => do
    let (selection, tokens) ← selection? (selections? budget) tokens
    match tokens with
    | ⟨.punct .closeBrace, _⟩ :: rest => some ([selection], rest)
    | _ =>
      let (selections, rest) ← selections? budget tokens
      some (selection :: selections, rest)

/-- Reads a selection set. -/
def selectionSet? : Reader (List Selection) := fun tokens =>
  requiredSelections? (selections? tokens.length) tokens

/-! ## Operations -/

/-- Reads variable definitions up to the closing parenthesis. -/
def parameters? : Nat → Reader (List VariableDefinition)
  | budget + 1, ⟨.punct .dollar, _⟩ :: ⟨.name name, _⟩ :: ⟨.punct .colon, _⟩ :: rest => do
    let (type, rest) ← type? rest.length rest
    let (defaultValue, rest) ← defaultValue? rest
    let (parameters, rest) ← parameters? budget rest
    some (⟨name, type, defaultValue⟩ :: parameters, rest)
  | _ + 1, ⟨.punct .closeParen, _⟩ :: rest => some ([], rest)
  | _, _ => none

/-- Reads the variable definitions of an operation, if there are any. There is at least one between the
parentheses. -/
def variableDefinitions? : Reader (List VariableDefinition)
  | ⟨.punct .openParen, _⟩ :: rest => do
    let (parameters, rest) ← parameters? rest.length rest
    if parameters.isEmpty then none else some (parameters, rest)
  | rest => some ([], rest)

/-- Reads the name that stands here, if there is one. -/
def optionalName : List Lexeme → Option String × List Lexeme
  | ⟨.name name, _⟩ :: rest => (some name, rest)
  | rest => (none, rest)

/-- Reads what follows the keyword of an operation. -/
def operationTail? (kind : OperationKind) (position : Position) : Reader Definition :=
  fun tokens => do
    let (name, tokens) := optionalName tokens
    let (parameters, tokens) ← variableDefinitions? tokens
    let (_, tokens) ← directives? tokens
    let (selections, tokens) ← selectionSet? tokens
    some (.operation ⟨kind, name, parameters, selections, position⟩, tokens)

/-- Reads what follows the keyword of a fragment. -/
def fragmentTail? (position : Position) : Reader Definition
  | ⟨.name name, _⟩ :: ⟨.name "on", _⟩ :: ⟨.name condition, _⟩ :: rest => do
    let (_, rest) ← directives? rest
    let (selections, rest) ← selectionSet? rest
    some (.fragment ⟨name, condition, selections, position⟩, rest)
  | _ => none

/-- Reads one definition. -/
def definition? : Reader Definition
  | ⟨.punct .openBrace, position⟩ :: rest => do
    let (selections, rest) ← selections? rest.length rest
    some (.operation ⟨.query, none, [], selections, position⟩, rest)
  | ⟨.name keyword, position⟩ :: rest =>
    if keyword = "query" then operationTail? .query position rest
    else if keyword = "mutation" then operationTail? .mutation position rest
    else if keyword = "subscription" then operationTail? .subscription position rest
    else if keyword = "fragment" then fragmentTail? position rest
    else none
  | _ => none

/-! ## Documents -/

/-- Reads definitions up to the end. -/
def definitions? : Nat → List Lexeme → Option (List Definition)
  | _, [] => some []
  | 0, _ => none
  | budget + 1, tokens => do
    let (definition, rest) ← definition? tokens
    let definitions ← definitions? budget rest
    some (definition :: definitions)

/-- Reads a document, which has at least one definition. -/
def Document.parse? (text : String) : Option Document := do
  let tokens ← lexemes? text
  let definitions ← definitions? tokens.length tokens
  if definitions.isEmpty then none else some ⟨definitions⟩

/-- Reads a document or says that it is malformed. -/
def Document.parse (text : String) : Except DocumentError Document :=
  match Document.parse? text with
  | some document => .ok document
  | none => .error .malformed

end ElmBindings
