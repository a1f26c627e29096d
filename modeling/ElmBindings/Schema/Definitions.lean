import ElmBindings.GraphQL.Reader
import ElmBindings.Schema.Basic

set_option autoImplicit false

/-! # Schema definitions

The schema definition language: `SchemaItem.parse?` reads its text into a list of items, and
`Schema.ofItems` builds the schema that they describe. -/

namespace ElmBindings

open GraphQL

/-! ## Items -/

/-- The root types that a schema definition names. -/
structure Roots where
  query : Option String
  mutation : Option String
  subscription : Option String

/-- One item of a schema text. An extension is given as the definition of what it adds. -/
inductive SchemaItem
  | roots (roots : Roots)
  | definition (type : TypeDef)
  | extension (addition : TypeDef)
  | directive

/-! ## Reading parts of definitions -/

/-- The description that stands here, if there is one. -/
def description : List Lexeme → Option String × List Lexeme
  | ⟨.string text, _⟩ :: rest => (some text, rest)
  | rest => (none, rest)

/-- The reason for which a `deprecated` directive is given, or the usual one. -/
def deprecationOf (directives : List Directive) : Option String :=
  (directives.find? (·.name == "deprecated")).map fun directive =>
    (directive.arguments.findSome? fun (name, value) =>
      match name, value with
      | "reason", .string reason => some reason
      | _, _ => none).getD "No longer supported"

/-- Reads an argument or a field of an input object. -/
def inputValue? : Reader InputValue := fun tokens =>
  match (description tokens).2 with
  | ⟨.name name, _⟩ :: ⟨.punct .colon, _⟩ :: rest => do
    let (type, rest) ← type? rest.length rest
    let (defaultValue, rest) ← defaultValue? rest
    let (_, rest) ← directives? rest
    some (⟨name, type, defaultValue.map Value.text⟩, rest)
  | _ => none

/-- Reads one thing after another up to a closing bracket of the given kind. There is at least one. -/
def someUntil? {α : Type} (close : Punctuator) (item? : Reader α) : Nat → Reader (List α)
  | 0, _ => none
  | budget + 1, tokens => do
    let (item, tokens) ← item? tokens
    match tokens with
    | ⟨.punct p, position⟩ :: rest =>
      if p = close then some ([item], rest)
      else
        let (items, rest) ← someUntil? close item? budget (⟨.punct p, position⟩ :: rest)
        some (item :: items, rest)
    | tokens =>
      let (items, rest) ← someUntil? close item? budget tokens
      some (item :: items, rest)

/-- Reads things between brackets, if the opening one stands here. -/
def bracketed? {α : Type} (opening close : Punctuator) (item? : Reader α) : Reader (List α)
  | ⟨.punct p, position⟩ :: rest =>
    if p = opening then someUntil? close item? rest.length rest
    else some ([], ⟨.punct p, position⟩ :: rest)
  | tokens => some ([], tokens)

/-- Reads the arguments that a field or directive declares, if there are any. -/
def declaredArguments? : Reader (List InputValue) :=
  bracketed? .openParen .closeParen inputValue?

/-- Reads a field of an object or interface type. -/
def fieldDef? : Reader FieldDef := fun tokens =>
  let (text, tokens) := description tokens
  match tokens with
  | ⟨.name name, _⟩ :: rest => do
    let (arguments, rest) ← declaredArguments? rest
    match rest with
    | ⟨.punct .colon, _⟩ :: rest =>
      let (type, rest) ← type? rest.length rest
      let (directives, rest) ← directives? rest
      some (⟨name, type, arguments, text, deprecationOf directives⟩, rest)
    | _ => none
  | _ => none

/-- Reads a value of an enum type. -/
def enumValue? : Reader EnumValue := fun tokens =>
  let (text, tokens) := description tokens
  match tokens with
  | ⟨.name name, _⟩ :: rest => do
    let (directives, rest) ← directives? rest
    some (⟨name, text, deprecationOf directives⟩, rest)
  | _ => none

/-- Reads names divided by a punctuator, after an optional one in front. -/
def separatedNames? (separator : Punctuator) : Nat → Reader (List String)
  | budget + 1, ⟨.name name, _⟩ :: ⟨.punct p, position⟩ :: rest =>
    if p = separator then do
      let (names, rest) ← separatedNames? separator budget rest
      some (name :: names, rest)
    else some ([name], ⟨.punct p, position⟩ :: rest)
  | _, ⟨.name name, _⟩ :: rest => some ([name], rest)
  | _, _ => none

/-- Reads names divided by a punctuator, which may also stand in front of the first one. -/
def names? (separator : Punctuator) : Reader (List String)
  | ⟨.punct p, _⟩ :: rest => if p = separator then separatedNames? separator rest.length rest else none
  | tokens => separatedNames? separator tokens.length tokens

/-- Reads the interfaces that a type implements, if it says so. -/
def implements? : Reader (List String)
  | ⟨.name "implements", _⟩ :: rest => names? .amp rest
  | tokens => some ([], tokens)

/-- Reads the members of a union after an equals sign, if there is one. -/
def unionMembers? : Reader (List String)
  | ⟨.punct .equals, _⟩ :: rest => names? .pipe rest
  | tokens => some ([], tokens)

/-! ## Reading definitions -/

/-- A definition that was read, and whether it says more than the name of its type. -/
structure Body where
  type : TypeDef
  addsSomething : Bool

/-- Reads what follows the name of a type of the given kind. -/
def bodyTail? (keyword name : String) (text : Option String) : Reader Body := fun tokens => do
  if keyword = "scalar" then
    let (directives, tokens) ← directives? tokens
    some (⟨.scalar ⟨name, text⟩, !directives.isEmpty⟩, tokens)
  else if keyword = "type" then
    let (interfaces, tokens) ← implements? tokens
    let (directives, tokens) ← directives? tokens
    let (fields, tokens) ← bracketed? .openBrace .closeBrace fieldDef? tokens
    some (⟨.object ⟨name, text, interfaces, fields⟩,
      !interfaces.isEmpty || !directives.isEmpty || !fields.isEmpty⟩, tokens)
  else if keyword = "interface" then
    let (_, tokens) ← implements? tokens
    let (directives, tokens) ← directives? tokens
    let (fields, tokens) ← bracketed? .openBrace .closeBrace fieldDef? tokens
    some (⟨.interface ⟨name, text, [], fields⟩, !directives.isEmpty || !fields.isEmpty⟩, tokens)
  else if keyword = "union" then
    let (directives, tokens) ← directives? tokens
    let (members, tokens) ← unionMembers? tokens
    some (⟨.union ⟨name, text, members⟩, !directives.isEmpty || !members.isEmpty⟩, tokens)
  else if keyword = "enum" then
    let (directives, tokens) ← directives? tokens
    let (values, tokens) ← bracketed? .openBrace .closeBrace enumValue? tokens
    some (⟨.enum ⟨name, text, values⟩, !directives.isEmpty || !values.isEmpty⟩, tokens)
  else if keyword = "input" then
    let (directives, tokens) ← directives? tokens
    let (fields, tokens) ← bracketed? .openBrace .closeBrace inputValue? tokens
    some (⟨.input ⟨name, text, fields⟩, !directives.isEmpty || !fields.isEmpty⟩, tokens)
  else none

/-- Reads the definition of a type from its keyword on. -/
def body? (text : Option String) : Reader Body
  | ⟨.name keyword, _⟩ :: ⟨.name name, _⟩ :: rest => bodyTail? keyword name text rest
  | _ => none

/-- Reads the roots that a schema definition names, each at most once, up to the closing brace. -/
def roots? (roots : Roots) : Nat → Reader Roots
  | budget + 1, ⟨.name key, _⟩ :: ⟨.punct .colon, _⟩ :: ⟨.name name, _⟩ :: rest =>
    if key = "query" ∧ roots.query.isNone then
      roots? { roots with query := name } budget rest
    else if key = "mutation" ∧ roots.mutation.isNone then
      roots? { roots with mutation := name } budget rest
    else if key = "subscription" ∧ roots.subscription.isNone then
      roots? { roots with subscription := name } budget rest
    else none
  | _ + 1, ⟨.punct .closeBrace, _⟩ :: rest => some (roots, rest)
  | _, _ => none

/-- The places where a directive may be declared to stand. -/
def directiveLocations : List String :=
  ["QUERY", "MUTATION", "SUBSCRIPTION", "FIELD", "FRAGMENT_DEFINITION", "FRAGMENT_SPREAD",
   "INLINE_FRAGMENT", "SCHEMA", "SCALAR", "OBJECT", "FIELD_DEFINITION", "ARGUMENT_DEFINITION",
   "INTERFACE", "UNION", "ENUM", "ENUM_VALUE", "INPUT_OBJECT", "INPUT_FIELD_DEFINITION",
   "VARIABLE_DEFINITION"]

/-- Reads what follows the `on` of a directive: nothing at the end of the text, or where other
punctuation or a string stands, and otherwise names of locations. -/
def locations? : Reader Unit
  | ⟨.punct p, position⟩ :: rest => do
    if p = .pipe then
      let (names, rest) ← separatedNames? .pipe rest.length rest
      if names.all (· ∈ directiveLocations) then some ((), rest) else none
    else some ((), ⟨.punct p, position⟩ :: rest)
  | ⟨.name name, position⟩ :: rest => do
    let (names, rest) ← separatedNames? .pipe (rest.length + 1) (⟨.name name, position⟩ :: rest)
    if names.all (· ∈ directiveLocations) then some ((), rest) else none
  | tokens => some ((), tokens)

/-- Reads the definition of a directive after its keyword. -/
def directiveTail? : Reader SchemaItem
  | ⟨.punct .atSign, _⟩ :: ⟨.name _, _⟩ :: rest => do
    let (_, rest) ← declaredArguments? rest
    let rest := match rest with
      | ⟨.name "repeatable", _⟩ :: rest => rest
      | rest => rest
    match rest with
    | ⟨.name "on", _⟩ :: rest =>
      let (_, rest) ← locations? rest
      some (.directive, rest)
    | _ => none
  | _ => none

/-- Reads one item. Only definitions of types and directives may have a description. -/
def schemaItem? : Reader SchemaItem
  | ⟨.name "schema", _⟩ :: rest => do
    let (_, rest) ← directives? rest
    match rest with
    | ⟨.punct .openBrace, _⟩ :: rest =>
      let (roots, rest) ← roots? ⟨none, none, none⟩ rest.length rest
      some (.roots roots, rest)
    | _ => none
  | ⟨.name "extend", _⟩ :: rest => do
    let (body, rest) ← body? none rest
    if body.addsSomething then some (.extension body.type, rest) else none
  | tokens =>
    let (text, tokens) := description tokens
    match tokens with
    | ⟨.name "directive", _⟩ :: rest => directiveTail? rest
    | tokens => do
      let (body, rest) ← body? text tokens
      some (.definition body.type, rest)

/-- Reads items up to the end. -/
def schemaItems? : Nat → List Lexeme → Option (List SchemaItem)
  | _, [] => some []
  | 0, _ => none
  | budget + 1, tokens => do
    let (item, rest) ← schemaItem? tokens
    let items ← schemaItems? budget rest
    some (item :: items)

/-- Reads a schema text, which has at least one item. -/
def SchemaItem.parse? (text : String) : Option (List SchemaItem) := do
  let tokens ← lexemes? text
  let items ← schemaItems? tokens.length tokens
  if items.isEmpty then none else some items

/-! ## Building the schema -/

/-- A definition with what an extension of the same kind adds at its end. -/
def TypeDef.extended? : (base addition : TypeDef) → Option TypeDef
  | .scalar base, .scalar _ => some (.scalar base)
  | .object base, .object more =>
    some (.object { base with
      interfaces := base.interfaces ++ more.interfaces, fields := base.fields ++ more.fields })
  | .interface base, .interface more =>
    some (.interface { base with fields := base.fields ++ more.fields })
  | .union base, .union more => some (.union { base with members := base.members ++ more.members })
  | .enum base, .enum more => some (.enum { base with values := base.values ++ more.values })
  | .input base, .input more => some (.input { base with fields := base.fields ++ more.fields })
  | _, _ => none

namespace Schema

/-- The schema with one more item, extensions left for later. A schema definition sets the roots of
mutations and subscriptions even where it does not name them. -/
def withItem (schema : Schema) : SchemaItem → Schema
  | .roots roots =>
    { schema with
      queryType := roots.query.getD schema.queryType
      mutationType := roots.mutation
      subscriptionType := roots.subscription }
  | .definition d => schema.add d
  | .extension _ | .directive => schema

/-- The schema with one type extended. -/
def extend (schema : Schema) (addition : TypeDef) : Except LoadError Schema :=
  match schema.get? addition.name with
  | none => .error (.unknownExtension addition.name)
  | some base =>
    match base.extended? addition with
    | some d => .ok (schema.add d)
    | none => .error (.mismatchedExtension base.kind addition.name)

/-- A root type that is there under its usual name. -/
def usualRoot? (schema : Schema) (name : String) : Option String :=
  if schema.contains name then some name else none

/-- Whether an item names the roots. -/
def namesRoots : SchemaItem → Bool
  | .roots _ => true
  | _ => false

/-- The definition that an extension adds. -/
def addition? : SchemaItem → Option TypeDef
  | .extension addition => some addition
  | _ => none

/-- The schema that items describe. Extensions come after all definitions, wherever they stand. Without
a schema definition the roots are the types with the usual names. -/
def ofItems (items : List SchemaItem) : Except LoadError Schema := do
  let base := items.foldl withItem (ofQuery "Query")
  let schema ← (items.filterMap addition?).foldlM extend base
  if items.any namesRoots then .ok schema
  else
    .ok { schema with
      mutationType := schema.usualRoot? "Mutation"
      subscriptionType := schema.usualRoot? "Subscription" }

/-- Reads a schema from its definitions. -/
def parseDefinitions (text : String) : Except LoadError Schema :=
  match SchemaItem.parse? text with
  | some items => ofItems items
  | none => .error .malformedDefinitions

end Schema

end ElmBindings
