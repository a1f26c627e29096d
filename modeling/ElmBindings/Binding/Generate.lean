import ElmBindings.Binding.Shape
import ElmBindings.Document.Printer

set_option autoImplicit false

/-! # Bindings of a document

Every operation and fragment of a document gives one binding: what a module has to declare for it. -/

namespace ElmBindings

/-- What a binding is for. -/
inductive BindingKind
  | query
  | mutation
  | fragment
  deriving DecidableEq

/-- What a module declares for one definition. -/
structure Binding where
  kind : BindingKind
  /-- The GraphQL name. -/
  name : String
  /-- The name of the alias for the result. -/
  typeName : String
  /-- The type of the result. -/
  type : ElmType
  decoder : Decoder
  /-- The variables of an operation. -/
  inputs : List Variable
  /-- The text for the server: an operation with the fragments it needs, or a fragment alone. -/
  document : String

namespace Binding

/-- Whether the binding is for an operation. -/
def isOperation (binding : Binding) : Bool := binding.kind != .fragment

/-- The variable of an operation as a field of its record of variables. -/
def operationVariable (schema : Schema) (v : VariableDefinition) : Except GenerateError Variable := do
  let input ← schema.input ("$" ++ v.name) v.type
  .ok ⟨v.name, Naming.valueName v.name, input⟩

/-- The kind of the binding for an operation, and the name of the type that it selects from. -/
def root (schema : Schema) (kind : OperationKind) : Except GenerateError (BindingKind × String) :=
  match kind with
  | .query => .ok (.query, schema.queryType)
  | .mutation =>
    match schema.mutationType with
    | some name => .ok (.mutation, name)
    | none => .error (.missingRootType kind.keyword)
  | .subscription => .error (.unsupportedOperation kind.keyword)

/-- The binding for an operation. -/
def ofOperation (schema : Schema) (index : FragmentIndex) (op : Operation) :
    Except GenerateError Binding := do
  let (kind, type) ← root schema op.kind
  let parent ← schema.selectable type
  let name := op.effectiveName
  let typeName := Naming.capitalize name
  let shape ← expand schema index [] parent {} op.selections
  let inputs ← op.parameters.mapM (operationVariable schema)
  .ok
    { kind, name, typeName, inputs
      type := shape.recordType
      decoder := shape.recordDecoder (some typeName)
      document := op.documentText index }

/-- The binding for a fragment. -/
def ofFragment (schema : Schema) (index : FragmentIndex) (fragment : Fragment) :
    Except GenerateError Binding := do
  let parent ← schema.selectable fragment.condition
  let shape ← expand schema index [fragment.name] parent {} fragment.selections
  .ok
    { kind := .fragment
      name := fragment.name
      typeName := Naming.capitalize fragment.name
      type := shape.recordType
      decoder := shape.recordDecoder none
      inputs := []
      document := fragment.text }

/-- The binding for a definition. -/
def ofDefinition (schema : Schema) (index : FragmentIndex) :
    Definition → Except GenerateError Binding
  | .operation op => ofOperation schema index op
  | .fragment fragment => ofFragment schema index fragment

/-- The bindings for a document, in order. -/
def ofDocument (schema : Schema) (document : Document) : Except GenerateError (List Binding) := do
  let index ← (FragmentIndex.ofDocument document).mapError .document
  document.definitions.mapM (ofDefinition schema index)

end Binding

end ElmBindings
