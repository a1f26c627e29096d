import ElmBindings.GraphQL.Token
import ElmBindings.GraphQL.Value
import ElmBindings.TypeRef

set_option autoImplicit false

/-! # Query documents

The operations and fragments of a query file. -/

namespace ElmBindings

open GraphQL

/-! ## Selections -/

/-- A selected field, without its sub-selections. -/
structure Field where
  /-- The name under which the answer is to hold the field, if the query gives one. -/
  label : Option String
  name : String
  arguments : List (String × Value)
  /-- Whether an `@include` or `@skip` directive may leave the field out. -/
  conditional : Bool
  position : Position

/-- The key of the field in the answer. -/
def Field.responseKey (f : Field) : String := f.label.getD f.name

/-- One item of a selection set. A field that selects nothing below it has no sub-selections. -/
inductive Selection
  | field (field : Field) (selections : List Selection)
  | spread (fragment : String) (position : Position)
  | inline (condition : Option String) (selections : List Selection) (position : Position)

/-- The kind of a selection, by name. -/
def Selection.kind : Selection → String
  | .field .. => "Field"
  | .spread .. => "FragmentSpread"
  | .inline .. => "InlineFragment"

/-! ## Definitions -/

/-- What an operation does. -/
inductive OperationKind
  | query
  | mutation
  | subscription
  deriving DecidableEq

/-- The word that starts an operation of this kind. -/
def OperationKind.keyword : OperationKind → String
  | query => "query"
  | mutation => "mutation"
  | subscription => "subscription"

/-- A variable of an operation. -/
structure VariableDefinition where
  name : String
  type : TypeRef
  defaultValue : Option Value

/-- An operation. -/
structure Operation where
  kind : OperationKind
  name : Option String
  /-- The variables that are given with the operation. -/
  parameters : List VariableDefinition
  selections : List Selection
  position : Position

/-- The name that stands for the one an operation does not have. -/
def anonymousName : String := "AnonymousQuery"

/-- The name of an operation, or the one that stands for it. -/
def Operation.effectiveName (op : Operation) : String := op.name.getD anonymousName

/-- A named selection set on a type. -/
structure Fragment where
  name : String
  condition : String
  selections : List Selection
  position : Position

/-- A definition of a document. -/
inductive Definition
  | operation (operation : Operation)
  | fragment (fragment : Fragment)

namespace Definition

/-- The name of a definition. -/
def name : Definition → String
  | operation op => op.effectiveName
  | fragment f => f.name

/-- The selections of a definition. -/
def selections : Definition → List Selection
  | operation op => op.selections
  | fragment f => f.selections

/-- The fragment that a definition is. -/
def fragment? : Definition → Option Fragment
  | operation _ => none
  | fragment f => some f

/-- The operation that a definition is. -/
def operation? : Definition → Option Operation
  | operation op => some op
  | fragment _ => none

end Definition

/-- A query document. -/
structure Document where
  definitions : List Definition

namespace Document

/-- The fragments of a document, in order. -/
def fragments (d : Document) : List Fragment := d.definitions.filterMap Definition.fragment?

/-- The operations of a document, in order. -/
def operations (d : Document) : List Operation := d.definitions.filterMap Definition.operation?

end Document

/-! ## Errors -/

/-- Why a document is refused. -/
inductive DocumentError
  | malformed
  | duplicateFragment (name : String)
  deriving DecidableEq

/-- The error in words. -/
def DocumentError.message : DocumentError → String
  | malformed => "malformed query document"
  | duplicateFragment name => "duplicate fragment definition: '" ++ name ++ "'"

end ElmBindings
