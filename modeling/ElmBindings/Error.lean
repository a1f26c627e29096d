import ElmBindings.Document.Basic
import ElmBindings.Schema.Basic

set_option autoImplicit false

/-! # Errors of generation

Why no module can be generated from a query document. -/

namespace ElmBindings

/-- Why generation fails. -/
inductive GenerateError
  | document (error : DocumentError)
  | schema (error : SchemaError)
  /-- The query file is missing, is no file, or holds no text. -/
  | unreadable
  /-- A field of an object, union or input type is selected as if it were a leaf. -/
  | notALeafType (name : String)
  | inlineFragmentOutsideUnion
  /-- A field other than `__typename` stands directly in the selection of a union. -/
  | unexpectedField (name : String)
  | unexpectedSelection (kind : String)
  | unknownFragment (name : String)
  /-- Fragments that spread each other, from the first one round to itself. -/
  | fragmentCycle (path : List String)
  /-- An inline fragment is on a type that is no member of the union, or on none. -/
  | notAUnionMember (union condition : String)
  | unknownField (type field : String)
  | unknownType (name : String)
  | missingRootType (operation : String)
  | unsupportedOperation (kind : String)
  | duplicateDeclaration (name : String)
  | recursiveInputType (name : String)
  | unknownMethod (method : String)
  deriving DecidableEq

/-- The error in words. -/
def GenerateError.message : GenerateError → String
  | document e => "document error: " ++ e.message
  | schema e => "schema error: " ++ e.message
  | unreadable => "IO error: unreadable query file"
  | notALeafType name => "not a leaf type: " ++ name
  | inlineFragmentOutsideUnion => "should not happen"
  | unexpectedField name => "unexpected field: " ++ name
  | unexpectedSelection kind => "unexpected: " ++ kind
  | unknownFragment name => "unknown fragment '" ++ name ++ "'"
  | fragmentCycle path => "fragment cycle: " ++ " -> ".intercalate path
  | notAUnionMember union condition =>
    "'" ++ condition ++ "' is not a member of union '" ++ union ++ "'"
  | unknownField type field => "unknown field '" ++ field ++ "' on type '" ++ type ++ "'"
  | unknownType name => "unknown type '" ++ name ++ "'"
  | missingRootType operation => "schema has no " ++ operation ++ " root type"
  | unsupportedOperation kind => "unsupported operation: " ++ kind
  | duplicateDeclaration name => "duplicate declaration '" ++ name ++ "'"
  | recursiveInputType name => "recursive input type '" ++ name ++ "'"
  | unknownMethod method => "unknown HTTP method '" ++ method ++ "' (expected GET or POST)"

end ElmBindings
