set_option autoImplicit false

/-! # Type references

A reference to a GraphQL type by name, under list and non-null wrappers, and the built-in scalars. -/

namespace ElmBindings

/-! ## References -/

/-- A reference to a type, such as `[User!]!`. -/
inductive TypeRef
  | named (name : String)
  | list (item : TypeRef)
  | nonNull (inner : TypeRef)
  deriving DecidableEq

namespace TypeRef

/-- The name under all wrappers. -/
def baseName : TypeRef → String
  | named name => name
  | list item => item.baseName
  | nonNull inner => inner.baseName

/-- Whether the outermost wrapper is non-null. -/
def isNonNull : TypeRef → Bool
  | nonNull _ => true
  | _ => false

/-- The reference made non-null; one that already is stays as it is. -/
def required (t : TypeRef) : TypeRef :=
  if t.isNonNull then t else nonNull t

/-- The reference without its outermost non-null wrapper. -/
def nullable : TypeRef → TypeRef
  | nonNull inner => inner
  | t => t

/-- The reference as GraphQL text. -/
def text : TypeRef → String
  | named name => name
  | list item => "[" ++ item.text ++ "]"
  | nonNull inner => inner.text ++ "!"

end TypeRef

/-! ## Built-in scalars -/

/-- The scalars that every schema has. -/
inductive BuiltinScalar
  | int
  | float
  | string
  | boolean
  | id
  deriving DecidableEq

namespace BuiltinScalar

/-- All of them, in the order in which a schema lists them. -/
def all : List BuiltinScalar := [int, float, string, boolean, id]

/-- The GraphQL name. -/
def name : BuiltinScalar → String
  | int => "Int"
  | float => "Float"
  | string => "String"
  | boolean => "Boolean"
  | id => "ID"

/-- The built-in scalar of a name. -/
def ofName? (name : String) : Option BuiltinScalar :=
  all.find? (·.name == name)

end BuiltinScalar

end ElmBindings
