import ElmBindings.Schema.Basic

set_option autoImplicit false

/-! # Resolved types

A type reference with the definition that its name leads to. Interfaces resolve to object types, since
selections treat both alike. -/

namespace ElmBindings

/-- A type reference whose name is replaced by its definition. -/
inductive ResolvedType
  | scalar (scalar : ScalarDef)
  | enum (enum : EnumDef)
  | object (object : ObjectDef)
  | union (union : UnionDef)
  | input (input : InputObjectDef)
  | list (item : ResolvedType)
  | nonNull (inner : ResolvedType)
  deriving DecidableEq

namespace ResolvedType

/-- A definition as a resolved type. -/
def ofDef : TypeDef → ResolvedType
  | .scalar d => scalar d
  | .object d => object d
  | .interface d => object d
  | .union d => union d
  | .enum d => enum d
  | .input d => input d

/-- Whether the outermost wrapper is non-null. -/
def isNonNull : ResolvedType → Bool
  | nonNull _ => true
  | _ => false

/-- The type without its outermost non-null wrapper. -/
def nullable : ResolvedType → ResolvedType
  | nonNull inner => inner
  | t => t

/-- The type under all wrappers. -/
def named : ResolvedType → ResolvedType
  | list item => item.named
  | nonNull inner => inner.named
  | t => t

/-- The name of the type under all wrappers. -/
def name : ResolvedType → String
  | scalar d => d.name
  | enum d => d.name
  | object d => d.name
  | union d => d.name
  | input d => d.name
  | list item => item.name
  | nonNull inner => inner.name

/-- The number of list wrappers. -/
def listDepth : ResolvedType → Nat
  | list item => item.listDepth + 1
  | nonNull inner => inner.listDepth
  | _ => 0

end ResolvedType

/-- Resolves a reference that is made at a place described by `context`. -/
def Schema.resolve (schema : Schema) (context : String) :
    TypeRef → Except SchemaError ResolvedType
  | .named name =>
    match schema.get? name with
    | some d => .ok (.ofDef d)
    | none => .error (.typeNotFound name context)
  | .list item => (schema.resolve context item).map .list
  | .nonNull inner =>
    if inner.isNonNull then .error (.nestedNonNull context)
    else (schema.resolve context inner).map .nonNull

end ElmBindings
