import ElmBindings.TypeRef

set_option autoImplicit false

/-! # Schemas

The types of a server. A `Schema` keeps its type definitions in a list and finds them by name through
`positions`, which says where in the list the definition of each name stands. -/

namespace ElmBindings

/-! ## Type definitions -/

/-- An argument of a field, or a field of an input object. -/
structure InputValue where
  name : String
  type : TypeRef
  /-- The default value as GraphQL text. -/
  defaultText : Option String
  deriving DecidableEq

/-- A field of an object or interface type. -/
structure FieldDef where
  name : String
  type : TypeRef
  arguments : List InputValue
  description : Option String
  /-- Why the field is deprecated, if it is. -/
  deprecation : Option String
  deriving DecidableEq

/-- A scalar type. -/
structure ScalarDef where
  name : String
  description : Option String
  deriving DecidableEq

/-- An object or interface type. -/
structure ObjectDef where
  name : String
  description : Option String
  interfaces : List String
  fields : List FieldDef
  deriving DecidableEq

/-- The first field of a name. -/
def ObjectDef.field? (object : ObjectDef) (name : String) : Option FieldDef :=
  object.fields.find? (·.name == name)

/-- A union type. -/
structure UnionDef where
  name : String
  description : Option String
  members : List String
  deriving DecidableEq

/-- A value of an enum type. -/
structure EnumValue where
  name : String
  description : Option String
  /-- Why the value is deprecated, if it is. -/
  deprecation : Option String
  deriving DecidableEq

/-- An enum type. -/
structure EnumDef where
  name : String
  description : Option String
  values : List EnumValue
  deriving DecidableEq

/-- An input object type. -/
structure InputObjectDef where
  name : String
  description : Option String
  fields : List InputValue
  deriving DecidableEq

/-- A type definition. -/
inductive TypeDef
  | scalar (scalar : ScalarDef)
  | object (object : ObjectDef)
  | interface (interface : ObjectDef)
  | union (union : UnionDef)
  | enum (enum : EnumDef)
  | input (input : InputObjectDef)
  deriving DecidableEq

namespace TypeDef

/-- The name of the type. -/
def name : TypeDef → String
  | scalar d => d.name
  | object d => d.name
  | interface d => d.name
  | union d => d.name
  | enum d => d.name
  | input d => d.name

/-- What kind of type it is. -/
def kind : TypeDef → String
  | scalar _ => "scalar"
  | object _ => "object"
  | interface _ => "interface"
  | union _ => "union"
  | enum _ => "enum"
  | input _ => "input object"

/-- Whether values of the type have no fields. -/
def isLeaf : TypeDef → Bool
  | scalar _ | enum _ => true
  | _ => false

/-- Whether it is an object type. -/
def isObject : TypeDef → Bool
  | object _ => true
  | _ => false

/-- The union that a definition is. -/
def union? : TypeDef → Option UnionDef
  | union d => some d
  | _ => none

/-- The object or interface that a definition is. -/
def selectable? : TypeDef → Option ObjectDef
  | object d | interface d => some d
  | _ => none

/-- The built-in scalar that a definition is. -/
def builtin? : TypeDef → Option BuiltinScalar
  | scalar d => BuiltinScalar.ofName? d.name
  | _ => none

end TypeDef

/-! ## Schemas -/

/-- The types of a server and the roots of its operations. -/
structure Schema where
  queryType : String
  mutationType : Option String
  subscriptionType : Option String
  types : List TypeDef
  /-- For each name the place of its definition in `types`. -/
  positions : List (String × Nat)

namespace Schema

/-- Where the definition of a name stands. -/
def position? (schema : Schema) (name : String) : Option Nat := schema.positions.lookup name

/-- The definition of a name. -/
def get? (schema : Schema) (name : String) : Option TypeDef :=
  (schema.position? name).bind fun i => schema.types[i]?

/-- Whether a name is defined. -/
def contains (schema : Schema) (name : String) : Bool := (schema.position? name).isSome

/-- The object or interface type of a name. -/
def selectable? (schema : Schema) (name : String) : Option ObjectDef :=
  (schema.get? name).bind TypeDef.selectable?

/-- The union types, in order. -/
def unions (schema : Schema) : List UnionDef := schema.types.filterMap TypeDef.union?

/-- The members of the last union of a name. -/
def unionMembers? (schema : Schema) (name : String) : Option (List String) :=
  (schema.unions.reverse.find? (·.name == name)).map UnionDef.members

/-- A definition that is found is one of the types. -/
theorem mem_of_get? {schema : Schema} {name : String} {d : TypeDef}
    (h : schema.get? name = some d) : d ∈ schema.types := by
  rw [get?, Option.bind_eq_some_iff] at h
  obtain ⟨i, -, hi⟩ := h
  exact List.mem_of_getElem? hi

/-! ## Changes -/

/-- Puts a definition in the place of the one that has its name, or else at the end. -/
def add (schema : Schema) (d : TypeDef) : Schema :=
  match schema.position? d.name with
  | some i => { schema with types := schema.types.set i d }
  | none =>
    { schema with
      types := schema.types ++ [d]
      positions := (d.name, schema.types.length) :: schema.positions }

/-- Puts a definition at the end, where no name leads to it yet. -/
def push (schema : Schema) (d : TypeDef) : Schema :=
  { schema with types := schema.types ++ [d] }

/-- Puts a definition in the place of the one that a name leads to; the name keeps leading there. -/
def replace? (schema : Schema) (name : String) (d : TypeDef) : Option Schema :=
  (schema.position? name).map fun i => { schema with types := schema.types.set i d }

/-- Makes each name lead to the last definition that has it, and no other name lead anywhere. -/
def reindex (schema : Schema) : Schema :=
  { schema with positions := (schema.types.zipIdx.map fun (d, i) => (d.name, i)).reverse }

/-- The schema with a query root and the built-in scalars. -/
def ofQuery (queryType : String) : Schema :=
  (BuiltinScalar.all.map fun s => TypeDef.scalar ⟨s.name, none⟩).foldl add
    { queryType, mutationType := none, subscriptionType := none, types := [], positions := [] }

end Schema

/-! ## Errors -/

/-- Why a schema text or file is refused. -/
inductive LoadError
  | unreadable
  | malformedDefinitions
  | malformedIntrospection
  | invalidTypeRef (context reason : String)
  | unknownExtension (name : String)
  | mismatchedExtension (kind name : String)
  deriving DecidableEq

/-- The error in words. -/
def LoadError.message : LoadError → String
  | unreadable => "unreadable schema file"
  | malformedDefinitions => "malformed schema definitions"
  | malformedIntrospection => "malformed introspection result"
  | invalidTypeRef context reason => "invalid type reference in '" ++ context ++ "': " ++ reason
  | unknownExtension name => "extension of unknown type '" ++ name ++ "'"
  | mismatchedExtension kind name =>
    "invalid schema structure: extension of " ++ kind ++ " '" ++ name ++ "' has a different kind"

/-- What is wrong with a schema. -/
inductive SchemaError
  | typeNotFound (name context : String)
  | invalidUnionMember (union member : String)
  | nestedNonNull (context : String)
  | invalidRootType (operation name : String)
  | repeatedMember (member union : String)
  | repeatedValue (value enum : String)
  deriving DecidableEq

/-- The error in words. -/
def SchemaError.message : SchemaError → String
  | typeNotFound name context =>
    "type '" ++ name ++ "' not found (referenced from '" ++ context ++ "')"
  | invalidUnionMember union member =>
    "union '" ++ union ++ "' member '" ++ member ++ "' is not an object type"
  | nestedNonNull context => "non-null type wraps another non-null type in '" ++ context ++ "'"
  | invalidRootType operation name => "invalid " ++ operation ++ " root type '" ++ name ++ "'"
  | repeatedMember member union =>
    "validation error: Duplicate member '" ++ member ++ "' in union '" ++ union ++ "'"
  | repeatedValue value enum =>
    "validation error: Duplicate enum value name '" ++ value ++ "' in enum '" ++ enum ++ "'"

end ElmBindings
