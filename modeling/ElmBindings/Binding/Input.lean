import ElmBindings.Binding.Leaf

set_option autoImplicit false

/-! # Variables of an operation

The Elm types and encoders of input types. An input object that contains itself has no Elm record type
and is refused: `visited` holds the input objects that enclose the one at hand. -/

namespace ElmBindings

/-! ## Wrappers -/

namespace InputType

/-- An input that may be left out. -/
def maybe (input : InputType) : InputType :=
  ⟨.maybe input.type, .maybe input.encoder⟩

/-- A list of inputs. -/
def list (input : InputType) : InputType :=
  ⟨.list input.type, .list input.encoder⟩

/-- An input, optional if `nullable`. -/
def optional (input : InputType) (nullable : Bool) : InputType :=
  if nullable then input.maybe else input

/-- An input under the wrappers of a type reference, which is `nullable` unless a non-null wrapper
stands around it. -/
def wrapped (base : InputType) (nullable : Bool) : TypeRef → InputType
  | .named _ => base.optional nullable
  | .list item => (base.wrapped true item).list.optional nullable
  | .nonNull inner => base.wrapped false inner

end InputType

/-! ## Scalars and objects -/

/-- The encoder for the values of a leaf decoder. -/
def Primitive.encoder : Primitive → Encoder
  | int => .int
  | float => .float
  | bool => .bool
  | string => .string
  | enum name _ => .enum name

/-- A scalar as input. -/
def scalarInput (name : String) : InputType :=
  let (primitive, type) := scalarLeaf name
  ⟨type, primitive.encoder⟩

/-- An input object with the inputs for its fields, by name. -/
def objectInput (fields : List (String × InputType)) : InputType :=
  { type := .record (fields.map fun (name, input) => (Naming.valueName name, input.type))
    encoder := .object (fields.map fun (name, input) =>
      ⟨name, Naming.valueName name, input.encoder⟩) }

/-! ## Input types of a schema -/

namespace Schema

/-- Resolves a reference for use in a generated module. -/
def resolved (schema : Schema) (context : String) (ref : TypeRef) :
    Except GenerateError ResolvedType :=
  (schema.resolve context ref).mapError .schema

/-- How many types have a name that is not visited. -/
def unvisited (schema : Schema) (visited : List String) : Nat :=
  (schema.types.filter (·.name ∉ visited)).length

/-- Visiting one more type of the schema leaves fewer types. -/
theorem unvisited_cons_lt {schema : Schema} {visited : List String} {d : TypeDef}
    (hmem : d ∈ schema.types) (hnew : d.name ∉ visited) :
    schema.unvisited (d.name :: visited) < schema.unvisited visited := by
  have hsplit : schema.types.filter (·.name ∉ d.name :: visited) =
      (schema.types.filter (·.name ∉ visited)).filter (·.name ≠ d.name) := by
    rw [List.filter_filter]
    refine List.filter_congr fun other _ => ?_
    simp [not_or]
  rw [unvisited, unvisited, hsplit]
  have hin : d ∈ schema.types.filter (·.name ∉ visited) := by simp [hmem, hnew]
  exact List.length_filter_lt_length_iff_exists.mpr ⟨d, hin, by simp⟩

mutual

/-- The input for a type without its wrappers. -/
def namedInput (schema : Schema) (visited : List String) (name : String) :
    Except GenerateError InputType :=
  match _found : schema.get? name with
  | none => .error (.unknownType name)
  | some (.scalar d) => .ok (scalarInput d.name)
  | some (.enum d) => .ok ⟨.enum d.name, .enum d.name⟩
  | some (.input d) =>
    if d.name ∈ visited then .error (.recursiveInputType d.name)
    else (schema.fieldInputs (d.name :: visited) d.name d.fields).map objectInput
  | some (.object d) => .error (.unknownType d.name)
  | some (.interface d) => .error (.unknownType d.name)
  | some (.union d) => .error (.unknownType d.name)
termination_by (schema.unvisited visited, 0)
decreasing_by
  have hd := mem_of_get? ‹_›
  exact Prod.Lex.left _ _ (unvisited_cons_lt hd ‹_›)

/-- The inputs for the fields of an input object. -/
def fieldInputs (schema : Schema) (visited : List String) (object : String) :
    List InputValue → Except GenerateError (List (String × InputType))
  | [] => .ok []
  | field :: fields => do
    let _ ← schema.resolved (object ++ "." ++ field.name) field.type
    let base ← schema.namedInput visited field.type.baseName
    let rest ← schema.fieldInputs visited object fields
    .ok ((field.name, base.wrapped true field.type) :: rest)
termination_by fields => (schema.unvisited visited, fields.length + 1)
decreasing_by
  · exact Prod.Lex.right _ (by simp)
  · exact Prod.Lex.right _ (by simp)

end

/-- The input for a type reference that is made at a place described by `context`. -/
def input (schema : Schema) (context : String) (ref : TypeRef) :
    Except GenerateError InputType := do
  let _ ← schema.resolved context ref
  let base ← schema.namedInput [] ref.baseName
  .ok (base.wrapped true ref)

end Schema

end ElmBindings
