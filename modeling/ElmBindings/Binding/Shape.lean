import ElmBindings.Binding.Input
import ElmBindings.Document.Fragments

set_option autoImplicit false

/-! # Shapes of selections

The record that a selection set asks for. Reading a selection set against its type gives, field by
field, the Elm type and the decoder of the answer; spreads are replaced by the selections of their
fragment, and of fields with the same Elm name the first one counts. -/

namespace ElmBindings

/-! ## Shapes -/

/-- A field of a record, with the decoder that reads it from the enclosing object. -/
structure ShapeEntry where
  name : String
  type : ElmType
  decoder : Decoder

/-- The fields of a record, in order. -/
structure Shape where
  entries : List ShapeEntry := []

namespace Shape

/-- The names of the fields. -/
def names (shape : Shape) : List String := shape.entries.map ShapeEntry.name

/-- Whether there is a field of a name. -/
def contains (shape : Shape) (name : String) : Bool := shape.names.contains name

/-- The shape with one more field. -/
def push (shape : Shape) (entry : ShapeEntry) : Shape := ⟨shape.entries ++ [entry]⟩

@[simp]
theorem names_push (shape : Shape) (entry : ShapeEntry) :
    (shape.push entry).names = shape.names ++ [entry.name] := by
  simp [names, push]

/-- The fields with their types. -/
def fields (shape : Shape) : List (String × ElmType) :=
  shape.entries.map fun entry => (entry.name, entry.type)

/-- The decoders of the fields. -/
def decoders (shape : Shape) : List Decoder := shape.entries.map ShapeEntry.decoder

/-- The record type of a shape. -/
def recordType (shape : Shape) : ElmType := .record shape.fields

/-- The decoder of a record, which is built by the constructor of its alias if it has one. -/
def recordDecoder (shape : Shape) (label : Option String) : Decoder :=
  .construct (.record label shape.names) shape.decoders

end Shape

/-! ## Variants of a union -/

/-- The shapes of the members of a union, in the order of their first use. -/
abbrev Variants := List (String × Shape)

/-- The shape of a member, which is empty at first. -/
def memberShape (variants : Variants) (member : String) : Shape :=
  (variants.lookup member).getD {}

/-- The variants with a new shape for a member. -/
def putShape (member : String) (shape : Shape) : Variants → Variants
  | [] => [(member, shape)]
  | (name, old) :: variants =>
    if name = member then (name, shape) :: variants
    else (name, old) :: putShape member shape variants

/-- The custom type of a union with the given variants. -/
def unionType (name : String) (variants : Variants) : ElmType :=
  .union name (variants.map fun (member, shape) => ⟨Naming.capitalize member, shape.fields⟩)

/-- The decoder of a union with the given variants. -/
def unionDecoder (variants : Variants) : Decoder :=
  .dispatch (variants.map fun (member, shape) =>
    (member, .construct (.variant (Naming.capitalize member) shape.names) shape.decoders))

/-- The member of a union that an inline fragment is on. -/
def Schema.member (schema : Schema) (union : String) (condition : Option String) :
    Except GenerateError String :=
  match condition with
  | some name =>
    if name ∈ (schema.unionMembers? union).getD [] then .ok name
    else .error (.notAUnionMember union name)
  | none => .error (.notAUnionMember union "")

/-! ## Plan of a field -/

/-- What stands under the wrappers of a selected field. -/
inductive FieldBase
  | leaf (primitive : Primitive) (type : ElmType)
  | object (object : ObjectDef)
  | union (union : UnionDef)

/-- How a selected field is read. -/
structure FieldPlan where
  base : FieldBase
  /-- The number of list layers around the base. -/
  depth : Nat
  /-- Whether the field may be missing from an answer, or be `null` there. -/
  optional : Bool

/-- The field that every object has: the name of its type. -/
def typeNameField : String := "__typename"

/-- What stands under the wrappers of a type that is selected with or without sub-selections. -/
def ResolvedType.fieldBase (type : ResolvedType) (selects : Bool) :
    Except GenerateError FieldBase :=
  match type.named, selects with
  | .union d, _ => .ok (.union d)
  | .object d, true => .ok (.object d)
  | _, _ => type.leaf.map fun leaf => .leaf leaf.primitive leaf.type

/-- How a field of an object type is read. A field that is conditional, or whose type is not non-null,
is optional. -/
def Schema.fieldPlan (schema : Schema) (parent : ObjectDef) (field : Field) (selects : Bool) :
    Except GenerateError FieldPlan :=
  if field.name = typeNameField then .ok ⟨.leaf .string .string, 0, field.conditional⟩
  else
    match parent.field? field.name with
    | none => .error (.unknownField parent.name field.name)
    | some d => do
      let type ← schema.resolved (parent.name ++ "." ++ field.name) d.type
      let base ← type.fieldBase selects
      .ok ⟨base, type.listDepth, !type.isNonNull || field.conditional⟩

/-- The entry for a field whose base has the given type and decoder. It is named after the response key
and read by the name of the field. -/
def FieldPlan.entry (plan : FieldPlan) (field : Field) (type : ElmType) (decoder : Decoder) :
    ShapeEntry :=
  let name := Naming.valueName field.responseKey
  let type := type.lists plan.depth
  let decoder := Decoder.field field.name (decoder.lists plan.depth)
  if plan.optional then ⟨name, .maybe type, .maybe decoder⟩ else ⟨name, type, decoder⟩

/-! ## Reading selections -/

/-- The cycle that spreading a fragment closes, from its first use on. `chain` holds the fragments that
are being expanded, innermost first. -/
def cyclePath (chain : List String) (name : String) : List String :=
  chain.reverse.dropWhile (· ≠ name) ++ [name]

/-- The object or interface type of a name. -/
def Schema.selectable (schema : Schema) (name : String) : Except GenerateError ObjectDef :=
  match schema.selectable? name with
  | some d => .ok d
  | none => .error (.unknownType name)

open FragmentIndex

mutual

/-- The shape with the fields that selections on `parent` add to it. -/
def expand (schema : Schema) (index : FragmentIndex) (chain : List String) (parent : ObjectDef)
    (shape : Shape) : List Selection → Except GenerateError Shape
  | [] => .ok shape
  | .field field inner :: rest =>
    if shape.contains (Naming.valueName field.responseKey) then
      expand schema index chain parent shape rest
    else do
      let plan ← schema.fieldPlan parent field (!inner.isEmpty)
      let entry ← expandField schema index chain field plan inner
      expand schema index chain parent (shape.push entry) rest
  | .spread name _ :: rest =>
    if name ∈ chain then .error (.fragmentCycle (cyclePath chain name))
    else
      match _found : index.get? name with
      | none => .error (.unknownFragment name)
      | some fragment => do
        let object ← schema.selectable fragment.condition
        let shape ← expand schema index (name :: chain) object shape fragment.selections
        expand schema index chain parent shape rest
  | .inline .. :: _ => .error .inlineFragmentOutsideUnion
termination_by selections => (index.unused chain, 2 * selectionsSize selections)
decreasing_by
  · exact Prod.Lex.right _ (by simp [selectionsSize, selectionSize])
  · exact Prod.Lex.right _ (by simp [selectionsSize, selectionSize]; omega)
  · exact Prod.Lex.right _ (by simp [selectionsSize, selectionSize])
  · exact Prod.Lex.left _ _ (unused_cons_lt (mem_names_of_get? ‹_›) ‹_›)
  · exact Prod.Lex.right _ (by simp [selectionsSize, selectionSize])

/-- The entry for a field with the given plan and sub-selections. -/
def expandField (schema : Schema) (index : FragmentIndex) (chain : List String) (field : Field)
    (plan : FieldPlan) (inner : List Selection) : Except GenerateError ShapeEntry :=
  match plan.base with
  | .leaf primitive type => .ok (plan.entry field type (.primitive primitive))
  | .object object => do
    let record ← expand schema index chain object {} inner
    .ok (plan.entry field record.recordType (record.recordDecoder none))
  | .union union => do
    let variants ← expandUnion schema index chain union.name [] inner
    .ok (plan.entry field (unionType union.name variants) (unionDecoder variants))
termination_by (index.unused chain, 2 * selectionsSize inner + 1)
decreasing_by
  · exact Prod.Lex.right _ (by simp)
  · exact Prod.Lex.right _ (by simp)

/-- The variants with the fields that selections on a union add to them. Inline fragments on one member
share its shape, and `__typename` is read in any case. -/
def expandUnion (schema : Schema) (index : FragmentIndex) (chain : List String) (union : String)
    (variants : Variants) : List Selection → Except GenerateError Variants
  | [] => .ok variants
  | .field field _ :: rest =>
    if field.name = typeNameField then expandUnion schema index chain union variants rest
    else .error (.unexpectedField field.name)
  | .spread name position :: _ =>
    .error (.unexpectedSelection (Selection.spread name position).kind)
  | .inline condition inner _ :: rest => do
    let member ← schema.member union condition
    let object ← schema.selectable member
    let shape ← expand schema index chain object (memberShape variants member) inner
    expandUnion schema index chain union (putShape member shape variants) rest
termination_by selections => (index.unused chain, 2 * selectionsSize selections)
decreasing_by
  · exact Prod.Lex.right _ (by simp [selectionsSize, selectionSize])
  · exact Prod.Lex.right _ (by simp [selectionsSize, selectionSize]; omega)
  · exact Prod.Lex.right _ (by simp [selectionsSize, selectionSize])

end

end ElmBindings
