import ElmBindings.Proofs.Decoding
import ElmBindings.Proofs.Declarations

set_option autoImplicit false

/-! # Cases of a union

The shapes of the members of a union grow in turns, as the inline fragments of a selection come. In the
end each member has the shape of all that is selected on it, one after the other: that is the invariant
`HoldsMembers`. Here it is read off the type and the decoder of a field: there is one variant and one case
for each type that an inline fragment is on (`expandField_union`). In a loaded schema the members that are
checked are those of the very union that the field leads to (`Listed.unionMembers?_eq`). -/

namespace ElmBindings

/-! ## The members of a union -/

namespace Schema

variable {schema : Schema}

/-- Where the names of types differ, the members listed under the name of a union are its own. -/
theorem Listed.unionMembers?_eq (h : schema.Listed) {name : String} {d : UnionDef}
    (hd : schema.get? name = some (.union d)) : schema.unionMembers? d.name = some d.members := by
  have hmem : d ∈ schema.unions := List.mem_filterMap.mpr ⟨_, mem_of_get? hd, rfl⟩
  cases hfound : schema.unions.reverse.find? (·.name == d.name) with
  | none =>
    have hnone := List.find?_eq_none.mp hfound d (List.mem_reverse.mpr hmem)
    simp at hnone
  | some other =>
    have hname : other.name = d.name := by simpa using List.find?_some hfound
    have hother : other ∈ schema.unions := List.mem_reverse.mp (List.mem_of_find?_eq_some hfound)
    obtain ⟨type, htype, hunion⟩ := List.mem_filterMap.mp hother
    obtain rfl : type = .union other := by cases type <;> cases hunion; rfl
    have heq : TypeDef.union other = .union d :=
      List.inj_on_of_nodup_map h.nodup htype (mem_of_get? hd) hname
    cases heq
    rw [unionMembers?, hfound, Option.map_some]

/-- The union under the wrappers of a field is a type of the schema. -/
theorem exists_get?_of_fieldPlan {parent : ObjectDef} {field : Field} {selects : Bool}
    {plan : FieldPlan} {d : UnionDef} (h : schema.fieldPlan parent field selects = .ok plan)
    (hbase : plan.base = .union d) : ∃ name, schema.get? name = some (.union d) := by
  obtain ⟨type, base, htype, hfield, -, -⟩ := fieldPlan_eq_ok (s := ⟨parent, field, [], []⟩) h
  obtain rfl : base = .union d := by
    rw [hbase] at hfield
    cases base <;> cases hfield
    rfl
  unfold Selected.type? at htype
  split at htype
  · cases htype
  · simp only [Option.bind_eq_bind, Option.bind_eq_some_iff, Option.some.injEq,
      Prod.mk.injEq] at htype
    obtain ⟨definition, -, base, hget, -, rfl⟩ := htype
    exact ⟨definition.type.baseName, hget⟩

end Schema

/-! ## Other types -/

namespace Decoder

theorem decodeCase_of_not_mem {type : String} {cases : List (String × Decoder)}
    (h : type ∉ cases.map Prod.fst) (json : Json) :
    decodeCase type json cases = .error { fault := .unexpectedType } := by
  induction cases with
  | nil => rw [decodeCase]
  | cons head rest ih =>
    rw [List.map_cons, List.mem_cons, not_or] at h
    rw [decodeCase, if_neg (Ne.symm h.1)]
    exact ih h.2

/-- An object of a type without a case is refused for its type. -/
theorem decode_dispatch_of_not_mem {type : String} {cases : List (String × Decoder)}
    (h : type ∉ cases.map Prod.fst) {json : Json}
    (htype : json.get? typeNameField = some (.string type)) :
    (dispatch cases).decode json = .error { fault := .unexpectedType } := by
  have htype' : json.get? "__typename" = some (.string type) := htype
  rw [decode, htype']
  exact decodeCase_of_not_mem h json

end Decoder

/-! ## Cases and variants -/

/-- What a field of a union type is read by. There is a case and a variant for each type that an inline
fragment is on, in the order of their first use, and all of these types are members of the union. A case
and its variant have the fields of all selections on the member, one after the other. An object of another
type is refused. -/
theorem expandField_union {schema : Schema} (hschema : schema.IsLoaded) {index : FragmentIndex}
    {chain : List String} {parent : ObjectDef} {field : Field} {inner : List Selection}
    {plan : FieldPlan} {d : UnionDef}
    (hplan : schema.fieldPlan parent field (!inner.isEmpty) = .ok plan)
    (hbase : plan.base = .union d) {entry : ShapeEntry}
    (h : expandField schema index chain field plan inner = .ok entry) :
    ∃ cases variants, entry = plan.entry field (.union d.name variants) (.dispatch cases) ∧
      cases.map Prod.fst = (conditions inner).eraseDups ∧
      (∀ member ∈ conditions inner, member ∈ d.members) ∧
      List.Forall₂ (fun case variant => ∃ object shape,
        schema.selectable? case.1 = some object ∧
        expand schema index chain object {} (onMember case.1 inner) = .ok shape ∧
        variant = ⟨Naming.capitalize case.1, shape.fields⟩ ∧
        case.2 = .construct (.variant (Naming.capitalize case.1) shape.names) shape.decoders)
        cases variants ∧
      ∀ json type, json.get? typeNameField = some (.string type) → type ∉ cases.map Prod.fst →
        ∃ e, (Decoder.dispatch cases).decode json = .error e ∧
          e.fault.text = "Unexpected union type" := by
  rw [expandField, hbase] at h
  obtain ⟨shapes, hshapes, h⟩ := bind_eq_ok.mp h
  cases h
  have hmembers := expandUnion_members hshapes
  obtain ⟨name, hget⟩ := Schema.exists_get?_of_fieldPlan hplan hbase
  have hdeclared := hschema.listed.unionMembers?_eq hget
  refine ⟨_, _, rfl, ?_, ?_, ?_, ?_⟩
  · rw [← hmembers.keys, List.map_map]
    rfl
  · intro member hmember
    obtain ⟨⟨key, shape⟩, hvariant, rfl⟩ := List.mem_map.mp ((hmembers.mem_keys member).mpr hmember)
    have hin := (hmembers.shapes key shape hvariant).1
    rwa [hdeclared] at hin
  · rw [List.forall₂_map_left_iff, List.forall₂_map_right_iff, List.forall₂_same]
    rintro ⟨member, shape⟩ hvariant
    obtain ⟨-, object, hobject, hshape⟩ := hmembers.shapes member shape hvariant
    exact ⟨object, shape, hobject, hshape, rfl, rfl⟩
  · intro json type htype hnew
    exact ⟨_, Decoder.decode_dispatch_of_not_mem hnew htype, rfl⟩

namespace Sample

/-- The field of the union. -/
def shapeField : Field := ⟨none, "s", [], false, .start⟩

def shapePlan : FieldPlan := ⟨.union ⟨"Shape", none, ["Dot", "Box"]⟩, 0, true⟩

def shapeQuery : ObjectDef := ⟨"Query", none, [], [fieldDef "s" (.named "Shape")]⟩

/-- The members of the union in turns. -/
def turns : List Selection :=
  [inline "Box" [select "y" []], select "__typename" [], inline "Dot" [select "x" []],
    inline "Box" [select "__typename" [], select "y" []]]

theorem fieldPlan_shapeField :
    shapes.fieldPlan shapeQuery shapeField (!turns.isEmpty) = .ok shapePlan := by
  cbv

-- names are evaluated, not unfolded
attribute [local irreducible] Naming.valueName

theorem isSome_expandField_turns :
    (expandField shapes ⟨[], List.nodup_nil⟩ [] shapeField shapePlan turns).toOption.isSome = true := by
  cbv

end Sample

/-- The box comes first, and has one case for both of its inline fragments. -/
theorem expandField_union_turns :
    Sample.shapes.IsLoaded ∧ ∃ entry cases variants,
      expandField Sample.shapes ⟨[], List.nodup_nil⟩ [] Sample.shapeField Sample.shapePlan
        Sample.turns = .ok entry ∧
      entry = Sample.shapePlan.entry Sample.shapeField (.union "Shape" variants) (.dispatch cases) ∧
      cases.map Prod.fst = ["Box", "Dot"] := by
  have hloaded : Sample.shapes.IsLoaded := ⟨_, .inl Sample.parseDefinitions_shapesText⟩
  obtain ⟨entry, hentry⟩ := exists_eq_ok Sample.isSome_expandField_turns
  obtain ⟨cases, variants, heq, hkeys, -⟩ :=
    expandField_union hloaded Sample.fieldPlan_shapeField rfl hentry
  exact ⟨hloaded, entry, cases, variants, hentry, heq, hkeys⟩

end ElmBindings
