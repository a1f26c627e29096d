import ElmBindings.Proofs.Declarations

set_option autoImplicit false

/-! # Blocks of custom types

A module refers to enums and unions in three kinds of trees: the types of results and variables, the
decoders of results, and the encoders of variables. The blocks that declare enums and unions are
collected from the types alone. They are enough for the decoders and encoders too, since these mention
the same enums as the types they belong to (`expand_readsEnums`, `Schema.writesEnums_inputProperty`), under the
names that the blocks declare. Each block stands on lines of its own in the text of the module
(`ModulePlan.exists_text_eq`). -/

namespace ElmBindings

/-! ## Enums in types -/

namespace ElmType

variable {name : String}

@[simp]
theorem enum_within_maybe {t : ElmType} :
    (enum name).Within (.maybe t) ↔ (enum name).Within t := by
  constructor
  · rintro (_ | h)
    exact h
  · exact .maybe

@[simp]
theorem enum_within_list {t : ElmType} :
    (enum name).Within (.list t) ↔ (enum name).Within t := by
  constructor
  · rintro (_ | _ | h)
    exact h
  · exact .list

@[simp]
theorem enum_within_lists {t : ElmType} (depth : Nat) :
    (enum name).Within (t.lists depth) ↔ (enum name).Within t := by
  induction depth with
  | zero => rfl
  | succ depth ih => rw [lists, enum_within_list, ih]

theorem enum_within_record {fields : List (String × ElmType)} :
    (enum name).Within (.record fields) ↔ ∃ field ∈ fields, (enum name).Within field.2 := by
  constructor
  · intro h
    cases h with
    | record hfield h => exact ⟨_, hfield, h⟩
  · rintro ⟨field, hfield, h⟩
    exact .record hfield h

theorem enum_within_union {type : String} {variants : List (Variant ElmType)} :
    (enum name).Within (.union type variants) ↔
      ∃ v ∈ variants, ∃ field ∈ v.fields, (enum name).Within field.2 := by
  constructor
  · intro h
    cases h with
    | union hv hfield h => exact ⟨_, hv, _, hfield, h⟩
  · rintro ⟨v, hv, field, hfield, h⟩
    exact .union hv hfield h

end ElmType

/-! ## Enums in decoders -/

namespace Decoder

/-- Whether a leaf decoder stands somewhere in a decoder. -/
inductive HasLeaf (leaf : Primitive) : Decoder → Prop
  | primitive : HasLeaf leaf (.primitive leaf)
  | field {key : String} {value : Decoder} (h : HasLeaf leaf value) : HasLeaf leaf (.field key value)
  | maybe {inner : Decoder} (h : HasLeaf leaf inner) : HasLeaf leaf (.maybe inner)
  | list {item : Decoder} (h : HasLeaf leaf item) : HasLeaf leaf (.list item)
  | map {build : Constructor} {values : List Decoder} {value : Decoder} (hvalue : value ∈ values)
    (h : HasLeaf leaf value) : HasLeaf leaf (.map build values)
  | dispatch {cases : List (String × Decoder)} {branch : String × Decoder} (hbranch : branch ∈ cases)
    (h : HasLeaf leaf branch.2) : HasLeaf leaf (.dispatch cases)

variable {leaf : Primitive}

theorem hasLeaf_primitive {other : Primitive} :
    (primitive other).HasLeaf leaf ↔ leaf = other := by
  constructor
  · rintro ⟨⟩
    rfl
  · rintro rfl
    exact .primitive

@[simp]
theorem hasLeaf_field {key : String} {d : Decoder} :
    (field key d).HasLeaf leaf ↔ d.HasLeaf leaf := by
  constructor
  · rintro (_ | h)
    exact h
  · exact .field

@[simp]
theorem hasLeaf_maybe {d : Decoder} : (maybe d).HasLeaf leaf ↔ d.HasLeaf leaf := by
  constructor
  · rintro (_ | _ | h)
    exact h
  · exact .maybe

@[simp]
theorem hasLeaf_list {d : Decoder} : (list d).HasLeaf leaf ↔ d.HasLeaf leaf := by
  constructor
  · rintro (_ | _ | _ | h)
    exact h
  · exact .list

@[simp]
theorem hasLeaf_lists {d : Decoder} (depth : Nat) :
    (d.lists depth).HasLeaf leaf ↔ d.HasLeaf leaf := by
  induction depth with
  | zero => rfl
  | succ depth ih => rw [lists, hasLeaf_list, ih]

theorem hasLeaf_construct {build : Constructor} {values : List Decoder} :
    (construct build values).HasLeaf leaf ↔ ∃ value ∈ values, value.HasLeaf leaf := by
  cases values with
  | nil =>
    constructor
    · rintro ⟨⟩
    · rintro ⟨value, hvalue, -⟩
      cases hvalue
  | cons first rest =>
    constructor
    · intro h
      cases h with
      | map hvalue h => exact ⟨_, hvalue, h⟩
    · rintro ⟨value, hvalue, h⟩
      exact .map hvalue h

theorem hasLeaf_unionDecoder {variants : Variants} :
    (unionDecoder variants).HasLeaf leaf ↔
      ∃ variant ∈ variants, ∃ d ∈ variant.2.decoders, d.HasLeaf leaf := by
  constructor
  · intro h
    cases h with
    | dispatch hbranch h =>
      obtain ⟨variant, hvariant, rfl⟩ := List.mem_map.mp hbranch
      exact ⟨variant, hvariant, hasLeaf_construct.mp h⟩
  · rintro ⟨variant, hvariant, h⟩
    exact .dispatch (List.mem_map.mpr ⟨variant, hvariant, rfl⟩) (hasLeaf_construct.mpr h)

/-- Whether a decoder reads the enums that stand in a type, each by the decoder of its name. -/
def ReadsEnums (d : Decoder) (t : ElmType) : Prop :=
  ∀ name decoder, d.HasLeaf (.enum name decoder) ↔
    decoder = enumName name ∧ (ElmType.enum name).Within t

end Decoder

theorem scalarLeaf_readsEnums (name : String) :
    (Decoder.primitive (scalarLeaf name).1).ReadsEnums (scalarLeaf name).2 := by
  intro enum decoder
  rw [Decoder.hasLeaf_primitive]
  constructor
  · intro h
    rcases scalarLeaf_cases name with hleaf | hleaf | hleaf | hleaf <;> rw [hleaf] at h <;> cases h
  · rintro ⟨-, h⟩
    rcases scalarLeaf_cases name with hleaf | hleaf | hleaf | hleaf <;> rw [hleaf] at h <;> cases h

theorem enum_readsEnums (name : String) :
    (Decoder.primitive (.enum name (Decoder.enumName name))).ReadsEnums (.enum name) := by
  intro other decoder
  rw [Decoder.hasLeaf_primitive, Primitive.enum.injEq]
  constructor
  · rintro ⟨rfl, rfl⟩
    exact ⟨rfl, .self⟩
  · rintro ⟨rfl, ⟨⟩⟩
    exact ⟨rfl, rfl⟩

/-- Whether every entry of a shape reads the enums of its type. -/
def Shape.ReadsEnums (shape : Shape) : Prop :=
  ∀ e ∈ shape.entries, e.decoder.ReadsEnums e.type

namespace Shape.ReadsEnums

variable {shape : Shape} {name decoder : String}

/-- The decoders of a shape read the enums of its fields. -/
theorem exists_iff (h : shape.ReadsEnums) :
    (∃ d ∈ shape.decoders, d.HasLeaf (.enum name decoder)) ↔
      decoder = Decoder.enumName name ∧
        ∃ field ∈ shape.fields, (ElmType.enum name).Within field.2 := by
  simp only [Shape.decoders, Shape.fields, List.mem_map, exists_exists_and_eq_and]
  constructor
  · rintro ⟨e, he, hleaf⟩
    obtain ⟨hdecoder, hwithin⟩ := (h e he name decoder).mp hleaf
    exact ⟨hdecoder, e, he, hwithin⟩
  · rintro ⟨hdecoder, e, he, hwithin⟩
    exact ⟨e, he, (h e he name decoder).mpr ⟨hdecoder, hwithin⟩⟩

theorem record (h : shape.ReadsEnums) (label : Option String) :
    (shape.recordDecoder label).ReadsEnums shape.recordType := by
  intro name decoder
  rw [Shape.recordDecoder, Decoder.hasLeaf_construct, h.exists_iff, Shape.recordType,
    ElmType.enum_within_record]

theorem union {type : String} {variants : Variants}
    (h : ∀ variant ∈ variants, variant.2.ReadsEnums) :
    (unionDecoder variants).ReadsEnums (unionType type variants) := by
  intro name decoder
  rw [Decoder.hasLeaf_unionDecoder, unionType, ElmType.enum_within_union]
  simp only [List.mem_map, exists_exists_and_eq_and]
  constructor
  · rintro ⟨variant, hvariant, hleaf⟩
    obtain ⟨hdecoder, hwithin⟩ := (h variant hvariant).exists_iff.mp hleaf
    exact ⟨hdecoder, variant, hvariant, hwithin⟩
  · rintro ⟨hdecoder, variant, hvariant, hwithin⟩
    exact ⟨variant, hvariant, (h variant hvariant).exists_iff.mpr ⟨hdecoder, hwithin⟩⟩

end Shape.ReadsEnums

/-- The wrappers of an entry hold no enums, in its type and in its decoder. -/
theorem Selected.entry_readsEnums {s : Selected} {type : TypeRef} {elm : ElmType} {d : Decoder}
    (h : d.ReadsEnums elm) :
    (s.entry type elm d).decoder.ReadsEnums (s.entry type elm d).type := by
  intro name decoder
  simp only [entry]
  split <;> simp [h name decoder]

/-- The decoders that an expansion makes read the enums of the types that it makes. -/
theorem expand_readsEnums {schema : Schema} {index : FragmentIndex} (chain : List String)
    (selections : List Selection) :
    ∀ parent shape, expand schema index chain parent {} selections = .ok shape →
      shape.ReadsEnums := by
  induction chain, selections using selections_induction schema index with
  | step chain selections ih =>
    intro parent shape h e he
    obtain ⟨s, hs, type, d, elm, decoder, -, hreading, rfl⟩ :=
      exists_of_mem_right (expand_selected h) he
    obtain ⟨hinner, hmember⟩ := ih parent s hs
    apply Selected.entry_readsEnums
    cases hreading with
    | scalar d => exact scalarLeaf_readsEnums d.name
    | enum d => exact enum_readsEnums d.name
    | object hd hshape => exact (hinner _ _ hshape).record none
    | union hvariants =>
      apply Shape.ReadsEnums.union
      intro ⟨member, shape⟩ hin
      obtain ⟨-, object, -, hshape⟩ := (expandUnion_members hvariants).shapes member shape hin
      exact hmember member object shape hshape

theorem Binding.readsEnums {schema : Schema} {index : FragmentIndex} {d : Definition}
    {binding : Binding} (h : ofDefinition schema index d = .ok binding) :
    binding.decoder.ReadsEnums binding.type := by
  obtain ⟨parent, shape, label, -, hshape, htype, hdecoder⟩ := Binding.ofDefinition_eq_ok h
  rw [htype, hdecoder]
  exact (expand_readsEnums d.chain d.selections parent shape hshape).record label

/-! ## Enums in encoders -/

namespace Encoder

/-- Whether the encoder of an enum stands somewhere in an encoder. -/
inductive HasEnum (name : String) : Encoder → Prop
  | enum : HasEnum name (.enum name)
  | maybe {inner : Encoder} (h : HasEnum name inner) : HasEnum name (.maybe inner)
  | list {item : Encoder} (h : HasEnum name item) : HasEnum name (.list item)
  | object {entries : List (ObjectEntry Encoder)} {entry : ObjectEntry Encoder}
    (hentry : entry ∈ entries) (h : HasEnum name entry.value) : HasEnum name (.object entries)

end Encoder

/-- Whether an input writes the enums that stand in its type. -/
def InputType.WritesEnums (input : InputType) : Prop :=
  ∀ name, input.encoder.HasEnum name ↔ (ElmType.enum name).Within input.type

/-- Encoder and type of an input are built alike. -/
theorem Schema.writesEnums_inputProperty (schema : Schema) :
    schema.InputProperty InputType.WritesEnums where
  scalar name := by
    intro enum
    unfold scalarInput
    rcases scalarLeaf_cases name with hleaf | hleaf | hleaf | hleaf <;> rw [hleaf] <;>
      constructor <;> rintro ⟨⟩
  enum name d _ := by
    intro other
    constructor
    · rintro ⟨⟩
      exact .self
    · rintro ⟨⟩
      exact .enum
  maybe input h := by
    intro name
    rw [InputType.maybe, ElmType.enum_within_maybe, ← h name]
    constructor
    · rintro (_ | h)
      exact h
    · exact .maybe
  list input h := by
    intro name
    rw [InputType.list, ElmType.enum_within_list, ← h name]
    constructor
    · rintro (_ | _ | h)
      exact h
    · exact .list
  object fields h := by
    intro name
    rw [objectInput, ElmType.enum_within_record]
    simp only [List.mem_map, exists_exists_and_eq_and]
    constructor
    · intro hhas
      cases hhas with
      | object hentry hhas =>
        obtain ⟨field, hfield, rfl⟩ := List.mem_map.mp hentry
        exact ⟨field, hfield, (h field hfield name).mp hhas⟩
    · rintro ⟨field, hfield, hwithin⟩
      exact .object (List.mem_map.mpr ⟨field, hfield, rfl⟩) ((h field hfield name).mpr hwithin)

theorem Binding.writesEnums {schema : Schema} {index : FragmentIndex} {d : Definition}
    {binding : Binding} (h : ofDefinition schema index d = .ok binding) {v : Variable}
    (hv : v ∈ binding.inputs) : v.input.WritesEnums := by
  obtain ⟨context, ref, hinput⟩ := exists_input_of_mem h hv
  exact schema.writesEnums_inputProperty.input hinput

/-! ## Enums of a module -/

namespace EnumIndex

theorem map_name_settle (enums : List EnumNaming) :
    (settle enums).map EnumNaming.name = enums.map EnumNaming.name := by
  rw [settle, List.map_map]
  refine List.map_congr_left fun enum _ => ?_
  rw [Function.comp_apply]
  split <;> rfl

theorem map_name_of_mapM {schema : Schema} {names : List String} {enums : List EnumNaming}
    (h : names.mapM (plainNaming schema) = .ok enums) : enums.map EnumNaming.name = names := by
  induction names generalizing enums with
  | nil =>
    cases h
    rfl
  | cons name names ih =>
    rw [List.mapM_cons] at h
    obtain ⟨enum, henum, h⟩ := bind_eq_ok.mp h
    obtain ⟨rest, hrest, h⟩ := bind_eq_ok.mp h
    cases h
    rw [List.map_cons, ih hrest]
    unfold plainNaming at henum
    split at henum <;> cases henum
    rfl

/-- An index has the enums of the given names, each once. -/
theorem map_name_of_ofNames {schema : Schema} {names : List String} {index : EnumIndex}
    (h : ofNames schema names = .ok index) : index.enums.map EnumNaming.name = names.eraseDups := by
  obtain ⟨enums, henums, h⟩ := bind_eq_ok.mp h
  cases h
  rw [map_name_settle, map_name_of_mapM henums]

end EnumIndex

namespace ModulePlan

variable {schema : Schema} {bindings : List Binding} {plan : ModulePlan}

/-- The enums of a plan are those that its bindings use. -/
theorem mem_enumNames_iff (h : ofBindings schema bindings = .ok plan) {name : String} :
    name ∈ plan.enums.enums.map EnumNaming.name ↔ Uses bindings (.enum name) := by
  obtain ⟨-, henums, -, -⟩ := ofBindings_eq_ok h
  rw [EnumIndex.map_name_of_ofNames henums, List.mem_eraseDups, mem_enumsUsed_iff]

/-- A plan has one enum of each name. -/
theorem enum_eq_of_name_eq (h : ofBindings schema bindings = .ok plan) {enum other : EnumNaming}
    (henum : enum ∈ plan.enums.enums) (hother : other ∈ plan.enums.enums)
    (hname : other.name = enum.name) : other = enum := by
  obtain ⟨-, -, -, htypes⟩ := ofBindings_eq_ok h
  have hnodup : (plan.enums.enums.map EnumNaming.typeName).Nodup := htypes.of_append_right
  refine List.inj_on_of_nodup_map hnodup hother henum ?_
  rw [EnumNaming.typeName, EnumNaming.typeName, hname]

end ModulePlan

/-! ## Blocks in the text of a module -/

/-- A text that is joined with others stands after what comes before it. -/
theorem exists_intercalate_eq (separator : String) {text : String} {texts : List String}
    (h : text ∈ texts) :
    ∃ before after, (before = "" ∨ ∃ start, before = start ++ separator) ∧
      separator.intercalate texts = before ++ text ++ after := by
  induction texts with
  | nil => cases h
  | cons first texts ih =>
    cases texts with
    | nil =>
      rw [List.mem_singleton.mp h]
      exact ⟨"", "", .inl rfl, by simp⟩
    | cons next texts =>
      rw [String.intercalate_cons_cons]
      rcases List.mem_cons.mp h with rfl | h
      · exact ⟨"", separator ++ separator.intercalate (next :: texts), .inl rfl,
          by simp [String.append_assoc]⟩
      · obtain ⟨before, after, hbefore, heq⟩ := ih h
        refine ⟨first ++ separator ++ before, after, .inr ?_, by simp [heq, String.append_assoc]⟩
        rcases hbefore with rfl | ⟨start, rfl⟩
        · exact ⟨first, by simp⟩
        · exact ⟨first ++ separator ++ start, by simp [String.append_assoc]⟩

/-- A block of a module stands on lines of its own. -/
theorem ModulePlan.exists_text_eq {plan : ModulePlan} {options : ModuleOptions}
    {bindings : List Binding} {block : String} (h : block ∈ plan.blocks options bindings) :
    ∃ before after, plan.text options bindings = before ++ "\n" ++ block ++ after := by
  obtain ⟨before, after, hbefore, heq⟩ := exists_intercalate_eq "\n\n" h
  -- the empty line before a block ends with a line end
  have hblank : "\n\n" = "\n" ++ "\n" := rfl
  rw [text, heq, hblank]
  rcases hbefore with rfl | ⟨start, rfl⟩
  · refine ⟨headerText options.name ++ "\n", after, ?_⟩
    simp only [String.empty_append, String.append_assoc]
  · refine ⟨headerText options.name ++ "\n\n" ++ start ++ "\n", after, ?_⟩
    simp only [hblank, String.append_assoc]

namespace Sample

/-- A schema with an enum inside a member of a union. -/
def colors : Schema :=
  [TypeDef.enum ⟨"Color", none, [⟨"RED", none, none⟩]⟩,
    .object ⟨"Dot", none, [], [fieldDef "c" (.named "Color")]⟩,
    .union ⟨"Shape", none, ["Dot"]⟩,
    .object ⟨"Query", none, [], [fieldDef "s" (.named "Shape")]⟩].foldl Schema.add
    (.ofQuery "Query")

/-- A query that takes a color and gives colors. -/
def colorText : String := "query q($c: Color) \x7b s \x7b ... on Dot \x7b c \x7d \x7d \x7d"

def colorDocument : Document := (Document.parse colorText).toOption.getD ⟨[]⟩

/-- The variants of the union that the query selects. -/
def dotVariants : List (Variant ElmType) :=
  [⟨"Dot", [(Naming.valueName "c", .maybe (.enum "Color"))]⟩]

/-- The decoder of a color inside the union. -/
def dotDecoder : Decoder :=
  .map (.variant "Dot" [Naming.valueName "c"])
    [.maybe (.field "c" (.primitive (.enum "Color" "colorDecoder")))]

def colorBinding : Binding where
  kind := .query
  name := "q"
  typeName := "Q"
  type := .record [(Naming.valueName "s", .maybe (.union "Shape" dotVariants))]
  decoder := .map (.record (some "Q") [Naming.valueName "s"])
    [.maybe (.field "s" (.dispatch [("Dot", dotDecoder)]))]
  inputs := [⟨"c", Naming.valueName "c", ⟨.maybe (.enum "Color"), .maybe (.enum "Color")⟩⟩]
  document := colorText

theorem parse_colorText : Document.parse colorText = .ok colorDocument :=
  eq_ok_getD (by decide +kernel) _

section

attribute [local irreducible] Naming.valueName

theorem ofDocument_colorDocument :
    Binding.ofDocument colors colorDocument = .ok [colorBinding] := by
  cbv

end

theorem ofBindings_colorBinding : ∃ plan, ModulePlan.ofBindings colors [colorBinding] = .ok plan :=
  exists_eq_ok (by decide +kernel)

end Sample

end ElmBindings
