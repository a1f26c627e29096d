import ElmBindings.Proofs.EnumCode
import ElmBindings.Proofs.Projection

set_option autoImplicit false

/-! # Enums in decoded values

In a module, the decoder of an enum fails on a string that the schema does not declare. `Decoder.decode` takes
any string for an enum. `Decoder.run?` is the run of a decoder with the enum decoders of a module for its
leaves, and what it gives is not just less often defined: under a `maybe` a failure becomes a value.

`Binding.run?_iff_declared` compares the two: they give the same value exactly if every enum in the value is
declared. Which enum a string belongs to is read off the type of the binding (`ElmType.EnumAt`), and off the
whole of it only if the tags of its unions differ, as they do in every module. -/

namespace ElmBindings

theorem mapM_eq_some_iff {α β : Type} {f : α → Option β} {xs : List α} {ys : List β} :
    xs.mapM f = some ys ↔ List.Forall₂ (fun x y => f x = some y) xs ys := by
  refine ⟨forall₂_of_mapM_eq_some, fun h => ?_⟩
  induction h with
  | nil => rfl
  | cons hxy _ ih =>
    rw [List.mapM_cons, hxy, ih]
    rfl

theorem toOption_eq_some_iff {ε α : Type} {x : Except ε α} {a : α} :
    x.toOption = some a ↔ x = .ok a := by
  cases x <;> simp [Except.toOption]

/-! ## Runs in a module -/

/-- What a leaf decoder gives in a module whose enum decoders accept some strings. -/
def Primitive.run? (accepts : String → String → Bool) (json : Json) : Primitive → Option Decoded
  | enum _ decoder => (json.string?.filter (accepts decoder)).map .enum
  | leaf => (leaf.decode json).toOption

namespace Decoder

mutual

/-- What a decoder gives in a module whose enum decoders accept some strings. -/
def run? (accepts : String → String → Bool) (json : Json) : Decoder → Option Decoded
  | primitive leaf => leaf.run? accepts json
  | field key value => (json.get? key).bind fun inner => value.run? accepts inner
  | maybe inner =>
    match inner.run? accepts json with
    | some value => some (.just value)
    | none => some .nothing
  | list item =>
    json.array?.bind fun items => (items.mapM fun json => item.run? accepts json).map .list
  | map build values => (runAll? accepts json values).map build.build
  | dispatch cases =>
    ((json.get? typeNameField).bind Json.string?).bind fun type => runCase? accepts type json cases
  | succeed build => some (build.build [])

/-- What every one of the decoders gives. -/
def runAll? (accepts : String → String → Bool) (json : Json) : List Decoder → Option (List Decoded)
  | [] => some []
  | value :: values =>
    (value.run? accepts json).bind fun decoded => (runAll? accepts json values).map (decoded :: ·)

/-- What the first case for a type gives. -/
def runCase? (accepts : String → String → Bool) (type : String) (json : Json) :
    List (String × Decoder) → Option Decoded
  | [] => none
  | (name, value) :: cases =>
    if name = type then value.run? accepts json else runCase? accepts type json cases

end

variable {accepts : String → String → Bool} {json : Json} {v : Decoded}

theorem run?_field {key : String} {d : Decoder} :
    (field key d).run? accepts json = some v ↔
      ∃ inner, json.get? key = some inner ∧ d.run? accepts inner = some v := by
  rw [run?, Option.bind_eq_some_iff]

theorem run?_list {d : Decoder} :
    (list d).run? accepts json = some v ↔
      ∃ items values, json = .array items ∧
        List.Forall₂ (fun item value => d.run? accepts item = some value) items values ∧
        v = .list values := by
  rw [run?]
  simp only [Option.bind_eq_some_iff, Option.map_eq_some_iff, Json.array?_eq_some, mapM_eq_some_iff,
    eq_comm (a := v), exists_and_left]

theorem runAll?_eq_some {ds : List Decoder} {values : List Decoded} :
    runAll? accepts json ds = some values ↔
      List.Forall₂ (fun (d : Decoder) value => d.run? accepts json = some value) ds values := by
  induction ds generalizing values with
  | nil => cases values <;> simp [runAll?]
  | cons d ds ih =>
    rw [runAll?, List.forall₂_cons_left_iff]
    simp only [Option.bind_eq_some_iff, Option.map_eq_some_iff, ih, eq_comm (a := values),
      exists_and_left]

theorem run?_construct {build : Constructor} {ds : List Decoder} :
    (construct build ds).run? accepts json = some v ↔
      ∃ values, List.Forall₂ (fun (d : Decoder) value => d.run? accepts json = some value)
        ds values ∧ build.build values = v := by
  cases ds with
  | nil =>
    rw [construct, run?]
    simp
  | cons d ds =>
    rw [construct, run?]
    · simp only [Option.map_eq_some_iff, runAll?_eq_some]
    · simp

theorem runCase?_eq_some {type : String} {cases : List (String × Decoder)} :
    runCase? accepts type json cases = some v ↔
      ∃ d, cases.lookup type = some d ∧ d.run? accepts json = some v := by
  induction cases with
  | nil => simp [runCase?]
  | cons head rest ih =>
    obtain ⟨name, d⟩ := head
    rw [runCase?, List.lookup_cons]
    by_cases hname : name = type
    · simp [hname]
    · rw [if_neg hname, ih, beq_eq_false_iff_ne.mpr fun he => hname he.symm]

theorem run?_dispatch {cases : List (String × Decoder)} :
    (dispatch cases).run? accepts json = some v ↔
      ∃ type d, json.get? typeNameField = some (.string type) ∧ cases.lookup type = some d ∧
        d.run? accepts json = some v := by
  rw [run?]
  simp only [Option.bind_eq_some_iff, Json.string?_eq_some, runCase?_eq_some]
  constructor
  · rintro ⟨type, ⟨value, hvalue, rfl⟩, d, hd, hv⟩
    exact ⟨type, d, hvalue, hd, hv⟩
  · rintro ⟨type, d, hvalue, hd, hv⟩
    exact ⟨type, ⟨_, hvalue, rfl⟩, d, hd, hv⟩

/-! ## Less is accepted -/

mutual

/-- Where a decoder gives a value in a module, it gives one if any string is taken for an enum. The values
may differ: an enum that fails in the module may stand under a `maybe`. -/
theorem exists_decode {accepts : String → String → Bool} :
    (d : Decoder) → {json : Json} → {w : Decoded} → d.run? accepts json = some w →
      ∃ v, d.decode json = .ok v
  | primitive leaf, json, w, h => by
    rw [run?] at h
    rw [decode]
    cases leaf with
    | enum name decoder =>
      obtain ⟨s, hs, -⟩ := Option.map_eq_some_iff.mp h
      obtain ⟨hs, -⟩ := Option.filter_eq_some_iff.mp hs
      exact ⟨.enum s, orFault_eq_ok.mpr (by rw [hs]; rfl)⟩
    | int | float | bool | string => exact ⟨w, toOption_eq_some_iff.mp h⟩
  | field key value, json, w, h => by
    obtain ⟨inner, hinner, hw⟩ := run?_field.mp h
    obtain ⟨v, hv⟩ := exists_decode value hw
    exact ⟨v, decode_field.mpr ⟨inner, hinner, hv⟩⟩
  | maybe inner, json, w, h => by
    rw [decode]
    split
    · exact ⟨_, rfl⟩
    · exact ⟨_, rfl⟩
  | list item, json, w, h => by
    obtain ⟨items, values, rfl, hvalues, -⟩ := run?_list.mp h
    have hall : ∀ json ∈ items, ∃ v, item.decode json = .ok v := by
      intro json hjson
      obtain ⟨value, -, hvalue⟩ := exists_of_mem_right hvalues.flip hjson
      exact exists_decode item hvalue
    obtain ⟨vs, hvs⟩ := exists_mapM_eq_ok hall
    exact ⟨.list vs, decode_list.mpr ⟨items, vs, rfl, forall₂_of_mapM_eq_ok hvs, rfl⟩⟩
  | map build values, json, w, h => by
    obtain ⟨ws, hws, -⟩ := Option.map_eq_some_iff.mp h
    obtain ⟨vs, hvs⟩ := exists_decodeAll values hws
    exact ⟨build.build vs, bind_eq_ok.mpr ⟨vs, hvs, rfl⟩⟩
  | dispatch cases, json, w, h => by
    obtain ⟨type, htype, hw⟩ := Option.bind_eq_some_iff.mp h
    obtain ⟨value, hvalue, htype⟩ := Option.bind_eq_some_iff.mp htype
    obtain ⟨v, hv⟩ := exists_decodeCase cases hw
    obtain ⟨d, hd, hv⟩ := decodeCase_eq_ok.mp hv
    rw [Json.string?_eq_some.mp htype] at hvalue
    exact ⟨v, decode_dispatch.mpr ⟨type, d, hvalue, hd, hv⟩⟩
  | succeed build, json, w, h => ⟨build.build [], rfl⟩

theorem exists_decodeAll {accepts : String → String → Bool} {json : Json} :
    (ds : List Decoder) → {ws : List Decoded} → runAll? accepts json ds = some ws →
      ∃ vs, decodeAll json ds = .ok vs
  | [], _, _ => ⟨[], rfl⟩
  | d :: ds, ws, h => by
    obtain ⟨w, hw, h⟩ := Option.bind_eq_some_iff.mp h
    obtain ⟨rest, hrest, -⟩ := Option.map_eq_some_iff.mp h
    obtain ⟨v, hv⟩ := exists_decode d hw
    obtain ⟨vs, hvs⟩ := exists_decodeAll ds hrest
    exact ⟨v :: vs, bind_eq_ok.mpr ⟨v, hv, bind_eq_ok.mpr ⟨vs, hvs, rfl⟩⟩⟩

theorem exists_decodeCase {accepts : String → String → Bool} {type : String} {json : Json} :
    (cases : List (String × Decoder)) → {w : Decoded} → runCase? accepts type json cases = some w →
      ∃ v, decodeCase type json cases = .ok v
  | [], _, h => by cases h
  | (name, d) :: cases, w, h => by
    rw [runCase?] at h
    rw [decodeCase]
    split at h
    · next hname =>
      rw [if_pos hname]
      exact exists_decode d h
    · next hname =>
      rw [if_neg hname]
      exact exists_decodeCase cases h

end

end Decoder

/-! ## Shapes -/

/-- The values that the entries of a shape give in a module, in order. -/
def Shape.Runs (shape : Shape) (accepts : String → String → Bool) (json : Json)
    (values : List Decoded) : Prop :=
  List.Forall₂ (fun e value => e.decoder.run? accepts json = some value) shape.entries values

section

variable {accepts : String → String → Bool} {json : Json} {v : Decoded}

theorem run?_recordDecoder {shape : Shape} {label : Option String} :
    (shape.recordDecoder label).run? accepts json = some v ↔
      ∃ values, shape.Runs accepts json values ∧ .record (shape.names.zip values) = v := by
  rw [Shape.recordDecoder, Decoder.run?_construct]
  simp only [Shape.decoders, List.forall₂_map_left_iff, Constructor.build, Shape.Runs]

theorem run?_unionDecoder {variants : Variants} :
    (unionDecoder variants).run? accepts json = some v ↔
      ∃ member shape values, json.get? typeNameField = some (.string member) ∧
        variants.lookup member = some shape ∧ shape.Runs accepts json values ∧
        .variant (Naming.capitalize member) (shape.names.zip values) = v := by
  have hlookup := lookup_variantDecoder variants
  simp only [variantDecoder] at hlookup
  simp only [unionDecoder, Decoder.run?_dispatch, hlookup, Option.map_eq_some_iff]
  constructor
  · rintro ⟨member, _, hmember, ⟨shape, hshape, rfl⟩, hv⟩
    obtain ⟨values, hvalues, hv⟩ := Decoder.run?_construct.mp hv
    exact ⟨member, shape, values, hmember, hshape, List.forall₂_map_left_iff.mp hvalues, hv⟩
  · rintro ⟨member, shape, values, hmember, hshape, hvalues, hv⟩
    exact ⟨member, _, hmember, ⟨shape, hshape, rfl⟩,
      Decoder.run?_construct.mpr ⟨values, List.forall₂_map_left_iff.mpr hvalues, hv⟩⟩

end

/-! ## Enums at their places -/

namespace ElmType

/-- Whether a value of a type has a string at a place where the type has an enum. -/
inductive EnumAt (name s : String) : ElmType → Decoded → Prop
  | here : EnumAt name s (.enum name) (.enum s)
  | just {inner : ElmType} {v : Decoded} (h : EnumAt name s inner v) :
    EnumAt name s (.maybe inner) (.just v)
  | item {item : ElmType} {vs : List Decoded} {v : Decoded} (hv : v ∈ vs)
    (h : EnumAt name s item v) : EnumAt name s (.list item) (.list vs)
  | field {fields : List (String × ElmType)} {vs : List (String × Decoded)}
    {field : String × ElmType} {v : String × Decoded} (hfield : (field, v) ∈ fields.zip vs)
    (h : EnumAt name s field.2 v.2) : EnumAt name s (.record fields) (.record vs)
  | variant {type tag : String} {variants : List (Variant ElmType)}
    {fields : List (String × ElmType)} {vs : List (String × Decoded)}
    {field : String × ElmType} {v : String × Decoded} (hvariant : ⟨tag, fields⟩ ∈ variants)
    (hfield : (field, v) ∈ fields.zip vs) (h : EnumAt name s field.2 v.2) :
    EnumAt name s (.union type variants) (.variant tag vs)

/-- Whether all strings of enums in a value have a property, which depends on the enum. -/
def AllEnums (P : String → String → Prop) (type : ElmType) (v : Decoded) : Prop :=
  ∀ name s, EnumAt name s type v → P name s

/-- Whether no union in a type has two variants with one tag. -/
def TagsDiffer (type : ElmType) : Prop :=
  ∀ name variants, (ElmType.union name variants).Within type → (variants.map Variant.tag).Nodup

theorem EnumAt.within {name s : String} {type : ElmType} {v : Decoded}
    (h : EnumAt name s type v) : (ElmType.enum name).Within type := by
  induction h with
  | here => exact .self
  | just _ ih => exact .maybe ih
  | item _ _ ih => exact .list ih
  | field hfield _ ih => exact .record (List.of_mem_zip hfield).1 ih
  | variant hvariant hfield _ ih => exact .union hvariant (List.of_mem_zip hfield).1 ih

variable {P : String → String → Prop}

theorem allEnums_enum {name s : String} : AllEnums P (.enum name) (.enum s) ↔ P name s := by
  refine ⟨fun h => h name s .here, ?_⟩
  rintro h _ _ ⟨⟩
  exact h

theorem allEnums_just {type : ElmType} {v : Decoded} :
    AllEnums P (.maybe type) (.just v) ↔ AllEnums P type v := by
  refine ⟨fun h name s hat => h name s (.just hat), ?_⟩
  rintro h name s (_ | hat)
  exact h name s hat

theorem allEnums_nothing (type : ElmType) : AllEnums P (.maybe type) .nothing := by
  rintro name s ⟨⟩

theorem allEnums_list {type : ElmType} {vs : List Decoded} :
    AllEnums P (.list type) (.list vs) ↔ ∀ v ∈ vs, AllEnums P type v := by
  refine ⟨fun h v hv name s hat => h name s (.item hv hat), ?_⟩
  rintro h name s (_ | _ | ⟨hv, hat⟩)
  exact h _ hv name s hat

theorem allEnums_record {fields : List (String × ElmType)} {vs : List (String × Decoded)} :
    AllEnums P (.record fields) (.record vs) ↔
      ∀ field v, (field, v) ∈ fields.zip vs → AllEnums P field.2 v.2 := by
  constructor
  · intro h field v hfield name s hat
    exact h name s (.field hfield hat)
  · intro h name s hat
    cases hat with
    | field hfield hat => exact h _ _ hfield name s hat

theorem allEnums_variant {type tag : String} {variants : List (Variant ElmType)}
    {vs : List (String × Decoded)} :
    AllEnums P (.union type variants) (.variant tag vs) ↔
      ∀ fields, ⟨tag, fields⟩ ∈ variants →
        ∀ field v, (field, v) ∈ fields.zip vs → AllEnums P field.2 v.2 := by
  constructor
  · intro h fields hvariant field v hfield name s hat
    exact h name s (.variant hvariant hfield hat)
  · intro h name s hat
    cases hat with
    | variant hvariant hfield hat => exact h _ hvariant _ _ hfield name s hat

end ElmType

/-! ## Decoders that check enums -/

/-- Whether the enum decoder of a name accepts a string. -/
def AcceptsEnum (accepts : String → String → Bool) (name s : String) : Prop :=
  accepts (Decoder.enumName name) s = true

namespace Decoder

/-- Whether a decoder keeps in a module the values whose enums are all accepted, and gives no others there. -/
structure Checks (accepts : String → String → Bool) (d : Decoder) (type : ElmType) : Prop where
  keeps : ∀ json v, d.decode json = .ok v → type.AllEnums (AcceptsEnum accepts) v →
    d.run? accepts json = some v
  accepted : type.TagsDiffer → ∀ json v, d.run? accepts json = some v →
    type.AllEnums (AcceptsEnum accepts) v

namespace Checks

variable {accepts : String → String → Bool} {d : Decoder} {type : ElmType}

theorem field (h : d.Checks accepts type) (key : String) : (field key d).Checks accepts type := by
  constructor
  · intro json v hv hall
    obtain ⟨inner, hinner, hv⟩ := decode_field.mp hv
    exact run?_field.mpr ⟨inner, hinner, h.keeps inner v hv hall⟩
  · intro hdiffer json v hv
    obtain ⟨inner, -, hv⟩ := run?_field.mp hv
    exact h.accepted hdiffer inner v hv

theorem maybe (h : d.Checks accepts type) : (maybe d).Checks accepts (.maybe type) := by
  constructor
  · intro json v hv hall
    rw [decode] at hv
    rw [run?]
    split at hv
    · next w hw =>
      cases hv
      rw [h.keeps json w hw (ElmType.allEnums_just.mp hall)]
    · next e he =>
      cases hv
      -- a failure is one in the module too
      cases hrun : d.run? accepts json with
      | none => rfl
      | some w =>
        obtain ⟨w', hw'⟩ := exists_decode d hrun
        cases he.symm.trans hw'
  · intro hdiffer json v hv
    rw [run?] at hv
    split at hv
    · next w hw =>
      cases hv
      have hinner : type.TagsDiffer := fun name variants hin => hdiffer name variants hin.maybe
      exact ElmType.allEnums_just.mpr (h.accepted hinner json w hw)
    · cases hv
      exact ElmType.allEnums_nothing type

theorem list (h : d.Checks accepts type) : (list d).Checks accepts (.list type) := by
  constructor
  · intro json v hv hall
    obtain ⟨items, values, rfl, hvalues, rfl⟩ := decode_list.mp hv
    refine run?_list.mpr ⟨items, values, rfl, ?_, rfl⟩
    rw [List.forall₂_iff_zip] at hvalues ⊢
    refine ⟨hvalues.1, fun {item value} hin => ?_⟩
    exact h.keeps item value (hvalues.2 hin)
      (ElmType.allEnums_list.mp hall value (List.of_mem_zip hin).2)
  · intro hdiffer json v hv
    obtain ⟨items, values, rfl, hvalues, rfl⟩ := run?_list.mp hv
    have hinner : type.TagsDiffer := fun name variants hin => hdiffer name variants hin.list
    refine ElmType.allEnums_list.mpr fun value hvalue => ?_
    obtain ⟨item, -, hitem⟩ := exists_of_mem_right hvalues hvalue
    exact h.accepted hinner item value hitem

theorem lists (h : d.Checks accepts type) (depth : Nat) :
    (d.lists depth).Checks accepts (type.lists depth) := by
  induction depth with
  | zero => exact h
  | succ depth ih => exact ih.list

end Checks

end Decoder

theorem scalarLeaf_checks (accepts : String → String → Bool) (name : String) :
    (Decoder.primitive (scalarLeaf name).1).Checks accepts (scalarLeaf name).2 := by
  constructor
  · intro json v hv _
    rw [Decoder.decode] at hv
    rw [Decoder.run?]
    rcases scalarLeaf_cases name with hleaf | hleaf | hleaf | hleaf <;> rw [hleaf] at hv ⊢ <;>
      exact toOption_eq_some_iff.mpr hv
  · intro _ json v _ enum s hat
    rcases scalarLeaf_cases name with hleaf | hleaf | hleaf | hleaf <;> rw [hleaf] at hat <;>
      cases hat

theorem enum_checks (accepts : String → String → Bool) (name : String) :
    (Decoder.primitive (.enum name (Decoder.enumName name))).Checks accepts (.enum name) := by
  constructor
  · intro json v hv hall
    rw [Decoder.decode, Primitive.decode, orFault_eq_ok, Option.map_eq_some_iff] at hv
    obtain ⟨s, hs, rfl⟩ := hv
    have haccepts := ElmType.allEnums_enum.mp hall
    exact Option.map_eq_some_iff.mpr ⟨s, Option.filter_eq_some_iff.mpr ⟨hs, haccepts⟩, rfl⟩
  · intro _ json v hv
    rw [Decoder.run?, Primitive.run?, Option.map_eq_some_iff] at hv
    obtain ⟨s, hs, rfl⟩ := hv
    exact ElmType.allEnums_enum.mpr (Option.filter_eq_some_iff.mp hs).2

/-! ## Expansions -/

/-- The fields of a shape beside the values that are decoded for them. -/
theorem mem_zip_fields {shape : Shape} {values : List Decoded} {field : String × ElmType}
    {v : String × Decoded} :
    (field, v) ∈ shape.fields.zip (shape.names.zip values) ↔
      ∃ e value, (e, value) ∈ shape.entries.zip values ∧ field = (e.name, e.type) ∧
        v = (e.name, value) := by
  obtain ⟨entries⟩ := shape
  simp only [Shape.fields, Shape.names]
  induction entries generalizing values with
  | nil => simp
  | cons e entries ih =>
    cases values with
    | nil => simp
    | cons value values =>
      simp only [List.map_cons, List.zip_cons_cons, List.mem_cons, ih, Prod.mk.injEq]
      constructor
      · rintro (⟨rfl, rfl⟩ | ⟨e', value', hin, rfl, rfl⟩)
        · exact ⟨e, value, .inl ⟨rfl, rfl⟩, rfl, rfl⟩
        · exact ⟨e', value', .inr hin, rfl, rfl⟩
      · rintro ⟨e', value', ⟨rfl, rfl⟩ | hin, rfl, rfl⟩
        · exact .inl ⟨rfl, rfl⟩
        · exact .inr ⟨e', value', hin, rfl, rfl⟩

/-- Whether every entry of a shape checks the enums of its type. -/
def Shape.Checks (accepts : String → String → Bool) (shape : Shape) : Prop :=
  ∀ e ∈ shape.entries, e.decoder.Checks accepts e.type

namespace Shape.Checks

variable {accepts : String → String → Bool} {shape : Shape} {json : Json} {values : List Decoded}

theorem runs (h : shape.Checks accepts) (hvalues : shape.Decodes json values)
    (hall : ∀ field v, (field, v) ∈ shape.fields.zip (shape.names.zip values) →
      field.2.AllEnums (AcceptsEnum accepts) v.2) : shape.Runs accepts json values := by
  rw [Shape.Decodes, List.forall₂_iff_zip] at hvalues
  rw [Shape.Runs, List.forall₂_iff_zip]
  refine ⟨hvalues.1, fun {e value} hin => ?_⟩
  have haccepted := hall _ _ (mem_zip_fields.mpr ⟨e, value, hin, rfl, rfl⟩)
  exact (h e (List.of_mem_zip hin).1).keeps json value (hvalues.2 hin) haccepted

theorem allEnums (h : shape.Checks accepts) (hvalues : shape.Runs accepts json values)
    (hdiffer : ∀ field ∈ shape.fields, field.2.TagsDiffer) (field : String × ElmType)
    (v : String × Decoded) (hfield : (field, v) ∈ shape.fields.zip (shape.names.zip values)) :
    field.2.AllEnums (AcceptsEnum accepts) v.2 := by
  have htags := hdiffer field (List.of_mem_zip hfield).1
  obtain ⟨e, value, hin, rfl, rfl⟩ := mem_zip_fields.mp hfield
  exact (h e (List.of_mem_zip hin).1).accepted htags json value (List.forall₂_zip hvalues hin)

theorem record (h : shape.Checks accepts) (label : Option String) :
    (shape.recordDecoder label).Checks accepts shape.recordType := by
  constructor
  · intro json v hv hall
    obtain ⟨values, hvalues, rfl⟩ := decode_recordDecoder.mp hv
    exact run?_recordDecoder.mpr
      ⟨values, h.runs hvalues (ElmType.allEnums_record.mp hall), rfl⟩
  · intro hdiffer json v hv
    obtain ⟨values, hvalues, rfl⟩ := run?_recordDecoder.mp hv
    refine ElmType.allEnums_record.mpr (h.allEnums hvalues fun field hfield => ?_)
    exact fun name variants hin => hdiffer name variants (.record hfield hin)

theorem union {type : String} {variants : Variants}
    (h : ∀ member shape, (member, shape) ∈ variants → shape.Checks accepts) :
    (unionDecoder variants).Checks accepts (unionType type variants) := by
  have hvariant {member : String} {shape : Shape} (hshape : variants.lookup member = some shape) :
      (⟨Naming.capitalize member, shape.fields⟩ : Variant ElmType) ∈
        variants.map fun entry => ⟨Naming.capitalize entry.1, entry.2.fields⟩ :=
    List.mem_map_of_mem (mem_of_lookup hshape)
  constructor
  · intro json v hv hall
    obtain ⟨member, shape, values, hmember, hshape, hvalues, rfl⟩ := decode_unionDecoder.mp hv
    have haccepted := ElmType.allEnums_variant.mp hall shape.fields (hvariant hshape)
    exact run?_unionDecoder.mpr ⟨member, shape, values, hmember, hshape,
      (h member shape (mem_of_lookup hshape)).runs hvalues haccepted, rfl⟩
  · intro hdiffer json v hv
    obtain ⟨member, shape, values, -, hshape, hvalues, rfl⟩ := run?_unionDecoder.mp hv
    refine ElmType.allEnums_variant.mpr fun fields hother => ?_
    -- only one variant has the tag
    cases List.inj_on_of_nodup_map (hdiffer _ _ .self) hother (hvariant hshape) rfl
    refine (h member shape (mem_of_lookup hshape)).allEnums hvalues fun field hfield => ?_
    exact fun name others hin => hdiffer name others (.union (hvariant hshape) hfield hin)

end Shape.Checks

/-- The wrappers of an entry hold no enums. -/
theorem Selected.entry_checks {accepts : String → String → Bool} {s : Selected} {type : TypeRef}
    {elm : ElmType} {d : Decoder} (h : d.Checks accepts elm) :
    (s.entry type elm d).decoder.Checks accepts (s.entry type elm d).type := by
  have hread := (h.lists type.layers).field s.field.name
  simp only [entry]
  split
  · exact hread.maybe
  · exact hread

/-- Every expansion checks enums. The induction goes into the sub-selections of objects and into those on
each member of a union. -/
theorem expand_checks {schema : Schema} {index : FragmentIndex}
    (accepts : String → String → Bool) (chain : List String) (selections : List Selection) :
    ∀ parent shape, expand schema index chain parent {} selections = .ok shape →
      shape.Checks accepts := by
  induction chain, selections using selections_induction schema index with
  | step chain selections ih =>
    intro parent shape h e he
    obtain ⟨s, hs, type, d, elm, decoder, -, hreading, rfl⟩ :=
      exists_of_mem_right (expand_selected h) he
    obtain ⟨hinner, hmember⟩ := ih parent s hs
    apply Selected.entry_checks
    cases hreading with
    | scalar d => exact scalarLeaf_checks accepts d.name
    | enum d => exact enum_checks accepts d.name
    | object hd hshape => exact (hinner _ _ hshape).record none
    | union hvariants =>
      apply Shape.Checks.union
      intro member shape hin
      obtain ⟨-, object, -, hshape⟩ := (expandUnion_members hvariants).shapes member shape hin
      exact hmember member object shape hshape

theorem Binding.checks {schema : Schema} {document : Document} {bindings : List Binding}
    {binding : Binding} (h : Binding.ofDocument schema document = .ok bindings)
    (hbinding : binding ∈ bindings) (accepts : String → String → Bool) :
    binding.decoder.Checks accepts binding.type := by
  obtain ⟨index, -, hall⟩ := Binding.ofDocument_eq_ok h
  obtain ⟨d, -, hof⟩ := exists_of_mem_right hall hbinding
  obtain ⟨parent, shape, label, -, hshape, htype, hdecoder⟩ := Binding.ofDefinition_eq_ok hof
  rw [htype, hdecoder]
  exact (expand_checks accepts d.chain d.selections parent shape hshape).record label

/-! ## Enums of a module -/

/-- Whether an enum of a schema has a value. -/
def Schema.Declares (schema : Schema) (name s : String) : Prop :=
  ∃ values, schema.enumValues? name = some values ∧ s ∈ values

/-- Whether a value of a type has declared values at all places of enums. -/
def Schema.DeclaresAll (schema : Schema) (type : ElmType) (v : Decoded) : Prop :=
  type.AllEnums schema.Declares v

/-- Whether the enum decoders for a type accept exactly what a schema declares. -/
def Schema.DecidesEnums (schema : Schema) (type : ElmType) (accepts : String → String → Bool) : Prop :=
  ∀ name s, (ElmType.enum name).Within type → (AcceptsEnum accepts name s ↔ schema.Declares name s)

theorem Schema.DecidesEnums.allEnums_iff {schema : Schema} {type : ElmType}
    {accepts : String → String → Bool} (h : schema.DecidesEnums type accepts) (v : Decoded) :
    type.AllEnums (AcceptsEnum accepts) v ↔ schema.DeclaresAll type v := by
  constructor
  · intro hall name s hat
    exact (h name s hat.within).mp (hall name s hat)
  · intro hall name s hat
    exact (h name s hat.within).mpr (hall name s hat)

namespace ModulePlan

variable {schema : Schema} {bindings : List Binding} {plan : ModulePlan}

/-- A module declares the tags of all unions that its bindings use, so they differ. -/
theorem tagsDiffer (h : ofBindings schema bindings = .ok plan) {binding : Binding}
    (hbinding : binding ∈ bindings) : binding.type.TagsDiffer := by
  intro name variants hwithin
  have huses : Uses bindings (.union name variants) := ⟨binding, hbinding, .inl hwithin⟩
  obtain ⟨hunions, -, -, -⟩ := ofBindings_eq_ok h
  obtain ⟨hcollects, hagree⟩ := unionsUsed_eq_ok hunions
  obtain ⟨⟨_, others⟩, hmem, rfl⟩ := List.mem_map.mp (hcollects.complete name variants huses)
  cases hagree _ variants others huses (hcollects.used _ others hmem)
  have hmodule := nodup_moduleValues h
  rw [moduleValues] at hmodule
  have htags := hmodule.of_append_left.of_append_left.of_append_right
  exact (List.nodup_flatMap.mp htags).1 _ hmem

theorem nodup_enumDecoders (h : ofBindings schema bindings = .ok plan) :
    (plan.enums.enums.map EnumNaming.decoder).Nodup := by
  have hmodule := nodup_moduleValues h
  rw [moduleValues] at hmodule
  have henums := hmodule.of_append_left.of_append_right
  refine List.pairwise_map.mpr ((List.nodup_flatMap.mp henums).2.imp ?_)
  intro enum other hdisjoint heq
  exact hdisjoint (a := enum.decoder) (by simp) (by simp [heq])

/-- The decoder of an enum succeeds on the values that the schema lists for the enum. -/
theorem isSome_decodes?_iff (h : ofBindings schema bindings = .ok plan) {enum : EnumNaming}
    (henum : enum ∈ plan.enums.enums) (raw s : String) :
    (Elm.decodes? (enum.decoderCases raw) s).isSome = true ↔ schema.Declares enum.name s := by
  obtain ⟨-, henums, -, -⟩ := ofBindings_eq_ok h
  obtain ⟨values, start, hvalues, hconstructors⟩ := EnumIndex.constructors_eq henums henum
  rw [EnumNaming.decodes?_decoderCases, Option.isSome_map, List.find?_isSome, hconstructors]
  simp [Schema.Declares, hvalues]

/-- The enum decoders of a module can be read from its blocks, and they accept what the schema declares. -/
theorem exists_decoders (h : ofBindings schema bindings = .ok plan) (options : ModuleOptions) :
    ∃ decoders : String → List (String × String),
      (∀ enum ∈ plan.enums.enums, ∃ text ∈ plan.blocks options bindings, ∃ constructors encoder,
        enum.IsBlock text constructors (decoders enum.decoder) encoder) ∧
      ∀ binding ∈ bindings, schema.DecidesEnums binding.type fun decoder s =>
        (Elm.decodes? (decoders decoder) s).isSome := by
  choose raw hraw using fun enum : EnumNaming => enum.isBlock_text { reserved := plan.values }
  let decoders (decoder : String) : List (String × String) :=
    ((plan.enums.enums.find? (·.decoder == decoder)).map fun enum =>
      enum.decoderCases (raw enum)).getD []
  have hdecoders {enum : EnumNaming} (henum : enum ∈ plan.enums.enums) :
      decoders enum.decoder = enum.decoderCases (raw enum) := by
    simp only [decoders, find?_of_nodup_map (nodup_enumDecoders h) henum, Option.map_some,
      Option.getD_some]
  refine ⟨decoders, ?_, ?_⟩
  · intro enum henum
    have hblock : enum.text { reserved := plan.values } ∈ plan.blocks options bindings := by
      have hmem := List.mem_map_of_mem
        (f := fun e : EnumNaming => e.text { reserved := plan.values }) henum
      simp only [ModulePlan.blocks, List.mem_append, hmem, or_true, true_or]
    refine ⟨_, hblock, enum.constructors.map Prod.snd, enum.encoderCases, ?_⟩
    rw [hdecoders henum]
    exact hraw enum
  · intro binding hbinding name s hwithin
    have huses : Uses bindings (.enum name) := ⟨binding, hbinding, .inl hwithin⟩
    obtain ⟨enum, henum, rfl⟩ := List.mem_map.mp ((mem_enumNames_iff h).mpr huses)
    have hcases : decoders (Decoder.enumName enum.name) = enum.decoderCases (raw enum) :=
      hdecoders henum
    rw [AcceptsEnum, hcases]
    exact isSome_decodes?_iff h henum (raw enum) s

end ModulePlan

/-- A decoder that takes any string for an enum gives the value that it gives in a module, exactly if all
enums in the value have declared values. A declared value is kept whether or not the tags of unions differ. -/
theorem Binding.run?_iff_declared {schema : Schema} {document : Document} {bindings : List Binding}
    {binding : Binding} (h : Binding.ofDocument schema document = .ok bindings)
    (hbinding : binding ∈ bindings) :
    (∀ accepts, schema.DecidesEnums binding.type accepts →
      ∀ json v, binding.decoder.decode json = .ok v →
        (schema.DeclaresAll binding.type v → binding.decoder.run? accepts json = some v) ∧
        (binding.type.TagsDiffer → binding.decoder.run? accepts json = some v →
          schema.DeclaresAll binding.type v)) ∧
    ∀ plan options, ModulePlan.ofBindings schema bindings = .ok plan →
      ∃ decoders : String → List (String × String),
        (∀ enum ∈ plan.enums.enums, ∃ text ∈ plan.blocks options bindings, ∃ constructors encoder,
          enum.IsBlock text constructors (decoders enum.decoder) encoder) ∧
        schema.DecidesEnums binding.type (fun decoder s => (Elm.decodes? (decoders decoder) s).isSome) ∧
        ∀ json v, binding.decoder.decode json = .ok v →
          (binding.decoder.run? (fun decoder s => (Elm.decodes? (decoders decoder) s).isSome) json =
              some v ↔
            schema.DeclaresAll binding.type v) := by
  constructor
  · intro accepts hdecides json v hv
    have hchecks := Binding.checks h hbinding accepts
    rw [← hdecides.allEnums_iff v]
    exact ⟨hchecks.keeps json v hv, fun hdiffer hrun => hchecks.accepted hdiffer json v hrun⟩
  · intro plan options hplan
    obtain ⟨decoders, hblocks, hdecides⟩ := ModulePlan.exists_decoders hplan options
    refine ⟨decoders, hblocks, hdecides binding hbinding, fun json v hv => ?_⟩
    have hchecks := Binding.checks h hbinding
      fun decoder s => (Elm.decodes? (decoders decoder) s).isSome
    rw [← (hdecides binding hbinding).allEnums_iff v]
    exact ⟨hchecks.accepted (ModulePlan.tagsDiffer hplan hbinding) json v, hchecks.keeps json v hv⟩

namespace Sample

/-- An answer with a string for a color. -/
def dotPayload (color : String) : Json :=
  .object [("s", .object [("__typename", .string "Dot"), ("c", .string color)])]

/-- What is made of the answer if the string is a color. -/
def dotValue (color : String) : Decoded :=
  .record [(Naming.valueName "s", .just (.variant "Dot"
    [(Naming.valueName "c", .just (.enum color))]))]

theorem decode_dotPayload (color : String) :
    colorBinding.decoder.decode (dotPayload color) = .ok (dotValue color) := rfl

theorem declaresAll_dotValue_iff (color : String) :
    colors.DeclaresAll colorBinding.type (dotValue color) ↔ color = "RED" := by
  have hvalues : colors.enumValues? "Color" = some ["RED"] := by decide +kernel
  constructor
  · intro h
    have hdeclares := h "Color" color (.field List.mem_cons_self (.just
      (.variant List.mem_cons_self List.mem_cons_self (.just .here))))
    simpa [Schema.Declares, hvalues] using hdeclares
  · rintro rfl
    refine ElmType.allEnums_record.mpr fun _ _ hfield => ?_
    cases List.mem_singleton.mp hfield
    refine ElmType.allEnums_just.mpr (ElmType.allEnums_variant.mpr fun _ hvariant _ _ hfield => ?_)
    cases List.mem_singleton.mp hvariant
    cases List.mem_singleton.mp hfield
    exact ElmType.allEnums_just.mpr (ElmType.allEnums_enum.mpr ⟨_, hvalues, List.mem_cons_self⟩)

end Sample

/-- The module gives a color for a declared string. For another one it does not give the value that has the
string for a color. -/
theorem Binding.run?_iff_declared_color :
    ∃ plan, ∃ accepts : String → String → Bool,
      ofDocument Sample.colors Sample.colorDocument = .ok [Sample.colorBinding] ∧
      ModulePlan.ofBindings Sample.colors [Sample.colorBinding] = .ok plan ∧
      Sample.colors.DecidesEnums Sample.colorBinding.type accepts ∧
      Sample.colorBinding.decoder.decode (Sample.dotPayload "RED") = .ok (Sample.dotValue "RED") ∧
      Sample.colorBinding.decoder.run? accepts (Sample.dotPayload "RED") =
        some (Sample.dotValue "RED") ∧
      Sample.colorBinding.decoder.decode (Sample.dotPayload "BLUE") = .ok (Sample.dotValue "BLUE") ∧
      Sample.colorBinding.decoder.run? accepts (Sample.dotPayload "BLUE") ≠
        some (Sample.dotValue "BLUE") := by
  obtain ⟨plan, hplan⟩ := Sample.ofBindings_colorBinding
  obtain ⟨-, hmodule⟩ := run?_iff_declared Sample.ofDocument_colorDocument List.mem_cons_self
  obtain ⟨decoders, -, hdecides, hiff⟩ := hmodule plan ⟨"Api", "/graphql", .get⟩ hplan
  have hred := hiff _ _ (Sample.decode_dotPayload "RED")
  have hblue := hiff _ _ (Sample.decode_dotPayload "BLUE")
  rw [Sample.declaresAll_dotValue_iff] at hred hblue
  exact ⟨plan, _, Sample.ofDocument_colorDocument, hplan, hdecides, Sample.decode_dotPayload "RED",
    hred.mpr rfl, Sample.decode_dotPayload "BLUE", fun h => absurd (hblue.mp h) (by decide)⟩

/-- A string that is no value of an enum is decoded all the same. -/
theorem Binding.not_declaresAll :
    ¬ ∀ (schema : Schema) (document : Document) (bindings : List Binding) (binding : Binding)
      (json : Json) (v : Decoded), ofDocument schema document = .ok bindings →
        binding ∈ bindings → binding.decoder.decode json = .ok v →
        schema.DeclaresAll binding.type v := by
  intro h
  have hdeclared := h _ _ _ _ _ _ Sample.ofDocument_colorDocument List.mem_cons_self
    (Sample.decode_dotPayload "BLUE")
  exact absurd ((Sample.declaresAll_dotValue_iff "BLUE").mp hdeclared) (by decide)

end ElmBindings
