import ElmBindings.Elm.Decoder.Decode
import ElmBindings.Proofs.Expansion

set_option autoImplicit false

/-! # When decoders succeed

For each kind of decoder, on which values it succeeds and what it gives there. Every statement is an
equivalence: read from left to right it inverts a run, from right to left it builds one. -/

namespace ElmBindings

/-! ## Parts of a run -/

@[simp]
theorem orFault_eq_ok {α : Type} {fault : Fault} {x : Option α} {a : α} :
    orFault fault x = .ok a ↔ x = some a := by
  cases x <;> simp [orFault]

@[simp]
theorem through_eq_ok {α : Type} {step : Step} {outcome : Except DecodeError α} {a : α} :
    through step outcome = .ok a ↔ outcome = .ok a :=
  mapError_eq_ok

theorem Json.string?_eq_some {json : Json} {s : String} :
    json.string? = some s ↔ json = .string s := by
  cases json <;> simp [string?]

theorem Json.array?_eq_some {json : Json} {items : List Json} :
    json.array? = some items ↔ json = .array items := by
  cases json <;> simp [array?]

theorem decodeItems_eq_ok {item : Json → Except DecodeError Decoded} {position : Nat}
    {items : List Json} {values : List Decoded} :
    decodeItems item position items = .ok values ↔
      List.Forall₂ (fun json value => item json = .ok value) items values := by
  induction items generalizing position values with
  | nil => cases values <;> simp [decodeItems]
  | cons json items ih =>
    rw [decodeItems, bind_eq_ok, List.forall₂_cons_left_iff]
    constructor
    · rintro ⟨value, hvalue, h⟩
      obtain ⟨rest, hrest, h⟩ := bind_eq_ok.mp h
      cases h
      exact ⟨value, rest, through_eq_ok.mp hvalue, ih.mp hrest, rfl⟩
    · rintro ⟨value, rest, hvalue, hrest, rfl⟩
      exact ⟨value, through_eq_ok.mpr hvalue, bind_eq_ok.mpr ⟨rest, ih.mpr hrest, rfl⟩⟩

namespace Decoder

/-! ## Wrappers -/

theorem decode_field {key : String} {d : Decoder} {json : Json} {v : Decoded} :
    (field key d).decode json = .ok v ↔
      ∃ inner, json.get? key = some inner ∧ d.decode inner = .ok v := by
  rw [decode, bind_eq_ok]
  simp only [orFault_eq_ok, through_eq_ok]

theorem decode_maybe_of_ok {d : Decoder} {json : Json} {v : Decoded} (h : d.decode json = .ok v) :
    (maybe d).decode json = .ok (.just v) := by
  rw [decode, h]

theorem decode_maybe_of_fails {d : Decoder} {json : Json} (h : ∀ v, d.decode json ≠ .ok v) :
    (maybe d).decode json = .ok .nothing := by
  rw [decode]
  split
  · next v hv => exact absurd hv (h v)
  · rfl

theorem decode_list {d : Decoder} {json : Json} {v : Decoded} :
    (list d).decode json = .ok v ↔
      ∃ items values, json = .array items ∧
        List.Forall₂ (fun item value => d.decode item = .ok value) items values ∧
        v = .list values := by
  rw [decode, bind_eq_ok]
  constructor
  · rintro ⟨items, hitems, h⟩
    obtain ⟨values, hvalues, h⟩ := bind_eq_ok.mp h
    cases h
    exact ⟨items, values, Json.array?_eq_some.mp (orFault_eq_ok.mp hitems),
      decodeItems_eq_ok.mp hvalues, rfl⟩
  · rintro ⟨items, values, rfl, hvalues, rfl⟩
    exact ⟨items, rfl, bind_eq_ok.mpr ⟨values, decodeItems_eq_ok.mpr hvalues, rfl⟩⟩

/-! ## Records and variants -/

theorem decodeAll_eq_ok {json : Json} {ds : List Decoder} {values : List Decoded} :
    decodeAll json ds = .ok values ↔
      List.Forall₂ (fun (d : Decoder) value => d.decode json = .ok value) ds values := by
  induction ds generalizing values with
  | nil => cases values <;> simp [decodeAll]
  | cons d ds ih =>
    rw [decodeAll, bind_eq_ok, List.forall₂_cons_left_iff]
    constructor
    · rintro ⟨value, hvalue, h⟩
      obtain ⟨rest, hrest, h⟩ := bind_eq_ok.mp h
      cases h
      exact ⟨value, rest, hvalue, ih.mp hrest, rfl⟩
    · rintro ⟨value, rest, hvalue, hrest, rfl⟩
      exact ⟨value, hvalue, bind_eq_ok.mpr ⟨rest, ih.mpr hrest, rfl⟩⟩

theorem decode_construct {build : Constructor} {ds : List Decoder} {json : Json} {v : Decoded} :
    (construct build ds).decode json = .ok v ↔
      ∃ values, List.Forall₂ (fun (d : Decoder) value => d.decode json = .ok value) ds values ∧
        build.build values = v := by
  cases ds with
  | nil =>
    rw [construct, decode]
    simp
  | cons d ds =>
    rw [construct, decode, bind_eq_ok]
    · simp only [decodeAll_eq_ok, Except.ok.injEq]
    · simp

theorem decodeCase_eq_ok {type : String} {json : Json} {cases : List (String × Decoder)}
    {v : Decoded} :
    decodeCase type json cases = .ok v ↔
      ∃ d, cases.lookup type = some d ∧ d.decode json = .ok v := by
  induction cases with
  | nil => simp [decodeCase]
  | cons head rest ih =>
    obtain ⟨name, d⟩ := head
    rw [decodeCase, List.lookup_cons]
    by_cases hname : name = type
    · simp [hname]
    · rw [if_neg hname, ih, beq_eq_false_iff_ne.mpr fun he => hname he.symm]

theorem decode_dispatch {cases : List (String × Decoder)} {json : Json} {v : Decoded} :
    (dispatch cases).decode json = .ok v ↔
      ∃ type d, json.get? typeNameField = some (.string type) ∧ cases.lookup type = some d ∧
        d.decode json = .ok v := by
  rw [decode, bind_eq_ok]
  constructor
  · rintro ⟨value, hvalue, h⟩
    obtain ⟨type, htype, h⟩ := bind_eq_ok.mp h
    obtain ⟨d, hd, hv⟩ := decodeCase_eq_ok.mp h
    obtain rfl := Json.string?_eq_some.mp (orFault_eq_ok.mp (through_eq_ok.mp htype))
    exact ⟨type, d, orFault_eq_ok.mp hvalue, hd, hv⟩
  · rintro ⟨type, d, hvalue, hd, hv⟩
    exact ⟨.string type, orFault_eq_ok.mpr hvalue,
      bind_eq_ok.mpr ⟨type, rfl, decodeCase_eq_ok.mpr ⟨d, hd, hv⟩⟩⟩

end Decoder

/-! ## Shapes -/

/-- The values that the entries of a shape read from an object, in order. -/
def Shape.Decodes (shape : Shape) (json : Json) (values : List Decoded) : Prop :=
  List.Forall₂ (fun e value => e.decoder.decode json = .ok value) shape.entries values

theorem decode_recordDecoder {shape : Shape} {label : Option String} {json : Json} {v : Decoded} :
    (shape.recordDecoder label).decode json = .ok v ↔
      ∃ values, shape.Decodes json values ∧ .record (shape.names.zip values) = v := by
  rw [Shape.recordDecoder, Decoder.decode_construct]
  simp only [Shape.decoders, List.forall₂_map_left_iff, Constructor.build, Shape.Decodes]

theorem lookup_map_snd {α β : Type} (f : String → α → β) (key : String)
    (pairs : List (String × α)) :
    (pairs.map fun (name, a) => (name, f name a)).lookup key = (pairs.lookup key).map (f key) := by
  induction pairs with
  | nil => rfl
  | cons head rest ih =>
    obtain ⟨name, a⟩ := head
    rw [List.map_cons, List.lookup_cons, List.lookup_cons, ih]
    by_cases hkey : key = name
    · simp [hkey]
    · rw [beq_eq_false_iff_ne.mpr hkey]

/-- The decoder of a member of a union. -/
def variantDecoder (member : String) (shape : Shape) : Decoder :=
  .construct (.variant (Naming.capitalize member) shape.names) shape.decoders

/-- The case of a union for a member is the decoder of the member's shape. -/
theorem lookup_variantDecoder (variants : Variants) (member : String) :
    (variants.map fun (name, shape) => (name, variantDecoder name shape)).lookup member =
      (variants.lookup member).map (variantDecoder member) :=
  lookup_map_snd variantDecoder member variants

theorem decode_unionDecoder {variants : Variants} {json : Json} {v : Decoded} :
    (unionDecoder variants).decode json = .ok v ↔
      ∃ member shape values, json.get? typeNameField = some (.string member) ∧
        variants.lookup member = some shape ∧ shape.Decodes json values ∧
        .variant (Naming.capitalize member) (shape.names.zip values) = v := by
  rw [unionDecoder, Decoder.decode_dispatch]
  constructor
  · rintro ⟨member, d, hmember, hd, hv⟩
    obtain ⟨shape, hshape, rfl⟩ :=
      Option.map_eq_some_iff.mp ((lookup_variantDecoder variants member).symm.trans hd)
    obtain ⟨values, hvalues, hv⟩ := Decoder.decode_construct.mp hv
    exact ⟨member, shape, values, hmember, hshape, List.forall₂_map_left_iff.mp hvalues, hv⟩
  · rintro ⟨member, shape, values, hmember, hshape, hvalues, hv⟩
    have hd := (lookup_variantDecoder variants member).trans
      (Option.map_eq_some_iff.mpr ⟨shape, hshape, rfl⟩)
    exact ⟨member, _, hmember, hd,
      Decoder.decode_construct.mpr ⟨values, List.forall₂_map_left_iff.mpr hvalues, hv⟩⟩

theorem mem_of_lookup {α : Type} {key : String} {a : α} {pairs : List (String × α)}
    (h : pairs.lookup key = some a) : (key, a) ∈ pairs := by
  obtain ⟨before, after, rfl, -⟩ := List.lookup_eq_some_iff.mp h
  simp

/-- An answer to the query of the sample document. -/
def Sample.payload : Json :=
  .object
    [("user", .object [("id", .string "1"), ("name", .null),
        ("friends", .array [.object [("id", .string "2")], .object [("id", .string "3")]])]),
      ("search", .array
        [.object [("__typename", .string "Bot"), ("active", .bool true),
            ("owner", .object [("id", .string "1")])],
          .object [("__typename", .string "User"), ("id", .string "2"), ("name", .string "Ada")]])]

end ElmBindings
