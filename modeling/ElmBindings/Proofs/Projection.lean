import ElmBindings.Proofs.Nulls

set_option autoImplicit false

/-! # Payloads and what they become

`projection?` reads a payload along the selections of a definition, without types of Elm and without
decoders: it gives the value of every selected field, or nothing if the payload is not what a server
may answer. The decoder that is generated for the definition gives the same value
(`Binding.decode_projection`). As a `maybe` hides any failure under it, this also says that no part of
a proper answer is lost. -/

namespace ElmBindings

open FragmentIndex

/-! ## Values under wrappers -/

/-- The value of a leaf of a scalar type. Identifiers and custom scalars are strings. -/
def scalarValue? (name : String) (json : Json) : Option Decoded :=
  match BuiltinScalar.ofName? name with
  | some .int =>
    match json with
    | .int n => if Json.isWord n then some (.int n) else none
    | _ => none
  | some .float =>
    match json with
    | .int n => some (.float (.ofInt n))
    | .float x => some (.float x)
    | _ => none
  | some .boolean => json.bool?.map .bool
  | some .string | some .id | none => json.string?.map .string

/-- The value of a type whose base values are given. The items of a list are not `null`, whatever their
type says. -/
def TypeRef.project? (base : Json → Option Decoded) : TypeRef → Json → Option Decoded
  | .named _, json => base json
  | .list item, .array items => (items.mapM (item.project? base)).map .list
  | .list _, _ => none
  | .nonNull inner, json => inner.project? base json

/-- The fields of an object of the given type. -/
abbrev ObjectReader := ObjectDef → Json → Option (List (String × Decoded))

/-- The value of a type's definition. An object of a union names one of the members that are selected
on, and is read as that member. -/
def TypeDef.project? (schema : Schema) (members : List String) (record : ObjectReader)
    (variant : String → ObjectReader) : TypeDef → Json → Option Decoded
  | .scalar d, json => scalarValue? d.name json
  | .enum _, json => json.string?.map .enum
  | .object d, json | .interface d, json => (record d json).map .record
  | .union _, json => do
    let member ← (json.get? typeNameField).bind Json.string?
    let object ← schema.selectable? member
    if member ∈ members then
      (variant member object json).map (.variant (Naming.capitalize member))
    else none
  | .input _, _ => none

/-! ## Values of fields -/

/-- The value of a selected field of an object. An optional field may be absent. It may also be `null`
unless it holds one object. -/
def Selected.project? (schema : Schema) (record : ObjectReader) (variant : String → ObjectReader)
    (s : Selected) (json : Json) : Option Decoded := do
  let (type, d) ← s.type? schema
  let value := type.project? (d.project? schema (conditions s.inner) record variant)
  if s.isOptional type then
    match json.get? s.field.name with
    | none => some .nothing
    | some .null => if type.layers = 0 ∧ d.selectable?.isSome then none else some .nothing
    | some inner => (value inner).map .just
  else (json.get? s.field.name).bind value

/-- The fields that selections on `parent` ask of an object, by their Elm names. -/
def projection? (schema : Schema) (index : FragmentIndex) (chain : List String) (parent : ObjectDef)
    (selections : List Selection) : Json → Option (List (String × Decoded))
  | .object entries =>
    (selected schema index chain parent selections).attach.mapM fun ⟨s, _hs⟩ => do
      let value ← s.project? schema (fun object => projection? schema index s.chain object s.inner)
        (fun member object =>
          projection? schema index s.chain object (onMember member s.inner)) (.object entries)
      some (s.name, value)
  | _ => none
termination_by (index.unused chain, selectionsSize selections)
decreasing_by
  · exact (later_of_mem_selected _hs).lex
  · exact ((later_of_mem_selected _hs).onMember member).lex

/-- The fields that a definition asks of its root object. -/
def Definition.projection? (schema : Schema) (index : FragmentIndex) (d : Definition) (json : Json) :
    Option (List (String × Decoded)) := do
  let parent ← d.target? schema
  ElmBindings.projection? schema index d.chain parent d.selections json

theorem forall₂_of_mapM_eq_some {α β : Type} {f : α → Option β} {xs : List α} {ys : List β}
    (h : xs.mapM f = some ys) : List.Forall₂ (fun x y => f x = some y) xs ys := by
  induction xs generalizing ys with
  | nil =>
    cases h
    exact .nil
  | cons x xs ih =>
    rw [List.mapM_cons] at h
    obtain ⟨y, hy, h⟩ := Option.bind_eq_some_iff.mp h
    obtain ⟨rest, hrest, h⟩ := Option.bind_eq_some_iff.mp h
    cases h
    exact .cons hy (ih hrest)

/-- A projection holds one value for each selected field, in order. -/
theorem projection?_eq_some {schema : Schema} {index : FragmentIndex} {chain : List String}
    {parent : ObjectDef} {selections : List Selection} {json : Json}
    {fields : List (String × Decoded)}
    (h : projection? schema index chain parent selections json = some fields) :
    List.Forall₂
      (fun s pair => pair.1 = s.name ∧
        s.project? schema (fun object => projection? schema index s.chain object s.inner)
          (fun member object =>
            projection? schema index s.chain object (onMember member s.inner)) json = some pair.2)
      (selected schema index chain parent selections) fields := by
  cases json with
  | object entries =>
    rw [projection?] at h
    simp only [List.mapM_subtype, List.unattach_attach] at h
    refine (forall₂_of_mapM_eq_some h).imp fun s pair hpair => ?_
    obtain ⟨value, hvalue, hpair⟩ := Option.bind_eq_some_iff.mp hpair
    cases hpair
    exact ⟨rfl, hvalue⟩
  | _ =>
    rw [projection?] at h
    · cases h
    · simp

/-! ## Decoders and projections -/

/-- Whether the decoders of a shape read the given fields from an object. -/
def Shape.Reads (shape : Shape) (json : Json) (fields : List (String × Decoded)) : Prop :=
  ∃ values, shape.Decodes json values ∧ shape.names.zip values = fields

theorem Shape.Reads.record {shape : Shape} {json : Json} {fields : List (String × Decoded)}
    (h : shape.Reads json fields) (label : Option String) :
    (shape.recordDecoder label).decode json = .ok (.record fields) := by
  obtain ⟨values, hvalues, rfl⟩ := h
  exact decode_recordDecoder.mpr ⟨values, hvalues, rfl⟩

theorem Shape.reads_of_forall₂ {shape : Shape} {json : Json} {fields : List (String × Decoded)}
    (h : List.Forall₂ (fun e pair => pair.1 = e.name ∧ e.decoder.decode json = .ok pair.2)
      shape.entries fields) : shape.Reads json fields := by
  refine ⟨fields.map Prod.snd, ?_, ?_⟩
  · exact List.forall₂_map_right_iff.mpr (h.imp fun e pair hpair => hpair.2)
  · have hnames : shape.names = fields.map Prod.fst := by
      rw [names, ← List.forall₂_eq_eq_eq, List.forall₂_map_left_iff, List.forall₂_map_right_iff]
      exact h.imp fun e pair hpair => hpair.1.symm
    exact (List.zip_of_prod hnames.symm rfl).symm

theorem scalarLeaf_decode {name : String} {json : Json} {v : Decoded}
    (h : scalarValue? name json = some v) :
    (Decoder.primitive (scalarLeaf name).1).decode json = .ok v := by
  rw [Decoder.decode]
  unfold scalarValue? at h
  unfold scalarLeaf
  split at h
  · cases json <;> simp_all [Primitive.decode, Json.integer?]
  · cases json <;> simp_all [Primitive.decode, Json.double?]
  all_goals simp_all [Primitive.decode]

theorem TypeRef.decode_project {base : Json → Option Decoded} {decoder : Decoder}
    (hbase : ∀ json v, base json = some v → decoder.decode json = .ok v) {type : TypeRef}
    {json : Json} {v : Decoded} (h : type.project? base json = some v) :
    (decoder.lists type.layers).decode json = .ok v := by
  induction type generalizing json v with
  | named name => exact hbase json v h
  | list item ih =>
    cases json with
    | array items =>
      rw [project?] at h
      obtain ⟨values, hvalues, rfl⟩ := Option.map_eq_some_iff.mp h
      exact Decoder.decode_list.mpr
        ⟨items, values, rfl, (forall₂_of_mapM_eq_some hvalues).imp fun _ _ hv => ih hv, rfl⟩
    | _ => cases h
  | nonNull inner ih => exact ih h

namespace Selected

variable {schema : Schema} {index : FragmentIndex} {s : Selected} {record : ObjectReader}
  {variant : String → ObjectReader}

/-- Whether the records and the variants of a field read what the given readers do. -/
structure ReadsInner (schema : Schema) (index : FragmentIndex) (s : Selected)
    (record : ObjectReader) (variant : String → ObjectReader) : Prop where
  record : ∀ object shape json fields,
    expand schema index s.chain object {} s.inner = .ok shape →
    record object json = some fields → shape.Reads json fields
  variant : ∀ member object shape json fields,
    expand schema index s.chain object {} (onMember member s.inner) = .ok shape →
    variant member object json = some fields → shape.Reads json fields

/-- The decoder under the wrappers of a field gives what the definition of the field's type does. -/
theorem Reading.decode_project {d : TypeDef} {elm : ElmType} {decoder : Decoder}
    (h : s.Reading schema index d elm decoder)
    (hinner : s.ReadsInner schema index record variant)
    {json : Json} {v : Decoded}
    (hv : d.project? schema (conditions s.inner) record variant json = some v) :
    decoder.decode json = .ok v := by
  cases h with
  | scalar d => exact scalarLeaf_decode hv
  | enum d =>
    rw [TypeDef.project?] at hv
    rw [Decoder.decode, Primitive.decode, orFault_eq_ok, hv]
  | @object d object shape hd hshape =>
    have hmap : (record object json).map .record = some v := by
      cases d <;> cases hd <;> exact hv
    obtain ⟨fields, hfields, rfl⟩ := Option.map_eq_some_iff.mp hmap
    exact (hinner.record object shape json fields hshape hfields).record none
  | union hvariants =>
    rw [TypeDef.project?] at hv
    obtain ⟨member, hmember, hv⟩ := Option.bind_eq_some_iff.mp hv
    obtain ⟨object, hobject, hv⟩ := Option.bind_eq_some_iff.mp hv
    obtain ⟨type, htype, hstring⟩ := Option.bind_eq_some_iff.mp hmember
    rw [Json.string?_eq_some.mp hstring] at htype
    split at hv
    · next hin =>
      obtain ⟨fields, hfields, rfl⟩ := Option.map_eq_some_iff.mp hv
      have hmembers := expandUnion_members hvariants
      obtain ⟨shape, hshape⟩ := hmembers.exists_lookup hin
      obtain ⟨-, other, hother, hexpand⟩ := hmembers.shapes member shape (mem_of_lookup hshape)
      cases hobject.symm.trans hother
      obtain ⟨values, hvalues, rfl⟩ := hinner.variant member object shape json fields hexpand hfields
      exact decode_unionDecoder.mpr ⟨member, shape, values, htype, hshape, hvalues, rfl⟩
    · cases hv

/-- The entry of a field gives what the projection does. -/
theorem IsEntry.decode_project {e : ShapeEntry} (h : s.IsEntry schema index e)
    (hinner : s.ReadsInner schema index record variant)
    {json : Json} {v : Decoded} (hv : s.project? schema record variant json = some v) :
    e.decoder.decode json = .ok v := by
  obtain ⟨type, d, elm, decoder, htype, hreading, rfl⟩ := h
  have hvalue : ∀ inner w,
      type.project? (d.project? schema (conditions s.inner) record variant) inner = some w →
      (decoder.lists type.layers).decode inner = .ok w := fun inner w =>
    TypeRef.decode_project fun _ _ => hreading.decode_project hinner
  rw [Selected.project?, htype] at hv
  simp only [Option.bind_eq_bind, Option.bind_some] at hv
  simp only [entry]
  split at hv
  · next hopt =>
    rw [if_pos hopt]
    split at hv
    · next habsent =>
      cases hv
      apply Decoder.decode_maybe_of_fails
      intro w hw
      obtain ⟨inner, hget, -⟩ := Decoder.decode_field.mp hw
      cases habsent.symm.trans hget
    · next hnull =>
      split at hv
      · cases hv
      · next hplain =>
        cases hv
        -- `null` is read as a value for one object only
        have hreads : s.readsNull schema index = false := by
          simp only [readsNull, htype]
          cases hd : d.selectable? <;> simp_all
        exact Decoder.decode_maybe_of_fails (hreading.fails_of_null htype hreads hnull)
    · next inner _ hget =>
      obtain ⟨w, hw, rfl⟩ := Option.map_eq_some_iff.mp hv
      exact Decoder.decode_maybe_of_ok
        (Decoder.decode_field.mpr ⟨inner, hget, hvalue inner w hw⟩)
  · next hreq =>
    rw [if_neg hreq]
    obtain ⟨inner, hget, hw⟩ := Option.bind_eq_some_iff.mp hv
    exact Decoder.decode_field.mpr ⟨inner, hget, hvalue inner v hw⟩

end Selected

/-- A fresh expansion reads the projection along its selections. The induction is on selections, as an
entry reads along its sub-selections. -/
theorem expand_reads {schema : Schema} {index : FragmentIndex} (chain : List String)
    (selections : List Selection) :
    ∀ parent shape json fields, expand schema index chain parent {} selections = .ok shape →
      projection? schema index chain parent selections json = some fields →
      shape.Reads json fields := by
  induction chain, selections using selections_induction schema index with
  | step chain selections ih =>
    intro parent shape json fields hshape hfields
    apply Shape.reads_of_forall₂
    have hentries := expand_selected hshape
    have hvalues := projection?_eq_some hfields
    refine forall₂_join hentries hvalues ?_
    rintro s hs e ⟨name, v⟩ hentry ⟨rfl, hv⟩
    obtain ⟨hrecord, hvariant⟩ := ih parent s hs
    exact ⟨hentry.name_eq.symm, hentry.decode_project ⟨hrecord, hvariant⟩ hv⟩

/-- On a payload that answers a definition, the decoder of the definition's binding succeeds and gives
the projection of the payload along the selections of the definition. -/
theorem Binding.decode_projection {schema : Schema} {document : Document} {bindings : List Binding}
    {i : Nat} {binding : Binding} (h : Binding.ofDocument schema document = .ok bindings)
    (hbinding : bindings[i]? = some binding) :
    ∃ index d, FragmentIndex.ofDocument document = .ok index ∧ document.definitions[i]? = some d ∧
      ∀ json fields, d.projection? schema index json = some fields →
        binding.decoder.decode json = .ok (.record fields) := by
  obtain ⟨index, d, hindex, hd, hof⟩ := Binding.ofDocument_getElem? h hbinding
  refine ⟨index, d, hindex, hd, ?_⟩
  intro json fields hfields
  obtain ⟨parent, shape, label, htarget, hshape, -, hdecoder⟩ := Binding.ofDefinition_eq_ok hof
  rw [Definition.projection?, htarget] at hfields
  rw [hdecoder]
  exact (expand_reads d.chain d.selections parent shape json fields hshape hfields).record label

section

attribute [local irreducible] Naming.valueName

theorem Binding.decode_projection_search :
    ∃ binding, Binding.ofDocument Sample.schema Sample.document =
        .ok (Sample.bindings Sample.document) ∧
      (Sample.bindings Sample.document)[0]? = some binding ∧
      binding.decoder.decode Sample.payload = .ok (.record
        [("user", .just (.record [("id", .string "1"), ("name", .nothing), ("friends",
            .just (.list [.record [("id", .string "2")], .record [("id", .string "3")]]))])),
          ("search", .list
            [.variant "Bot" [("active", .just (.bool true)),
                ("owner", .record [("id", .string "1")])],
              .variant "User" [("id", .string "2"), ("name", .just (.string "Ada"))]])]) := by
  have hsome : (Sample.bindings Sample.document)[0]?.isSome = true := by cbv
  obtain ⟨binding, hbinding⟩ := Option.isSome_iff_exists.mp hsome
  obtain ⟨index, d, hindex, hd, hdecode⟩ :=
    Binding.decode_projection Sample.ofDocument_document hbinding
  have hfragments : FragmentIndex.ofDocument Sample.document =
      .ok (Sample.fragments Sample.document) := by cbv
  cases hindex.symm.trans hfragments
  cases hd
  exact ⟨binding, Sample.ofDocument_document, hbinding, hdecode _ _ (by cbv)⟩

end

end ElmBindings
