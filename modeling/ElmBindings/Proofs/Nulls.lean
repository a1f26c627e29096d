import ElmBindings.Proofs.Decoding

set_option autoImplicit false

/-! # Decoding `null`

An optional field is read by a `maybe`, which gives `Nothing` where the decoder inside it fails. So
`null` becomes `Nothing` if the decoder of the field's value fails on `null`. Leaves, lists and unions
do. A record does only if one of its fields is required: the fields of a record are read from `null` as
from an object without any keys. -/

namespace ElmBindings

/-! ## Which fields read `null` as a value -/

namespace Selected

/-- Whether the type of a selected field, or a directive on it, makes it optional. -/
def optional (schema : Schema) (s : Selected) : Bool :=
  match s.type? schema with
  | some (type, _) => s.isOptional type
  | none => false

/-- Whether `null` in the place of a field's value is read as a record: the field holds one object, and
all that is selected from the object is optional. -/
def readsNull (schema : Schema) (index : FragmentIndex) (s : Selected) : Bool :=
  match s.type? schema with
  | some (type, d) =>
    type.layers == 0 &&
      match d.selectable? with
      | some object =>
        (selected schema index s.chain object s.inner).all fun field => field.optional schema
      | none => false
  | none => false

end Selected

/-! ## Decoders on `null` -/

namespace Decoder

theorem field_null (key : String) (d : Decoder) (v : Decoded) :
    (field key d).decode .null ≠ .ok v := by
  intro h
  obtain ⟨inner, hinner, -⟩ := decode_field.mp h
  cases hinner

theorem primitive_null (p : Primitive) (v : Decoded) : (primitive p).decode .null ≠ .ok v := by
  cases p <;> simp [decode, Primitive.decode, Json.integer?, Json.double?, Json.bool?, Json.string?]

theorem lists_null {d : Decoder} {depth : Nat} {v : Decoded} :
    (d.lists depth).decode .null = .ok v ↔ depth = 0 ∧ d.decode .null = .ok v := by
  cases depth with
  | zero => simp [lists]
  | succ depth =>
    constructor
    · intro h
      obtain ⟨items, values, hitems, -⟩ := decode_list.mp h
      cases hitems
    · rintro ⟨hzero, -⟩
      cases hzero

end Decoder

theorem Selected.entry_null {s : Selected} {type : TypeRef} {elm : ElmType} {decoder : Decoder}
    {v : Decoded} :
    (s.entry type elm decoder).decoder.decode .null = .ok v ↔
      s.isOptional type = true ∧ v = .nothing := by
  simp only [entry]
  split
  · next hopt =>
    rw [Decoder.decode_maybe_of_fails (Decoder.field_null _ _)]
    simp [hopt, eq_comm]
  · next hopt => simp [hopt, Decoder.field_null]

theorem Selected.IsEntry.decode_null {schema : Schema} {index : FragmentIndex} {s : Selected}
    {e : ShapeEntry} (h : s.IsEntry schema index e) {v : Decoded} :
    e.decoder.decode .null = .ok v ↔ s.optional schema = true ∧ v = .nothing := by
  obtain ⟨type, d, elm, decoder, htype, -, rfl⟩ := h
  rw [entry_null, optional, htype]

/-- The entries of selected fields read `null` if all of them are optional. -/
theorem decodes_null_iff {schema : Schema} {index : FragmentIndex} {xs : List Selected}
    {entries : List ShapeEntry} (h : List.Forall₂ (Selected.IsEntry schema index) xs entries) :
    (∃ values, List.Forall₂ (fun e value => e.decoder.decode .null = .ok value) entries values) ↔
      ∀ s ∈ xs, s.optional schema = true := by
  induction h with
  | nil => simp
  | @cons s e xs entries hentry _ ih =>
    rw [List.forall_mem_cons, ← ih]
    constructor
    · rintro ⟨values, hvalues⟩
      obtain ⟨value, rest, hvalue, hrest, rfl⟩ := List.forall₂_cons_left_iff.mp hvalues
      exact ⟨(hentry.decode_null.mp hvalue).1, rest, hrest⟩
    · rintro ⟨hopt, rest, hrest⟩
      exact ⟨_, .cons (hentry.decode_null.mpr ⟨hopt, rfl⟩) hrest⟩

/-- The decoder of a field's value succeeds on `null` just where `readsNull` says so. -/
theorem Selected.Reading.decode_null {schema : Schema} {index : FragmentIndex} {s : Selected}
    {type : TypeRef} {d : TypeDef} {elm : ElmType} {decoder : Decoder}
    (htype : s.type? schema = some (type, d)) (h : s.Reading schema index d elm decoder) :
    (∃ v, (decoder.lists type.layers).decode .null = .ok v) ↔
      s.readsNull schema index = true := by
  simp only [Decoder.lists_null, exists_and_left, readsNull, htype, Bool.and_eq_true, beq_iff_eq]
  refine and_congr_right fun _ => ?_
  cases h with
  | scalar d => simp [Decoder.primitive_null, TypeDef.selectable?]
  | enum d => simp [Decoder.primitive_null, TypeDef.selectable?]
  | object hd hshape =>
    simp only [hd, List.all_eq_true]
    rw [← decodes_null_iff (expand_selected hshape)]
    simp only [decode_recordDecoder, Shape.Decodes]
    constructor
    · rintro ⟨_, values, hvalues, -⟩
      exact ⟨values, hvalues⟩
    · rintro ⟨values, hvalues⟩
      exact ⟨_, values, hvalues, rfl⟩
  | union hvariants =>
    simp only [TypeDef.selectable?, Bool.false_eq_true, iff_false]
    rintro ⟨v, hv⟩
    -- the type of the object is read first, and `null` has no keys
    obtain ⟨member, shape, values, hmember, -⟩ := decode_unionDecoder.mp hv
    cases hmember

/-- Where `null` is not read as a value, a payload that holds it is not read at all. -/
theorem Selected.Reading.fails_of_null {schema : Schema} {index : FragmentIndex} {s : Selected}
    {type : TypeRef} {d : TypeDef} {elm : ElmType} {decoder : Decoder} {json : Json}
    (htype : s.type? schema = some (type, d)) (h : s.Reading schema index d elm decoder)
    (hreads : s.readsNull schema index = false) (hnull : json.get? s.field.name = some .null)
    (v : Decoded) :
    (Decoder.field s.field.name (decoder.lists type.layers)).decode json ≠ .ok v := by
  intro hv
  obtain ⟨inner, hget, hinner⟩ := Decoder.decode_field.mp hv
  cases hnull.symm.trans hget
  have hread := (h.decode_null htype).mp ⟨v, hinner⟩
  rw [hreads] at hread
  cases hread

/-- The entry of an optional field gives `Nothing` for `null` unless `null` is read as a value. -/
theorem Selected.IsEntry.nothing_iff {schema : Schema} {index : FragmentIndex} {s : Selected}
    {e : ShapeEntry} (h : s.IsEntry schema index e) (hopt : s.optional schema = true) {json : Json}
    (hnull : json.get? s.field.name = some .null) {value : Decoded}
    (hvalue : e.decoder.decode json = .ok value) :
    value = .nothing ↔ s.readsNull schema index = false := by
  obtain ⟨type, d, elm, decoder, htype, hreading, rfl⟩ := h
  have hmaybe : s.isOptional type = true := by
    simpa [optional, htype] using hopt
  simp only [entry, hmaybe, if_true] at hvalue
  cases hreads : s.readsNull schema index with
  | true =>
    obtain ⟨v, hv⟩ := (hreading.decode_null htype).mpr hreads
    have hfield := Decoder.decode_field.mpr ⟨.null, hnull, hv⟩
    rw [Decoder.decode_maybe_of_ok hfield] at hvalue
    cases hvalue
    simp
  | false =>
    rw [Decoder.decode_maybe_of_fails (hreading.fails_of_null htype hreads hnull)] at hvalue
    cases hvalue
    simp

/-! ## Results -/

/-- Wherever a payload holds `null` for an optional field of a definition, the decoded record holds
`Nothing` for the field, unless the field is one object of which only optional fields are selected. -/
theorem Binding.nothing_iff_of_null {schema : Schema} {document : Document} {bindings : List Binding}
    {i : Nat} {binding : Binding} (h : Binding.ofDocument schema document = .ok bindings)
    (hbinding : bindings[i]? = some binding) :
    ∃ index d, FragmentIndex.ofDocument document = .ok index ∧ document.definitions[i]? = some d ∧
      ∀ (j : Nat) (s : Selected) (json : Json) (v : Decoded),
        (d.selected schema index)[j]? = some s → s.optional schema = true →
        json.get? s.field.name = some .null → binding.decoder.decode json = .ok v →
        ∃ fields, v = .record fields ∧
          fields.map Prod.fst = (d.selected schema index).map Selected.name ∧
          (fields[j]? = some (s.name, .nothing) ↔ s.readsNull schema index = false) := by
  obtain ⟨index, d, hindex, hd, hof⟩ := Binding.ofDocument_getElem? h hbinding
  refine ⟨index, d, hindex, hd, ?_⟩
  intro j s json v hs hopt hnull hv
  obtain ⟨parent, shape, label, htarget, hshape, -, hdecoder⟩ := Binding.ofDefinition_eq_ok hof
  have hselected : d.selected schema index =
      selected schema index d.chain parent d.selections := by
    rw [Definition.selected, htarget]
  have hentries := expand_selected hshape
  rw [← hselected] at hentries
  rw [hdecoder] at hv
  obtain ⟨values, hvalues, rfl⟩ := decode_recordDecoder.mp hv
  obtain ⟨e, he, hentry⟩ := exists_of_getElem?_left hentries hs
  obtain ⟨value, hvalue, hdecode⟩ := exists_of_getElem?_left hvalues he
  have hnames : shape.names = (d.selected schema index).map Selected.name :=
    names_of_isEntry hentries
  have hlength : shape.names.length = values.length := by
    rw [Shape.names, List.length_map, hvalues.length_eq]
  refine ⟨_, rfl, ?_, ?_⟩
  · rw [List.map_fst_zip (Nat.le_of_eq hlength), hnames]
  · rw [← hentry.nothing_iff hopt hnull hdecode, List.getElem?_zip_eq_some, hnames]
    simp [hs, hvalue]

section

open Sample

attribute [local irreducible] Naming.valueName

/-- Two queries for a user: one for the required `id`, one for the optional `name`. -/
def Sample.users : Document :=
  ⟨[query [select "user" [select "id" []]], query [select "user" [select "name" []]]]⟩

theorem Sample.ofDocument_users : Binding.ofDocument schema users = .ok (bindings users) := by
  cbv

theorem Sample.fragments_users : FragmentIndex.ofDocument users = .ok (fragments users) := by
  cbv

/-- The root field of a query for a user. -/
def Sample.user (inner : List Selection) : Selected :=
  ⟨queryType, ⟨none, "user", [], false, .start⟩, inner, []⟩

theorem Binding.nothing_of_null_user :
    ∃ binding fields, (bindings users)[0]? = some binding ∧
      binding.decoder.decode (.object [("user", .null)]) = .ok (.record fields) ∧
      fields[0]? = some ("user", .nothing) := by
  have hdecode : (bindings users)[0]?.map (fun binding =>
      binding.decoder.decode (.object [("user", .null)])) =
        some (.ok (.record [("user", .nothing)])) := by cbv
  obtain ⟨binding, hbinding, hv⟩ := Option.map_eq_some_iff.mp hdecode
  obtain ⟨index, d, hindex, hd, hnull⟩ := Binding.nothing_iff_of_null ofDocument_users hbinding
  cases hindex.symm.trans fragments_users
  cases hd
  obtain ⟨fields, hfields, -, hiff⟩ := hnull 0 (user [select "id" []]) (.object [("user", .null)])
    (.record [("user", .nothing)]) (by cbv) (by cbv) (by cbv) hv
  have hname : (user [select "id" []]).name = "user" := by cbv
  have hreads : (user [select "id" []]).readsNull schema (fragments users) = false := by cbv
  rw [hname] at hiff
  exact ⟨binding, fields, hbinding, hfields ▸ hv, hiff.mpr hreads⟩

/-- An optional field that is `null` need not be `Nothing`: of a user whose `name` alone is selected,
`null` is read as a user without a name. -/
theorem Binding.not_nothing_of_null :
    ¬ ∀ (schema : Schema) (document : Document) (bindings : List Binding) (i : Nat)
        (binding : Binding) (index : FragmentIndex) (d : Definition) (j : Nat) (s : Selected)
        (json : Json) (fields : List (String × Decoded)),
      Binding.ofDocument schema document = .ok bindings → bindings[i]? = some binding →
      FragmentIndex.ofDocument document = .ok index → document.definitions[i]? = some d →
      (d.selected schema index)[j]? = some s → s.optional schema = true →
      json.get? s.field.name = some .null →
      binding.decoder.decode json = .ok (.record fields) →
      fields[j]? = some (s.name, .nothing) := by
  intro hall
  have hdecode : (Sample.bindings Sample.users)[1]?.map (fun binding =>
      binding.decoder.decode (.object [("user", .null)])) =
        some (.ok (.record [("user", .just (.record [("name", .nothing)]))])) := by cbv
  obtain ⟨binding, hbinding, hv⟩ := Option.map_eq_some_iff.mp hdecode
  have hnothing := hall _ _ _ 1 binding _ _ 0 (Sample.user [Sample.select "name" []]) _ _
    Sample.ofDocument_users hbinding Sample.fragments_users rfl (by cbv) (by cbv) (by cbv) hv
  simp at hnothing

end

end ElmBindings
