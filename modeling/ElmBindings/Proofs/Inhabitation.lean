import ElmBindings.Proofs.Decoding

set_option autoImplicit false

/-! # Decoded values and their types

`ElmType.holds` says which decoded values are of an Elm type. The Elm type of a binding and its decoder
are built side by side from one expansion; here they are shown to stay aligned: whatever a decoder of a
binding gives, on any JSON value at all, is of the binding's type. -/

namespace ElmBindings

/-! ## Values of a type -/

namespace ElmType

mutual

/-- Whether a decoded value is of a type. -/
def holds : ElmType → Decoded → Bool
  | int, .int n => Json.isWord n
  | float, .float _ => true
  | bool, .bool _ => true
  | string, .string _ => true
  | enum _, .enum _ => true
  | maybe _, .nothing => true
  | maybe inner, .just v => inner.holds v
  | list item, .list vs => vs.all fun v => item.holds v
  | record fields, .record vs => fieldsHold fields vs
  | union _ variants, .variant tag vs => variantsHold tag vs variants
  | _, _ => false

/-- Whether values are those of a record: the same names in the same order, each value of its type. -/
def fieldsHold : List (String × ElmType) → List (String × Decoded) → Bool
  | [], [] => true
  | (name, type) :: fields, (key, v) :: vs => name == key && type.holds v && fieldsHold fields vs
  | _, _ => false

/-- Whether a tag and values are those of one of the variants. -/
def variantsHold (tag : String) (vs : List (String × Decoded)) : List (Variant ElmType) → Bool
  | [] => false
  | ⟨name, fields⟩ :: variants =>
    (name == tag && fieldsHold fields vs) || variantsHold tag vs variants

end

theorem variantsHold_of_mem {tag : String} {vs : List (String × Decoded)}
    {fields : List (String × ElmType)} {variants : List (Variant ElmType)}
    (hmem : ⟨tag, fields⟩ ∈ variants) (h : fieldsHold fields vs = true) :
    variantsHold tag vs variants = true := by
  induction variants with
  | nil => cases hmem
  | cons head rest ih =>
    obtain ⟨name, others⟩ := head
    rw [variantsHold, Bool.or_eq_true]
    rcases List.mem_cons.mp hmem with heq | hrest
    · cases heq
      exact .inl (by simp [h])
    · exact .inr (ih hrest)

end ElmType

/-! ## Aligned decoders -/

namespace Decoder

/-- Whether all that a decoder gives is of a type. -/
def Gives (d : Decoder) (type : ElmType) : Prop :=
  ∀ json v, d.decode json = .ok v → type.holds v = true

theorem Gives.field {d : Decoder} {type : ElmType} (h : d.Gives type) (key : String) :
    (field key d).Gives type := by
  intro json v hv
  obtain ⟨inner, -, hinner⟩ := decode_field.mp hv
  exact h inner v hinner

theorem Gives.maybe {d : Decoder} {type : ElmType} (h : d.Gives type) :
    (maybe d).Gives (.maybe type) := by
  intro json v hv
  rw [decode] at hv
  split at hv
  · next w hw =>
    cases hv
    exact h json w hw
  · cases hv
    rfl

theorem Gives.list {d : Decoder} {type : ElmType} (h : d.Gives type) :
    (list d).Gives (.list type) := by
  intro json v hv
  obtain ⟨items, values, -, hvalues, rfl⟩ := decode_list.mp hv
  rw [ElmType.holds, List.all_eq_true]
  intro value hvalue
  obtain ⟨item, -, hitem⟩ := exists_of_mem_right hvalues hvalue
  exact h item value hitem

theorem Gives.lists {d : Decoder} {type : ElmType} (h : d.Gives type) (depth : Nat) :
    (d.lists depth).Gives (type.lists depth) := by
  induction depth with
  | zero => exact h
  | succ depth ih => exact ih.list

end Decoder

/-! ## Leaves -/

theorem Json.isWord_of_integer? {json : Json} {n : Int} (h : json.integer? = some n) :
    isWord n = true := by
  cases json with
  | int m =>
    simp only [integer?] at h
    split at h
    · cases h
      assumption
    · cases h
  | float x =>
    simp only [integer?, Option.filter_eq_some_iff, decide_eq_true_eq] at h
    have hlow : twoPow 53 = 9007199254740992 := rfl
    have hhigh : twoPow 63 = 9223372036854775808 := rfl
    simp only [isWord, Bool.and_eq_true, decide_eq_true_eq]
    omega
  | _ => cases h

theorem scalarLeaf_gives (name : String) :
    (Decoder.primitive (scalarLeaf name).1).Gives (scalarLeaf name).2 := by
  intro json v hv
  rw [Decoder.decode] at hv
  unfold scalarLeaf at hv ⊢
  split at hv <;> simp only [Primitive.decode, orFault_eq_ok, Option.map_eq_some_iff] at hv <;>
    obtain ⟨a, ha, rfl⟩ := hv
  · exact Json.isWord_of_integer? ha
  all_goals rfl

theorem enum_gives (name decoder : String) :
    (Decoder.primitive (.enum name decoder)).Gives (.enum name) := by
  intro json v hv
  rw [Decoder.decode, Primitive.decode, orFault_eq_ok, Option.map_eq_some_iff] at hv
  obtain ⟨a, -, rfl⟩ := hv
  rfl

/-! ## Shapes -/

/-- Whether every entry of a shape decodes to values of its type. -/
def Shape.Aligned (shape : Shape) : Prop :=
  ∀ e ∈ shape.entries, e.decoder.Gives e.type

theorem fieldsHold_of_aligned {json : Json} {entries : List ShapeEntry} {values : List Decoded}
    (haligned : ∀ e ∈ entries, e.decoder.Gives e.type)
    (hvalues : List.Forall₂ (fun e value => e.decoder.decode json = .ok value) entries values) :
    ElmType.fieldsHold (entries.map fun e => (e.name, e.type))
      ((entries.map ShapeEntry.name).zip values) = true := by
  induction hvalues with
  | nil => rfl
  | @cons e value entries values hvalue _ ih =>
    have hhead : e.type.holds value = true := haligned e (by simp) json value hvalue
    have htail := ih fun e' he' => haligned e' (by simp [he'])
    simp [ElmType.fieldsHold, hhead, htail]

theorem Shape.Aligned.record {shape : Shape} (h : shape.Aligned) (label : Option String) :
    (shape.recordDecoder label).Gives shape.recordType := by
  intro json v hv
  obtain ⟨values, hvalues, rfl⟩ := decode_recordDecoder.mp hv
  exact fieldsHold_of_aligned h hvalues

theorem unionDecoder_gives {name : String} {variants : Variants}
    (h : ∀ member shape, (member, shape) ∈ variants → shape.Aligned) :
    (unionDecoder variants).Gives (unionType name variants) := by
  intro json v hv
  obtain ⟨member, shape, values, -, hshape, hvalues, rfl⟩ := decode_unionDecoder.mp hv
  have hmem := mem_of_lookup hshape
  refine ElmType.variantsHold_of_mem ?_ (fieldsHold_of_aligned (h member shape hmem) hvalues)
  exact List.mem_map.mpr ⟨(member, shape), hmem, rfl⟩

/-! ## Expansions -/

/-- The wrappers of an entry keep type and decoder aligned. -/
theorem Selected.entry_gives {s : Selected} {type : TypeRef} {elm : ElmType} {decoder : Decoder}
    (h : decoder.Gives elm) :
    (s.entry type elm decoder).decoder.Gives (s.entry type elm decoder).type := by
  have hread := (h.lists type.layers).field s.field.name
  simp only [entry]
  split
  · exact hread.maybe
  · exact hread

/-- Every expansion is aligned. The induction goes into the sub-selections of objects and into those on
each member of a union. -/
theorem expand_aligned {schema : Schema} {index : FragmentIndex} (chain : List String)
    (selections : List Selection) :
    ∀ parent shape, expand schema index chain parent {} selections = .ok shape → shape.Aligned := by
  induction chain, selections using selections_induction schema index with
  | step chain selections ih =>
    intro parent shape h e he
    obtain ⟨s, hs, type, d, elm, decoder, -, hreading, rfl⟩ :=
      exists_of_mem_right (expand_selected h) he
    obtain ⟨hinner, hmember⟩ := ih parent s hs
    -- type and decoder have the same wrappers, so only what is under them is left
    apply Selected.entry_gives
    cases hreading with
    | scalar d => exact scalarLeaf_gives d.name
    | enum d => exact enum_gives d.name _
    | object hd hshape => exact (hinner _ _ hshape).record none
    | union hvariants =>
      apply unionDecoder_gives
      intro member shape hin
      obtain ⟨-, object, -, hshape⟩ := (expandUnion_members hvariants).shapes member shape hin
      exact hmember member object shape hshape

/-- Whatever the decoder of a binding gives, on any value, is of the type of the binding. -/
theorem Binding.decode_holds {schema : Schema} {document : Document} {bindings : List Binding}
    {binding : Binding} (h : Binding.ofDocument schema document = .ok bindings)
    (hbinding : binding ∈ bindings) (json : Json) (v : Decoded)
    (hv : binding.decoder.decode json = .ok v) : binding.type.holds v = true := by
  obtain ⟨index, -, hall⟩ := Binding.ofDocument_eq_ok h
  obtain ⟨d, -, hof⟩ := exists_of_mem_right hall hbinding
  obtain ⟨parent, shape, label, -, hshape, htype, hdecoder⟩ := Binding.ofDefinition_eq_ok hof
  rw [htype]
  rw [hdecoder] at hv
  exact (expand_aligned d.chain d.selections parent shape hshape).record label json v hv

namespace Sample

/-- A payload that answers no query: there is a number where a user is asked for. -/
def searchPayload : Json :=
  .object [("user", .int 7), ("search", .array
    [.object [("__typename", .string "Bot"), ("active", .bool true),
        ("owner", .object [("id", .string "b")])],
      .object [("__typename", .string "User"), ("id", .string "u"), ("name", .bool false)]])]

def searchResult : Decoded :=
  .record [("user", .nothing), ("search", .list
    [.variant "Bot" [("active", .just (.bool true)), ("owner", .record [("id", .string "b")])],
      .variant "User" [("id", .string "u"), ("name", .nothing)]])]

end Sample

section

attribute [local irreducible] Naming.valueName

/-- A list of both variants of a union, and values that are missing or of the wrong kind. -/
theorem Binding.decode_holds_search :
    ∃ binding ∈ Sample.bindings Sample.document,
      binding.decoder.decode Sample.searchPayload = .ok Sample.searchResult ∧
      binding.type.holds Sample.searchResult = true := by
  have hdecode : (Sample.bindings Sample.document)[0]?.map (fun binding =>
      binding.decoder.decode Sample.searchPayload) = some (.ok Sample.searchResult) := by cbv
  obtain ⟨binding, hbinding, hv⟩ := Option.map_eq_some_iff.mp hdecode
  have hmem := List.mem_of_getElem? hbinding
  exact ⟨binding, hmem, hv, Binding.decode_holds Sample.ofDocument_document hmem _ _ hv⟩

end

end ElmBindings
