import ElmBindings.Proofs.Expansion

set_option autoImplicit false

/-! # Expansion as flattening

`expand` goes through selections once, with one shape for all fragments that it enters. The same result
is described in two steps: first list the fields of the selections in the order of the document, a
spread standing for the fields of its fragment (`Flattens`), then keep the first field of each Elm
name. `Flattens` knows nothing of fragments that are being expanded: where an expansion succeeds, no
spread is refused, and the list is there (`flattens_of_expand`). -/

namespace ElmBindings

/-! ## Fields in the order of the document -/

/-- The fields of selections on a type, in the order of the document. A field is selected from that
type; a spread stands for the fields of its fragment, selected from the type that the fragment is on.
The fragments that lead to a field are noted with it. -/
inductive Flattens (schema : Schema) (index : FragmentIndex) :
    List String → ObjectDef → List Selection → List Selected → Prop
  | nil {chain : List String} {parent : ObjectDef} : Flattens schema index chain parent [] []
  | field {chain : List String} {parent : ObjectDef} {f : Field} {inner rest : List Selection}
    {fields : List Selected} (h : Flattens schema index chain parent rest fields) :
    Flattens schema index chain parent (.field f inner :: rest)
      (⟨parent, f, inner, chain⟩ :: fields)
  | spread {chain : List String} {parent object : ObjectDef} {name : String}
    {position : GraphQL.Position} {fragment : Fragment} {rest : List Selection}
    {own fields : List Selected} (hfound : index.get? name = some fragment)
    (hobject : schema.selectable? fragment.condition = some object)
    (hown : Flattens schema index (name :: chain) object fragment.selections own)
    (h : Flattens schema index chain parent rest fields) :
    Flattens schema index chain parent (.spread name position :: rest) (own ++ fields)

section

variable {schema : Schema} {index : FragmentIndex} {chain : List String} {parent : ObjectDef}
  {selections : List Selection}

/-- Selections have one list of fields at most. -/
theorem Flattens.unique {xs ys : List Selected}
    (hx : Flattens schema index chain parent selections xs)
    (hy : Flattens schema index chain parent selections ys) : xs = ys := by
  induction hx generalizing ys with
  | nil =>
    cases hy
    rfl
  | field _ ih =>
    cases hy with
    | field hrest => rw [ih hrest]
  | spread hfound hobject _ _ ihown ih =>
    cases hy with
    | spread hfound' hobject' hown hrest =>
      cases hfound.symm.trans hfound'
      cases hobject.symm.trans hobject'
      rw [ihown hown, ih hrest]

/-- Selections that can be expanded have a list of fields. -/
theorem flattens_of_expand {shape result : Shape}
    (h : expand schema index chain parent shape selections = .ok result) :
    Flattens schema index chain parent selections
      (flatten schema index chain parent selections) := by
  fun_induction flatten schema index chain parent selections generalizing shape result with
  | case1 => exact .nil
  | case2 chain parent field inner rest ih =>
    rw [expand] at h
    split at h
    · exact .field (ih h)
    · obtain ⟨plan, -, h⟩ := bind_eq_ok.mp h
      obtain ⟨entry, -, h⟩ := bind_eq_ok.mp h
      exact .field (ih h)
  | case3 chain parent name position rest hspread hrest =>
    obtain ⟨object, selections, middle, htarget, hmiddle, h⟩ := expand_spread_eq_ok h
    have hown := hspread object selections htarget hmiddle
    obtain ⟨-, fragment, hfound, hobject, rfl⟩ := Schema.spread?_eq_some htarget
    split
    · next object' selections' found =>
      cases htarget.symm.trans found
      exact .spread hfound hobject hown (hrest h)
    · next found => cases htarget.symm.trans found
  | case4 chain parent condition inner position rest ih =>
    rw [expand] at h
    cases h

end

/-! ## First fields -/

/-- The names of first fields are the names of all fields that are not taken, without repetition. -/
theorem map_name_firsts (taken : List String) (fields : List Selected) :
    (firsts taken fields).map Selected.name =
      ((fields.map Selected.name).removeAll taken).eraseDups := by
  induction fields generalizing taken with
  | nil => simp [firsts, List.removeAll]
  | cons s rest ih =>
    rw [firsts]
    by_cases htaken : s.name ∈ taken
    · rw [if_pos htaken, ih]
      simp [List.removeAll, htaken]
    · -- one more name taken is one more name removed
      have hsplit (names : List String) : names.removeAll (taken ++ [s.name]) =
          (names.removeAll taken).filter fun name => !name == s.name := by
        rw [List.removeAll, List.removeAll, List.filter_filter]
        refine List.filter_congr fun name _ => ?_
        simp [Bool.and_comm, beq_eq_decide]
      rw [if_neg htaken, List.map_cons, ih, hsplit]
      simp [List.removeAll, htaken, List.eraseDups_cons]

theorem name_not_mem_of_mem_firsts {taken : List String} {fields : List Selected} {s : Selected}
    (h : s ∈ firsts taken fields) : s.name ∉ taken := by
  have hname : s.name ∈ (firsts taken fields).map Selected.name := List.mem_map_of_mem h
  rw [map_name_firsts, List.mem_eraseDups] at hname
  simpa [List.removeAll] using (List.mem_filter.mp hname).2

theorem nodup_firsts (taken : List String) (fields : List Selected) :
    ((firsts taken fields).map Selected.name).Nodup := by
  induction fields generalizing taken with
  | nil => simp [firsts]
  | cons s rest ih =>
    rw [firsts]
    split
    · exact ih taken
    · rw [List.map_cons, List.nodup_cons]
      refine ⟨?_, ih _⟩
      intro hmem
      obtain ⟨later, hlater, hname⟩ := List.mem_map.mp hmem
      exact name_not_mem_of_mem_firsts hlater (by simp [hname])

/-- A first field is the first of all fields that have its name. -/
theorem find?_of_mem_firsts {taken : List String} {fields : List Selected} {s : Selected}
    (h : s ∈ firsts taken fields) : fields.find? (·.name == s.name) = some s := by
  induction fields generalizing taken with
  | nil => cases h
  | cons x rest ih =>
    rw [firsts] at h
    rw [List.find?_cons]
    by_cases htaken : x.name ∈ taken
    · rw [if_pos htaken] at h
      have hne : x.name ≠ s.name := fun heq => name_not_mem_of_mem_firsts h (heq ▸ htaken)
      rw [beq_false_of_ne hne]
      exact ih h
    · rw [if_neg htaken] at h
      rcases List.mem_cons.mp h with rfl | hrest
      · simp
      · have hne : x.name ≠ s.name := fun heq =>
          name_not_mem_of_mem_firsts hrest (by simp [heq])
        rw [beq_false_of_ne hne]
        exact ih hrest

/-! ## Bases -/

/-- Whether a type is a `Maybe` or a `List` of another one. -/
def ElmType.isWrapper : ElmType → Bool
  | .maybe _ | .list _ => true
  | _ => false

/-- Whether a decoder only looks for what another one reads: under a key, in a list, or perhaps. -/
def Decoder.isWrapper : Decoder → Bool
  | .maybe _ | .list _ | .field .. => true
  | _ => false

theorem isWrapper_construct (build : Constructor) (values : List Decoder) :
    (Decoder.construct build values).isWrapper = false := by
  cases values <;> rfl

/-- What stands under the wrappers of a field is no wrapper. -/
theorem Selected.Reading.not_isWrapper {schema : Schema} {index : FragmentIndex} {s : Selected}
    {d : TypeDef} {elm : ElmType} {decoder : Decoder}
    (h : s.Reading schema index d elm decoder) :
    elm.isWrapper = false ∧ decoder.isWrapper = false := by
  cases h with
  | scalar d =>
    rcases scalarLeaf_cases d.name with hleaf | hleaf | hleaf | hleaf <;> rw [hleaf] <;>
      exact ⟨rfl, rfl⟩
  | enum d => exact ⟨rfl, rfl⟩
  | object hd h => exact ⟨rfl, isWrapper_construct _ _⟩
  | union h => exact ⟨rfl, rfl⟩

/-! ## Shapes -/

/-- A shape is what flattening and keeping the first field of each name give. Its names are those of
the fields without repetition, and an entry comes from the first field of its name: a base under as
many lists as the type of the field has in its own parent type, read by the name of the field, and
with one `Maybe` around it exactly if that type is not non-null or the field is conditional. -/
theorem expand_eq_firsts {schema : Schema} {index : FragmentIndex} {chain : List String}
    {parent : ObjectDef} {selections : List Selection} {shape : Shape}
    (h : expand schema index chain parent {} selections = .ok shape) :
    ∃ fields, Flattens schema index chain parent selections fields ∧
      (∀ other, Flattens schema index chain parent selections other → other = fields) ∧
      shape.names = (fields.map Selected.name).eraseDups ∧ shape.names.Nodup ∧
      ∀ entry ∈ shape.entries, ∃ s type d elm decoder,
        fields.find? (·.name == entry.name) = some s ∧
        s.type? schema = some (type, d) ∧ s.Reading schema index d elm decoder ∧
        elm.isWrapper = false ∧ decoder.isWrapper = false ∧
        entry = if !type.isNonNull || s.field.conditional then
            ⟨s.name, .maybe (elm.lists type.layers),
              .maybe (.field s.field.name (decoder.lists type.layers))⟩
          else
            ⟨s.name, elm.lists type.layers,
              .field s.field.name (decoder.lists type.layers)⟩ := by
  have hflat := flattens_of_expand h
  have hentries := expand_selected h
  have hnames : shape.names = (selected schema index chain parent selections).map Selected.name :=
    names_of_isEntry hentries
  refine ⟨_, hflat, fun other hother => hother.unique hflat, ?_, ?_, ?_⟩
  · rw [hnames, selected, map_name_firsts]
    simp [List.removeAll]
  · rw [hnames]
    exact nodup_firsts _ _
  · intro entry hentry
    obtain ⟨s, hs, type, d, elm, decoder, htype, hreading, rfl⟩ :=
      exists_of_mem_right hentries hentry
    obtain ⟨helm, hdecoder⟩ := hreading.not_isWrapper
    refine ⟨s, type, d, elm, decoder, ?_, htype, hreading, helm, hdecoder, rfl⟩
    rw [Selected.entry_name]
    exact find?_of_mem_firsts hs

namespace Sample

/-- A fragment on the root type. -/
def people : Fragment := ⟨"People", "Query", [select "user" [select "id" []]], .start⟩

/-- The user is selected twice, first through the fragment. -/
def twice : List Selection :=
  [select "__typename" [], spread "People", select "user" [select "name" []]]

/-- The index of the one fragment. -/
def peopleIndex : FragmentIndex := ⟨[people], by simp⟩

/-- The shape of the user selected twice. -/
def twiceShape : Shape := (expand schema peopleIndex [] queryType {} twice).toOption.getD {}

-- names are evaluated, not unfolded
attribute [local irreducible] Naming.valueName

theorem expand_twice : expand schema peopleIndex [] queryType {} twice = .ok twiceShape := by cbv

/-- The user from the fragment comes before the other one. -/
theorem flattens_twice :
    Flattens schema peopleIndex [] queryType twice
      [⟨queryType, ⟨none, "__typename", [], false, .start⟩, [], []⟩,
        ⟨queryType, ⟨none, "user", [], false, .start⟩, [select "id" []], ["People"]⟩,
        ⟨queryType, ⟨none, "user", [], false, .start⟩, [select "name" []], []⟩] := by
  have hfound : peopleIndex.get? "People" = some people := by cbv
  have hobject : schema.selectable? people.condition = some queryType := by cbv
  have hown : Flattens schema peopleIndex ["People"] queryType people.selections
      [⟨queryType, ⟨none, "user", [], false, .start⟩, [select "id" []], ["People"]⟩] := .field .nil
  exact .field (.spread hfound hobject hown (.field .nil))

theorem length_twice : twiceShape.names.length = 2 := by cbv

end Sample

/-- Of three fields, two have one name. -/
theorem expand_eq_firsts_twice :
    expand Sample.schema Sample.peopleIndex [] Sample.queryType {} Sample.twice =
        .ok Sample.twiceShape ∧
      ∃ fields, Flattens Sample.schema Sample.peopleIndex [] Sample.queryType Sample.twice fields ∧
        fields.map (·.field.name) = ["__typename", "user", "user"] ∧
        Sample.twiceShape.names = (fields.map Selected.name).eraseDups ∧
        Sample.twiceShape.names.length = 2 := by
  obtain ⟨fields, hflat, hunique, hnames, -⟩ := expand_eq_firsts Sample.expand_twice
  refine ⟨Sample.expand_twice, fields, hflat, ?_, hnames, Sample.length_twice⟩
  rw [← hunique _ Sample.flattens_twice]
  rfl

end ElmBindings
