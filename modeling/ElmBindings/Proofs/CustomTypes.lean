import ElmBindings.Module.Names
import ElmBindings.Proofs.Decoding
import ElmBindings.Proofs.Loaded
import Mathlib

set_option autoImplicit false

/-! # Custom types that bindings use

`Uses` says which types stand in the results and variables of bindings. A module declares the enums and
the unions among them:

- every enum is one of the schema, if the schema was loaded (`Binding.ofDocument_knowsEnums`), so that
  all of them can be named;
- the unions are collected, one declaration for each name, exactly if no two of them differ
  (`unionsUsed_eq_ok`, `unionsUsed_eq_error`). -/

namespace ElmBindings

/-! ## Types inside types -/

namespace ElmType

/-- Whether a type is another one or stands inside it. -/
inductive Within (t : ElmType) : ElmType → Prop
  | self : Within t t
  | maybe {inner : ElmType} (h : Within t inner) : Within t (.maybe inner)
  | list {item : ElmType} (h : Within t item) : Within t (.list item)
  | record {fields : List (String × ElmType)} {field : String × ElmType} (hfield : field ∈ fields)
    (h : Within t field.2) : Within t (.record fields)
  | union {name : String} {variants : List (Variant ElmType)} {v : Variant ElmType}
    {field : String × ElmType} (hv : v ∈ variants) (hfield : field ∈ v.fields)
    (h : Within t field.2) : Within t (.union name variants)

theorem fieldParts_eq (fields : List (String × ElmType)) :
    fieldParts fields = fields.flatMap fun field => field.2.parts := by
  induction fields with
  | nil => rfl
  | cons field fields ih => rw [fieldParts, ih, List.flatMap_cons]

theorem variantParts_eq (variants : List (Variant ElmType)) :
    variantParts variants = variants.flatMap fun v => v.fields.flatMap fun field => field.2.parts := by
  induction variants with
  | nil => rfl
  | cons v variants ih => rw [variantParts, ih, fieldParts_eq, List.flatMap_cons]

theorem self_mem_parts (t : ElmType) : t ∈ t.parts := by
  cases t <;> simp [parts]

mutual

theorem within_of_mem_parts {t : ElmType} : (s : ElmType) → t ∈ s.parts → t.Within s
  | .int, h | .float, h | .bool, h | .string, h | .enum _, h => by
    cases List.mem_singleton.mp h
    exact .self
  | .union name variants, h => by
    rw [parts] at h
    rcases List.mem_cons.mp h with rfl | hin
    · exact .self
    · obtain ⟨v, hv, field, hfield, hwithin⟩ := within_of_mem_variantParts variants hin
      exact .union hv hfield hwithin
  | .maybe inner, h => by
    rw [parts] at h
    rcases List.mem_cons.mp h with rfl | hin
    · exact .self
    · exact .maybe (within_of_mem_parts inner hin)
  | .list item, h => by
    rw [parts] at h
    rcases List.mem_cons.mp h with rfl | hin
    · exact .self
    · exact .list (within_of_mem_parts item hin)
  | .record fields, h => by
    rw [parts] at h
    rcases List.mem_cons.mp h with rfl | hin
    · exact .self
    · obtain ⟨field, hfield, hwithin⟩ := within_of_mem_fieldParts fields hin
      exact .record hfield hwithin

theorem within_of_mem_fieldParts {t : ElmType} :
    (fields : List (String × ElmType)) → t ∈ fieldParts fields →
      ∃ field ∈ fields, t.Within field.2
  | [], h => by cases h
  | (name, type) :: fields, h => by
    rw [fieldParts] at h
    rcases List.mem_append.mp h with hin | hin
    · exact ⟨(name, type), List.mem_cons_self, within_of_mem_parts type hin⟩
    · obtain ⟨field, hfield, hwithin⟩ := within_of_mem_fieldParts fields hin
      exact ⟨field, List.mem_cons_of_mem _ hfield, hwithin⟩

theorem within_of_mem_variantParts {t : ElmType} :
    (variants : List (Variant ElmType)) → t ∈ variantParts variants →
      ∃ v ∈ variants, ∃ field ∈ v.fields, t.Within field.2
  | [], h => by cases h
  | ⟨tag, fields⟩ :: variants, h => by
    rw [variantParts] at h
    rcases List.mem_append.mp h with hin | hin
    · exact ⟨⟨tag, fields⟩, List.mem_cons_self, within_of_mem_fieldParts fields hin⟩
    · obtain ⟨v, hv, hfield⟩ := within_of_mem_variantParts variants hin
      exact ⟨v, List.mem_cons_of_mem _ hv, hfield⟩

end

theorem mem_parts_iff {t s : ElmType} : t ∈ s.parts ↔ t.Within s := by
  refine ⟨within_of_mem_parts s, fun h => ?_⟩
  induction h with
  | self => exact self_mem_parts t
  | maybe _ ih => exact List.mem_cons_of_mem _ ih
  | list _ ih => exact List.mem_cons_of_mem _ ih
  | record hfield _ ih =>
    rw [parts, fieldParts_eq]
    exact List.mem_cons_of_mem _ (List.mem_flatMap.mpr ⟨_, hfield, ih⟩)
  | union hv hfield _ ih =>
    rw [parts, variantParts_eq]
    refine List.mem_cons_of_mem _ (List.mem_flatMap.mpr ⟨_, hv, ?_⟩)
    exact List.mem_flatMap.mpr ⟨_, hfield, ih⟩

end ElmType

/-- Whether a type stands in the result or in a variable of one of the bindings. -/
def Uses (bindings : List Binding) (t : ElmType) : Prop :=
  ∃ binding ∈ bindings, t.Within binding.type ∨ ∃ v ∈ binding.inputs, t.Within v.input.type

theorem mem_bindingParts_iff {bindings : List Binding} {t : ElmType} :
    t ∈ bindings.flatMap bindingParts ↔ Uses bindings t := by
  simp only [List.mem_flatMap, bindingParts, List.mem_append, ElmType.mem_parts_iff, Uses]

/-! ## Enums of bindings -/

/-- Whether every enum inside a type is an enum of the schema. -/
def Schema.KnowsEnums (schema : Schema) (t : ElmType) : Prop :=
  ∀ name, (ElmType.enum name).Within t → ∃ values, schema.enumValues? name = some values

namespace Schema.KnowsEnums

variable {schema : Schema}

theorem maybe {t : ElmType} (h : schema.KnowsEnums t) : schema.KnowsEnums (.maybe t) := by
  rintro name (_ | hin)
  exact h name hin

theorem list {t : ElmType} (h : schema.KnowsEnums t) : schema.KnowsEnums (.list t) := by
  rintro name (_ | _ | hin)
  exact h name hin

theorem lists {t : ElmType} (h : schema.KnowsEnums t) (depth : Nat) :
    schema.KnowsEnums (t.lists depth) := by
  induction depth with
  | zero => exact h
  | succ depth ih => exact ih.list

theorem record {fields : List (String × ElmType)}
    (h : ∀ field ∈ fields, schema.KnowsEnums field.2) : schema.KnowsEnums (.record fields) := by
  intro name hin
  cases hin with
  | record hfield hin => exact h _ hfield name hin

theorem union {type : String} {variants : List (Variant ElmType)}
    (h : ∀ v ∈ variants, ∀ field ∈ v.fields, schema.KnowsEnums field.2) :
    schema.KnowsEnums (.union type variants) := by
  intro name hin
  cases hin with
  | union hv hfield hin => exact h _ hv _ hfield name hin

theorem scalarLeaf (name : String) : schema.KnowsEnums (scalarLeaf name).2 := by
  intro enum hin
  unfold ElmBindings.scalarLeaf at hin
  split at hin <;> cases hin

/-- In a loaded schema an enum is found under its own name. -/
theorem enum (hschema : schema.IsLoaded) {name : String} {d : EnumDef}
    (hd : schema.get? name = some (.enum d)) : schema.KnowsEnums (.enum d.name) := by
  intro other hin
  cases hin
  have hname : d.name = name := hschema.name_eq hd
  exact ⟨_, by rw [enumValues?, hname, hd]⟩

end Schema.KnowsEnums

theorem Selected.entry_knowsEnums {schema : Schema} {s : Selected} {type : TypeRef} {elm : ElmType}
    (h : schema.KnowsEnums elm) (decoder : Decoder) :
    schema.KnowsEnums (s.entry type elm decoder).type := by
  simp only [entry]
  split
  · exact (h.lists type.layers).maybe
  · exact h.lists type.layers

/-- All enums in the result of a definition are known. -/
theorem expand_knowsEnums {schema : Schema} (hschema : schema.IsLoaded) {index : FragmentIndex}
    (chain : List String) (selections : List Selection) :
    ∀ parent shape, expand schema index chain parent {} selections = .ok shape →
      ∀ e ∈ shape.entries, schema.KnowsEnums e.type := by
  induction chain, selections using selections_induction schema index with
  | step chain selections ih =>
    intro parent shape h e he
    obtain ⟨s, hs, type, d, elm, decoder, htype, hreading, rfl⟩ :=
      exists_of_mem_right (expand_selected h) he
    obtain ⟨hinner, hmember⟩ := ih parent s hs
    -- the wrappers add no enum, so only what is under them is left
    apply Selected.entry_knowsEnums
    cases hreading with
    | scalar d => exact .scalarLeaf d.name
    | enum d => exact .enum hschema (Selected.get?_of_type? htype)
    | object hd hshape =>
      refine .record fun field hfield => ?_
      obtain ⟨entry, hentry, rfl⟩ := List.mem_map.mp hfield
      exact hinner _ _ hshape entry hentry
    | union hvariants =>
      refine .union fun v hv field hfield => ?_
      obtain ⟨⟨member, shape⟩, hin, rfl⟩ := List.mem_map.mp hv
      obtain ⟨entry, hentry, rfl⟩ := List.mem_map.mp hfield
      obtain ⟨-, object, -, hshape⟩ := (expandUnion_members hvariants).shapes member shape hin
      exact hmember member object shape hshape entry hentry

/-! ## Enums of variables -/

namespace Schema

variable {schema : Schema}

/-- Whether a property holds of scalars and of the enums of a schema as inputs, and is kept by wrappers
and by input objects. -/
structure InputProperty (schema : Schema) (P : InputType → Prop) : Prop where
  scalar : ∀ name, P (scalarInput name)
  enum : ∀ name d, schema.get? name = some (.enum d) → P ⟨.enum d.name, .enum d.name⟩
  maybe : ∀ input, P input → P input.maybe
  list : ∀ input, P input → P input.list
  object : ∀ fields : List (String × InputType), (∀ field ∈ fields, P field.2) →
    P (objectInput fields)

namespace InputProperty

variable {P : InputType → Prop}

theorem optional (hP : schema.InputProperty P) {input : InputType} (h : P input)
    (nullable : Bool) : P (input.optional nullable) := by
  cases nullable with
  | true => exact hP.maybe input h
  | false => exact h

theorem wrapped (hP : schema.InputProperty P) {base : InputType} (h : P base) (nullable : Bool)
    (ref : TypeRef) : P (base.wrapped nullable ref) := by
  induction ref generalizing nullable with
  | named name => exact hP.optional h nullable
  | list item ih => exact hP.optional (hP.list _ (ih true)) nullable
  | nonNull inner ih => exact ih false

mutual

theorem namedInput (hP : schema.InputProperty P) {visited : List String} {name : String}
    {input : InputType} (h : schema.namedInput visited name = .ok input) : P input := by
  rw [Schema.namedInput] at h
  split at h
  · cases h
  · cases h
    exact hP.scalar _
  · next hd =>
    cases h
    exact hP.enum _ _ hd
  · next d hd =>
    split at h
    · cases h
    · next hnew =>
      obtain ⟨fields, hfields, rfl⟩ := map_eq_ok.mp h
      -- the fields are read with the object visited, so fewer types are left
      have _hless : schema.unvisited (d.name :: visited) < schema.unvisited visited :=
        unvisited_cons_lt (mem_of_get? hd) hnew
      exact hP.object fields (fieldInputs hP d.fields hfields)
  · cases h
  · cases h
  · cases h
termination_by (schema.unvisited visited, 0)
decreasing_by
  exact Prod.Lex.left _ _ _hless

theorem fieldInputs (hP : schema.InputProperty P) {visited : List String} {object : String} :
    (values : List InputValue) → {fields : List (String × InputType)} →
      schema.fieldInputs visited object values = .ok fields → ∀ field ∈ fields, P field.2
  | [], _, h => by
    rw [Schema.fieldInputs] at h
    cases h
    simp
  | value :: values, _, h => by
    rw [Schema.fieldInputs] at h
    obtain ⟨-, -, h⟩ := bind_eq_ok.mp h
    obtain ⟨base, hbase, h⟩ := bind_eq_ok.mp h
    obtain ⟨rest, hrest, h⟩ := bind_eq_ok.mp h
    cases h
    intro field hfield
    rcases List.mem_cons.mp hfield with rfl | hin
    · exact hP.wrapped (namedInput hP hbase) true value.type
    · exact fieldInputs hP values hrest field hin
termination_by values => (schema.unvisited visited, values.length + 1)
decreasing_by
  · exact Prod.Lex.right _ (by simp)
  · exact Prod.Lex.right _ (by simp)

end

/-- Such a property holds of the input for every reference. -/
theorem input (hP : schema.InputProperty P) {context : String} {ref : TypeRef}
    {input : InputType} (h : schema.input context ref = .ok input) : P input := by
  obtain ⟨-, -, h⟩ := bind_eq_ok.mp h
  obtain ⟨base, hbase, h⟩ := bind_eq_ok.mp h
  cases h
  exact hP.wrapped (hP.namedInput hbase) true ref

end InputProperty

theorem knowsEnums_inputProperty (hschema : schema.IsLoaded) :
    schema.InputProperty fun input => schema.KnowsEnums input.type where
  scalar name := .scalarLeaf name
  enum _ _ hd := .enum hschema hd
  maybe _ h := h.maybe
  list _ h := h.list
  object fields h := by
    refine .record fun field hfield => ?_
    obtain ⟨⟨name, input⟩, hin, rfl⟩ := List.mem_map.mp hfield
    exact h _ hin

end Schema

theorem Binding.exists_input_of_mem {schema : Schema} {index : FragmentIndex} {d : Definition}
    {binding : Binding} (h : ofDefinition schema index d = .ok binding) {v : Variable}
    (hv : v ∈ binding.inputs) : ∃ context ref, schema.input context ref = .ok v.input := by
  cases d with
  | operation op =>
    rw [ofDefinition, ofOperation] at h
    obtain ⟨⟨kind, type⟩, -, h⟩ := bind_eq_ok.mp h
    obtain ⟨parent, -, h⟩ := bind_eq_ok.mp h
    obtain ⟨shape, -, h⟩ := bind_eq_ok.mp h
    obtain ⟨inputs, hinputs, h⟩ := bind_eq_ok.mp h
    cases h
    obtain ⟨parameter, -, hparameter⟩ := exists_of_mem_right (forall₂_of_mapM_eq_ok hinputs) hv
    obtain ⟨input, hinput, hparameter⟩ := bind_eq_ok.mp hparameter
    cases hparameter
    exact ⟨_, _, hinput⟩
  | fragment fragment =>
    rw [ofDefinition, ofFragment] at h
    obtain ⟨parent, -, h⟩ := bind_eq_ok.mp h
    obtain ⟨shape, -, h⟩ := bind_eq_ok.mp h
    cases h
    cases hv

/-- Every enum that the bindings of a document use is an enum of the schema. -/
theorem Binding.ofDocument_knowsEnums {schema : Schema} (hschema : schema.IsLoaded)
    {document : Document} {bindings : List Binding}
    (h : Binding.ofDocument schema document = .ok bindings) {name : String}
    (huses : Uses bindings (.enum name)) : ∃ values, schema.enumValues? name = some values := by
  obtain ⟨index, -, hall⟩ := Binding.ofDocument_eq_ok h
  obtain ⟨binding, hbinding, hin⟩ := huses
  obtain ⟨d, -, hof⟩ := exists_of_mem_right hall hbinding
  rcases hin with hin | ⟨v, hv, hin⟩
  · obtain ⟨parent, shape, label, -, hshape, htype, -⟩ := Binding.ofDefinition_eq_ok hof
    have hrecord : schema.KnowsEnums shape.recordType := by
      refine .record fun field hfield => ?_
      obtain ⟨entry, hentry, rfl⟩ := List.mem_map.mp hfield
      exact expand_knowsEnums hschema _ _ parent shape hshape entry hentry
    exact hrecord name (htype ▸ hin)
  · obtain ⟨context, ref, hinput⟩ := Binding.exists_input_of_mem hof hv
    exact (Schema.knowsEnums_inputProperty hschema).input hinput name hin

/-- Whether an index names the enums that bindings use. -/
def CollectsEnums (schema : Schema) (bindings : List Binding) (enums : EnumIndex) : Prop :=
  ∃ names, (∀ name, name ∈ names ↔ Uses bindings (.enum name)) ∧
    EnumIndex.ofNames schema names = .ok enums

theorem mem_enumsUsed_iff {bindings : List Binding} {name : String} :
    name ∈ enumsUsed bindings ↔ Uses bindings (.enum name) := by
  rw [enumsUsed, List.mem_filterMap, ← mem_bindingParts_iff]
  constructor
  · rintro ⟨part, hpart, hname⟩
    cases part <;> cases hname
    exact hpart
  · intro hin
    exact ⟨_, hin, rfl⟩

theorem EnumIndex.exists_ofNames {schema : Schema} {names : List String}
    (h : ∀ name ∈ names, ∃ values, schema.enumValues? name = some values) :
    ∃ enums, EnumIndex.ofNames schema names = .ok enums := by
  have hplain : ∀ name ∈ names.eraseDups, ∃ enum, plainNaming schema name = .ok enum := by
    intro name hname
    obtain ⟨values, hvalues⟩ := h name (List.mem_eraseDups.mp hname)
    exact ⟨_, by rw [plainNaming, hvalues]⟩
  obtain ⟨enums, henums⟩ := exists_mapM_eq_ok hplain
  exact ⟨_, by rw [ofNames, henums]; rfl⟩

/-! ## Unions of bindings -/

/-- Whether a list has one declaration for each name of a union that bindings use. -/
structure CollectsUnions (bindings : List Binding) (unions : List UnionDeclaration) : Prop where
  nodup : (unions.map Prod.fst).Nodup
  used : ∀ name variants, (name, variants) ∈ unions → Uses bindings (.union name variants)
  complete : ∀ name variants, Uses bindings (.union name variants) → name ∈ unions.map Prod.fst

/-- Whether bindings use no union with two different declarations. -/
def AgreeOnUnions (bindings : List Binding) : Prop :=
  ∀ name variants others, Uses bindings (.union name variants) →
    Uses bindings (.union name others) → variants = others

/-- A type is added to the unions, or leaves them as they are because it is no union or a known one. -/
theorem addUnion_eq_ok {unions result : List UnionDeclaration} {part : ElmType}
    (h : addUnion unions part = .ok result) :
    (∃ name variants, part = .union name variants ∧ name ∉ unions.map Prod.fst ∧
        result = unions ++ [(name, variants)]) ∨
      result = unions ∧ ∀ name variants, part = .union name variants → (name, variants) ∈ unions := by
  unfold addUnion at h
  split at h
  · next name variants =>
    split at h
    · next hlookup =>
      cases h
      refine .inl ⟨name, variants, rfl, fun hmem => ?_, rfl⟩
      obtain ⟨union, hunion, hname⟩ := List.mem_map.mp hmem
      simpa [hname] using List.lookup_eq_none_iff.mp hlookup union hunion
    · next known hlookup =>
      split at h
      · next hsame =>
        cases h
        rw [ElmType.sameVariants_iff] at hsame
        refine .inr ⟨rfl, fun name' variants' heq => ?_⟩
        cases heq
        exact hsame ▸ mem_of_lookup hlookup
      · cases h
  · next hother =>
    cases h
    exact .inr ⟨rfl, fun name variants heq => absurd heq (hother name variants)⟩

theorem addUnion_eq_error {unions : List UnionDeclaration} {part : ElmType} {e : GenerateError}
    (h : addUnion unions part = .error e) :
    ∃ name variants known, part = .union name variants ∧ (name, known) ∈ unions ∧
      known ≠ variants ∧ e = .duplicateDeclaration name := by
  unfold addUnion at h
  split at h
  · next name variants =>
    split at h
    · cases h
    · next known hlookup =>
      split at h
      · cases h
      · next hdiffers =>
        cases h
        rw [ElmType.sameVariants_iff] at hdiffers
        exact ⟨name, variants, known, rfl, mem_of_lookup hlookup, hdiffers, rfl⟩
  · cases h

/-- Whether a list has the unions among some types, which are one for each name. -/
structure Gathers (parts : List ElmType) (unions : List UnionDeclaration) : Prop where
  nodup : (unions.map Prod.fst).Nodup
  mem_iff : ∀ name variants, (name, variants) ∈ unions ↔ .union name variants ∈ parts

theorem gathers_nil : Gathers [] [] := ⟨List.nodup_nil, by simp⟩

theorem Gathers.add {parts : List ElmType} {unions result : List UnionDeclaration} {part : ElmType}
    (h : Gathers parts unions) (hresult : addUnion unions part = .ok result) :
    Gathers (parts ++ [part]) result := by
  obtain ⟨name, variants, rfl, hnew, rfl⟩ | ⟨rfl, hknown⟩ := addUnion_eq_ok hresult
  · refine ⟨?_, fun other variants' => by simp [h.mem_iff]⟩
    rw [List.map_append]
    exact h.nodup.append (List.nodup_singleton name) (List.disjoint_singleton.mpr hnew)
  · refine ⟨h.nodup, fun name variants => ?_⟩
    rw [List.mem_append, List.mem_singleton, ← h.mem_iff]
    exact ⟨.inl, fun hor => hor.elim id fun heq => hknown name variants heq.symm⟩

theorem unionsUsed_eq_ok {bindings : List Binding} {unions : List UnionDeclaration}
    (h : unionsUsed bindings = .ok unions) :
    CollectsUnions bindings unions ∧ AgreeOnUnions bindings := by
  have hgathers : Gathers (bindings.flatMap bindingParts) unions :=
    foldlM_holds (fun _ _ _ _ hs hstep => hs.add hstep) [] _ gathers_nil h
  have hmem : ∀ name variants, (name, variants) ∈ unions ↔ Uses bindings (.union name variants) :=
    fun name variants => (hgathers.mem_iff name variants).trans mem_bindingParts_iff
  refine ⟨⟨hgathers.nodup, fun name variants => (hmem name variants).mp, ?_⟩, ?_⟩
  · intro name variants huses
    exact List.mem_map_of_mem ((hmem name variants).mpr huses)
  · intro name variants others huses hother
    have heq := List.inj_on_of_nodup_map hgathers.nodup ((hmem name variants).mpr huses)
      ((hmem name others).mpr hother) rfl
    exact congrArg Prod.snd heq

theorem unionsUsed_eq_error {bindings : List Binding} {e : GenerateError}
    (h : unionsUsed bindings = .error e) :
    ∃ name variants others, e = .duplicateDeclaration name ∧
      Uses bindings (.union name variants) ∧ Uses bindings (.union name others) ∧
      variants ≠ others := by
  obtain ⟨before, part, after, unions, hparts, hgathers, hfail⟩ :=
    foldlM_fails (fun _ _ _ _ hs hstep => hs.add hstep) [] _ gathers_nil h
  obtain ⟨name, variants, known, rfl, hknown, hne, rfl⟩ := addUnion_eq_error hfail
  rw [List.nil_append] at hparts
  refine ⟨name, known, variants, rfl, ?_, ?_, hne⟩
  · rw [← mem_bindingParts_iff, hparts]
    exact List.mem_append_left _ ((hgathers.mem_iff name known).mp hknown)
  · rw [← mem_bindingParts_iff, hparts]
    exact List.mem_append_right _ List.mem_cons_self

/-- The declaration that a type gives. -/
def ElmType.union? : ElmType → Option UnionDeclaration
  | .union name variants => some (name, variants)
  | _ => none

theorem exists_collectsUnions (bindings : List Binding) :
    ∃ unions, CollectsUnions bindings unions := by
  let uses := (bindings.flatMap bindingParts).filterMap ElmType.union?
  have huses : ∀ name variants, (name, variants) ∈ uses ↔ Uses bindings (.union name variants) := by
    intro name variants
    rw [← mem_bindingParts_iff, List.mem_filterMap]
    constructor
    · rintro ⟨part, hpart, hunion⟩
      cases part <;> cases hunion
      exact hpart
    · intro hin
      exact ⟨_, hin, rfl⟩
  -- of the declarations with one name any will do
  refine ⟨uses.pwFilter fun u v => u.1 ≠ v.1, ?_, ?_, ?_⟩
  · exact List.pairwise_map.mpr (List.pairwise_pwFilter uses)
  · intro name variants hin
    exact (huses name variants).mp (List.pwFilter_subset uses hin)
  · intro name variants hin
    by_contra hmissing
    have hfresh := (List.forall_mem_pwFilter (R := fun u v : UnionDeclaration => u.1 ≠ v.1)
      (fun {u v w} huw => (huw.ne_or_ne v.1).imp_right Ne.symm) (name, variants) uses).mp
        fun u hu hname => hmissing (List.mem_map.mpr ⟨u, hu, hname.symm⟩)
    exact hfresh _ ((huses name variants).mpr hin) rfl

/-- The unions of bindings, as they are found where they agree. -/
theorem exists_unions (bindings : List Binding) :
    ∃ unions, CollectsUnions bindings unions ∧
      ∀ found, unionsUsed bindings = .ok found → found = unions := by
  cases hunions : unionsUsed bindings with
  | ok found => exact ⟨found, (unionsUsed_eq_ok hunions).1, fun other h => by cases h; rfl⟩
  | error e =>
    obtain ⟨unions, hcollects⟩ := exists_collectsUnions bindings
    exact ⟨unions, hcollects, fun other h => by cases h⟩

end ElmBindings
