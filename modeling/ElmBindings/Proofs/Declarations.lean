import ElmBindings.Module.Emit
import ElmBindings.Proofs.CustomTypes

set_option autoImplicit false

/-! # Clashes of names

A module is emitted exactly if no name is declared twice (`emitModule_ok_iff`). `moduleValues` and
`moduleTypes` list what a module declares; `Names.Holds` says that the names at hand are those declared
so far, each once, and is kept by every declaration. A declaration that fails gives the name that was
there already, so an error always names a clash. -/

namespace ElmBindings

/-! ## Declaring names -/

/-- The value that is declared. -/
def Declared.value? : Declared → Option String
  | .value name => some name
  | .type _ => none

/-- The type that is declared. -/
def Declared.type? : Declared → Option String
  | .type name => some name
  | .value _ => none

/-- The values among declared names. -/
def valuesOf (declared : List Declared) : List String := declared.filterMap Declared.value?

/-- The types among declared names. -/
def typesOf (declared : List Declared) : List String := declared.filterMap Declared.type?

section

variable (name : String) (declared more : List Declared)

@[simp] theorem valuesOf_nil : valuesOf [] = [] := rfl

@[simp] theorem valuesOf_value : valuesOf (.value name :: declared) = name :: valuesOf declared := rfl

@[simp] theorem valuesOf_type : valuesOf (.type name :: declared) = valuesOf declared := rfl

@[simp] theorem typesOf_nil : typesOf [] = [] := rfl

@[simp] theorem typesOf_value : typesOf (.value name :: declared) = typesOf declared := rfl

@[simp] theorem typesOf_type : typesOf (.type name :: declared) = name :: typesOf declared := rfl

@[simp]
theorem valuesOf_append : valuesOf (declared ++ more) = valuesOf declared ++ valuesOf more :=
  List.filterMap_append

@[simp]
theorem typesOf_append : typesOf (declared ++ more) = typesOf declared ++ typesOf more :=
  List.filterMap_append

variable {α : Type} (xs : List α)

@[simp]
theorem valuesOf_flatMap (f : α → List Declared) :
    valuesOf (xs.flatMap f) = xs.flatMap fun x => valuesOf (f x) :=
  List.filterMap_flatMap

@[simp]
theorem typesOf_flatMap (f : α → List Declared) :
    typesOf (xs.flatMap f) = xs.flatMap fun x => typesOf (f x) :=
  List.filterMap_flatMap

@[simp]
theorem valuesOf_map_value (f : α → String) :
    valuesOf (xs.map fun x => .value (f x)) = xs.map f := by
  induction xs <;> simp_all

@[simp]
theorem typesOf_map_value (f : α → String) : typesOf (xs.map fun x => .value (f x)) = [] := by
  induction xs <;> simp_all

end

/-- Whether a name is declared twice, or is a value of `Json.Decode` and declared again. -/
def Repeats (declared : List Declared) (name : String) : Prop :=
  1 < (valuesOf declared ++ decodeValues).count name ∨ 1 < (typesOf declared).count name

theorem Repeats.append {declared : List Declared} {name : String} (h : Repeats declared name)
    (more : List Declared) : Repeats (declared ++ more) name := by
  simp only [Repeats, valuesOf_append, typesOf_append, List.count_append] at h ⊢
  omega

namespace Names

/-- What the names are after declarations: those that were declared, each once. -/
structure Holds (names : Names) (declared : List Declared) : Prop where
  values : names.values.Perm (valuesOf declared ++ decodeValues)
  types : names.types.Perm (typesOf declared)
  nodupValues : names.values.Nodup
  nodupTypes : names.types.Nodup

theorem holds_nil : ({} : Names).Holds [] :=
  ⟨.refl _, .refl _, by decide, List.nodup_nil⟩

namespace Holds

variable {names result : Names} {declared more : List Declared} {d : Declared} {e : GenerateError}

theorem declare (h : names.Holds declared) (hd : names.declare d = .ok result) :
    result.Holds (declared ++ [d]) := by
  cases d with
  | type name =>
    rw [Names.declare] at hd
    split at hd
    · cases hd
    · next hnew =>
      cases hd
      refine ⟨?_, ?_, h.nodupValues, h.nodupTypes.cons hnew⟩
      · simpa using h.values
      · simpa using (h.types.cons name).trans (List.perm_append_singleton name _).symm
  | value name =>
    rw [Names.declare] at hd
    split at hd
    · cases hd
    · next hnew =>
      cases hd
      refine ⟨?_, ?_, h.nodupValues.cons hnew, h.nodupTypes⟩
      · simpa using (h.values.cons name).trans List.perm_middle.symm
      · simpa using h.types

theorem repeats_of_declare (h : names.Holds declared) (hd : names.declare d = .error e) :
    ∃ name, e = .duplicateDeclaration name ∧ Repeats (declared ++ [d]) name := by
  cases d with
  | type name =>
    rw [Names.declare] at hd
    split at hd
    · next hin =>
      cases hd
      refine ⟨name, rfl, .inr ?_⟩
      have hcount := List.count_pos_iff.mpr (h.types.mem_iff.mp hin)
      simpa using hcount
    · cases hd
  | value name =>
    rw [Names.declare] at hd
    split at hd
    · next hin =>
      cases hd
      refine ⟨name, rfl, .inl ?_⟩
      have hcount := List.count_pos_iff.mpr (h.values.mem_iff.mp hin)
      simp only [valuesOf_append, valuesOf_value, valuesOf_nil, List.count_append,
        List.count_singleton_self] at hcount ⊢
      omega
    · cases hd

/-- Declaring one name after the other adds them all. -/
theorem declareAll (h : names.Holds declared) (hall : names.declareAll more = .ok result) :
    result.Holds (declared ++ more) :=
  foldlM_holds (I := fun declared names => names.Holds declared)
    (fun _ _ _ _ hs hstep => hs.declare hstep) declared more h hall

/-- Declaring one name after the other fails only at a name that is there already. -/
theorem repeats_of_declareAll (h : names.Holds declared)
    (hall : names.declareAll more = .error e) :
    ∃ name, e = .duplicateDeclaration name ∧ Repeats (declared ++ more) name := by
  obtain ⟨before, d, after, names', hsplit, hbefore, hfail⟩ :=
    foldlM_fails (I := fun declared names => Names.Holds names declared)
      (fun _ _ _ _ hs hstep => hs.declare hstep) declared more h hall
  obtain ⟨name, rfl, hrepeats⟩ := hbefore.repeats_of_declare hfail
  rw [hsplit, List.append_cons]
  exact ⟨name, rfl, hrepeats.append after⟩

theorem nodup_values (h : names.Holds declared) : (valuesOf declared ++ decodeValues).Nodup :=
  h.values.nodup_iff.mp h.nodupValues

theorem nodup_types (h : names.Holds declared) : (typesOf declared).Nodup :=
  h.types.nodup_iff.mp h.nodupTypes

end Holds

end Names

/-! ## Names of a module -/

/-- The top-level values that a module declares. -/
def moduleValues (bindings : List Binding) (unions : List UnionDeclaration) (enums : EnumIndex) :
    List String :=
  ["endpointUrl"]
    ++ (operationsOf bindings).flatMap (fun op =>
      [op.function, op.documentName, op.decoderName, op.typeName]
        ++ if op.inputs.isEmpty then [] else [op.variablesType, op.variablesEncoder])
    ++ (fragmentsOf bindings).flatMap (fun fragment => [fragment.typeName, fragment.decoderName])
    ++ unions.flatMap (fun union => union.2.map Variant.tag)
    ++ enums.enums.flatMap (fun enum =>
      [enum.decoder, enum.encoder] ++ enum.constructors.map Prod.snd)
    ++ ["apply"]

/-- The types that a module declares. -/
def moduleTypes (bindings : List Binding) (unions : List UnionDeclaration) (enums : EnumIndex) :
    List String :=
  (operationsOf bindings).flatMap (fun op =>
      [op.typeName] ++ if op.inputs.isEmpty then [] else [op.variablesType])
    ++ (fragmentsOf bindings).map Binding.typeName
    ++ unions.map Prod.fst
    ++ enums.enums.map EnumNaming.typeName

/-- The names of a module in the order in which they are declared. -/
def moduleNames (bindings : List Binding) (unions : List UnionDeclaration) (enums : EnumIndex) :
    List Declared :=
  bindingNames bindings ++ unions.flatMap unionNames
    ++ (enums.enums.flatMap enumNames ++ [.value applyName])

theorem valuesOf_operationNames (op : Binding) :
    valuesOf (operationNames op) =
      [op.function, op.documentName, op.decoderName, op.typeName]
        ++ if op.inputs.isEmpty then [] else [op.variablesType, op.variablesEncoder] := by
  unfold operationNames
  split <;> rfl

theorem typesOf_operationNames (op : Binding) :
    typesOf (operationNames op) =
      [op.typeName] ++ if op.inputs.isEmpty then [] else [op.variablesType] := by
  unfold operationNames
  split <;> rfl

theorem valuesOf_moduleNames (bindings : List Binding) (unions : List UnionDeclaration)
    (enums : EnumIndex) :
    valuesOf (moduleNames bindings unions enums) = moduleValues bindings unions enums := by
  simp [moduleNames, moduleValues, bindingNames, endpointName, applyName, valuesOf_operationNames,
    fragmentNames, aliasNames, unionNames, enumNames]

theorem typesOf_moduleNames (bindings : List Binding) (unions : List UnionDeclaration)
    (enums : EnumIndex) :
    typesOf (moduleNames bindings unions enums) = moduleTypes bindings unions enums := by
  simp [moduleNames, moduleTypes, bindingNames, typesOf_operationNames,
    fragmentNames, aliasNames, unionNames, enumNames, ← List.map_eq_flatMap]

/-! ## Plans and clashes -/

/-- Whether a name is declared twice in a module: as a value, where the values of `Json.Decode` count,
as a type, or by two different declarations of a union. -/
inductive Collides (bindings : List Binding) (unions : List UnionDeclaration) (enums : EnumIndex)
    (name : String) : Prop
  | value (h : 1 < (moduleValues bindings unions enums ++ decodeValues).count name)
  | type (h : 1 < (moduleTypes bindings unions enums).count name)
  | union {variants others : List (Variant ElmType)} (h : Uses bindings (.union name variants))
    (hother : Uses bindings (.union name others)) (hne : variants ≠ others)

theorem Collides.of_repeats {bindings : List Binding} {unions : List UnionDeclaration}
    {enums : EnumIndex} {name : String} (h : Repeats (moduleNames bindings unions enums) name) :
    Collides bindings unions enums name := by
  rw [Repeats, valuesOf_moduleNames, typesOf_moduleNames] at h
  exact h.elim .value .type

/-- Where a name clashes, the names of the module are not all different. -/
theorem Collides.not_distinct {bindings : List Binding} {unions : List UnionDeclaration}
    {enums : EnumIndex} {name : String} (h : Collides bindings unions enums name) :
    ¬ ((moduleValues bindings unions enums ++ decodeValues).Nodup ∧
      (moduleTypes bindings unions enums).Nodup ∧ AgreeOnUnions bindings) := by
  rintro ⟨hvalues, htypes, hagree⟩
  cases h with
  | value h => exact absurd (List.nodup_iff_count_le_one.mp hvalues name) (by omega)
  | type h => exact absurd (List.nodup_iff_count_le_one.mp htypes name) (by omega)
  | union h hother hne => exact hne (hagree name _ _ h hother)

namespace ModulePlan

variable {schema : Schema} {bindings : List Binding}

/-- A plan has the custom types that bindings use, and all names of its module are different. -/
theorem ofBindings_eq_ok {plan : ModulePlan} (h : ofBindings schema bindings = .ok plan) :
    unionsUsed bindings = .ok plan.unions ∧
      EnumIndex.ofNames schema (enumsUsed bindings) = .ok plan.enums ∧
      (moduleValues bindings plan.unions plan.enums ++ decodeValues).Nodup ∧
      (moduleTypes bindings plan.unions plan.enums).Nodup := by
  obtain ⟨names₁, h₁, h⟩ := bind_eq_ok.mp h
  obtain ⟨unions, hunions, h⟩ := bind_eq_ok.mp h
  obtain ⟨names₂, h₂, h⟩ := bind_eq_ok.mp h
  obtain ⟨enums, henums, h⟩ := bind_eq_ok.mp h
  obtain ⟨names₃, h₃, h⟩ := bind_eq_ok.mp h
  cases h
  have hnames : names₃.Holds (moduleNames bindings unions enums) :=
    ((Names.holds_nil.declareAll h₁).declareAll h₂).declareAll h₃
  rw [← valuesOf_moduleNames, ← typesOf_moduleNames]
  exact ⟨hunions, henums, hnames.nodup_values, hnames.nodup_types⟩

/-- Where all enums are known, a plan fails only at a name that clashes. -/
theorem ofBindings_eq_error {unions : List UnionDeclaration} {enums : EnumIndex} {e : GenerateError}
    (hunions : ∀ found, unionsUsed bindings = .ok found → found = unions)
    (henums : EnumIndex.ofNames schema (enumsUsed bindings) = .ok enums)
    (h : ofBindings schema bindings = .error e) :
    ∃ name, e = .duplicateDeclaration name ∧ Collides bindings unions enums name := by
  -- each stage declares more names, and a clash among fewer names is one of the module
  rcases bind_eq_error.mp h with h₁ | ⟨names₁, h₁, h⟩
  · obtain ⟨name, rfl, hrepeats⟩ := Names.holds_nil.repeats_of_declareAll h₁
    rw [List.nil_append] at hrepeats
    exact ⟨name, rfl, .of_repeats ((hrepeats.append _).append _)⟩
  have hnames₁ := Names.holds_nil.declareAll h₁
  rcases bind_eq_error.mp h with hclash | ⟨found, hfound, h⟩
  · obtain ⟨name, variants, others, rfl, hvariants, hothers, hne⟩ := unionsUsed_eq_error hclash
    exact ⟨name, rfl, .union hvariants hothers hne⟩
  cases hunions found hfound
  rcases bind_eq_error.mp h with h₂ | ⟨names₂, h₂, h⟩
  · obtain ⟨name, rfl, hrepeats⟩ := hnames₁.repeats_of_declareAll h₂
    exact ⟨name, rfl, .of_repeats (hrepeats.append _)⟩
  have hnames₂ := hnames₁.declareAll h₂
  rcases bind_eq_error.mp h with hunknown | ⟨found', hfound', h⟩
  · cases henums.symm.trans hunknown
  cases henums.symm.trans hfound'
  rcases bind_eq_error.mp h with h₃ | ⟨names₃, h₃, h⟩
  · obtain ⟨name, rfl, hrepeats⟩ := hnames₂.repeats_of_declareAll h₃
    exact ⟨name, rfl, .of_repeats hrepeats⟩
  · cases h

end ModulePlan

/-- A module is emitted exactly if all its values, those of `Json.Decode` included, have different
names, all its types do, and its unions have one declaration each. Otherwise the error names a clash. -/
theorem emitModule_ok_iff {schema : Schema} {document : Document} {bindings : List Binding}
    (hschema : schema.IsLoaded) (h : Binding.ofDocument schema document = .ok bindings)
    (options : ModuleOptions) :
    ∃ unions enums, CollectsUnions bindings unions ∧ CollectsEnums schema bindings enums ∧
      ((∃ text, emitModule schema options bindings = .ok text) ↔
        (moduleValues bindings unions enums ++ decodeValues).Nodup ∧
          (moduleTypes bindings unions enums).Nodup ∧ AgreeOnUnions bindings) ∧
      ∀ e, emitModule schema options bindings = .error e →
        ∃ name, e = .duplicateDeclaration name ∧ Collides bindings unions enums name := by
  obtain ⟨unions, hcollects, hunions⟩ := exists_unions bindings
  have hknown : ∀ name ∈ enumsUsed bindings, ∃ values, schema.enumValues? name = some values :=
    fun name hname => Binding.ofDocument_knowsEnums hschema h (mem_enumsUsed_iff.mp hname)
  obtain ⟨enums, henums⟩ := EnumIndex.exists_ofNames hknown
  have herror : ∀ e, emitModule schema options bindings = .error e →
      ∃ name, e = .duplicateDeclaration name ∧ Collides bindings unions enums name := by
    intro e he
    rcases bind_eq_error.mp he with hplan | ⟨plan, -, hplan⟩
    · exact ModulePlan.ofBindings_eq_error hunions henums hplan
    · cases hplan
  refine ⟨unions, enums, hcollects, ⟨_, fun _ => mem_enumsUsed_iff, henums⟩, ⟨?_, ?_⟩, herror⟩
  · rintro ⟨text, htext⟩
    -- the plan has the unions and enums that were found
    obtain ⟨plan, hplan, -⟩ := bind_eq_ok.mp htext
    obtain ⟨hused, hindex, hvalues, htypes⟩ := ModulePlan.ofBindings_eq_ok hplan
    cases hunions _ hused
    cases henums.symm.trans hindex
    exact ⟨hvalues, htypes, (unionsUsed_eq_ok hused).2⟩
  · intro hdistinct
    cases hemit : emitModule schema options bindings with
    | ok text => exact ⟨text, rfl⟩
    | error e =>
      obtain ⟨name, -, hcollides⟩ := herror e hemit
      exact absurd hdistinct hcollides.not_distinct

namespace Sample

/-- A schema with a union, as text. -/
def shapesText : String :=
  "union Shape = Dot | Box type Dot \x7b x: Int \x7d type Box \x7b y: Int \x7d " ++
    "type Query \x7b s: Shape \x7d"

/-- The schema that is read from the text. -/
def shapes : Schema :=
  [TypeDef.union ⟨"Shape", none, ["Dot", "Box"]⟩,
    .object ⟨"Dot", none, [], [fieldDef "x" (.named "Int")]⟩,
    .object ⟨"Box", none, [], [fieldDef "y" (.named "Int")]⟩,
    .object ⟨"Query", none, [], [fieldDef "s" (.named "Shape")]⟩].foldl Schema.add
    (.ofQuery "Query")

/-- A field for the union, under a label of its own. -/
def shapeAs (label : String) (inner : List Selection) : Selection :=
  .field ⟨some label, "s", [], false, .start⟩ inner

/-- A query that selects different members of the union at two places. -/
def members : Document :=
  ⟨[query [shapeAs "dot" [inline "Dot" [select "x" []]],
    shapeAs "box" [inline "Box" [select "y" []]]]]⟩

def memberBindings : List Binding := (Binding.ofDocument shapes members).toOption.getD []

theorem parseDefinitions_shapesText : Schema.parseDefinitions shapesText = .ok shapes := by
  decide +kernel

-- names are evaluated, not unfolded
attribute [local irreducible] Naming.valueName

theorem ofDocument_members : Binding.ofDocument shapes members = .ok memberBindings := by
  cbv

theorem types_memberBindings :
    memberBindings.map Binding.type =
      [.record
        [(Naming.valueName "dot",
          .maybe (.union "Shape" [⟨"Dot", [(Naming.valueName "x", .maybe .int)]⟩])),
        (Naming.valueName "box",
          .maybe (.union "Shape" [⟨"Box", [(Naming.valueName "y", .maybe .int)]⟩]))]] := by
  cbv

theorem not_agreeOnUnions_memberBindings : ¬ AgreeOnUnions memberBindings := by
  intro hagree
  obtain ⟨binding, hbinding, htype⟩ := List.mem_map.mp
    (types_memberBindings ▸ List.mem_singleton_self _)
  have heq := hagree "Shape" [⟨"Dot", [(Naming.valueName "x", .maybe .int)]⟩]
    [⟨"Box", [(Naming.valueName "y", .maybe .int)]⟩]
    ⟨binding, hbinding, .inl (htype ▸ .record List.mem_cons_self (.maybe .self))⟩
    ⟨binding, hbinding,
      .inl (htype ▸ .record (List.mem_cons_of_mem _ List.mem_cons_self) (.maybe .self))⟩
  simp at heq

end Sample

theorem emitModule_ok_iff_members :
    Sample.shapes.IsLoaded ∧ ∃ name unions enums,
      emitModule Sample.shapes ⟨"Api", "/graphql", .get⟩ Sample.memberBindings =
        .error (.duplicateDeclaration name) ∧
      Collides Sample.memberBindings unions enums name := by
  have hloaded : Sample.shapes.IsLoaded := ⟨_, .inl Sample.parseDefinitions_shapesText⟩
  obtain ⟨unions, enums, -, -, hiff, herror⟩ :=
    emitModule_ok_iff hloaded Sample.ofDocument_members ⟨"Api", "/graphql", .get⟩
  refine ⟨hloaded, ?_⟩
  cases hemit : emitModule Sample.shapes ⟨"Api", "/graphql", .get⟩ Sample.memberBindings with
  | ok text => exact absurd (hiff.mp ⟨text, hemit⟩).2.2 Sample.not_agreeOnUnions_memberBindings
  | error e =>
    obtain ⟨name, rfl, hcollides⟩ := herror e hemit
    exact ⟨name, unions, enums, rfl, hcollides⟩

end ElmBindings
