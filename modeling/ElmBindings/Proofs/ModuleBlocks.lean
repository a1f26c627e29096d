import ElmBindings.Proofs.DecoderReading
import ElmBindings.Proofs.EnumCode

set_option autoImplicit false

/-! # Custom types in the text of a module

The text of a module is a header and blocks, joined by empty lines. What stands between the declarations for
the bindings and the last helper is one block for each union and one for each enum of the plan; every other
block starts with the name of a value or of an alias (`ModulePlan.emitsTypes_text`). Since names in a document
are words, none of these is the keyword that starts a custom type.

`generateModule_declares` puts this together with the trees that mention enums and unions: the text declares
exactly the custom types that the module refers to, each once. -/

namespace ElmBindings

open Elm

/-! ## Blocks that declare custom types -/

namespace Elm

/-- Whether a block declares a custom type. An alias is none. -/
def IsCustomType (block : String) : Prop :=
  ∃ rest, block = "type " ++ rest ∧ ∀ more, rest ≠ "alias " ++ more

/-- Whether a block declares a union: a custom type with a constructor for each variant, which holds a record
of the variant's fields. -/
def IsUnionBlock (name : String) (variants : List (Variant ElmType)) (block : String) : Prop :=
  block = Layout.linesText (("type " ++ name) :: Layout.listed "    = " "    | "
    (variants.map fun v => v.tag ++ " " ++ (ElmType.record v.fields).text))

/-- A block that starts with another word than the keyword of a custom type declares none. -/
theorem not_isCustomType_of_isWord {word : String} (hword : isWord word = true) (hne : word ≠ "type")
    (rest : String) : ¬ IsCustomType (word ++ (" " ++ rest)) := by
  rintro ⟨more, h, -⟩
  have hblank (text : String) : Breaks (" ".toList ++ text.toList) := breaks_cons.mpr (by decide)
  have hsplit : "type " = "type" ++ " " := rfl
  -- the first words of both sides are equal
  have hfirst := congrArg (fun text => text.toList.takeWhile isWordChar) h
  simp only [hsplit, String.append_assoc, String.toList_append] at hfirst
  rw [takeWhile_isWordChar hword (hblank _), takeWhile_isWordChar (by decide) (hblank _)] at hfirst
  exact hne (String.toList_inj.mp hfirst)

theorem not_isCustomType_alias (rest : String) : ¬ IsCustomType ("type alias " ++ rest) := by
  rintro ⟨more, h, hmore⟩
  have hsplit : "type alias " = "type " ++ "alias " := rfl
  rw [hsplit, String.append_assoc, String.append_right_inj] at h
  exact hmore rest h.symm

/-- The declaration of a value starts with its name and its type. -/
theorem not_isCustomType_value {name : String} (hname : IsName name) (type : String)
    (lines : List String) :
    ¬ IsCustomType (Layout.linesText ((name ++ (" : " ++ type)) :: lines)) := by
  have hlines : Layout.linesText ((name ++ (" : " ++ type)) :: lines) =
      name ++ (" " ++ (": " ++ type ++ "\n" ++ Layout.linesText lines)) := by
    apply String.toList_inj.mp
    simp [Layout.linesText]
  rw [hlines]
  exact not_isCustomType_of_isWord hname.1 (fun heq => hname.2 (heq ▸ by decide)) _

theorem not_isCustomType_constantText {name : String} (hname : IsName name) (type value : String) :
    ¬ IsCustomType (constantText name type value) := by
  rw [constantText, String.append_assoc]
  exact not_isCustomType_value hname type _

theorem not_isCustomType_aliasDeclaration (name : String) (type : ElmType) :
    ¬ IsCustomType (ElmType.aliasDeclaration name type) := by
  have hlines (rest : String) (lines : List String) :
      ¬ IsCustomType (Layout.linesText (("type alias " ++ name ++ rest) :: lines)) := by
    have heq : Layout.linesText (("type alias " ++ name ++ rest) :: lines) =
        "type alias " ++ (name ++ rest ++ "\n" ++ Layout.linesText lines) := by
      simp [Layout.linesText, String.append_assoc]
    rw [heq]
    exact not_isCustomType_alias _
  unfold ElmType.aliasDeclaration
  split
  · exact hlines _ _
  · exact hlines _ _

end Elm

/-! ## Blocks of bindings -/

namespace Binding

/-- The names of the values that a module declares for a binding can be read. -/
structure HasNames (binding : Binding) : Prop where
  function : IsName binding.function
  documentName : IsName binding.documentName
  decoderName : IsName binding.decoderName
  variablesEncoder : IsName binding.variablesEncoder

theorem hasNames_of_isWord {binding : Binding} (hname : isWord binding.name = true)
    (htype : isWord binding.typeName = true) : binding.HasNames := by
  have hfunction : IsName binding.function := Naming.isName_valueName hname
  have hupper : 'D'.isLower = false ∧ 'V'.isLower = false := by decide
  refine ⟨hfunction, ⟨isWord_append hfunction.1 (by decide), not_reserved ?_ hupper.1⟩, ?_, ?_⟩
  · simp [documentName]
  · refine ⟨?_, not_reserved (c := 'D') (by simp [decoderName]) hupper.1⟩
    rw [decoderName]
    split
    · exact isWord_append hfunction.1 (by decide)
    · simp only [isWord, Bool.and_eq_true, List.all_eq_true] at hname
      have hlower := Naming.isWordChar_of_mem_lowerFirst hname.2
      simpa [isWord, or_imp, forall_and, isWordChar] using hlower
  · refine ⟨?_, not_reserved (c := 'V') (by simp [variablesEncoder, variablesType]) hupper.2⟩
    have hvariables : isWord binding.variablesType = true := isWord_append htype (by decide)
    rw [isWord, Bool.and_eq_true] at hvariables
    exact isWord_append (by decide) hvariables.2

/-- The names that are declared for the definitions of a text can be read. -/
theorem hasNames {schema : Schema} {source : String} {document : Document} {bindings : List Binding}
    (hparse : Document.parse source = .ok document) (h : ofDocument schema document = .ok bindings)
    {binding : Binding} (hbinding : binding ∈ bindings) : binding.HasNames := by
  obtain ⟨index, -, hall⟩ := ofDocument_eq_ok h
  obtain ⟨d, hd, hof⟩ := exists_of_mem_right hall hbinding
  have hplain := List.all_eq_true.mp (Document.isPlain_of_parse hparse) d hd
  simp only [Definition.isPlain, Bool.and_eq_true] at hplain
  obtain ⟨hname, htype⟩ := names_eq hof
  apply hasNames_of_isWord
  · rw [hname]
    exact hplain.1.1
  · rw [htype]
    exact (Naming.isName_capitalize hplain.1.1).1

namespace HasNames

variable {binding : Binding}

theorem decoderText (h : binding.HasNames) (scope : Scope) :
    ¬ IsCustomType (decoderText binding scope) :=
  not_isCustomType_constantText h.decoderName _ _

theorem requestFunction (h : binding.HasNames) (method : HttpMethod) (scope : Scope) :
    ¬ IsCustomType (requestFunction binding method scope) := by
  have htext (inputs : Option String) (toMsg : String) :
      ¬ IsCustomType (requestText binding method inputs toMsg) := by
    simp only [requestText, String.append_assoc, List.cons_append]
    exact not_isCustomType_value h.function _ _
  unfold ElmBindings.requestFunction
  split
  · exact htext _ _
  · exact htext _ _

theorem operationBlocks (h : binding.HasNames) (method : HttpMethod) (scope : Scope) :
    ∀ block ∈ operationBlocks binding method scope, ¬ IsCustomType block := by
  have hdocument := not_isCustomType_constantText h.documentName "String"
    (Naming.stringLiteral binding.document)
  have hencoder : ¬ IsCustomType (variablesEncoderText binding scope) := by
    simp only [variablesEncoderText, String.append_assoc]
    exact not_isCustomType_value h.variablesEncoder _ _
  simp only [ElmBindings.operationBlocks, List.forall_mem_append, List.forall_mem_singleton,
    List.forall_mem_cons]
  refine ⟨⟨hdocument, ?_⟩, h.requestFunction method scope, not_isCustomType_aliasDeclaration _ _,
    h.decoderText scope⟩
  split
  · simp
  · simp only [List.forall_mem_cons]
    exact ⟨not_isCustomType_aliasDeclaration _ _, hencoder, by simp⟩

theorem fragmentBlocks (h : binding.HasNames) (scope : Scope) :
    ∀ block ∈ fragmentBlocks binding scope, ¬ IsCustomType block := by
  simp only [ElmBindings.fragmentBlocks, List.forall_mem_cons]
  exact ⟨not_isCustomType_aliasDeclaration _ _, h.decoderText scope, by simp⟩

end HasNames

end Binding

/-! ## Blocks of a module -/

namespace ModulePlan

/-- The blocks before those of custom types: the header and what is declared for bindings. -/
def front (plan : ModulePlan) (options : ModuleOptions) (bindings : List Binding) : List String :=
  let scope : Scope := { reserved := plan.values }
  [headerText options.name,
    constantText endpointName "String" (Naming.stringLiteral options.endpoint)]
    ++ (operationsOf bindings).flatMap (operationBlocks · options.method scope)
    ++ (fragmentsOf bindings).flatMap (fragmentBlocks · scope)

/-- Whether the custom types in the text of a module are those of its plan: the text consists of blocks, among
them one for each union and one for each enum, and no other block declares a custom type. -/
def EmitsTypes (plan : ModulePlan) (options : ModuleOptions) (bindings : List Binding)
    (text : String) : Prop :=
  ∃ unionBlocks enumBlocks,
    text = "\n\n".intercalate
      (plan.front options bindings ++ unionBlocks ++ enumBlocks ++ [applyText]) ∧
    List.Forall₂ (fun union block => IsUnionBlock union.1 union.2 block) plan.unions unionBlocks ∧
    List.Forall₂ (fun enum block => ∃ raw, enum.IsBlock block (enum.constructors.map Prod.snd)
      (enum.decoderCases raw) enum.encoderCases) plan.enums.enums enumBlocks ∧
    ∀ block ∈ plan.front options bindings ++ [applyText], ¬ IsCustomType block

/-- Whether the text of a module has a block for a union, and declares no second type of its name. -/
structure DeclaresUnion (plan : ModulePlan) (bindings : List Binding) (text name : String)
    (variants : List (Variant ElmType)) : Prop where
  planned : (name, variants) ∈ plan.unions
  type : (moduleTypes bindings plan.unions plan.enums).count name = 1
  emitted : ∃ block before after, IsUnionBlock name variants block ∧
    text = before ++ "\n" ++ block ++ after

/-- Whether the text of a module has a block for an enum, and declares the type, the decoder and the encoder
of the block nowhere else. -/
structure DeclaresEnum (plan : ModulePlan) (bindings : List Binding) (text : String)
    (enum : EnumNaming) : Prop where
  planned : enum ∈ plan.enums.enums
  type : (moduleTypes bindings plan.unions plan.enums).count enum.typeName = 1
  decoder : (moduleValues bindings plan.unions plan.enums).count enum.decoder = 1
  encoder : (moduleValues bindings plan.unions plan.enums).count enum.encoder = 1
  emitted : ∃ raw block before after, enum.IsBlock block (enum.constructors.map Prod.snd)
    (enum.decoderCases raw) enum.encoderCases ∧ text = before ++ "\n" ++ block ++ after

variable {schema : Schema} {options : ModuleOptions} {bindings : List Binding} {plan : ModulePlan}

theorem text_eq : plan.text options bindings = "\n\n".intercalate
    (plan.front options bindings
      ++ plan.unions.map (fun union => ElmType.unionDeclaration union.1 union.2)
      ++ plan.enums.enums.map (·.text { reserved := plan.values }) ++ [applyText]) := by
  simp only [text, blocks, front, List.cons_append, List.nil_append, String.intercalate_cons_cons]

/-- The header starts with a keyword of its own, and every other block with a name or as an alias. -/
theorem not_isCustomType_of_mem_front (hnames : ∀ binding ∈ bindings, binding.HasNames) :
    ∀ block ∈ plan.front options bindings, ¬ IsCustomType block := by
  have hheader : ¬ IsCustomType (headerText options.name) := by
    have heq : headerText options.name = "module" ++ (" " ++ (options.name ++ " exposing (..)\n" ++
        Layout.linesText ["", "import Http", "import Json.Decode exposing (..)",
          "import Json.Encode", "import Url.Builder"])) := by
      apply String.toList_inj.mp
      simp [headerText, Layout.linesText]
    rw [heq]
    exact not_isCustomType_of_isWord (by decide) (by decide) _
  have hname : IsName endpointName := by decide
  have hendpoint := not_isCustomType_constantText hname "String" (Naming.stringLiteral options.endpoint)
  simp only [front, List.forall_mem_append, List.forall_mem_cons, List.forall_mem_flatMap]
  refine ⟨⟨⟨hheader, hendpoint, by simp⟩, fun binding hbinding => ?_⟩, fun binding hbinding => ?_⟩
  · exact (hnames binding (List.mem_of_mem_filter hbinding)).operationBlocks _ _
  · exact (hnames binding (List.mem_of_mem_filter hbinding)).fragmentBlocks _

theorem emitsTypes_text (hnames : ∀ binding ∈ bindings, binding.HasNames) :
    plan.EmitsTypes options bindings (plan.text options bindings) := by
  refine ⟨_, _, text_eq, ?_, ?_, ?_⟩
  · rw [List.forall₂_map_right_iff, List.forall₂_same]
    exact fun union _ => rfl
  · rw [List.forall₂_map_right_iff, List.forall₂_same]
    exact fun enum _ => enum.isBlock_text _
  · rw [List.forall_mem_append, List.forall_mem_singleton]
    have hname : IsName applyName := by decide
    exact ⟨not_isCustomType_of_mem_front hnames, not_isCustomType_constantText hname _ _⟩

theorem declaresUnion_of_mem (h : ofBindings schema bindings = .ok plan) {name : String}
    {variants : List (Variant ElmType)} (hmem : (name, variants) ∈ plan.unions) :
    plan.DeclaresUnion bindings (plan.text options bindings) name variants := by
  obtain ⟨-, -, -, htypes⟩ := ofBindings_eq_ok h
  have hname : name ∈ plan.unions.map Prod.fst := List.mem_map_of_mem hmem
  have hblock : ElmType.unionDeclaration name variants ∈ plan.blocks options bindings := by
    have hin := List.mem_map_of_mem (f := fun union : UnionDeclaration =>
      ElmType.unionDeclaration union.1 union.2) hmem
    simp only [blocks, List.mem_append, hin, or_true, true_or]
  obtain ⟨before, after, htext⟩ := exists_text_eq hblock
  refine ⟨hmem, List.count_eq_one_of_mem htypes ?_, _, before, after, rfl, htext⟩
  simp only [moduleTypes, List.mem_append, hname, or_true, true_or]

theorem declaresEnum_of_mem (h : ofBindings schema bindings = .ok plan) {enum : EnumNaming}
    (hmem : enum ∈ plan.enums.enums) :
    plan.DeclaresEnum bindings (plan.text options bindings) enum := by
  obtain ⟨-, -, -, htypes⟩ := ofBindings_eq_ok h
  -- the decoder and the encoder are among the values of the enum's block
  have hvalues : ∀ name ∈ [enum.decoder, enum.encoder],
      name ∈ moduleValues bindings plan.unions plan.enums := by
    intro name hname
    have hin : name ∈ plan.enums.enums.flatMap fun enum =>
        [enum.decoder, enum.encoder] ++ enum.constructors.map Prod.snd :=
      List.mem_flatMap.mpr ⟨enum, hmem, List.mem_append_left _ hname⟩
    simp only [moduleValues, List.mem_append, hin, or_true, true_or]
  have hname : enum.typeName ∈ plan.enums.enums.map EnumNaming.typeName := List.mem_map_of_mem hmem
  obtain ⟨raw, hblock⟩ := enum.isBlock_text { reserved := plan.values }
  obtain ⟨before, after, htext⟩ := exists_text_eq (enumText_mem_blocks options bindings hmem)
  refine ⟨hmem, List.count_eq_one_of_mem htypes ?_,
    List.count_eq_one_of_mem (nodup_moduleValues h) (hvalues _ (by simp)),
    List.count_eq_one_of_mem (nodup_moduleValues h) (hvalues _ (by simp)),
    raw, _, before, after, hblock, htext⟩
  simp only [moduleTypes, List.mem_append, hname, or_true]

end ModulePlan

/-- The text of a module declares what the module refers to. Every union in a result is the one that is
declared under its name, every enum in a result or a variable has one block, and decoders and encoders call
the functions of that block. No other custom type is declared: the blocks that declare one are those of the
unions and enums of the plan, each of these is used, and the functions of an enum's block are called. -/
theorem generateModule_declares {schema : Schema} {options : ModuleOptions} {source text : String}
    (h : generateModule schema options source = .ok text) :
    ∃ document bindings plan, Document.parse source = .ok document ∧
      Binding.ofDocument schema document = .ok bindings ∧
      ModulePlan.ofBindings schema bindings = .ok plan ∧ text = plan.text options bindings ∧
      plan.EmitsTypes options bindings text ∧
      (∀ name variants, Uses bindings (.union name variants) →
        plan.DeclaresUnion bindings text name variants) ∧
      (∀ name, Uses bindings (.enum name) →
        ∃! enum, enum.name = name ∧ plan.DeclaresEnum bindings text enum) ∧
      (∀ binding ∈ bindings, ∀ name decoder, binding.decoder.HasLeaf (.enum name decoder) →
        ∃ enum, plan.DeclaresEnum bindings text enum ∧ enum.name = name ∧ enum.decoder = decoder) ∧
      (∀ binding ∈ bindings, ∀ v ∈ binding.inputs, ∀ name, v.input.encoder.HasEnum name →
        ∃ enum, plan.DeclaresEnum bindings text enum ∧ enum.name = name ∧
          enum.encoder = Encoder.enumName name) ∧
      (∀ name variants, (name, variants) ∈ plan.unions → Uses bindings (.union name variants)) ∧
      ∀ enum ∈ plan.enums.enums, Uses bindings (.enum enum.name) ∧ ∃ binding ∈ bindings,
        binding.decoder.HasLeaf (.enum enum.name enum.decoder) ∨
          ∃ v ∈ binding.inputs, v.input.encoder.HasEnum enum.name := by
  obtain ⟨document, hdocument, h⟩ := bind_eq_ok.mp h
  obtain ⟨bindings, hbindings, h⟩ := bind_eq_ok.mp h
  obtain ⟨plan, hplan, h⟩ := bind_eq_ok.mp h
  cases h
  obtain ⟨hunions, -, -, -⟩ := ModulePlan.ofBindings_eq_ok hplan
  obtain ⟨hcollects, hagree⟩ := unionsUsed_eq_ok hunions
  obtain ⟨index, -, hall⟩ := Binding.ofDocument_eq_ok hbindings
  have henum : ∀ name, Uses bindings (.enum name) →
      ∃! enum, enum.name = name ∧
        plan.DeclaresEnum bindings (plan.text options bindings) enum := by
    intro name huses
    obtain ⟨enum, hmem, rfl⟩ := List.mem_map.mp ((ModulePlan.mem_enumNames_iff hplan).mpr huses)
    refine ⟨enum, ⟨rfl, ModulePlan.declaresEnum_of_mem hplan hmem⟩, ?_⟩
    rintro other ⟨hname, hother⟩
    exact ModulePlan.enum_eq_of_name_eq hplan hmem hother.planned hname
  have hreads : ∀ binding ∈ bindings, binding.decoder.ReadsEnums binding.type := by
    intro binding hbinding
    obtain ⟨d, -, hof⟩ := exists_of_mem_right hall hbinding
    exact Binding.readsEnums hof
  have hwrites : ∀ binding ∈ bindings, ∀ v ∈ binding.inputs, v.input.WritesEnums := by
    intro binding hbinding v hv
    obtain ⟨d, -, hof⟩ := exists_of_mem_right hall hbinding
    exact Binding.writesEnums hof hv
  have hparse := mapError_eq_ok.mp hdocument
  refine ⟨document, bindings, plan, hparse, hbindings, hplan, rfl,
    ModulePlan.emitsTypes_text fun binding => Binding.hasNames hparse hbindings, ?_, henum,
    ?_, ?_, hcollects.used, ?_⟩
  · intro name variants huses
    obtain ⟨⟨_, others⟩, hmem, rfl⟩ := List.mem_map.mp (hcollects.complete name variants huses)
    cases hagree _ variants others huses (hcollects.used _ others hmem)
    exact ModulePlan.declaresUnion_of_mem hplan hmem
  · intro binding hbinding name decoder hleaf
    obtain ⟨rfl, hwithin⟩ := (hreads binding hbinding name decoder).mp hleaf
    obtain ⟨enum, ⟨rfl, hdeclares⟩, -⟩ := henum name ⟨binding, hbinding, .inl hwithin⟩
    exact ⟨enum, hdeclares, rfl, rfl⟩
  · intro binding hbinding v hv name hhas
    have hwithin := (hwrites binding hbinding v hv name).mp hhas
    obtain ⟨enum, ⟨rfl, hdeclares⟩, -⟩ := henum name ⟨binding, hbinding, .inr ⟨v, hv, hwithin⟩⟩
    exact ⟨enum, hdeclares, rfl, rfl⟩
  · intro enum hmem
    have huses : Uses bindings (.enum enum.name) :=
      (ModulePlan.mem_enumNames_iff hplan).mp (List.mem_map_of_mem hmem)
    refine ⟨huses, ?_⟩
    obtain ⟨binding, hbinding, hwithin | ⟨v, hv, hwithin⟩⟩ := huses
    · exact ⟨binding, hbinding, .inl ((hreads binding hbinding _ _).mpr ⟨rfl, hwithin⟩)⟩
    · exact ⟨binding, hbinding, .inr ⟨v, hv, (hwrites binding hbinding v hv _).mpr hwithin⟩⟩

theorem generateModule_declares_color :
    ∃ (text : String) (plan : ModulePlan) (enum : EnumNaming),
      generateModule Sample.colors ⟨"Api", "/graphql", .get⟩ Sample.colorText = .ok text ∧
      ModulePlan.ofBindings Sample.colors [Sample.colorBinding] = .ok plan ∧
      plan.EmitsTypes ⟨"Api", "/graphql", .get⟩ [Sample.colorBinding] text ∧
      plan.DeclaresUnion [Sample.colorBinding] text "Shape" Sample.dotVariants ∧
      plan.DeclaresEnum [Sample.colorBinding] text enum ∧ enum.name = "Color" ∧
      enum.decoder = "colorDecoder" := by
  obtain ⟨plan, hplan⟩ := Sample.ofBindings_colorBinding
  have htext : generateModule Sample.colors ⟨"Api", "/graphql", .get⟩ Sample.colorText =
      .ok (plan.text ⟨"Api", "/graphql", .get⟩ [Sample.colorBinding]) := by
    refine bind_eq_ok.mpr ⟨_, mapError_eq_ok.mpr Sample.parse_colorText, ?_⟩
    refine bind_eq_ok.mpr ⟨_, Sample.ofDocument_colorDocument, ?_⟩
    exact bind_eq_ok.mpr ⟨plan, hplan, rfl⟩
  obtain ⟨document, bindings, plan', hdocument, hbindings, hplan', -, hemits, hunion, -, hdecoder,
    -⟩ := generateModule_declares htext
  cases Sample.parse_colorText.symm.trans hdocument
  cases Sample.ofDocument_colorDocument.symm.trans hbindings
  obtain ⟨enum, hdeclares, hname, hcalled⟩ := hdecoder Sample.colorBinding List.mem_cons_self
    "Color" "colorDecoder" (.map List.mem_cons_self (.maybe (.field (.dispatch List.mem_cons_self
      (.map List.mem_cons_self (.maybe (.field .primitive)))))))
  refine ⟨_, plan', enum, htext, hplan', hemits, hunion "Shape" Sample.dotVariants ?_, hdeclares, hname,
    hcalled⟩
  exact ⟨Sample.colorBinding, List.mem_cons_self, .inl (.record List.mem_cons_self (.maybe .self))⟩

end ElmBindings
