import ElmBindings.Proofs.CustomBlocks

set_option autoImplicit false

/-! # Enums as Elm code

The block of an enum declares a custom type, a decoder that chooses a constructor by a string, and an encoder
that chooses a string by a constructor. `Elm.branches?` reads the branches of such a choice from its lines,
`Elm.decodes?` and `Elm.encodes?` run them: the first branch whose pattern fits counts, and a string literal
stands for the text that its escapes give. Constructors are compared as texts, and any text counts as one:
whether it is an Elm name is a question of its characters, which these functions do not ask.

Read that way, decoder and encoder of every block in the text of a module undo each other
(`emitModule_enums_inverse`). Neither the conversion of values to constructors nor the schema sees to that:
two values can have one constructor, and a schema that was not checked can list a value twice. But a module
declares no name twice. -/

namespace ElmBindings

namespace Elm

/-! ## String literals -/

/-- The character that a letter after a backslash stands for. -/
def unescaped? : Char → Option Char
  | '"' => some '"'
  | '\\' => some '\\'
  | 'n' => some '\n'
  | 'r' => some '\r'
  | 't' => some '\t'
  | _ => none

/-- The text up to the closing quote of a literal, with escapes read, and what comes after the quote. -/
def literalBody? : List Char → Option (List Char × List Char)
  | [] => none
  | '"' :: rest => some ([], rest)
  | '\\' :: c :: rest =>
    (unescaped? c).bind fun meant => (literalBody? rest).map fun read => (meant :: read.1, read.2)
  | c :: rest =>
    if c = '\n' ∨ c = '\r' then none
    else (literalBody? rest).map fun read => (c :: read.1, read.2)

/-- The text that a literal denotes. -/
def literal? (text : String) : Option String :=
  match text.toList with
  | '"' :: rest => (literalBody? rest).bind fun read =>
    if read.2.isEmpty then some (String.ofList read.1) else none
  | _ => none

/-- What is written for a character is read as this character. -/
theorem literalBody?_escaped (c : Char) (rest : List Char) :
    literalBody? (Naming.escaped c ++ rest) =
      (literalBody? rest).map fun read => (c :: read.1, read.2) := by
  by_cases hquote : c = '"'
  · subst hquote
    rfl
  by_cases hslash : c = '\\'
  · subst hslash
    rfl
  by_cases hline : c = '\n'
  · subst hline
    rfl
  by_cases hreturn : c = '\r'
  · subst hreturn
    rfl
  by_cases htab : c = '\t'
  · subst htab
    rfl
  have hplain : Naming.escaped c = [c] := by simp [Naming.escaped]
  rw [hplain]
  simp [literalBody?, hslash, hline, hreturn]

theorem literalBody?_flatMap (cs rest : List Char) :
    literalBody? (cs.flatMap Naming.escaped ++ '"' :: rest) = some (cs, rest) := by
  induction cs with
  | nil => rfl
  | cons c cs ih =>
    rw [List.flatMap_cons, List.append_assoc, literalBody?_escaped, ih]
    rfl

/-- A text is what its literal denotes. -/
theorem literal?_stringLiteral (s : String) : literal? (Naming.stringLiteral s) = some s := by
  rw [literal?, Naming.stringLiteral, String.toList_ofList]
  simp [literalBody?_flatMap]

theorem stringLiteral_ne_wildcard (s : String) : Naming.stringLiteral s ≠ "_" := by
  intro h
  have hliteral := literal?_stringLiteral s
  rw [h] at hliteral
  cases hliteral

/-! ## Choices -/

/-- What follows a text that another one starts with. -/
def after? (start text : String) : Option String :=
  (start.toList.isPrefixOf? text.toList).map String.ofList

/-- What stands before a text that another one ends with. -/
def before? (ending text : String) : Option String :=
  (ending.toList.isSuffixOf? text.toList).map String.ofList

@[simp]
theorem after?_append (start text : String) : after? start (start ++ text) = some text := by
  have happend : start.toList.isPrefixOf? (start ++ text).toList = some text.toList := by simp
  rw [after?, happend]
  simp

@[simp]
theorem before?_append (text ending : String) : before? ending (text ++ ending) = some text := by
  have happend : ending.toList.isSuffixOf? (text ++ ending).toList = some text.toList := by simp
  rw [before?, happend]
  simp

/-- The pattern on the first line of a branch. -/
def pattern? (indent line : String) : Option String :=
  (after? indent line).bind (before? " ->")

/-- The branches that the lines of a choice consist of, each a pattern and an expression below it. A
branch is set off from the next one by an empty line. -/
def branches? (indent : String) : List String → Option (List (String × String))
  | [] => some []
  | [_] => none
  | [head, body] => do
    let pattern ← pattern? indent head
    let result ← after? (indent ++ "    ") body
    some [(pattern, result)]
  | head :: body :: gap :: rest => do
    let pattern ← pattern? indent head
    let result ← after? (indent ++ "    ") body
    if gap = "" then (branches? indent rest).map ((pattern, result) :: ·) else none

/-- The lines of a branch. -/
def branchLines (indent : String) (branch : String × String) : List String :=
  [indent ++ (branch.1 ++ " ->"), indent ++ "    " ++ branch.2]

theorem branches?_branchLines (indent : String) (branch : String × String) :
    branches? indent (branchLines indent branch) = some [branch] := by
  simp [branchLines, branches?, pattern?]

theorem branches?_branchLines_append (indent : String) (branch : String × String)
    (rest : List String) :
    branches? indent (branchLines indent branch ++ "" :: rest) =
      (branches? indent rest).map (branch :: ·) := by
  simp [branchLines, branches?, pattern?]

/-- The constructor that a decoder with some branches gives for a string: the text after `succeed`. A branch
that fails gives none. -/
def decodes? (branches : List (String × String)) (s : String) : Option String :=
  (branches.find? fun branch => branch.1 == "_" || literal? branch.1 == some s).bind fun branch =>
    after? "succeed " branch.2

/-- The string that an encoder with some branches gives for a constructor, which is any text that stands as a
pattern. -/
def encodes? (branches : List (String × String)) (constructor : String) : Option String :=
  (branches.find? fun branch => branch.1 == constructor).bind fun branch =>
    (after? "Json.Encode.string " branch.2).bind literal?

end Elm

/-! ## Blocks of enums -/

namespace EnumNaming

/-- The branches of the decoder: one for each value, and one that fails. -/
def decoderCases (enum : EnumNaming) (raw : String) : List (String × String) :=
  enum.constructors.map (fun entry => (Naming.stringLiteral entry.1, "succeed " ++ entry.2))
    ++ [("_", "fail (\"Unknown " ++ enum.name ++ ": \" ++ " ++ raw ++ ")")]

/-- The branches of the encoder, one for each constructor. -/
def encoderCases (enum : EnumNaming) : List (String × String) :=
  enum.constructors.map fun entry =>
    (entry.2, "Json.Encode.string " ++ Naming.stringLiteral entry.1)

/-- Whether lines declare the custom type of an enum with the given constructors. -/
def DeclaresType (enum : EnumNaming) (lines constructors : List String) : Prop :=
  lines = ("type " ++ enum.typeName) :: Layout.listed "    = " "    | " constructors

/-- Whether lines declare the decoder of an enum: it reads a string and chooses by it among branches. -/
def DeclaresDecoder (enum : EnumNaming) (lines : List String) (branches : List (String × String)) :
    Prop :=
  ∃ raw body, Elm.branches? "                    " body = some branches ∧
    lines = [enum.decoder ++ " : Decoder " ++ enum.typeName, enum.decoder ++ " =", "    string",
        "        |> andThen", "            (\\" ++ raw ++ " ->", "                case " ++ raw ++ " of"]
      ++ body ++ ["            )"]

/-- Whether lines declare the encoder of an enum: it chooses by its argument among branches. -/
def DeclaresEncoder (enum : EnumNaming) (lines : List String) (branches : List (String × String)) :
    Prop :=
  ∃ item body, Elm.branches? "        " body = some branches ∧
    lines = [enum.encoder ++ " : " ++ enum.typeName ++ " -> Json.Encode.Value",
        enum.encoder ++ " " ++ item ++ " =", "    case " ++ item ++ " of"] ++ body

variable (enum : EnumNaming)

theorem branches?_decoder (constructors : List (String × String)) (default : String) :
    Elm.branches? "                    "
        (constructors.flatMap (fun entry =>
            Elm.branchLines "                    "
              (Naming.stringLiteral entry.1, "succeed " ++ entry.2) ++ [""])
          ++ Elm.branchLines "                    " ("_", default)) =
      some (constructors.map (fun entry => (Naming.stringLiteral entry.1, "succeed " ++ entry.2))
        ++ [("_", default)]) := by
  induction constructors with
  | nil => exact Elm.branches?_branchLines _ _
  | cons entry constructors ih =>
    rw [List.flatMap_cons, List.append_assoc, List.append_assoc, List.singleton_append,
      Elm.branches?_branchLines_append, ih]
    rfl

theorem declaresDecoder_decoderDeclaration (raw : String) :
    enum.DeclaresDecoder (enum.decoderDeclaration raw) (enum.decoderCases raw) := by
  refine ⟨raw, _, branches?_decoder enum.constructors _, ?_⟩
  rw [decoderDeclaration]
  simp [Elm.branchLines, ← String.append_assoc]

theorem branches?_encoder (constructors : List (String × String)) :
    Elm.branches? "        " (encoderBranches constructors) =
      some (constructors.map fun entry =>
        (entry.2, "Json.Encode.string " ++ Naming.stringLiteral entry.1)) := by
  induction constructors with
  | nil => rfl
  | cons entry constructors ih =>
    have hlines : ["        " ++ entry.2 ++ " ->",
        "            Json.Encode.string " ++ Naming.stringLiteral entry.1] =
        Elm.branchLines "        "
          (entry.2, "Json.Encode.string " ++ Naming.stringLiteral entry.1) := by
      simp [Elm.branchLines, ← String.append_assoc]
    cases constructors with
    | nil =>
      rw [encoderBranches, List.flatMap_nil, List.append_nil, hlines, Elm.branches?_branchLines]
      rfl
    | cons next constructors =>
      have hsplit : encoderBranches (entry :: next :: constructors) =
          ["        " ++ entry.2 ++ " ->",
            "            Json.Encode.string " ++ Naming.stringLiteral entry.1]
          ++ "" :: encoderBranches (next :: constructors) := rfl
      rw [hsplit, hlines, Elm.branches?_branchLines_append, ih]
      rfl

theorem declaresEncoder_encoderDeclaration (item : String) :
    enum.DeclaresEncoder (enum.encoderDeclaration item) enum.encoderCases :=
  ⟨item, _, branches?_encoder enum.constructors, rfl⟩

/-! ## What the functions of a block compute -/

theorem decodes?_decoderCases (raw s : String) :
    Elm.decodes? (enum.decoderCases raw) s =
      (enum.constructors.find? fun entry => entry.1 == s).map Prod.snd := by
  have hfits : (fun branch : String × String =>
        branch.1 == "_" || Elm.literal? branch.1 == some s) ∘
      (fun entry : String × String => (Naming.stringLiteral entry.1, "succeed " ++ entry.2)) =
        fun entry => entry.1 == s := by
    funext entry
    simp [Elm.literal?_stringLiteral, Elm.stringLiteral_ne_wildcard]
  rw [Elm.decodes?, decoderCases, List.find?_append, List.find?_map, hfits]
  cases enum.constructors.find? (fun entry => entry.1 == s) with
  | none =>
    -- the last branch fits, and it fails
    simp [Elm.after?, List.isPrefixOf?]
  | some entry => simp

theorem encodes?_encoderCases (constructor : String) :
    Elm.encodes? enum.encoderCases constructor =
      (enum.constructors.find? fun entry => entry.2 == constructor).map Prod.fst := by
  have hfits : (fun branch : String × String => branch.1 == constructor) ∘
      (fun entry : String × String =>
        (entry.2, "Json.Encode.string " ++ Naming.stringLiteral entry.1)) =
        fun entry => entry.2 == constructor := rfl
  rw [Elm.encodes?, encoderCases, List.find?_map, hfits]
  cases enum.constructors.find? (fun entry => entry.2 == constructor) with
  | none => rfl
  | some entry => simp [Elm.literal?_stringLiteral]

end EnumNaming

/-- Whether decoding and encoding are inverse to each other between the values of an enum and the
constructors of a type, and all other strings are rejected. -/
structure Inverse (values constructors : List String) (decode encode : String → Option String) :
    Prop where
  nodupValues : values.Nodup
  nodupConstructors : constructors.Nodup
  decode_encode : ∀ constructor ∈ constructors, ∃ value ∈ values,
    encode constructor = some value ∧ decode value = some constructor
  encode_decode : ∀ value ∈ values, ∃ constructor ∈ constructors,
    decode value = some constructor ∧ encode constructor = some value
  rejects : ∀ s, s ∉ values → decode s = none

theorem find?_of_nodup_map {α β : Type} [DecidableEq β] {f : α → β} {xs : List α} {x : α}
    (h : (xs.map f).Nodup) (hx : x ∈ xs) : (xs.find? fun y => f y == f x) = some x := by
  cases hfind : xs.find? fun y => f y == f x with
  | none => simpa using List.find?_eq_none.mp hfind x hx
  | some y =>
    have heq : f y = f x := by simpa using List.find?_some hfind
    rw [List.inj_on_of_nodup_map h (List.mem_of_find?_eq_some hfind) hx heq]

theorem inverse_of_nodup {pairs : List (String × String)} (hvalues : (pairs.map Prod.fst).Nodup)
    (hconstructors : (pairs.map Prod.snd).Nodup) :
    Inverse (pairs.map Prod.fst) (pairs.map Prod.snd)
      (fun s => (pairs.find? fun entry => entry.1 == s).map Prod.snd)
      (fun c => (pairs.find? fun entry => entry.2 == c).map Prod.fst) := by
  have hboth : ∀ entry ∈ pairs,
      (pairs.find? fun other => other.1 == entry.1) = some entry ∧
        (pairs.find? fun other => other.2 == entry.2) = some entry := by
    intro entry hentry
    exact ⟨find?_of_nodup_map hvalues hentry, find?_of_nodup_map hconstructors hentry⟩
  refine ⟨hvalues, hconstructors, ?_, ?_, ?_⟩
  · intro constructor hconstructor
    obtain ⟨entry, hentry, rfl⟩ := List.mem_map.mp hconstructor
    obtain ⟨hfst, hsnd⟩ := hboth entry hentry
    exact ⟨entry.1, List.mem_map_of_mem hentry, by rw [hsnd]; rfl, by rw [hfst]; rfl⟩
  · intro value hvalue
    obtain ⟨entry, hentry, rfl⟩ := List.mem_map.mp hvalue
    obtain ⟨hfst, hsnd⟩ := hboth entry hentry
    exact ⟨entry.2, List.mem_map_of_mem hentry, by rw [hfst]; rfl, by rw [hsnd]; rfl⟩
  · intro s hs
    rw [Option.map_eq_none_iff, List.find?_eq_none]
    intro entry hentry hfits
    apply hs
    rw [← eq_of_beq hfits]
    exact List.mem_map_of_mem hentry

/-! ## Enums of a module -/

/-- The constructors of an enum are made from the values that the schema lists for it, all in one way. -/
theorem EnumIndex.constructors_eq {schema : Schema} {names : List String} {index : EnumIndex}
    (h : ofNames schema names = .ok index) {enum : EnumNaming} (henum : enum ∈ index.enums) :
    ∃ values start, schema.enumValues? enum.name = some values ∧
      enum.constructors = values.map fun value => (value, start ++ Naming.pascalCase value) := by
  obtain ⟨plains, hplains, h⟩ := bind_eq_ok.mp h
  cases h
  obtain ⟨plain, hplain, rfl⟩ := List.mem_map.mp henum
  obtain ⟨name, -, hname⟩ := exists_of_mem_right (forall₂_of_mapM_eq_ok hplains) hplain
  unfold plainNaming at hname
  split at hname
  · next values hvalues =>
    cases hname
    split
    · refine ⟨values, (EnumNaming.plain name values).typeName, hvalues, ?_⟩
      simp [EnumNaming.qualified, EnumNaming.plain]
    · refine ⟨values, "", hvalues, ?_⟩
      simp [EnumNaming.plain]
  · cases hname

theorem ModulePlan.nodup_moduleValues {schema : Schema} {bindings : List Binding} {plan : ModulePlan}
    (h : ofBindings schema bindings = .ok plan) :
    (moduleValues bindings plan.unions plan.enums).Nodup := by
  obtain ⟨-, -, hvalues, -⟩ := ofBindings_eq_ok h
  exact hvalues.of_append_left

/-- The constructors of an enum are declared by the module, so they differ. -/
theorem ModulePlan.nodup_constructors {schema : Schema} {bindings : List Binding} {plan : ModulePlan}
    (h : ofBindings schema bindings = .ok plan) {enum : EnumNaming}
    (henum : enum ∈ plan.enums.enums) : (enum.constructors.map Prod.snd).Nodup := by
  have hmodule := nodup_moduleValues h
  rw [moduleValues] at hmodule
  have henums := hmodule.of_append_left.of_append_right
  exact ((List.nodup_flatMap.mp henums).1 enum henum).of_append_right

/-- Whether a text is the block of an enum: a custom type with the given constructors, and a decoder and an
encoder with the given branches. -/
def EnumNaming.IsBlock (enum : EnumNaming) (text : String) (constructors : List String)
    (decoder encoder : List (String × String)) : Prop :=
  ∃ types decoders encoders,
    text = Layout.linesText (types ++ ["", ""] ++ decoders ++ ["", ""] ++ encoders) ∧
      enum.DeclaresType types constructors ∧ enum.DeclaresDecoder decoders decoder ∧
      enum.DeclaresEncoder encoders encoder

theorem EnumNaming.isBlock_text (enum : EnumNaming) (scope : Scope) :
    ∃ raw, enum.IsBlock (enum.text scope) (enum.constructors.map Prod.snd) (enum.decoderCases raw)
      enum.encoderCases :=
  ⟨_, _, _, _, rfl, rfl, enum.declaresDecoder_decoderDeclaration _,
    enum.declaresEncoder_encoderDeclaration _⟩

theorem ModulePlan.enumText_mem_blocks {plan : ModulePlan} (options : ModuleOptions)
    (bindings : List Binding) {enum : EnumNaming} (h : enum ∈ plan.enums.enums) :
    enum.text { reserved := plan.values } ∈ plan.blocks options bindings := by
  have hmem := List.mem_map_of_mem (f := fun e : EnumNaming => e.text { reserved := plan.values }) h
  simp only [blocks, List.mem_append, hmem, or_true, true_or]

/-- In a module that is emitted, the block of every enum stands in the text, and its decoder and encoder are
inverse to each other between the values that the schema lists and the constructors of the custom type. -/
theorem emitModule_enums_inverse {schema : Schema} {options : ModuleOptions} {bindings : List Binding}
    {text : String} (h : emitModule schema options bindings = .ok text) :
    ∃ plan, ModulePlan.ofBindings schema bindings = .ok plan ∧ text = plan.text options bindings ∧
      ∀ enum ∈ plan.enums.enums, ∃ values constructors decoder encoder,
        schema.enumValues? enum.name = some values ∧
          enum.text { reserved := plan.values } ∈ plan.blocks options bindings ∧
          (∃ before after, text = before ++ "\n" ++ enum.text { reserved := plan.values } ++ after) ∧
          enum.IsBlock (enum.text { reserved := plan.values }) constructors decoder encoder ∧
          Inverse values constructors (Elm.decodes? decoder) (Elm.encodes? encoder) := by
  obtain ⟨plan, hplan, h⟩ := bind_eq_ok.mp h
  cases h
  refine ⟨plan, hplan, rfl, ?_⟩
  intro enum henum
  obtain ⟨-, henums, -, -⟩ := ModulePlan.ofBindings_eq_ok hplan
  obtain ⟨values, start, hvalues, hconstructors⟩ := EnumIndex.constructors_eq henums henum
  have hnodup := ModulePlan.nodup_constructors hplan henum
  have hfst : enum.constructors.map Prod.fst = values := by
    rw [hconstructors, List.map_map]
    exact List.map_id values
  -- values that are listed twice would have one constructor
  have hdiffer : (enum.constructors.map Prod.fst).Nodup := by
    rw [hfst]
    rw [hconstructors, List.map_map] at hnodup
    exact hnodup.of_map _
  obtain ⟨raw, hblock⟩ := enum.isBlock_text { reserved := plan.values }
  have hemitted := ModulePlan.enumText_mem_blocks options bindings henum
  refine ⟨values, _, _, _, hvalues, hemitted, ModulePlan.exists_text_eq hemitted, hblock, ?_⟩
  rw [← hfst]
  have hinverse := inverse_of_nodup hdiffer hnodup
  simpa only [funext (enum.decodes?_decoderCases raw), funext enum.encodes?_encoderCases] using hinverse

/-- A color is encoded by the constructor that it is decoded to, and no other string is a color. The functions
that say so stand in the text. -/
theorem emitModule_enums_inverse_color :
    ∃ text plan enum constructors decoder encoder constructor,
      emitModule Sample.colors ⟨"Api", "/graphql", .get⟩ [Sample.colorBinding] = .ok text ∧
      ModulePlan.ofBindings Sample.colors [Sample.colorBinding] = .ok plan ∧
      enum ∈ plan.enums.enums ∧ enum.name = "Color" ∧
      (∃ before after, text = before ++ "\n" ++ enum.text { reserved := plan.values } ++ after) ∧
      enum.IsBlock (enum.text { reserved := plan.values }) constructors decoder encoder ∧
      constructor ∈ constructors ∧ Elm.decodes? decoder "RED" = some constructor ∧
      Elm.encodes? encoder constructor = some "RED" ∧ Elm.decodes? decoder "BLUE" = none := by
  obtain ⟨plan, hplan⟩ := Sample.ofBindings_colorBinding
  have htext : emitModule Sample.colors ⟨"Api", "/graphql", .get⟩ [Sample.colorBinding] =
      .ok (plan.text ⟨"Api", "/graphql", .get⟩ [Sample.colorBinding]) :=
    bind_eq_ok.mpr ⟨plan, hplan, rfl⟩
  obtain ⟨plan', hplan', -, hinverse⟩ := emitModule_enums_inverse htext
  cases hplan.symm.trans hplan'
  have huses : Uses [Sample.colorBinding] (.enum "Color") :=
    ⟨Sample.colorBinding, List.mem_cons_self, .inr ⟨_, List.mem_cons_self, .maybe .self⟩⟩
  obtain ⟨enum, henum, hname⟩ := List.mem_map.mp ((ModulePlan.mem_enumNames_iff hplan).mpr huses)
  obtain ⟨values, constructors, decoder, encoder, hvalues, -, hstands, hblock, hinv⟩ :=
    hinverse enum henum
  have hlisted : Sample.colors.enumValues? "Color" = some ["RED"] := by decide +kernel
  rw [hname, hlisted] at hvalues
  cases hvalues
  obtain ⟨constructor, hconstructor, hdecode, hencode⟩ := hinv.encode_decode "RED" (by simp)
  exact ⟨_, plan, enum, constructors, decoder, encoder, constructor, htext, hplan, henum, hname, hstands,
    hblock, hconstructor, hdecode, hencode, hinv.rejects "BLUE" (by simp)⟩

end ElmBindings
