import ElmBindings.Proofs.EnumCode
import ElmBindings.Proofs.ProjectRun

set_option autoImplicit false

/-! # String literals

A text is written as a literal character by character, some of them as a backslash and a letter. Where the
literal ends is decided by the parity of backslashes: a quote ends it unless an odd number of backslashes
stands right before it. `IsInterior` is the invariant: inside a literal every quote is escaped so, and the
backslashes at the end are even in number, so that the closing quote is not. Reading a literal gives the text
back and stops at its closing quote, whatever follows (`stringLiteral_exact`). The text of an operation, in
which strings are escaped already, is the value of a constant that a module declares for it. -/

namespace ElmBindings

namespace Elm

/-! ## Escaped quotes -/

/-- The number of backslashes at the end of a text. -/
def slashesAtEnd (cs : List Char) : Nat := (cs.rtakeWhile (· == '\\')).length

theorem slashesAtEnd_slash (cs : List Char) : slashesAtEnd (cs ++ ['\\']) = slashesAtEnd cs + 1 := by
  rw [slashesAtEnd, List.rtakeWhile_concat_pos _ _ _ (by decide), List.length_append]
  rfl

theorem slashesAtEnd_of_ne (cs : List Char) {c : Char} (h : c ≠ '\\') :
    slashesAtEnd (cs ++ [c]) = 0 := by
  rw [slashesAtEnd, List.rtakeWhile_concat_neg _ _ _ (by simpa using h)]
  rfl

/-- Whether characters can stand between the quotes of a literal: they are on one line, every quote among
them is escaped, and the quote that follows them is not. -/
structure IsInterior (cs : List Char) : Prop where
  no_feed : '\n' ∉ cs
  no_return : '\r' ∉ cs
  quotes : ∀ before after, cs = before ++ '"' :: after → Odd (slashesAtEnd before)
  closed : Even (slashesAtEnd cs)

namespace IsInterior

variable {cs : List Char}

theorem nil : IsInterior [] where
  no_feed := List.not_mem_nil
  no_return := List.not_mem_nil
  quotes before after h := by simp at h
  closed := ⟨0, rfl⟩

/-- A quote in a longer text is one of the text before, or it is added. -/
theorem quotes_append (h : IsInterior cs) {more before after : List Char}
    (heq : cs ++ more = before ++ '"' :: after) :
    Odd (slashesAtEnd before) ∨ ∃ added, before = cs ++ added ∧ more = added ++ '"' :: after := by
  rcases List.append_eq_append_iff.mp heq with ⟨added, hbefore, hmore⟩ | ⟨rest, hcs, hrest⟩
  · exact .inr ⟨added, hbefore, hmore⟩
  · cases rest with
    | nil => exact .inr ⟨[], by simpa using hcs.symm, by simpa using hrest.symm⟩
    | cons c rest =>
      rw [List.cons_append, List.cons.injEq] at hrest
      exact .inl (h.quotes before rest (by rw [hcs, hrest.1]))

/-- A backslash and a letter keep the number of backslashes even, also if the letter is a backslash. -/
theorem escape (h : IsInterior cs) {e : Char} (hfeed : e ≠ '\n') (hreturn : e ≠ '\r') :
    IsInterior (cs ++ ['\\', e]) where
  no_feed := by simp [h.no_feed, hfeed.symm]
  no_return := by simp [h.no_return, hreturn.symm]
  quotes before after heq := by
    rcases h.quotes_append heq with hodd | ⟨added, rfl, hmore⟩
    · exact hodd
    · -- the added quote stands right after the added backslash
      obtain rfl : added = ['\\'] := by
        rcases added with - | ⟨a, - | ⟨b, added⟩⟩
        · simp at hmore
        · rw [(List.cons.inj hmore).1]
        · simp at hmore
      rw [slashesAtEnd_slash]
      exact h.closed.add_one
  closed := by
    rw [List.append_cons]
    by_cases he : e = '\\'
    · rw [he, slashesAtEnd_slash, slashesAtEnd_slash]
      exact h.closed.add_one.add_one
    · rw [slashesAtEnd_of_ne _ he]
      exact ⟨0, rfl⟩

theorem plain (h : IsInterior cs) {c : Char} (hquote : c ≠ '"') (hslash : c ≠ '\\') (hfeed : c ≠ '\n')
    (hreturn : c ≠ '\r') : IsInterior (cs ++ [c]) where
  no_feed := by simp [h.no_feed, hfeed.symm]
  no_return := by simp [h.no_return, hreturn.symm]
  quotes before after heq := by
    rcases h.quotes_append heq with hodd | ⟨added, rfl, hmore⟩
    · exact hodd
    · rcases added with - | ⟨a, added⟩ <;> simp_all
  closed := by
    rw [slashesAtEnd_of_ne _ hslash]
    exact ⟨0, rfl⟩

/-- One more character of a text keeps the invariant. -/
theorem escaped (h : IsInterior cs) (c : Char) : IsInterior (cs ++ Naming.escaped c) := by
  unfold Naming.escaped
  split
  · exact h.escape (by decide) (by decide)
  · exact h.escape (by decide) (by decide)
  · exact h.escape (by decide) (by decide)
  · exact h.escape (by decide) (by decide)
  · exact h.escape (by decide) (by decide)
  · next hquote hslash hfeed hreturn _ => exact h.plain hquote hslash hfeed hreturn

theorem flatMap_escaped (cs : List Char) : IsInterior (cs.flatMap Naming.escaped) := by
  induction cs using List.reverseRecOn with
  | nil => exact nil
  | append_singleton cs c ih =>
    rw [List.flatMap_append, List.flatMap_singleton]
    exact ih.escaped c

end IsInterior

/-! ## Reading literals -/

/-- The text that a literal at the front denotes, and what comes after the literal. -/
def readLiteral? : List Char → Option (String × List Char)
  | '"' :: rest => (literalBody? rest).map fun read => (String.ofList read.1, read.2)
  | _ => none

/-- A literal is read up to its closing quote, whatever comes after it. -/
theorem readLiteral?_stringLiteral (s : String) (rest : List Char) :
    readLiteral? ((Naming.stringLiteral s).toList ++ rest) = some (s, rest) := by
  have hchars : (Naming.stringLiteral s).toList ++ rest =
      '"' :: (s.toList.flatMap Naming.escaped ++ '"' :: rest) := by
    simp [Naming.stringLiteral]
  rw [hchars, readLiteral?, literalBody?_flatMap, Option.map_some, String.ofList_toList]

theorem stringLiteral_injective : Function.Injective Naming.stringLiteral := by
  intro s t h
  have hs := readLiteral?_stringLiteral s []
  rw [h, readLiteral?_stringLiteral] at hs
  exact (Prod.mk.inj (Option.some.inj hs)).1.symm

/-! ## Constants -/

/-- Whether a text declares a string constant on lines of its own: its type, its name, and a literal that
denotes its value and ends the line. -/
def DeclaresString (text name value : String) : Prop :=
  ∃ (before : String) (rest after : List Char),
    text.toList = (before ++ "\n" ++ name ++ " : String\n" ++ name ++ " =\n    ").toList ++ rest ∧
      readLiteral? rest = some (value, '\n' :: after)

theorem declaresString_constantText (before name value after : String) :
    DeclaresString
      (before ++ "\n" ++ constantText name "String" (Naming.stringLiteral value) ++ after) name value := by
  refine ⟨before, (Naming.stringLiteral value).toList ++ '\n' :: after.toList, after.toList, ?_,
    readLiteral?_stringLiteral value _⟩
  simp [constantText, Layout.linesText]

end Elm

/-! ## Documents of a module -/

namespace ModulePlan

variable {plan : ModulePlan} {options : ModuleOptions} {bindings : List Binding}

/-- The document of an operation is the value of its constant. -/
theorem declaresString_document {binding : Binding} (h : binding ∈ operationsOf bindings) :
    Elm.DeclaresString (plan.text options bindings) binding.documentName binding.document := by
  have hblock : constantText binding.documentName "String" (Naming.stringLiteral binding.document) ∈
      plan.blocks options bindings := by
    have hin : constantText binding.documentName "String" (Naming.stringLiteral binding.document) ∈
        (operationsOf bindings).flatMap
          (operationBlocks · options.method { reserved := plan.values }) := by
      refine List.mem_flatMap.mpr ⟨binding, h, ?_⟩
      simp [operationBlocks]
    simp only [blocks, List.mem_append, hin, or_true, true_or]
  obtain ⟨before, after, heq⟩ := exists_text_eq hblock
  rw [heq]
  exact Elm.declaresString_constantText before _ _ after

theorem count_documentName {schema : Schema} (hplan : ofBindings schema bindings = .ok plan)
    {binding : Binding} (h : binding ∈ operationsOf bindings) :
    (moduleValues bindings plan.unions plan.enums).count binding.documentName = 1 := by
  refine List.count_eq_one_of_mem (nodup_moduleValues hplan) ?_
  have hin : binding.documentName ∈ (operationsOf bindings).flatMap fun op =>
      [op.function, op.documentName, op.decoderName, op.typeName]
        ++ if op.inputs.isEmpty then [] else [op.variablesType, op.variablesEncoder] :=
    List.mem_flatMap.mpr ⟨binding, h, by simp⟩
  simp only [moduleValues, List.mem_append, hin, or_true, true_or]

end ModulePlan

/-- The binding for an operation has its name and its printed text. -/
theorem Binding.ofOperation_printed {schema : Schema} {index : FragmentIndex} {op : Operation}
    {binding : Binding} (h : ofOperation schema index op = .ok binding) :
    binding.isOperation = true ∧ binding.name = op.effectiveName ∧
      binding.document = op.documentText index := by
  rw [ofOperation] at h
  obtain ⟨⟨kind, type⟩, hroot, h⟩ := bind_eq_ok.mp h
  obtain ⟨parent, -, h⟩ := bind_eq_ok.mp h
  obtain ⟨shape, -, h⟩ := bind_eq_ok.mp h
  obtain ⟨inputs, -, h⟩ := bind_eq_ok.mp h
  cases h
  refine ⟨?_, rfl, rfl⟩
  unfold root at hroot
  split at hroot
  · cases hroot
    rfl
  · split at hroot <;> cases hroot
    rfl
  · cases hroot

/-- The constant that holds the text of an operation. -/
def Operation.constantName (op : Operation) : String :=
  Naming.valueName op.effectiveName ++ "Document"

/-- A literal is quoted on both sides, holds no line end and no quote that could end it, and is read as the
text that it is written for, whatever follows it. So different texts have different literals, and in a module
that is generated the constant for each operation, which is declared once, denotes the operation as it is
printed. -/
theorem stringLiteral_exact :
    (∀ s, ∃ interior, Naming.stringLiteral s = "\"" ++ interior ++ "\"" ∧
      Elm.IsInterior interior.toList ∧
      ∀ rest, Elm.readLiteral? ((Naming.stringLiteral s).toList ++ rest) = some (s, rest)) ∧
    Function.Injective Naming.stringLiteral ∧
    ∀ schema options source text, generateModule schema options source = .ok text →
      ∃ document index bindings plan, Document.parse source = .ok document ∧
        FragmentIndex.ofDocument document = .ok index ∧
        Binding.ofDocument schema document = .ok bindings ∧
        ModulePlan.ofBindings schema bindings = .ok plan ∧
        ∀ op, Definition.operation op ∈ document.definitions →
          (moduleValues bindings plan.unions plan.enums).count op.constantName = 1 ∧
            Elm.DeclaresString text op.constantName (op.documentText index) := by
  refine ⟨?_, Elm.stringLiteral_injective, ?_⟩
  · intro s
    refine ⟨String.ofList (s.toList.flatMap Naming.escaped), ?_, ?_,
      Elm.readLiteral?_stringLiteral s⟩
    · apply String.toList_inj.mp
      simp [Naming.stringLiteral]
    · rw [String.toList_ofList]
      exact .flatMap_escaped s.toList
  · intro schema options source text h
    obtain ⟨document, hdocument, h⟩ := bind_eq_ok.mp h
    obtain ⟨bindings, hbindings, h⟩ := bind_eq_ok.mp h
    obtain ⟨plan, hplan, h⟩ := bind_eq_ok.mp h
    cases h
    obtain ⟨index, hindex, hall⟩ := Binding.ofDocument_eq_ok hbindings
    refine ⟨document, index, bindings, plan, mapError_eq_ok.mp hdocument, hindex, hbindings, hplan, ?_⟩
    intro op hop
    obtain ⟨binding, hbinding, hof⟩ := exists_of_mem_right hall.flip hop
    obtain ⟨hoperation, hname, hprinted⟩ := Binding.ofOperation_printed hof
    have hmem : binding ∈ operationsOf bindings := List.mem_filter.mpr ⟨hbinding, hoperation⟩
    have hconstant : op.constantName = binding.documentName := by
      rw [Operation.constantName, Binding.documentName, Binding.function, hname]
    rw [hconstant, ← hprinted]
    exact ⟨ModulePlan.count_documentName hplan hmem, ModulePlan.declaresString_document hmem⟩

namespace Sample

/-- A query with a string that ends in a backslash and holds a quote. -/
def quotingText : String := "query q \x7b me(at: \"a\\\"b\\\\\") \x7d"

def quotingOperation : Operation :=
  ⟨.query, some "q", [], [.field ⟨none, "me", [("at", .string "a\"b\\")], false, ⟨1, 11⟩⟩ []], ⟨1, 1⟩⟩

def quotingBinding : Binding := { meBinding with document := quotingText }

theorem parse_quotingText : Document.parse quotingText = .ok ⟨[.operation quotingOperation]⟩ := by
  cbv

theorem documentText_quoting (index : FragmentIndex) :
    quotingOperation.documentText index = quotingText := by
  cbv

section

attribute [local irreducible] Naming.valueName

theorem ofDocument_quoting :
    Binding.ofDocument meSchema ⟨[.operation quotingOperation]⟩ = .ok [quotingBinding] := by
  cbv

end

theorem exists_generateModule_quoting (options : ModuleOptions) :
    ∃ elm, generateModule meSchema options quotingText = .ok elm := by
  obtain ⟨plan, hplan⟩ : ∃ plan, ModulePlan.ofBindings meSchema [quotingBinding] = .ok plan :=
    exists_eq_ok (by rfl)
  exact ⟨_, bind_eq_ok.mpr ⟨_, mapError_eq_ok.mpr parse_quotingText,
    bind_eq_ok.mpr ⟨_, ofDocument_quoting, bind_eq_ok.mpr ⟨plan, hplan, rfl⟩⟩⟩⟩

end Sample

/-- The string in the query is escaped twice, and read back by reading the literal. -/
theorem stringLiteral_exact_quoting :
    ∃ elm, generateModule Sample.meSchema ⟨"Me", "/graphql", .get⟩ Sample.quotingText = .ok elm ∧
      Elm.DeclaresString elm "qDocument" Sample.quotingText := by
  obtain ⟨elm, helm⟩ := Sample.exists_generateModule_quoting ⟨"Me", "/graphql", .get⟩
  obtain ⟨document, index, bindings, plan, hdocument, hindex, -, -, hop⟩ :=
    stringLiteral_exact.2.2 _ _ _ _ helm
  cases Sample.parse_quotingText.symm.trans hdocument
  have hdeclares := (hop Sample.quotingOperation List.mem_cons_self).2
  have hname : Sample.quotingOperation.constantName = "qDocument" := rfl
  rw [hname, Sample.documentText_quoting] at hdeclares
  exact ⟨elm, helm, hdeclares⟩

end ElmBindings
