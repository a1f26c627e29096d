import ElmBindings.Proofs.CustomBlocks
import ElmBindings.Proofs.DecoderMeaning
import ElmBindings.Proofs.Requests
import ElmBindings.Proofs.Written

set_option autoImplicit false

/-! # Generated decoders as Elm text

Where the names of a schema and a document are words, the names in a generated decoder are Elm names,
so its text is an expression of the grammar. `Binding.read_decoder` says that this expression is the
only one that the text can be read as, and that it stands for the decoder. -/

namespace ElmBindings

open Elm

/-! ## Names of letters, digits and underscores -/

namespace Elm

theorem toNat_lt_of_isWordChar {c : Char} (h : isWordChar c = true) : c.toNat < 0x80 := by
  simp only [isWordChar, Char.isAlphanum, Char.isAlpha, Char.isUpper, Char.isLower, Char.isDigit,
    Bool.or_eq_true, Bool.and_eq_true, decide_eq_true_eq, beq_iff_eq, UInt32.le_iff_toNat_le,
    ge_iff_le] at h
  rcases h with ((⟨-, h⟩ | ⟨-, h⟩) | ⟨-, h⟩) | rfl
  · exact lt_of_le_of_lt h (by decide)
  · exact lt_of_le_of_lt h (by decide)
  · exact lt_of_le_of_lt h (by decide)
  · decide

/-- What holds of the ASCII characters one by one holds of each character of a word. -/
theorem forall_isWordChar {P : Char → Prop} (h : ∀ n < 0x80, P (Char.ofNat n)) {c : Char}
    (hc : isWordChar c = true) : P c := by
  have hofNat := h c.toNat (toNat_lt_of_isWordChar hc)
  rwa [Char.ofNat_toNat] at hofNat

theorem isWordChar_toLower {c : Char} (hc : isWordChar c = true) : isWordChar c.toLower = true := by
  refine forall_isWordChar (P := fun c => isWordChar c = true → isWordChar c.toLower = true) ?_ hc hc
  decide +kernel

theorem isWordChar_toUpper {c : Char} (hc : isWordChar c = true) :
    isWordChar c.toUpper = true ∧ c.toUpper.isLower = false := by
  refine forall_isWordChar
    (P := fun c => isWordChar c = true → isWordChar c.toUpper = true ∧ c.toUpper.isLower = false)
    ?_ hc hc
  decide +kernel

/-- A word at the start of a text ends where the text breaks off. -/
theorem takeWhile_isWordChar {word : String} (hword : isWord word = true) {cs : List Char}
    (hcs : Breaks cs) : (word.toList ++ cs).takeWhile isWordChar = word.toList := by
  rw [isWord, Bool.and_eq_true, List.all_eq_true] at hword
  exact Text.takeWhile_run hword.2 hcs

theorem isWord_ofList {c : Char} {cs : List Char} :
    isWord (String.ofList (c :: cs)) = true ↔ ∀ d ∈ c :: cs, isWordChar d = true := by
  simp [isWord]

end Elm

namespace Naming

theorem isName_capitalize {s : String} (h : isWord s = true) : IsName (capitalize s) := by
  obtain ⟨c, cs, hs, hc, hcs⟩ := isWord_cons h
  have hupper := isWordChar_toUpper hc
  have heq : capitalize s = String.ofList (c.toUpper :: cs) := by
    simp [capitalize, hs, Text.upper, toNat_lt_of_isWordChar hc]
  rw [heq]
  refine ⟨isWord_ofList.mpr (List.forall_mem_cons.mpr ⟨hupper.1, hcs⟩), ?_⟩
  exact not_reserved (by simp) hupper.2

theorem isWordChar_of_mem_lowerFirst {cs : List Char} (h : ∀ c ∈ cs, isWordChar c = true) :
    ∀ c ∈ (lowerFirst (String.ofList cs)).toList, isWordChar c = true := by
  cases cs with
  | nil => simp [lowerFirst]
  | cons c cs =>
    obtain ⟨hc, hcs⟩ := List.forall_mem_cons.mp h
    simpa [lowerFirst, Text.lower, toNat_lt_of_isWordChar hc, isWordChar_toLower hc] using hcs

theorem isName_valueName {s : String} (h : isWord s = true) : IsName (valueName s) := by
  have hchars : ∀ c ∈ s.toList.dropWhile (· == '_'), isWordChar c = true := by
    intro c hc
    simp only [isWord, Bool.and_eq_true, List.all_eq_true] at h
    exact h.2 c ((List.dropWhile_sublist _).subset hc)
  unfold valueName
  extract_lets name
  have hname : ∀ c ∈ name.toList, isWordChar c = true := isWordChar_of_mem_lowerFirst hchars
  split_ifs with hempty hreserved
  · decide
  · have hword : isWord name = true := by simpa [isWord, hempty] using hname
    exact ⟨isWord_append hword (by decide), not_reserved (c := '_') (by simp) (by decide)⟩
  · exact ⟨by simpa [isWord, hempty] using hname, hreserved⟩

end Naming

theorem isWordChar_of_mem_lowerAfter {before cs : List Char} (h : ∀ c ∈ cs, isWordChar c = true) :
    ∀ c ∈ Text.lowerAfter before cs, isWordChar c = true := by
  induction cs generalizing before with
  | nil => simp [Text.lowerAfter]
  | cons c cs ih =>
    obtain ⟨hc, hcs⟩ := List.forall_mem_cons.mp h
    have hsigma : c ≠ 'Σ' := by
      rintro rfl
      cases hc
    simpa [Text.lowerAfter, hsigma, Text.lower, toNat_lt_of_isWordChar hc, isWordChar_toLower hc]
      using ih hcs

theorem Primitive.plain_enum {name : String} (h : isWord name = true) :
    (enum name (Decoder.enumName name)).Plain := by
  have hlower : ∀ c ∈ (Text.lowerText name).toList, isWordChar c = true := by
    simp only [isWord, Bool.and_eq_true, List.all_eq_true] at h
    simpa [Text.lowerText] using isWordChar_of_mem_lowerAfter h.2
  refine ⟨⟨?_, not_reserved (c := 'D') (by simp [Decoder.enumName]) (by decide)⟩, _, rfl⟩
  simpa [Decoder.enumName, isWord, or_imp, forall_and, isWordChar] using hlower

/-! ## Schemas and documents -/

mutual

/-- Whether the names of fields and types in a selection are words. -/
def Selection.isPlain : Selection → Bool
  | .field f selections => isWord f.name && f.label.all isWord && arePlain selections
  | .spread _ _ => true
  | .inline condition selections _ => condition.all isWord && arePlain selections

/-- Whether the names in all of some selections are words. -/
def arePlain : List Selection → Bool
  | [] => true
  | x :: xs => x.isPlain && arePlain xs

end

/-- Whether the name of a definition and the names that it selects are words, and it selects something. -/
def Definition.isPlain (d : Definition) : Bool :=
  isWord d.name && !d.selections.isEmpty && arePlain d.selections

/-- Whether the names in a document are words, and no definition is empty. -/
def Document.isPlain (document : Document) : Bool := document.definitions.all Definition.isPlain

/-- Whether the names of types are words. -/
def Schema.isPlain (schema : Schema) : Bool := schema.types.all fun d => isWord d.name

theorem arePlain_iff {selections : List Selection} :
    arePlain selections = true ↔ ∀ x ∈ selections, x.isPlain = true := by
  induction selections with
  | nil => simp [arePlain]
  | cons x xs ih => simp [arePlain, ih]

theorem arePlain_onMember {member : String} {selections : List Selection}
    (h : arePlain selections = true) : arePlain (onMember member selections) = true := by
  fun_induction onMember member selections with
  | case1 => exact h
  | case2 inner position rest ih =>
    simp only [arePlain, Selection.isPlain, Bool.and_eq_true] at h
    rw [arePlain_iff, List.forall_mem_append]
    exact ⟨arePlain_iff.mp h.1.2, arePlain_iff.mp (ih h.2)⟩
  | case3 condition inner position rest _ ih =>
    simp only [arePlain, Bool.and_eq_true] at h
    exact ih h.2
  | case4 x rest _ ih =>
    simp only [arePlain, Bool.and_eq_true] at h
    exact ih h.2

theorem isWord_of_mem_conditions {member : String} {selections : List Selection}
    (h : arePlain selections = true) (hmember : member ∈ conditions selections) :
    isWord member = true := by
  obtain ⟨x, hx, hcondition⟩ := List.mem_filterMap.mp hmember
  have hplain := arePlain_iff.mp h x hx
  cases x with
  | inline condition inner position =>
    obtain rfl : condition = some member := hcondition
    simp only [Selection.isPlain, Option.all_some, Bool.and_eq_true] at hplain
    exact hplain.1
  | _ => cases hcondition

/-! ### Documents that are read from a text -/

theorem isWord_of_isName {s : String} (h : GraphQL.isName s = true) : isWord s = true := by
  rw [GraphQL.isName] at h
  split at h
  · cases h
  · next c cs hs =>
    rw [Bool.and_eq_true, List.all_eq_true] at h
    have hc : isWordChar c = true := by
      have hstart := h.1
      simp only [GraphQL.isNameStart, Bool.or_eq_true] at hstart
      rcases hstart with hstart | hstart <;> simp [isWordChar, Char.isAlphanum, hstart]
    have hcs : ∀ d ∈ cs, isWordChar d = true := by
      intro d hd
      have hname := h.2 d hd
      rwa [GraphQL.isNameChar, Bool.or_comm] at hname
    have heq : s = String.ofList (c :: cs) := String.toList_inj.mp (by simpa using hs)
    rw [heq]
    exact isWord_ofList.mpr (List.forall_mem_cons.mpr ⟨hc, hcs⟩)

theorem all_isWord_of_isName {name : Option String} (h : ∀ s ∈ name, GraphQL.isName s = true) :
    name.all isWord = true := by
  cases name with
  | none => rfl
  | some s => exact isWord_of_isName (h s rfl)

section

variable {floats : Binary64 → Bool}

mutual

theorem Selection.isPlain_of_written {depth : Nat} :
    ∀ x : Selection, x.Written floats depth → x.isPlain = true
  | .field f selections, h => by
    rw [Selection.Written] at h
    obtain ⟨hlabel, hname, -, hinner⟩ := h
    rw [Selection.isPlain, isWord_of_isName hname, all_isWord_of_isName hlabel]
    rcases hinner with rfl | ⟨-, hinner⟩
    · rfl
    · exact arePlain_of_written selections hinner
  | .spread _ _, _ => by rw [Selection.isPlain]
  | .inline condition selections _, h => by
    rw [Selection.Written] at h
    obtain ⟨hcondition, -, -, hinner⟩ := h
    rw [Selection.isPlain, all_isWord_of_isName hcondition]
    exact arePlain_of_written selections hinner

theorem arePlain_of_written {depth : Nat} :
    ∀ xs : List Selection, SelectionsWritten floats depth xs → arePlain xs = true
  | [], _ => by rw [arePlain]
  | x :: xs, h => by
    rw [SelectionsWritten] at h
    rw [arePlain, Selection.isPlain_of_written x h.1, arePlain_of_written xs h.2]
    rfl

end

theorem Definition.isPlain_of_written {d : Definition} (h : d.Written floats) : d.isPlain = true := by
  cases d with
  | operation op =>
    obtain ⟨hname, -, hne, hselections⟩ := h
    have hword : isWord op.effectiveName = true := by
      unfold Operation.effectiveName
      cases hop : op.name with
      | none => decide
      | some name => exact isWord_of_isName (hname name hop)
    simpa [Definition.isPlain, Definition.name, Definition.selections, hword, hne]
      using arePlain_of_written _ hselections
  | fragment f =>
    obtain ⟨hname, -, hne, hselections⟩ := h
    simpa [Definition.isPlain, Definition.name, Definition.selections, isWord_of_isName hname, hne]
      using arePlain_of_written _ hselections

end

/-- The names in a text are words, and braces are not empty there. -/
theorem Document.isPlain_of_parse {text : String} {document : Document}
    (h : Document.parse text = .ok document) : document.isPlain = true := by
  have hwritten : ∀ d ∈ document.definitions, d.Written fun _ => true :=
    Document.parse_written h fun _ _ => rfl
  exact List.all_eq_true.mpr fun d hd => Definition.isPlain_of_written (hwritten d hd)

/-! ## Decoders of plain documents -/

namespace FragmentIndex

/-- Whether the names in all fragments are words, and no fragment is empty. -/
def Plain (index : FragmentIndex) : Prop :=
  ∀ name fragment, index.get? name = some fragment →
    fragment.selections ≠ [] ∧ arePlain fragment.selections = true

theorem plain_of_ofDocument {document : Document} {index : FragmentIndex}
    (hdocument : document.isPlain = true) (h : ofDocument document = .ok index) : index.Plain := by
  intro name fragment hget
  have hmem := (get?_eq_some hget).1
  rw [fragments_of_ofDocument h, Document.fragments, List.mem_filterMap] at hmem
  obtain ⟨d, hd, hfragment⟩ := hmem
  have hplain := List.all_eq_true.mp hdocument d hd
  cases d with
  | operation op => cases hfragment
  | fragment other =>
    cases hfragment
    simp only [Definition.isPlain, Definition.selections, Bool.and_eq_true] at hplain
    exact ⟨by simpa using hplain.1.2, hplain.2⟩

end FragmentIndex

section

variable {schema : Schema} {index : FragmentIndex} {chain : List String} {parent : ObjectDef}
  {selections : List Selection}

theorem isPlain_of_mem_flatten (hindex : index.Plain) (h : arePlain selections = true) {s : Selected}
    (hs : s ∈ flatten schema index chain parent selections) :
    (Selection.field s.field s.inner).isPlain = true := by
  fun_induction flatten schema index chain parent selections with
  | case1 => cases hs
  | case2 chain parent field inner rest ih =>
    rw [arePlain, Bool.and_eq_true] at h
    rcases List.mem_cons.mp hs with rfl | hrest
    · exact h.1
    · exact ih h.2 hrest
  | case3 chain parent name position rest hspread hrest =>
    rw [arePlain, Bool.and_eq_true] at h
    rcases List.mem_append.mp hs with hin | hin
    · split at hin
      · next object inner found =>
        obtain ⟨-, fragment, hget, -, rfl⟩ := Schema.spread?_eq_some found
        exact hspread object _ found (hindex name fragment hget).2 hin
      · cases hin
    · exact hrest h.2 hin
  | case4 chain parent condition inner position rest ih =>
    rw [arePlain, Bool.and_eq_true] at h
    exact ih h.2 hs

/-- Selections that can be expanded ask for something: a spread stands for the fields of a fragment,
which is not empty. -/
theorem flatten_ne_nil (hindex : index.Plain) (hne : selections ≠ []) {shape result : Shape}
    (h : expand schema index chain parent shape selections = .ok result) :
    flatten schema index chain parent selections ≠ [] := by
  fun_induction flatten schema index chain parent selections generalizing shape result with
  | case1 => exact absurd rfl hne
  | case2 => simp
  | case3 chain parent name position rest hspread hrest =>
    obtain ⟨object, inner, middle, htarget, hmiddle, -⟩ := expand_spread_eq_ok h
    obtain ⟨-, fragment, hget, -, rfl⟩ := Schema.spread?_eq_some htarget
    have hfields := hspread _ _ htarget (hindex name fragment hget).1 hmiddle
    split
    · next found =>
      cases htarget.symm.trans found
      simp [hfields]
    · next found => cases htarget.symm.trans found
  | case4 =>
    rw [expand] at h
    cases h

theorem names_ne_nil (hindex : index.Plain) (hne : selections ≠ []) {shape : Shape}
    (h : expand schema index chain parent {} selections = .ok shape) : shape.names ≠ [] := by
  rw [Shape.names, names_of_isEntry (expand_selected h), selected]
  cases hfields : flatten schema index chain parent selections with
  | nil => exact absurd hfields (flatten_ne_nil hindex hne h)
  | cons s rest => simp [firsts]

end

namespace Decoder

theorem plainAll_iff {values : List Decoder} : PlainAll values ↔ ∀ value ∈ values, value.Plain := by
  induction values with
  | nil => simp [PlainAll]
  | cons value values ih => simp [PlainAll, ih]

theorem plainCases_iff {cases : List (String × Decoder)} :
    PlainCases cases ↔ ∀ c ∈ cases, isWord c.1 = true ∧ c.2.Plain := by
  induction cases with
  | nil => simp [PlainCases]
  | cons c cases ih => simp [PlainCases, ih, and_assoc]

theorem Plain.lists {decoder : Decoder} (h : decoder.Plain) (depth : Nat) :
    (decoder.lists depth).Plain := by
  induction depth with
  | zero => exact h
  | succ depth ih =>
    rw [Decoder.lists, Plain]
    exact ih

theorem plain_construct {build : Constructor} {values : List Decoder} (hbuild : build.Plain)
    (hempty : build.fields = [] → build.PlainEmpty) (hlength : build.fields.length = values.length)
    (hvalues : ∀ value ∈ values, value.Plain) : (construct build values).Plain := by
  cases values with
  | nil =>
    rw [construct, Plain]
    exact hempty (List.length_eq_zero_iff.mp hlength)
  | cons value values =>
    rw [construct, Plain, plainAll_iff]
    · exact ⟨hbuild, by simp, hlength, hvalues⟩
    · simp

end Decoder

namespace Shape

/-- Whether the fields of a shape have Elm names and plain decoders. -/
def Plain (shape : Shape) : Prop :=
  ∀ e ∈ shape.entries, IsName e.name ∧ e.decoder.Plain

variable {shape : Shape}

theorem Plain.isName (h : shape.Plain) : ∀ name ∈ shape.names, IsName name := by
  intro name hname
  obtain ⟨e, he, rfl⟩ := List.mem_map.mp hname
  exact (h e he).1

theorem Plain.decoders (h : shape.Plain) : ∀ d ∈ shape.decoders, d.Plain := by
  intro d hd
  obtain ⟨e, he, rfl⟩ := List.mem_map.mp hd
  exact (h e he).2

theorem length_names (shape : Shape) : shape.names.length = shape.decoders.length := by
  simp [names, Shape.decoders]

/-- The decoder of a record is plain, unless it has a label but no fields. -/
theorem Plain.record (h : shape.Plain) {label : Option String} (hlabel : ∀ name ∈ label, IsName name)
    (hempty : shape.names = [] → label = none) : (shape.recordDecoder label).Plain :=
  Decoder.plain_construct ⟨hlabel, h.isName⟩ (fun hnil => ⟨hempty hnil, hnil⟩) shape.length_names
    h.decoders

theorem Plain.union {variants : Variants}
    (h : ∀ variant ∈ variants, isWord variant.1 = true ∧ variant.2.Plain) :
    (unionDecoder variants).Plain := by
  rw [unionDecoder, Decoder.Plain, Decoder.plainCases_iff]
  intro c hc
  obtain ⟨⟨member, shape⟩, hvariant, rfl⟩ := List.mem_map.mp hc
  obtain ⟨hmember, hshape⟩ := h _ hvariant
  have htag := Naming.isName_capitalize hmember
  exact ⟨hmember, Decoder.plain_construct ⟨htag, hshape.isName⟩ (fun hnil => ⟨htag, hnil⟩)
    shape.length_names hshape.decoders⟩

end Shape

theorem scalarLeaf_plain (name : String) : (scalarLeaf name).1.Plain := by
  rcases scalarLeaf_cases name with h | h | h | h <;> rw [h] <;> trivial

theorem Selected.entry_plain {s : Selected} (hs : (Selection.field s.field s.inner).isPlain = true)
    (type : TypeRef) (elm : ElmType) {decoder : Decoder} (h : decoder.Plain) :
    IsName (s.entry type elm decoder).name ∧ (s.entry type elm decoder).decoder.Plain := by
  simp only [Selection.isPlain, Bool.and_eq_true] at hs
  obtain ⟨⟨hname, hlabel⟩, -⟩ := hs
  constructor
  · rw [entry_name, Selected.name]
    apply Naming.isName_valueName
    unfold Field.responseKey
    cases hkey : s.field.label with
    | none => exact hname
    | some label => simpa [hkey] using hlabel
  · have hread : (Decoder.field s.field.name (decoder.lists type.layers)).Plain := by
      rw [Decoder.Plain]
      exact ⟨hname, h.lists _⟩
    simp only [entry]
    split
    · rw [Decoder.Plain]
      exact hread
    · exact hread

/-- The decoders that an expansion makes are plain. -/
theorem expand_plain {schema : Schema} {index : FragmentIndex} (hschema : schema.isPlain = true)
    (hindex : index.Plain) (chain : List String) (selections : List Selection) :
    arePlain selections = true →
      ∀ parent shape, expand schema index chain parent {} selections = .ok shape → shape.Plain := by
  induction chain, selections using selections_induction schema index with
  | step chain selections ih =>
    intro hplain parent shape h e he
    obtain ⟨s, hs, type, d, elm, decoder, htype, hreading, rfl⟩ :=
      exists_of_mem_right (expand_selected h) he
    have hfield := isPlain_of_mem_flatten hindex hplain (mem_flatten_of_mem_selected hs)
    have hinnerPlain : arePlain s.inner = true := by
      rw [Selection.isPlain, Bool.and_eq_true] at hfield
      exact hfield.2
    obtain ⟨hinner, hmember⟩ := ih parent s hs
    apply Selected.entry_plain hfield
    cases hreading with
    | scalar d =>
      rw [Decoder.Plain]
      exact scalarLeaf_plain d.name
    | enum d =>
      rw [Decoder.Plain]
      have hmem := Schema.mem_of_get? (Selected.get?_of_type? htype)
      exact Primitive.plain_enum (List.all_eq_true.mp hschema _ hmem)
    | object hd hshape => exact (hinner hinnerPlain _ _ hshape).record (by simp) fun _ => rfl
    | union hvariants =>
      have hholds := expandUnion_members hvariants
      apply Shape.Plain.union
      intro ⟨member, shape⟩ hin
      obtain ⟨-, object, -, hshape⟩ := hholds.shapes member shape hin
      refine ⟨?_, hmember member (arePlain_onMember hinnerPlain) object shape hshape⟩
      exact isWord_of_mem_conditions hinnerPlain
        ((hholds.mem_keys member).mp (List.mem_map_of_mem hin))

namespace Binding

/-- A binding has the name of its definition. -/
theorem names_eq {schema : Schema} {index : FragmentIndex} {d : Definition} {binding : Binding}
    (h : ofDefinition schema index d = .ok binding) :
    binding.name = d.name ∧ binding.typeName = Naming.capitalize d.name := by
  cases d with
  | operation op =>
    obtain ⟨_, -, h⟩ := bind_eq_ok.mp h
    obtain ⟨parent, -, h⟩ := bind_eq_ok.mp h
    obtain ⟨shape, -, h⟩ := bind_eq_ok.mp h
    obtain ⟨inputs, -, h⟩ := bind_eq_ok.mp h
    cases h
    exact ⟨rfl, rfl⟩
  | fragment f =>
    obtain ⟨parent, -, h⟩ := bind_eq_ok.mp h
    obtain ⟨shape, -, h⟩ := bind_eq_ok.mp h
    cases h
    exact ⟨rfl, rfl⟩

/-- The decoder of a definition with plain names is plain. -/
theorem plain_decoder {schema : Schema} {index : FragmentIndex} {d : Definition} {binding : Binding}
    (hschema : schema.isPlain = true) (hindex : index.Plain) (hd : d.isPlain = true)
    (h : ofDefinition schema index d = .ok binding) : binding.decoder.Plain := by
  simp only [Definition.isPlain, Bool.and_eq_true] at hd
  obtain ⟨⟨hname, hne⟩, hselections⟩ := hd
  have htype : IsName binding.typeName := by
    rw [(names_eq h).2]
    exact Naming.isName_capitalize hname
  have hexpand := expand_plain hschema hindex d.chain d.selections hselections
  cases d with
  | operation op =>
    obtain ⟨parent, shape, -, hshape, -, hdecoder, -⟩ := ofOperation_eq_ok h
    have hfields : shape.names ≠ [] := names_ne_nil hindex (by simpa [Definition.selections] using hne) hshape
    rw [hdecoder]
    -- an alias without fields would be lost in the text
    exact (hexpand parent shape hshape).record (by simpa using htype) fun hnil => absurd hnil hfields
  | fragment f =>
    obtain ⟨parent, shape, -, hshape, -, hdecoder⟩ := ofFragment_eq_ok h
    rw [hdecoder]
    exact (hexpand parent shape hshape).record (by simp) fun _ => rfl

end Binding

/-! ## Reading the text of a decoder -/

/-- The text of a plain decoder is laid out from a tree with fresh names, and is read as the expression of
that tree only. -/
theorem Decoder.Plain.read_code {decoder : Decoder} (h : decoder.Plain) (scope : Scope)
    {indent context column : Nat} (hindent : context ≤ indent) (hcolumn : context < column) :
    ∃ code tokens, decoder.Named scope code ∧ decoder.text scope indent = code.text indent ∧
      Elm.tokens? column (decoder.text scope indent).toList = some tokens ∧
      Phrase context tokens code.expr [] ∧ ∀ e, Phrase context tokens e [] → e = code.expr := by
  obtain ⟨code, hnamed, htext⟩ := (decoder.writes_written scope indent).output
  obtain ⟨stop, tokens, -, hlexes, hphrase⟩ :=
    code.reads hindent (hnamed.readable h) column hcolumn
  have htokens : Elm.tokens? column (decoder.text scope indent).toList = some tokens := by
    simpa [Decoder.text, htext, Elm.tokens?] using hlexes [] breaks_nil
  have hphrase : Phrase context tokens code.expr [] := by simpa using hphrase []
  have hends : Ends context [] := by simp [Ends]
  refine ⟨code, tokens, hnamed, htext, htokens, hphrase, ?_⟩
  intro e he
  exact (he.unique hphrase hends hends).1

/-- The text of a plain decoder is read in one way only, and stands for the decoder. -/
theorem Decoder.Plain.read {decoder : Decoder} (h : decoder.Plain) (scope : Scope)
    {indent context column : Nat} (hindent : context ≤ indent) (hcolumn : context < column) :
    ∃ tokens, Elm.tokens? column (decoder.text scope indent).toList = some tokens ∧
      ∃ e, Phrase context tokens e [] ∧ (∀ e', Phrase context tokens e' [] → e' = e) ∧
        e.decoder? [] = some decoder.shown := by
  obtain ⟨code, tokens, hnamed, -, htokens, hphrase, hunique⟩ := h.read_code scope hindent hcolumn
  exact ⟨tokens, htokens, code.expr, hphrase, hunique, hnamed.decoder? (by simp) h⟩

namespace Binding

/-- The text of every decoder that is generated where all names are words is an expression of the grammar,
can be read as no other expression, and stands for the decoder, up to what no text shows: the parameters
of a lambda, the fields of an alias and the GraphQL name of an enum. The text may be written in any scope
and indented in any way that is not to the left of its context. -/
theorem read_decoder {schema : Schema} {document : Document} {bindings : List Binding}
    (hschema : schema.isPlain = true) (hdocument : document.isPlain = true)
    (h : ofDocument schema document = .ok bindings) {binding : Binding} (hbinding : binding ∈ bindings)
    (scope : Scope) {indent context column : Nat} (hindent : context ≤ indent)
    (hcolumn : context < column) :
    ∃ tokens, Elm.tokens? column (binding.decoder.text scope indent).toList = some tokens ∧
      ∃ e, Phrase context tokens e [] ∧ (∀ e', Phrase context tokens e' [] → e' = e) ∧
        e.decoder? [] = some binding.decoder.shown := by
  obtain ⟨index, hindex, hall⟩ := ofDocument_eq_ok h
  obtain ⟨d, hd, hof⟩ := exists_of_mem_right hall hbinding
  have hplain := plain_decoder hschema (FragmentIndex.plain_of_ofDocument hdocument hindex)
    (List.all_eq_true.mp hdocument d hd) hof
  exact hplain.read scope hindent hcolumn

/-- The decoder of a query for an enum inside a union, in a scope where its local name is taken. -/
theorem read_decoder_color :
    Sample.colors.isPlain = true ∧ Sample.colorDocument.isPlain = true ∧
    ofDocument Sample.colors Sample.colorDocument = .ok [Sample.colorBinding] ∧
    Sample.colorBinding.decoder.shown =
      .map (.record (some "Q") [""])
        [.maybe (.field "s" (.dispatch [("Dot",
          .map (.variant "Dot" [Naming.valueName "c"])
            [.maybe (.field "c" (.primitive (.enum "" "colorDecoder")))])]))] ∧
    ∃ tokens, Elm.tokens? 4 (Sample.colorBinding.decoder.text ⟨[], ["typename"]⟩ 4).toList =
        some tokens ∧
      ∃ e, Phrase 0 tokens e [] ∧ (∀ e', Phrase 0 tokens e' [] → e' = e) ∧
        e.decoder? [] = some Sample.colorBinding.decoder.shown := by
  have hschema : Sample.colors.isPlain = true := by decide
  have hdocument := Document.isPlain_of_parse Sample.parse_colorText
  refine ⟨hschema, hdocument, Sample.ofDocument_colorDocument, rfl, ?_⟩
  exact read_decoder hschema hdocument Sample.ofDocument_colorDocument List.mem_cons_self _
    (by decide) (by decide)

end Binding

end ElmBindings
