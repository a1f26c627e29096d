import ElmBindings.Proofs.DecoderMeaning
import ElmBindings.Proofs.TextLines

set_option autoImplicit false

/-! # The layout of decoders

Elm finds the branches of a choice by their columns, so a text must not only have the right tokens but
also the right indentation. The text of a decoder hangs from its own indentation (`Decoder.hangs_text`), by
an induction in which the text of each kind of decoder is put together from the texts of its parts. The text
of a decoder inside a larger one is a part of the larger text (`Decoder.text_within`), so the branches of a
dispatch are whole lines of it, wherever the dispatch stands. -/

namespace ElmBindings

open Layout

/-! ## The texts of decoders -/

theorem Scoped.Writes.output_bind {α β : Type} {scope : Scope} {m : Scoped α} {p : α → Prop}
    (h : m.Writes scope p) (f : α → Scoped β) :
    (m >>= f).output scope = (f (m.output scope)).output scope := by
  obtain ⟨a, hrun, -⟩ := h
  simp only [Scoped.output, StateT.run_bind, hrun]
  rfl

theorem Scoped.output_under {α : Type} (scope : Scope) (base : String) (body : String → Scoped α) :
    (under base body).output scope =
      (body (scope.fresh base)).output (scope.push (scope.fresh base)) := rfl

namespace Decoder

/-- Whether a decoder is in parentheses when it is an argument. -/
def isCompound : Decoder → Bool
  | primitive _ => false
  | _ => true

/-- The text of a decoder as an argument. -/
def argumentText (scope : Scope) (indent : Nat) (decoder : Decoder) : String :=
  parenthesized decoder.isCompound (decoder.text scope indent)

/-- The text of a dispatch before its branches. -/
def dispatchHead (indent : Nat) (subject : String) : String :=
  "field \"__typename\" string"
    ++ (newline (indent + 4) ++ "|> andThen")
    ++ (newline (indent + 8) ++ ("(\\" ++ subject ++ " ->"))
    ++ (newline (indent + 12) ++ ("case " ++ subject ++ " of"))

/-- The body of the branch for any other type. -/
def otherwiseBody : String := "fail \"" ++ unexpectedType ++ "\""

/-- The text of the branches of a dispatch. -/
def branchesText (scope : Scope) (indent : Nat) (cases : List (String × Decoder)) : String :=
  String.join (cases.map fun entry => caseText indent entry.1 (entry.2.text scope (indent + 20)))
    ++ DecoderCode.otherwiseText indent

theorem isCompound_output (scope : Scope) (decoder : Decoder) :
    (decoder.code.output scope).isCompound = decoder.isCompound := by
  obtain ⟨code, hrun, hnamed⟩ := decoder.writes_code scope
  rw [Scoped.output, hrun]
  cases hnamed <;> rfl

theorem output_codes (scope : Scope) (values : List Decoder) :
    (codes values).output scope = values.map (·.code.output scope) := by
  induction values with
  | nil => rfl
  | cons value values ih =>
    rw [codes, (writes_code scope value).output_bind, (writes_codes scope values).output_bind, ih]
    rfl

theorem output_caseCodes (scope : Scope) (cases : List (String × Decoder)) :
    (caseCodes cases).output scope = cases.map fun entry => (entry.1, entry.2.code.output scope) := by
  induction cases with
  | nil => rfl
  | cons entry cases ih =>
    rw [caseCodes, (writes_code scope entry.2).output_bind, (writes_caseCodes scope cases).output_bind,
      ih]
    rfl

theorem argumentTexts_output (scope : Scope) (indent : Nat) (values : List Decoder) :
    DecoderCode.argumentTexts indent (values.map (·.code.output scope)) =
      values.map (argumentText scope indent) := by
  induction values with
  | nil => simp [DecoderCode.argumentTexts]
  | cons value values ih =>
    rw [List.map_cons, List.map_cons, DecoderCode.argumentTexts, ih, isCompound_output]
    rfl

theorem caseTexts_output (scope : Scope) (indent : Nat) (cases : List (String × Decoder)) :
    DecoderCode.caseTexts indent (cases.map fun entry => (entry.1, entry.2.code.output scope)) =
      String.join (cases.map fun entry =>
        caseText indent entry.1 (entry.2.text scope (indent + 20))) := by
  induction cases with
  | nil => simp [DecoderCode.caseTexts]
  | cons entry cases ih =>
    rw [List.map_cons, List.map_cons, DecoderCode.caseTexts, ih, String.join_cons]
    rfl

section

variable (scope : Scope) (indent : Nat)

theorem text_field (key : String) (value : Decoder) :
    (field key value).text scope indent =
      "field \"" ++ key ++ "\" " ++ value.argumentText scope indent := by
  rw [argumentText, ← isCompound_output scope value]
  show (DecoderCode.field key (value.code.output scope)).text indent = _
  rw [DecoderCode.text]
  rfl

theorem text_maybe (inner : Decoder) :
    (maybe inner).text scope indent = "maybe " ++ inner.argumentText scope indent := by
  rw [argumentText, ← isCompound_output scope inner]
  show (DecoderCode.maybe (inner.code.output scope)).text indent = _
  rw [DecoderCode.text]
  rfl

theorem text_list (item : Decoder) :
    (list item).text scope indent = "list " ++ item.argumentText scope indent := by
  rw [argumentText, ← isCompound_output scope item]
  show (DecoderCode.list (item.code.output scope)).text indent = _
  rw [DecoderCode.text]
  rfl

theorem text_map (build : Constructor) (values : List Decoder) :
    (map build values).text scope indent =
      "map " ++ (build.builder.output scope).text ++
        String.join (listed (newline (indent + 4)) (newline (indent + 4) ++ "|> apply ")
          (values.map (argumentText scope (indent + 8)))) := by
  have hcode : (map build values).code.output scope =
      .map (build.builder.output scope) (values.map (·.code.output scope)) := by
    rw [code, build.writes_builder.output_bind, (writes_codes scope values).output_bind, output_codes]
    rfl
  show ((map build values).code.output scope).text indent = _
  rw [hcode, DecoderCode.text, argumentTexts_output]

theorem text_dispatch (cases : List (String × Decoder)) :
    (dispatch cases).text scope indent =
      dispatchHead indent (scope.fresh "typename")
        ++ branchesText (scope.push (scope.fresh "typename")) indent cases
        ++ (newline (indent + 8) ++ ")") := by
  have hcode : (dispatch cases).code.output scope = .dispatch (scope.fresh "typename")
      (cases.map fun entry => (entry.1, entry.2.code.output (scope.push (scope.fresh "typename")))) := by
    rw [code, Scoped.output_under, (writes_caseCodes _ cases).output_bind, output_caseCodes]
    rfl
  show ((dispatch cases).code.output scope).text indent = _
  rw [hcode, DecoderCode.text, caseTexts_output]
  unfold dispatchText dispatchHead branchesText DecoderCode.otherwiseText
  simp only [String.append_assoc]

theorem toList_otherwiseText :
    (DecoderCode.otherwiseText indent).toList =
      (newline (indent + 16)).toList ++ ("_" ++ " ->").toList ++
        ((newline (indent + 20)).toList ++ otherwiseBody.toList) := by
  simp [DecoderCode.otherwiseText, otherwiseBody]

/-- A branch is followed by an empty line and the other branches. -/
theorem toList_branchesText_cons (type : String) (value : Decoder) (cases : List (String × Decoder)) :
    (branchesText scope indent ((type, value) :: cases)).toList =
      (newline (indent + 16)).toList ++ ("\"" ++ type ++ "\"" ++ " ->").toList ++
        ((newline (indent + 20)).toList ++ (value.text scope (indent + 20)).toList) ++
          '\n' :: (branchesText scope indent cases).toList := by
  simp [branchesText, caseText]

theorem head?_branchesText (cases : List (String × Decoder)) :
    (branchesText scope indent cases).toList.head? = some '\n' := by
  cases cases with
  | nil => simp [branchesText, DecoderCode.otherwiseText, newline_toList]
  | cons entry cases =>
    obtain ⟨type, value⟩ := entry
    simp [toList_branchesText_cons, newline_toList]

end

end Decoder

/-! ## Names without line breaks -/

/-- The names of a leaf decoder. -/
def Primitive.names : Primitive → List String
  | enum name decoder => [name, decoder]
  | _ => []

/-- The names of a constructor. -/
def Constructor.names : Constructor → List String
  | record label fields => label.toList ++ fields
  | variant tag fields => tag :: fields

namespace Decoder

mutual

/-- The names in a decoder. -/
def names : Decoder → List String
  | primitive leaf => leaf.names
  | field key value => key :: value.names
  | maybe inner => inner.names
  | list item => item.names
  | map build values => build.names ++ valueNames values
  | dispatch cases => caseNames cases
  | succeed build => build.names

/-- The names in the decoders of a record. -/
def valueNames : List Decoder → List String
  | [] => []
  | value :: values => value.names ++ valueNames values

/-- The names in the cases of a dispatch. -/
def caseNames : List (String × Decoder) → List String
  | [] => []
  | (type, value) :: cases => type :: (value.names ++ caseNames cases)

end

end Decoder

theorem Scope.unbroken_candidate {base : String} (h : Unbroken base) (n : Nat) :
    Unbroken (candidate base n) := by
  cases n with
  | zero => exact h
  | succ n =>
    rw [Unbroken, Elm.toList_candidate_succ, List.mem_append, not_or]
    refine ⟨h, fun hmem => ?_⟩
    exact absurd (GraphQL.isDigit_of_mem_toDigits hmem) (by decide)

theorem Scope.unbroken_fresh (scope : Scope) {base : String} (h : Unbroken base) :
    Unbroken (scope.fresh base) := by
  obtain ⟨n, hn⟩ := (scope.suits_fresh base).numbered
  rw [hn]
  exact unbroken_candidate h n

theorem Primitive.unbroken_text {leaf : Primitive} (h : ∀ name ∈ leaf.names, Unbroken name) :
    Unbroken leaf.text := by
  cases leaf with
  | enum name decoder => exact h decoder (by simp [names])
  | _ => decide

theorem unbroken_recordText {fields : List (String × String)}
    (h : ∀ field ∈ fields, Unbroken field.1 ∧ Unbroken field.2) : Unbroken (recordText fields) := by
  have hfields : Unbroken (", ".intercalate (fields.map fun field => field.1 ++ " = " ++ field.2)) := by
    refine unbroken_intercalate (by decide) ?_
    intro text htext
    obtain ⟨field, hfield, rfl⟩ := List.mem_map.mp htext
    exact unbroken_between (h field hfield).1 (by decide) (h field hfield).2
  exact unbroken_between (by decide) hfields (by decide)

theorem unbroken_lambdaText {fields : List (String × String)} {body : String}
    (h : ∀ field ∈ fields, Unbroken field.1 ∧ Unbroken field.2) (hbody : Unbroken body) :
    Unbroken (lambdaText fields body) := by
  have hparameters : Unbroken (" ".intercalate (fields.map (·.2))) := by
    refine unbroken_intercalate (by decide) ?_
    intro text htext
    obtain ⟨field, hfield, rfl⟩ := List.mem_map.mp htext
    exact (h field hfield).2
  exact unbroken_between (unbroken_between (by decide) hparameters (by decide)) hbody (by decide)

/-- The parameters of a lambda have no line break if its fields have none. -/
theorem Scope.SuitsAll.unbroken {scope : Scope} {bases names : List String}
    (h : scope.SuitsAll bases names) (hbases : ∀ base ∈ bases, Unbroken base) :
    ∀ field ∈ bases.zip names, Unbroken field.1 ∧ Unbroken field.2 := by
  rintro ⟨base, name⟩ hfield
  have hbase := hbases base (List.of_mem_zip hfield).1
  obtain ⟨n, rfl⟩ := (List.forall₂_iff_zip.mp h.numbered).2 hfield
  exact ⟨hbase, Scope.unbroken_candidate hbase n⟩

theorem Constructor.Named.unbroken {scope : Scope} {build : Constructor} {builder : Builder}
    (h : build.Named scope builder) (hnames : ∀ name ∈ build.names, Unbroken name) :
    Unbroken builder.text := by
  cases h with
  | label label fields => exact hnames label (by simp [names])
  | record hsuits =>
    have hfields := hsuits.unbroken hnames
    exact unbroken_lambdaText hfields (unbroken_recordText hfields)
  | variant hsuits =>
    have hfields := hsuits.unbroken (List.forall_mem_cons.mp hnames).2
    refine unbroken_lambdaText hfields ?_
    exact unbroken_between (List.forall_mem_cons.mp hnames).1 (by decide) (unbroken_recordText hfields)

/-! ## Indentation of decoders -/

namespace Decoder

variable {scope : Scope} {indent n : Nat}

theorem hangs_argumentText {decoder : Decoder} (h : Hangs n (decoder.text scope indent).toList) :
    Hangs n (decoder.argumentText scope indent).toList := by
  rw [argumentText, parenthesized]
  split
  · rw [String.toList_append, String.toList_append]
    exact ((hangs_of_unbroken (by decide)).append h).append (hangs_of_unbroken (by decide))
  · exact h

/-- The lines of a record hang if the decoders of its fields do. -/
theorem hangs_listed {texts : List String} (hn : n ≤ indent) (h : ∀ text ∈ texts, Hangs n text.toList) :
    Hangs n (String.join (listed (newline indent) (newline indent ++ "|> apply ") texts)).toList := by
  refine hangs_join ?_
  cases texts with
  | nil => simp [listed]
  | cons text texts =>
    rw [List.forall_mem_cons] at h
    simp only [listed, List.forall_mem_cons, List.forall_mem_map, String.toList_append]
    refine ⟨(hangs_newline hn).append h.1, fun other hother => ?_⟩
    exact ((hangs_newline hn).append (hangs_of_unbroken (by decide))).append (h.2 other hother)

theorem unbroken_succeed {build : Constructor} (h : ∀ name ∈ build.names, Unbroken name) :
    Unbroken ((succeed build).text scope indent) := by
  cases build with
  | record label fields =>
    show Unbroken "succeed \x7b\x7d"
    decide
  | variant tag fields =>
    show Unbroken ("succeed (" ++ tag ++ " \x7b\x7d)")
    exact unbroken_between (by decide) (h tag (by simp [Constructor.names])) (by decide)

theorem hangs_dispatchHead {subject : String} (h : Unbroken subject) :
    Hangs (indent + 4) (dispatchHead indent subject).toList := by
  unfold dispatchHead
  rw [String.toList_append, String.toList_append, String.toList_append]
  refine ((Hangs.append ?_ ?_).append ?_).append ?_
  · exact hangs_of_unbroken (by decide)
  · exact hangs_line (by omega) (by decide)
  · exact hangs_line (by omega) (unbroken_between (by decide) h (by decide))
  · exact hangs_line (by omega) (unbroken_between (by decide) h (by decide))

/-- A branch hangs if its body does. -/
theorem hangs_branch (indent : Nat) {pattern : String} {body : List Char} (h : Unbroken pattern)
    (hbody : Hangs (indent + 4) body) :
    Hangs (indent + 4) ((newline (indent + 16)).toList ++ (pattern ++ " ->").toList ++
      ((newline (indent + 20)).toList ++ body)) := by
  have hpattern : Unbroken (pattern ++ " ->") := unbroken_append.mpr ⟨h, by decide⟩
  refine ((hangs_newline (by omega)).append (hangs_of_unbroken hpattern)).append ?_
  exact (hangs_newline (by omega)).append hbody

mutual

/-- What follows a line break in the text of a decoder is indented by more than the text. -/
theorem hangs_text : ∀ (decoder : Decoder) (scope : Scope) (indent : Nat),
    (∀ name ∈ decoder.names, Unbroken name) → Hangs (indent + 4) (decoder.text scope indent).toList
  | primitive leaf, _, _, h => hangs_of_unbroken (leaf.unbroken_text h)
  | field key value, scope, indent, h => by
    rw [names, List.forall_mem_cons] at h
    have hvalue := hangs_argumentText (hangs_text value scope indent h.2)
    rw [text_field, String.toList_append]
    exact (hangs_of_unbroken (unbroken_between (by decide) h.1 (by decide))).append hvalue
  | maybe inner, scope, indent, h => by
    rw [names] at h
    rw [text_maybe, String.toList_append]
    exact (hangs_of_unbroken (by decide)).append (hangs_argumentText (hangs_text inner scope indent h))
  | list item, scope, indent, h => by
    rw [names] at h
    rw [text_list, String.toList_append]
    exact (hangs_of_unbroken (by decide)).append (hangs_argumentText (hangs_text item scope indent h))
  | map build values, scope, indent, h => by
    rw [names, List.forall_mem_append] at h
    have hbuild : Unbroken (build.builder.output scope).text :=
      build.writes_builder.output.unbroken h.1
    have hvalues : ∀ text ∈ values.map (argumentText scope (indent + 8)),
        Hangs (indent + 4) text.toList := by
      refine List.forall_mem_map.mpr fun value hvalue => ?_
      have hdeep := hangs_values values scope (indent + 8) h.2 value hvalue
      exact hangs_argumentText (hdeep.mono (by omega))
    rw [text_map, String.toList_append]
    refine (hangs_of_unbroken ?_).append (hangs_listed le_rfl hvalues)
    exact unbroken_append.mpr ⟨by decide, hbuild⟩
  | dispatch cases, scope, indent, h => by
    rw [names] at h
    have hsubject := scope.unbroken_fresh (show Unbroken "typename" by decide)
    have hbranches := hangs_branches cases (scope.push (scope.fresh "typename")) indent h
    rw [text_dispatch, String.toList_append, String.toList_append]
    exact ((hangs_dispatchHead hsubject).append hbranches).append (hangs_line (by omega) (by decide))
  | succeed build, scope, indent, h => by
    rw [names] at h
    exact hangs_of_unbroken (unbroken_succeed h)

theorem hangs_values : ∀ (values : List Decoder) (scope : Scope) (indent : Nat),
    (∀ name ∈ valueNames values, Unbroken name) →
      ∀ value ∈ values, Hangs (indent + 4) (value.text scope indent).toList
  | [], _, _, _ => by simp
  | value :: values, scope, indent, h => by
    rw [valueNames, List.forall_mem_append] at h
    have hvalue := hangs_text value scope indent h.1
    exact List.forall_mem_cons.mpr ⟨hvalue, hangs_values values scope indent h.2⟩

theorem hangs_branches : ∀ (cases : List (String × Decoder)) (scope : Scope) (indent : Nat),
    (∀ name ∈ caseNames cases, Unbroken name) →
      Hangs (indent + 4) (branchesText scope indent cases).toList
  | [], scope, indent, _ => by
    have hbody : Unbroken otherwiseBody := by decide
    have hbranch := hangs_branch indent (show Unbroken "_" by decide) (hangs_of_unbroken hbody)
    rw [← toList_otherwiseText] at hbranch
    simpa [branchesText] using hbranch
  | (type, value) :: cases, scope, indent, h => by
    rw [caseNames, List.forall_mem_cons, List.forall_mem_append] at h
    have hpattern : Unbroken ("\"" ++ type ++ "\"") := unbroken_between (by decide) h.1 (by decide)
    have hvalue := (hangs_text value scope (indent + 20) h.2.1).mono (by omega : indent + 4 ≤ _)
    have hbranch := hangs_branch indent hpattern hvalue
    have hcases := hangs_branches cases scope indent h.2.2
    rw [toList_branchesText_cons]
    refine hbranch.append ?_
    -- the line break at the end of a branch leaves an empty line, since the next branch starts with one
    exact hangs_cons.mpr ⟨fun _ => .inl (head?_branchesText scope indent cases), hcases⟩

end

/-! ## Decoders inside decoders -/

/-- A decoder around another one. -/
inductive Frame
  | field (key : String)
  | maybe
  | list
  | map (build : Constructor) (before after : List Decoder)
  | dispatch (before : List (String × Decoder)) (type : String) (after : List (String × Decoder))

/-- The decoder that a frame makes of the one inside it. -/
def Frame.fill (decoder : Decoder) : Frame → Decoder
  | field key => .field key decoder
  | maybe => .maybe decoder
  | list => .list decoder
  | map build before after => .map build (before ++ decoder :: after)
  | dispatch before type after => .dispatch (before ++ (type, decoder) :: after)

/-- A decoder inside frames, the outermost one first. -/
def within (frames : List Frame) (decoder : Decoder) : Decoder :=
  frames.foldr (fun frame inner => frame.fill inner) decoder

theorem Frame.isCompound_fill (frame : Frame) (decoder : Decoder) :
    (frame.fill decoder).isCompound = true := by
  cases frame <;> rfl

theorem argumentText_of_isCompound {decoder : Decoder} (h : decoder.isCompound = true) :
    decoder.argumentText scope indent = "(" ++ decoder.text scope indent ++ ")" := by
  rw [argumentText, parenthesized, if_pos h]

theorem listed_append (first next : String) (before after : List String) :
    ∃ left right, ∀ text,
      String.join (listed first next (before ++ text :: after)) = left ++ text ++ right := by
  cases before with
  | nil => exact ⟨first, String.join (after.map (next ++ ·)), fun text => by simp [listed]⟩
  | cons head before =>
    refine ⟨first ++ head ++ String.join (before.map (next ++ ·)) ++ next,
      String.join (after.map (next ++ ·)), fun text => ?_⟩
    simp [listed, String.join_append, String.append_assoc]

theorem branchesText_append (scope : Scope) (indent : Nat) (before : List (String × Decoder))
    (type : String) (after : List (String × Decoder)) :
    ∃ left right, ∀ value : Decoder, branchesText scope indent (before ++ (type, value) :: after) =
      left ++ value.text scope (indent + 20) ++ right := by
  refine ⟨String.join (before.map fun entry =>
      caseText indent entry.1 (entry.2.text scope (indent + 20)))
        ++ (newline (indent + 16) ++ "\"" ++ type ++ "\" ->" ++ newline (indent + 20)),
    "\n" ++ branchesText scope indent after, fun value => ?_⟩
  simp only [branchesText, caseText, List.map_append, List.map_cons, String.join_append,
    String.join_cons, String.append_assoc]

/-- The text of a decoder stands in the text of the one around it, at a place that depends on the frame
only. -/
theorem Frame.text_fill (frame : Frame) (scope : Scope) (indent : Nat) :
    ∃ inner deeper before after, ∀ decoder : Decoder, decoder.isCompound = true →
      (frame.fill decoder).text scope indent = before ++ decoder.text inner deeper ++ after := by
  cases frame with
  | field key =>
    refine ⟨scope, indent, "field \"" ++ key ++ "\" (", ")", fun decoder h => ?_⟩
    rw [fill, text_field, argumentText_of_isCompound h]
    simp [← String.toList_inj]
  | maybe =>
    refine ⟨scope, indent, "maybe (", ")", fun decoder h => ?_⟩
    rw [fill, text_maybe, argumentText_of_isCompound h]
    simp [← String.toList_inj]
  | list =>
    refine ⟨scope, indent, "list (", ")", fun decoder h => ?_⟩
    rw [fill, text_list, argumentText_of_isCompound h]
    simp [← String.toList_inj]
  | map build before after =>
    obtain ⟨left, right, hlisted⟩ := listed_append (newline (indent + 4))
      (newline (indent + 4) ++ "|> apply ") (before.map (argumentText scope (indent + 8)))
      (after.map (argumentText scope (indent + 8)))
    refine ⟨scope, indent + 8, "map " ++ (build.builder.output scope).text ++ left ++ "(", ")" ++ right,
      fun decoder h => ?_⟩
    rw [fill, text_map, List.map_append, List.map_cons, hlisted, argumentText_of_isCompound h]
    simp only [String.append_assoc]
  | dispatch before type after =>
    obtain ⟨left, right, hbranches⟩ := branchesText_append (scope.push (scope.fresh "typename")) indent
      before type after
    refine ⟨scope.push (scope.fresh "typename"), indent + 20,
      dispatchHead indent (scope.fresh "typename") ++ left, right ++ (newline (indent + 8) ++ ")"),
      fun decoder _ => ?_⟩
    rw [fill, text_dispatch, hbranches]
    simp only [String.append_assoc]

theorem text_within (frames : List Frame) (scope : Scope) (indent : Nat) :
    ∃ inner deeper before after, ∀ decoder : Decoder, decoder.isCompound = true →
      (within frames decoder).text scope indent = before ++ decoder.text inner deeper ++ after := by
  induction frames generalizing scope indent with
  | nil => exact ⟨scope, indent, "", "", fun decoder _ => by simp [within]⟩
  | cons frame frames ih =>
    obtain ⟨inner, deeper, before, after, hframe⟩ := frame.text_fill scope indent
    obtain ⟨innermost, deepest, left, right, hframes⟩ := ih inner deeper
    refine ⟨innermost, deepest, before ++ left, right ++ after, fun decoder h => ?_⟩
    have hcompound : (within frames decoder).isCompound = true := by
      cases frames with
      | nil => exact h
      | cons next frames => exact next.isCompound_fill _
    show (frame.fill (within frames decoder)).text scope indent = _
    rw [hframe _ hcompound, hframes decoder h]
    simp only [String.append_assoc]

/-! ## Branches -/

/-- Whether lines are a branch of a choice: its pattern in a column, and below it the lines of its body,
written with an indentation of their own and to the right of that column. Empty lines may follow. -/
def IsBranch (column : Nat) (pattern : String) (body : Nat → String) (ls : List (List Char)) : Prop :=
  ∃ indent gap,
    ls = (spaces column ++ (pattern ++ " ->").toList) ::
      (lines (spaces indent ++ (body indent).toList) ++ List.replicate gap []) ∧
    ∀ line ∈ lines (spaces indent ++ (body indent).toList), line ≠ [] → spaces (column + 1) <+: line

theorem isBranch_of_hangs {column indent : Nat} (pattern : String) (body : Nat → String) (gap : Nat)
    (hindent : column < indent) (hbody : Hangs (column + 1) (body indent).toList) :
    IsBranch column pattern body ((spaces column ++ (pattern ++ " ->").toList) ::
      (lines (spaces indent ++ (body indent).toList) ++ List.replicate gap [])) := by
  refine ⟨indent, gap, rfl, ?_⟩
  have hlines := ((hangs_newline hindent).append hbody).indented
  rwa [newline_toList, List.cons_append, lines_lineEnd, List.tail_cons] at hlines

theorem lines_branch {pattern : String} (h : Unbroken pattern) (column indent : Nat) (body : List Char) :
    lines ((newline column).toList ++ (pattern ++ " ->").toList ++ ((newline indent).toList ++ body)) =
      [] :: (spaces column ++ (pattern ++ " ->").toList) :: lines (spaces indent ++ body) := by
  have hpattern : '\n' ∉ spaces column ++ (pattern ++ " ->").toList := by
    rw [List.mem_append, not_or]
    exact ⟨not_mem_spaces column, unbroken_append.mpr ⟨h, by decide⟩⟩
  rw [newline_toList, newline_toList, List.cons_append, List.cons_append, List.cons_append,
    lines_lineEnd, lines_break, lines_of_not_mem hpattern]
  rfl

theorem lines_otherwiseText (indent : Nat) :
    ∃ otherwise, lines (DecoderCode.otherwiseText indent).toList = [] :: otherwise ∧
      IsBranch (indent + 16) "_" (fun _ => otherwiseBody) otherwise := by
  have hbody : Unbroken otherwiseBody := by decide
  refine ⟨_, ?_, isBranch_of_hangs "_" (fun _ => otherwiseBody) 0
    (by omega : indent + 16 < indent + 20) (hangs_of_unbroken hbody)⟩
  rw [toList_otherwiseText, lines_branch (by decide), List.replicate_zero, List.append_nil]

/-- The lines of the branches of a dispatch, after the end of the line before them. -/
theorem lines_branchesText (cases : List (String × Decoder)) (scope : Scope) (indent : Nat)
    (h : ∀ name ∈ caseNames cases, Unbroken name) :
    ∃ branches otherwise,
      lines (branchesText scope indent cases).toList = [] :: (branches.flatten ++ otherwise) ∧
      List.Forall₂ (fun entry branch =>
        IsBranch (indent + 16) ("\"" ++ entry.1 ++ "\"") (entry.2.text scope) branch) cases branches ∧
      IsBranch (indent + 16) "_" (fun _ => otherwiseBody) otherwise := by
  induction cases with
  | nil =>
    obtain ⟨otherwise, hlines, hotherwise⟩ := lines_otherwiseText indent
    exact ⟨[], otherwise, by simpa [branchesText] using hlines, .nil, hotherwise⟩
  | cons entry cases ih =>
    obtain ⟨type, value⟩ := entry
    rw [caseNames, List.forall_mem_cons, List.forall_mem_append] at h
    obtain ⟨branches, otherwise, hlines, hbranches, hotherwise⟩ := ih h.2.2
    have hvalue := hangs_text value scope (indent + 20) h.2.1
    have hbranch := isBranch_of_hangs ("\"" ++ type ++ "\"") (value.text scope) 1
      (by omega : indent + 16 < indent + 20) (hvalue.mono (by omega))
    refine ⟨_ :: branches, otherwise, ?_, .cons hbranch hbranches, hotherwise⟩
    rw [toList_branchesText_cons, lines_break, hlines,
      lines_branch (unbroken_between (by decide) h.1 (by decide))]
    simp

/-- The text of every decoder whose names have no line break can be laid out at any indentation and in any
scope: after its first line, a line that is not empty is indented by four spaces more. Wherever a dispatch
stands in a decoder, its cases and the default after them are consecutive lines of the text. Their patterns
start in one column, which does not depend on the cases, and all lines of their bodies that are not empty
start to the right of it. -/
theorem text_layout (scope : Scope) (indent : Nat) :
    (∀ decoder : Decoder, (∀ name ∈ decoder.names, Unbroken name) →
      ∀ line ∈ (lines (decoder.text scope indent).toList).tail, line ≠ [] →
        spaces (indent + 4) <+: line) ∧
    ∀ frames : List Frame, ∃ inner column before after, ∀ cases : List (String × Decoder),
      (∀ name ∈ (dispatch cases).names, Unbroken name) →
        ∃ branches otherwise,
          lines ((within frames (dispatch cases)).text scope indent).toList =
            before ++ (branches.flatten ++ otherwise) ++ after ∧
          List.Forall₂ (fun entry branch =>
            IsBranch column ("\"" ++ entry.1 ++ "\"") (entry.2.text inner) branch) cases branches ∧
          IsBranch column "_" (fun _ => otherwiseBody) otherwise := by
  refine ⟨fun decoder h => (hangs_text decoder scope indent h).indented, fun frames => ?_⟩
  obtain ⟨outer, deeper, left, right, hwithin⟩ := text_within frames scope indent
  refine ⟨outer.push (outer.fresh "typename"), deeper + 16,
    lines (left ++ dispatchHead deeper (outer.fresh "typename")).toList,
    lines (spaces (deeper + 8) ++ (")" ++ right).toList), fun cases hnames => ?_⟩
  rw [names] at hnames
  obtain ⟨branches, otherwise, hlines, hbranches, hotherwise⟩ :=
    lines_branchesText cases (outer.push (outer.fresh "typename")) deeper hnames
  refine ⟨branches, otherwise, ?_, hbranches, hotherwise⟩
  -- the line breaks right before and right after the branches divide the lines of the text
  obtain ⟨cs, hcs⟩ := List.head?_eq_some_iff.mp
    (head?_branchesText (outer.push (outer.fresh "typename")) deeper cases)
  rw [hcs, lines_lineEnd, List.cons.injEq] at hlines
  have htext : ((within frames (dispatch cases)).text scope indent).toList =
      (left ++ dispatchHead deeper (outer.fresh "typename")).toList ++
        '\n' :: (cs ++ '\n' :: (spaces (deeper + 8) ++ (")" ++ right).toList)) := by
    rw [hwithin _ rfl, text_dispatch]
    simp only [String.toList_append, hcs, newline_toList, List.append_assoc, List.cons_append]
  rw [htext, lines_break, lines_break, hlines.2]
  simp only [List.append_assoc]

end Decoder

namespace Sample

/-- The cases of a dispatch over pets. -/
def petCases : List (String × Decoder) :=
  [("Cat", .map (.variant "Cat" ["name"]) [.field "name" (.primitive .string)]),
    ("Dog", .succeed (.variant "Dog" []))]

/-- What stands around the dispatch over pets: an optional field in a case of another dispatch. -/
def petFrames : List Decoder.Frame :=
  [.dispatch [("Droid", .primitive .int)] "Human" [],
    .map (.variant "Human" ["typename", "pet"]) [.field "__typename" (.primitive .string)] [],
    .maybe, .field "pet"]

end Sample

/-- A dispatch inside a record inside another dispatch, where the first choice of a local name is taken. -/
theorem Decoder.text_layout_pets :
    (∀ name ∈ (within Sample.petFrames (dispatch Sample.petCases)).names, Unbroken name) ∧
    (∀ name ∈ (dispatch Sample.petCases).names, Unbroken name) ∧
    (∀ line ∈ (lines ((within Sample.petFrames (dispatch Sample.petCases)).text
      ⟨["typename"], []⟩ 4).toList).tail, line ≠ [] → spaces 8 <+: line) ∧
    ∃ inner column before branches otherwise after,
      lines ((within Sample.petFrames (dispatch Sample.petCases)).text ⟨["typename"], []⟩ 4).toList =
        before ++ (branches.flatten ++ otherwise) ++ after ∧
      List.Forall₂ (fun entry branch =>
        IsBranch column ("\"" ++ entry.1 ++ "\"") (entry.2.text inner) branch) Sample.petCases branches ∧
      IsBranch column "_" (fun _ => otherwiseBody) otherwise := by
  have houter : ∀ name ∈ (within Sample.petFrames (dispatch Sample.petCases)).names, Unbroken name := by
    decide
  have hinner : ∀ name ∈ (dispatch Sample.petCases).names, Unbroken name := by decide
  obtain ⟨hindented, hframes⟩ := text_layout ⟨["typename"], []⟩ 4
  obtain ⟨inner, column, before, after, hbranches⟩ := hframes Sample.petFrames
  obtain ⟨branches, otherwise, hlines, hcases⟩ := hbranches Sample.petCases hinner
  exact ⟨houter, hinner, hindented _ houter, inner, column, before, branches, otherwise, after, hlines,
    hcases⟩

end ElmBindings
