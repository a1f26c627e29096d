import ElmBindings.Proofs.Reachable
import ElmBindings.Proofs.Rereading

set_option autoImplicit false

/-! # Printing and reading documents

A document that was read from a text is printed so that reading it again gives the same document, up
to what is not printed: the places in the text and the conditions of fields
(`Operation.parse_documentText`). So no field is conditional in what is sent, whatever it was in the
text of the query (`Definition.same_conditions_iff`). -/

namespace ElmBindings

open GraphQL

/-! ## Fields at all depths -/

mutual

/-- The fields of a selection at all depths, in the order of the text. -/
def Selection.fieldsOf : Selection → List Field
  | .field f selections => f :: ElmBindings.fieldsOf selections
  | .spread _ _ => []
  | .inline _ selections _ => ElmBindings.fieldsOf selections

/-- The fields of selections at all depths, in the order of the text. -/
def fieldsOf : List Selection → List Field
  | [] => []
  | selection :: selections => selection.fieldsOf ++ fieldsOf selections

end

section

variable (g h : Field → Field)

mutual

theorem Selection.fieldsOf_mapFields (selection : Selection) :
    (selection.mapFields g).fieldsOf = selection.fieldsOf.map g := by
  match selection with
  | .field f selections =>
    simp [Selection.mapFields, Selection.fieldsOf, fieldsOf_mapSelections selections]
  | .spread _ _ => rfl
  | .inline _ selections _ =>
    simp [Selection.mapFields, Selection.fieldsOf, fieldsOf_mapSelections selections]

theorem fieldsOf_mapSelections (selections : List Selection) :
    fieldsOf (mapSelections g selections) = (fieldsOf selections).map g := by
  match selections with
  | [] => rfl
  | selection :: selections =>
    simp [mapSelections, fieldsOf, Selection.fieldsOf_mapFields selection,
      fieldsOf_mapSelections selections]

end

mutual

theorem Selection.mapFields_mapFields (selection : Selection) :
    (selection.mapFields h).mapFields g = selection.mapFields (g ∘ h) := by
  match selection with
  | .field f selections => simp [Selection.mapFields, mapSelections_mapSelections selections]
  | .spread _ _ => rfl
  | .inline _ selections _ => simp [Selection.mapFields, mapSelections_mapSelections selections]

theorem mapSelections_mapSelections (selections : List Selection) :
    mapSelections g (mapSelections h selections) = mapSelections (g ∘ h) selections := by
  match selections with
  | [] => rfl
  | selection :: selections =>
    simp [mapSelections, Selection.mapFields_mapFields selection,
      mapSelections_mapSelections selections]

end

variable {g h}

mutual

theorem Selection.mapFields_congr (selection : Selection)
    (heq : ∀ f ∈ selection.fieldsOf, g f = h f) : selection.mapFields g = selection.mapFields h := by
  match selection with
  | .field f selections =>
    obtain ⟨hfield, hselections⟩ := List.forall_mem_cons.mp heq
    simp [Selection.mapFields, hfield, mapSelections_congr selections hselections]
  | .spread _ _ => rfl
  | .inline _ selections _ => simp [Selection.mapFields, mapSelections_congr selections heq]

/-- Functions that agree on the fields of selections change the selections alike. -/
theorem mapSelections_congr (selections : List Selection)
    (heq : ∀ f ∈ fieldsOf selections, g f = h f) :
    mapSelections g selections = mapSelections h selections := by
  match selections with
  | [] => rfl
  | selection :: selections =>
    obtain ⟨hselection, hselections⟩ := List.forall_mem_append.mp heq
    simp [mapSelections, Selection.mapFields_congr selection hselection,
      mapSelections_congr selections hselections]

end

end

namespace Definition

@[simp]
theorem selections_mapParts (d : Definition) (g : Field → Field)
    (h : VariableDefinition → VariableDefinition) :
    (d.mapParts g h).selections = mapSelections g d.selections := by
  cases d <;> rfl

theorem mapParts_mapParts (d : Definition) (g g' : Field → Field)
    (h h' : VariableDefinition → VariableDefinition) :
    (d.mapParts g' h').mapParts g h = d.mapParts (g ∘ g') (h ∘ h') := by
  cases d <;> simp [mapParts, mapSelections_mapSelections]

end Definition

/-! ## Values without floats -/

section

variable {floats : Binary64 → Bool} {constant : Bool}

namespace GraphQL

mutual

/-- A value without floats is read back as it is. -/
theorem Value.reread_eq (hnone : ∀ x, floats x = false) {depth : Nat} (v : Value)
    (hv : v.Written floats constant depth) : v.reread = v ∧ v.isFinite = true := by
  match v, hv with
  | .float x, hv => exact absurd hv (by simp [Value.Written, hnone])
  | .list items, hv =>
    obtain ⟨hitems, hfinite⟩ := rereadItems_eq hnone items hv.2
    exact ⟨by rw [Value.reread, hitems], hfinite⟩
  | .object entries, hv =>
    obtain ⟨hentries, hfinite⟩ := rereadEntries_eq hnone entries hv.2.1
    exact ⟨by rw [Value.reread, hentries], hfinite⟩
  | .variable _, _ | .int _, _ | .string _, _ | .boolean _, _ | .null, _ | .enum _, _ =>
    exact ⟨rfl, rfl⟩

theorem rereadItems_eq (hnone : ∀ x, floats x = false) {depth : Nat} (items : List Value)
    (h : ItemsWritten floats constant depth items) :
    rereadItems items = items ∧ itemsFinite items = true := by
  match items, h with
  | [], _ => exact ⟨rfl, rfl⟩
  | item :: items, h =>
    obtain ⟨hitem, hfinite⟩ := Value.reread_eq hnone item h.1
    obtain ⟨hitems, hfinite'⟩ := rereadItems_eq hnone items h.2
    simp [rereadItems, itemsFinite, hitem, hfinite, hitems, hfinite']

theorem rereadEntries_eq (hnone : ∀ x, floats x = false) {depth : Nat}
    (entries : List (String × Value)) (h : EntriesWritten floats constant depth entries) :
    rereadEntries entries = entries ∧ entriesFinite entries = true := by
  match entries, h with
  | [], _ => exact ⟨rfl, rfl⟩
  | (key, value) :: entries, h =>
    obtain ⟨hvalue, hfinite⟩ := Value.reread_eq hnone value h.2.1
    obtain ⟨hentries, hfinite'⟩ := rereadEntries_eq hnone entries h.2.2
    simp [rereadEntries, entriesFinite, hvalue, hfinite, hentries, hfinite']

end

end GraphQL

mutual

theorem Selection.arguments_reread (hnone : ∀ x, floats x = false) {depth : Nat}
    (selection : Selection) (h : selection.Written floats depth) :
    (∀ f ∈ selection.fieldsOf, rereadEntries f.arguments = f.arguments) ∧
      selection.isFinite = true := by
  match selection, h with
  | .field f selections, ⟨_, _, harguments, hselections⟩ =>
    have hfield : rereadEntries f.arguments = f.arguments ∧ entriesFinite f.arguments = true := by
      obtain hnil | ⟨-, hentries⟩ := harguments
      · simp [hnil, rereadEntries, entriesFinite]
      · exact rereadEntries_eq hnone f.arguments hentries
    have hinner : (∀ f ∈ fieldsOf selections, rereadEntries f.arguments = f.arguments) ∧
        selectionsFinite selections = true := by
      obtain rfl | ⟨-, hselections⟩ := hselections
      · simp [fieldsOf, selectionsFinite]
      · exact arguments_reread hnone selections hselections
    rw [Selection.fieldsOf, List.forall_mem_cons, Selection.isFinite, Bool.and_eq_true]
    exact ⟨⟨hfield.1, hinner.1⟩, hfield.2, hinner.2⟩
  | .spread _ _, _ => simp [Selection.fieldsOf, Selection.isFinite]
  | .inline _ selections _, ⟨_, _, _, hselections⟩ =>
    exact arguments_reread hnone selections hselections

theorem arguments_reread (hnone : ∀ x, floats x = false) {depth : Nat}
    (selections : List Selection) (h : SelectionsWritten floats depth selections) :
    (∀ f ∈ fieldsOf selections, rereadEntries f.arguments = f.arguments) ∧
      selectionsFinite selections = true := by
  match selections, h with
  | [], _ => simp [fieldsOf, selectionsFinite]
  | selection :: selections, ⟨hselection, hselections⟩ =>
    have hfirst := Selection.arguments_reread hnone selection hselection
    have hrest := arguments_reread hnone selections hselections
    rw [fieldsOf, List.forall_mem_append, selectionsFinite, Bool.and_eq_true]
    exact ⟨⟨hfirst.1, hrest.1⟩, hfirst.2, hrest.2⟩

end

theorem VariableDefinition.reread_eq (hnone : ∀ x, floats x = false) {depth : Nat}
    {v : VariableDefinition} (h : v.Written floats depth) : v.reread = v ∧ v.isFinite = true := by
  obtain ⟨name, type, defaultValue⟩ := v
  cases defaultValue with
  | none => exact ⟨rfl, rfl⟩
  | some value =>
    obtain ⟨hvalue, hfinite⟩ := Value.reread_eq hnone value (h.2.2 value rfl)
    simp [VariableDefinition.reread, VariableDefinition.isFinite, hvalue, hfinite]

/-! ## Operations with their fragments -/

/-- The field without what is not printed: its place in the text and its condition. -/
def Field.bare (f : Field) : Field := { f with conditional := false, position := .start }

namespace Definition

/-- The definition without what is not printed. -/
def bare (d : Definition) : Definition := d.mapParts Field.bare id

theorem bare_unplaced (d : Definition) : d.unplaced.bare = d.bare :=
  d.mapParts_mapParts _ _ _ _

/-- A definition without floats loses only what is not printed. -/
theorem bare_reread (hnone : ∀ x, floats x = false) {d : Definition} (h : d.Written floats) :
    d.reread.bare = d.bare ∧ d.isFinite = true := by
  have hselections : ∀ {selections}, SelectionsWritten floats 1 selections →
      mapSelections (Field.bare ∘ Field.reread) selections = mapSelections Field.bare selections := by
    intro selections hwritten
    refine mapSelections_congr selections fun f hf => ?_
    simp [Field.bare, Field.reread, (arguments_reread hnone selections hwritten).1 f hf]
  rw [reread, bare, mapParts_mapParts, bare]
  cases d with
  | operation op =>
    obtain ⟨-, hparameters, -, hwritten⟩ := h
    have hsame := fun v hv => VariableDefinition.reread_eq hnone (hparameters v hv)
    constructor
    · have hmap : op.parameters.map VariableDefinition.reread = op.parameters.map id :=
        List.map_congr_left fun v hv => (hsame v hv).1
      simp only [mapParts, hselections hwritten, Function.id_comp, hmap]
    · rw [isFinite, Bool.and_eq_true, List.all_eq_true]
      exact ⟨fun v hv => (hsame v hv).2, (arguments_reread hnone _ hwritten).2⟩
  | fragment f =>
    obtain ⟨-, -, -, hwritten⟩ := h
    exact ⟨by simp only [mapParts, hselections hwritten], (arguments_reread hnone _ hwritten).2⟩

end Definition

end

/-- What is sent for an operation is read as the operation and the fragments that it reaches, in this
order, if there is no float in the text that they are from. -/
theorem Operation.parse_documentText {text : String} {document : Document} {index : FragmentIndex}
    {op : Operation} (hparse : Document.parse text = .ok document)
    (hindex : FragmentIndex.ofDocument document = .ok index) (hfloats : floatLiterals text = [])
    (hop : op ∈ document.operations) :
    ∃ again, Document.parse (op.documentText index) = .ok again ∧
      again.definitions.map Definition.bare =
        (.operation op :: (index.reachable op.selections).map .fragment).map Definition.bare := by
  have hwritten : ∀ d ∈ document.definitions, d.Written fun _ => false :=
    Document.parse_written hparse (by simp [hfloats])
  have hall : ∀ d ∈ Definition.operation op :: (index.reachable op.selections).map .fragment,
      d.Written fun _ => false := by
    rw [List.forall_mem_cons, List.forall_mem_map]
    exact ⟨hwritten _ (Document.mem_definitions_of_operations hop),
      fun f hf => hwritten _ (Document.mem_definitions_of_reachable hindex hf)⟩
  -- without floats the text can be read, and nothing that is printed changes
  have hbare := fun d hd => Definition.bare_reread (fun _ => rfl) (hall d hd)
  obtain ⟨again, hagain, heq⟩ := Document.parse_definitions (by simp) hall
    (List.all_eq_true.mpr fun d hd => (hbare d hd).2)
  refine ⟨⟨again⟩, ?_, ?_⟩
  · rw [← hagain, Operation.documentText, List.map_cons, List.map_map]
    rfl
  · calc again.map Definition.bare
        = (again.map Definition.unplaced).map Definition.bare := by
          simp [Definition.bare_unplaced]
      _ = (List.map Definition.reread _).map Definition.bare := by rw [heq]
      _ = _ := by
          rw [List.map_map]
          exact List.map_congr_left fun d hd => (hbare d hd).1

namespace Sample

/-- A query with an alias, nested values, a string with a quote, both ways to use a fragment and a
directive. -/
def searchText : String :=
  "query Find($q: [ID!] = [\"a\\\"b\"]) \x7b hits: find(by: \x7bids: [$q, null]\x7d) \x7b " ++
    "...Hit ... on User \x7b id @skip(if: true) \x7d \x7d \x7d fragment Hit on Node \x7b id \x7d"

/-- The operation of that query. -/
def searchOperation : Operation :=
  ⟨.query, some "Find", [⟨"q", .list (.nonNull (.named "ID")), some (.list [.string "a\"b"])⟩],
    [.field ⟨some "hits", "find", [("by", .object [("ids", .list [.variable "q", .null])])], false,
        ⟨1, 36⟩⟩
      [.spread "Hit" ⟨1, 75⟩,
        .inline (some "User") [.field ⟨none, "id", [], true, ⟨1, 93⟩⟩ []] ⟨1, 83⟩]],
    ⟨1, 1⟩⟩

/-- The fragment of that query. -/
def searchFragment : Fragment :=
  ⟨"Hit", "Node", [.field ⟨none, "id", [], false, ⟨1, 141⟩⟩ []], ⟨1, 118⟩⟩

/-- A query with a field that a directive may leave out. -/
def includeText : String := "query q($x: Boolean!) \x7b foo baz @include(if: $x) \x7d"

/-- That query with the second field conditional or not. -/
def includeOperation (conditional : Bool) : Operation :=
  ⟨.query, some "q", [⟨"x", .nonNull (.named "Boolean"), none⟩],
    [.field ⟨none, "foo", [], false, ⟨1, 25⟩⟩ [], .field ⟨none, "baz", [], conditional, ⟨1, 29⟩⟩ []],
    ⟨1, 1⟩⟩

theorem parse_includeText :
    Document.parse includeText = .ok ⟨[.operation (includeOperation true)]⟩ := by
  cbv

set_option maxRecDepth 8000 in
theorem parse_searchText :
    Document.parse searchText = .ok ⟨[.operation searchOperation, .fragment searchFragment]⟩ := by
  cbv

set_option maxRecDepth 8000 in
theorem floatLiterals_searchText : floatLiterals searchText = [] := by
  cbv

end Sample

theorem Operation.parse_documentText_search :
    ∃ index again, FragmentIndex.ofDocument
        ⟨[.operation Sample.searchOperation, .fragment Sample.searchFragment]⟩ = .ok index ∧
      floatLiterals Sample.searchText = [] ∧
      Document.parse (Sample.searchOperation.documentText index) = .ok again ∧
      again.definitions.map Definition.bare =
        [Definition.bare (.operation Sample.searchOperation),
          Definition.bare (.fragment Sample.searchFragment)] := by
  have hindex : FragmentIndex.ofDocument
      ⟨[.operation Sample.searchOperation, .fragment Sample.searchFragment]⟩ =
        .ok ⟨[Sample.searchFragment], by decide⟩ := by
    cbv
  have hreachable : FragmentIndex.reachable ⟨[Sample.searchFragment], by decide⟩
      Sample.searchOperation.selections = [Sample.searchFragment] := by
    cbv
  obtain ⟨again, hagain, heq⟩ := Operation.parse_documentText Sample.parse_searchText hindex
    Sample.floatLiterals_searchText (List.mem_singleton.mpr rfl)
  rw [hreachable] at heq
  exact ⟨_, again, hindex, Sample.floatLiterals_searchText, hagain, heq⟩

/-! ## Conditions -/

/-- The label and the name of the field. -/
def Field.outline (f : Field) : Field := ⟨f.label, f.name, [], false, .start⟩

namespace Definition

/-- The selections of a definition with the labels and names of their fields. -/
def outline (d : Definition) : List Selection := mapSelections Field.outline d.selections

/-- Whether each field of a definition is conditional, at all depths and in the order of the text. -/
def conditionals (d : Definition) : List Bool := (fieldsOf d.selections).map Field.conditional

variable {floats : Binary64 → Bool}

/-- A definition with finite floats is read back from its text with the same fields, none of which is
conditional. -/
theorem parse_text {d : Definition} (h : d.Written floats) (hfinite : d.isFinite = true) :
    ∃ again, Document.parse d.text = .ok ⟨[again]⟩ ∧ again.outline = d.outline ∧
      ∀ f ∈ fieldsOf again.selections, f.conditional = false := by
  obtain ⟨again, hparse, heq⟩ := Document.parse_definitions (List.cons_ne_nil d [])
    (List.forall_mem_singleton.mpr h) (by simp [hfinite])
  obtain ⟨again, rfl⟩ : ∃ a, again = [a] := by
    have hlength := congrArg List.length heq
    rw [List.length_map, List.length_map] at hlength
    exact List.length_eq_one_iff.mp hlength
  have hselections := congrArg selections (List.singleton_inj.mp heq)
  rw [unplaced, reread, selections_mapParts, selections_mapParts] at hselections
  refine ⟨again, by simpa using hparse, ?_, ?_⟩
  · have houtline := congrArg (mapSelections Field.outline) hselections
    rw [mapSelections_mapSelections, mapSelections_mapSelections] at houtline
    exact houtline
  · intro f hf
    have hfields := congrArg fieldsOf hselections
    rw [fieldsOf_mapSelections, fieldsOf_mapSelections] at hfields
    have hmem : f.unplaced ∈ (fieldsOf d.selections).map Field.reread :=
      hfields ▸ List.mem_map_of_mem hf
    obtain ⟨g, -, hg⟩ := List.mem_map.mp hmem
    exact (congrArg Field.conditional hg).symm

theorem parse_text_eq_error {d : Definition} (h : d.Written floats) (hfinite : d.isFinite = false) :
    Document.parse d.text = .error .malformed := by
  simp [Document.parse, Document.parse?, lexemes?_eq_none h hfinite]

/-- Definitions of one outline have their fields in the same places. -/
theorem length_conditionals {d e : Definition} (h : d.outline = e.outline) :
    d.conditionals.length = e.conditionals.length := by
  have hfields := congrArg fieldsOf h
  rw [outline, outline, fieldsOf_mapSelections, fieldsOf_mapSelections] at hfields
  simpa [conditionals] using congrArg List.length hfields

/-- The text of a definition that was read is read back with no field conditional, and so with the
conditions that its fields had exactly if they had none. A float that is not finite is the one thing
that keeps the text from being read. -/
theorem same_conditions_iff {text : String} {document : Document}
    (hparse : Document.parse text = .ok document) {d : Definition} (hd : d ∈ document.definitions) :
    (d.isFinite = true → ∃ again, Document.parse d.text = .ok ⟨[again]⟩ ∧
      again.outline = d.outline ∧ ∀ f ∈ fieldsOf again.selections, f.conditional = false) ∧
    ((∃ again, Document.parse d.text = .ok ⟨[again]⟩ ∧ again.outline = d.outline ∧
        again.conditionals = d.conditionals) ↔
      d.isFinite = true ∧ ∀ f ∈ fieldsOf d.selections, f.conditional = false) := by
  have hwritten : d.Written fun _ => true := Document.parse_written hparse (by simp) d hd
  refine ⟨parse_text hwritten, ?_, ?_⟩
  · rintro ⟨again, hagain, -, hconditionals⟩
    cases hfinite : d.isFinite with
    | false =>
      rw [parse_text_eq_error hwritten hfinite] at hagain
      cases hagain
    | true =>
      obtain ⟨again', hagain', -, hnone⟩ := parse_text hwritten hfinite
      obtain rfl : again' = again := by
        rw [hagain'] at hagain
        simpa using hagain
      refine ⟨rfl, fun f hf => ?_⟩
      have hmem : f.conditional ∈ again'.conditionals := hconditionals ▸ List.mem_map_of_mem hf
      obtain ⟨g, hg, heq⟩ := List.mem_map.mp hmem
      rw [← heq, hnone g hg]
  · rintro ⟨hfinite, hnone⟩
    obtain ⟨again, hagain, houtline, hnone'⟩ := parse_text hwritten hfinite
    refine ⟨again, hagain, houtline, ?_⟩
    -- no field is conditional on either side, and there are as many on both
    have hfalse : ∀ {e : Definition}, (∀ f ∈ fieldsOf e.selections, f.conditional = false) →
        e.conditionals = List.replicate e.conditionals.length false := by
      intro e he
      exact List.eq_replicate_iff.mpr ⟨rfl, List.forall_mem_map.mpr he⟩
    rw [hfalse hnone', hfalse hnone, length_conditionals houtline]

theorem same_conditions_iff_search :
    (∃ again, Document.parse (operation Sample.searchOperation).text = .ok ⟨[again]⟩ ∧
      again.outline = (operation Sample.searchOperation).outline ∧
      ∀ f ∈ fieldsOf again.selections, f.conditional = false) ∧
    ¬ ∃ again, Document.parse (operation Sample.searchOperation).text = .ok ⟨[again]⟩ ∧
      again.outline = (operation Sample.searchOperation).outline ∧
      again.conditionals = (operation Sample.searchOperation).conditionals := by
  obtain ⟨hread, hiff⟩ := same_conditions_iff Sample.parse_searchText List.mem_cons_self
  refine ⟨hread rfl, fun hsame => ?_⟩
  have hid := (hiff.mp hsame).2 ⟨none, "id", [], true, ⟨1, 93⟩⟩ (by
    rw [selections, Sample.searchOperation]
    simp [fieldsOf, Selection.fieldsOf])
  cases hid

/-- A field with a directive is read back without it. -/
theorem not_same_conditions :
    ¬ ∀ text document, Document.parse text = .ok document → ∀ d ∈ document.definitions,
      ∃ again, Document.parse d.text = .ok ⟨[again]⟩ ∧ again.outline = d.outline ∧
        again.conditionals = d.conditionals := by
  intro hsame
  obtain ⟨again, hagain, -, hconditionals⟩ :=
    hsame _ _ Sample.parse_includeText _ (List.mem_singleton.mpr rfl)
  have hparse : Document.parse (operation (Sample.includeOperation true)).text =
      .ok ⟨[.operation (Sample.includeOperation false)]⟩ := by
    cbv
  rw [hparse] at hagain
  cases hagain
  revert hconditionals
  decide

end Definition

end ElmBindings
