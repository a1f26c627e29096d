import ElmBindings.Proofs.Decoding
import ElmBindings.Proofs.Reachable

set_option autoImplicit false

/-! # Keys that are read and fields that are requested

The decoder of an operation and the text that is sent for it are made apart from each other. `Reads`
says which keys the decoder reads from the object at a place of the answer, and `Requests` which
fields the text asks for there. Every key that a field decoder reads is requested. The `__typename` by
which a union is told apart is read at any rate, but requested only if the query selects it
(`Binding.reads_requested_iff`).

A place names the types of the objects on the way to it, as type conditions may or may not apply to
them. A spread counts where its fragment does (`counts`): the results hold for whatever is taken to
count, as long as all spreads on the way do. -/

namespace ElmBindings

open FragmentIndex

/-! ## Places -/

/-- An object of an answer, by the keys and the types of the objects that lead to it. The objects of a
list are all at one place. -/
inductive Place
  | root (type : String)
  | child (place : Place) (key type : String)

namespace Place

/-- The type of the object. -/
def type : Place → String
  | root type => type
  | child _ _ type => type

/-- Whether something holds of a place and of those on the way to it. -/
def All (P : Place → Prop) : Place → Prop
  | root type => P (root type)
  | child place key type => P (child place key type) ∧ place.All P

end Place

/-! ## What is requested -/

/-- An operation with the fragments that are sent along. -/
structure Sent where
  operation : Operation
  fragments : List Fragment

/-- The text that is sent. -/
def Sent.text (sent : Sent) : String :=
  " ".intercalate (sent.operation.text :: sent.fragments.map Fragment.text)

/-- What is sent for an operation. -/
def Operation.sent (op : Operation) (index : FragmentIndex) : Sent :=
  ⟨op, index.reachable op.selections⟩

/-- Whether a type condition applies to the objects of a type: it is the type, an interface of the type
or a union of which the type is a member. -/
def Schema.appliesTo (schema : Schema) (condition type : String) : Bool :=
  condition == type ||
    (schema.selectable? type).any (fun object => object.interfaces.contains condition) ||
    (schema.unionMembers? condition).any (fun members => members.contains type)

/-- Whether a selection of what is sent is for the object at a place: directly, through a spread that
counts or through an inline fragment that applies. -/
inductive Asked (schema : Schema) (counts : String → String → Prop) (sent : Sent) :
    Place → Selection → Prop
  | root {type : String} {x : Selection} (hx : x ∈ sent.operation.selections) :
    Asked schema counts sent (.root type) x
  | spread {place : Place} {name : String} {position : GraphQL.Position} {fragment : Fragment}
    {x : Selection} (h : Asked schema counts sent place (.spread name position))
    (hfragment : fragment ∈ sent.fragments) (hname : fragment.name = name)
    (hcounts : counts fragment.condition place.type) (hx : x ∈ fragment.selections) :
    Asked schema counts sent place x
  | inline {place : Place} {condition : Option String} {inner : List Selection}
    {position : GraphQL.Position} {x : Selection}
    (h : Asked schema counts sent place (.inline condition inner position))
    (happlies : ∀ name ∈ condition, schema.appliesTo name place.type = true) (hx : x ∈ inner) :
    Asked schema counts sent place x
  | field {place : Place} {f : Field} {inner : List Selection} {type : String} {x : Selection}
    (h : Asked schema counts sent place (.field f inner)) (hx : x ∈ inner) :
    Asked schema counts sent (.child place f.responseKey type) x

/-- Whether the object at a place is asked for a key. -/
def Requests (schema : Schema) (counts : String → String → Prop) (sent : Sent) (place : Place)
    (key : String) : Prop :=
  ∃ f inner, Asked schema counts sent place (.field f inner) ∧ f.responseKey = key

/-- Whether every spread for the object at a place counts. -/
def SpreadsCount (schema : Schema) (counts : String → String → Prop) (sent : Sent) (place : Place) :
    Prop :=
  ∀ name position fragment, Asked schema counts sent place (.spread name position) →
    fragment ∈ sent.fragments → fragment.name = name → counts fragment.condition place.type

/-! ## What is read -/

namespace Decoder

/-- Whether a part of a decoder is run on the object at a place, or on what is to be that object. -/
inductive Runs (root : Decoder) : Place → Decoder → Prop
  | root (type : String) : Runs root (.root type) root
  | maybe {place : Place} {d : Decoder} (h : Runs root place (.maybe d)) : Runs root place d
  | list {place : Place} {d : Decoder} (h : Runs root place (.list d)) : Runs root place d
  | map {place : Place} {build : Constructor} {ds : List Decoder} {d : Decoder}
    (h : Runs root place (.map build ds)) (hd : d ∈ ds) : Runs root place d
  | dispatch {place : Place} {cases : List (String × Decoder)} {d : Decoder}
    (h : Runs root place (.dispatch cases)) (hd : cases.lookup place.type = some d) :
    Runs root place d
  | field {place : Place} {key : String} {d : Decoder} (h : Runs root place (.field key d))
    (type : String) : Runs root (.child place key type) d

/-- Whether a decoder tells the types of the object at a place apart. -/
def Dispatches (root : Decoder) (place : Place) : Prop :=
  ∃ cases, root.Runs place (.dispatch cases)

/-- Whether a decoder reads a key of the object at a place. -/
def Reads (root : Decoder) (place : Place) (key : String) : Prop :=
  (∃ d, root.Runs place (.field key d)) ∨ key = typeNameField ∧ root.Dispatches place

end Decoder

/-! ## Fields at all depths -/

mutual

/-- Whether all fields of a selection, at all depths, are of a kind. -/
def Selection.allFields (p : Field → Bool) : Selection → Bool
  | .field f inner => p f && allFields p inner
  | .spread .. => true
  | .inline _ inner _ => allFields p inner

/-- Whether all fields of selections, at all depths, are of a kind. -/
def allFields (p : Field → Bool) : List Selection → Bool
  | [] => true
  | selection :: selections => selection.allFields p && allFields p selections

end

theorem allFields_of_mem {p : Field → Bool} {x : Selection} {selections : List Selection}
    (h : allFields p selections = true) (hx : x ∈ selections) : x.allFields p = true := by
  induction selections with
  | nil => cases hx
  | cons y rest ih =>
    rw [allFields, Bool.and_eq_true] at h
    rcases List.mem_cons.mp hx with rfl | hrest
    · exact h.1
    · exact ih h.2 hrest

/-- Whether no field of a document is given another key. -/
def Document.isUnlabelled (document : Document) : Bool :=
  document.definitions.all fun d => allFields (fun f => f.label.isNone) d.selections

/-! ## Selections that are asked for -/

namespace Asked

variable {schema : Schema} {counts : String → String → Prop} {place : Place} {x : Selection}

/-- What is true of all fields that are sent is true of those that are asked for. -/
theorem allFields {sent : Sent} (h : Asked schema counts sent place x) {p : Field → Bool}
    (hoperation : allFields p sent.operation.selections = true)
    (hfragments : ∀ fragment ∈ sent.fragments, ElmBindings.allFields p fragment.selections = true) :
    x.allFields p = true := by
  induction h with
  | root hx => exact allFields_of_mem hoperation hx
  | spread _ hfragment _ _ hx _ => exact allFields_of_mem (hfragments _ hfragment) hx
  | inline _ _ hx ih =>
    rw [Selection.allFields] at ih
    exact allFields_of_mem ih hx
  | field _ hx ih =>
    rw [Selection.allFields, Bool.and_eq_true] at ih
    exact allFields_of_mem ih.2 hx

theorem reaches {op : Operation} {index : FragmentIndex}
    (h : Asked schema counts (op.sent index) place x) : Reaches index op.selections x := by
  induction h with
  | root hx => exact .root hx
  | spread _ hfragment hname _ hx ih =>
    exact .spread ih (hname ▸ get?_of_mem_reachable hfragment) hx
  | inline _ _ hx ih => exact .inline ih hx
  | field _ hx ih => exact .field ih hx

/-- If selections are asked for, so is every field that they stand for. -/
theorem of_mem_flatten {op : Operation} {index : FragmentIndex} {chain : List String}
    {parent : ObjectDef} {selections : List Selection} {s : Selected}
    (hcount : SpreadsCount schema counts (op.sent index) place)
    (hasked : ∀ x ∈ selections, Asked schema counts (op.sent index) place x)
    (hs : s ∈ flatten schema index chain parent selections) :
    Asked schema counts (op.sent index) place (.field s.field s.inner) := by
  fun_induction flatten schema index chain parent selections with
  | case1 => cases hs
  | case2 chain parent field inner rest ih =>
    rcases List.mem_cons.mp hs with rfl | hrest
    · exact hasked _ (by simp)
    · exact ih (fun x hx => hasked x (by simp [hx])) hrest
  | case3 chain parent name position rest hspread hrest =>
    rcases List.mem_append.mp hs with hin | hin
    · split at hin
      · next object inner found =>
        obtain ⟨-, fragment, hget, -, rfl⟩ := Schema.spread?_eq_some found
        have hspreadAsked := hasked (.spread name position) (by simp)
        -- a spread that is asked for is met from the operation, so its fragment is sent along
        have hfragment := hspreadAsked.reaches.mem_reachable hget
        have hname := (get?_eq_some hget).2
        have happlies := hcount name position fragment hspreadAsked hfragment hname
        exact hspread object _ found
          (fun x hx => .spread hspreadAsked hfragment hname happlies hx) hin
      · cases hin
    · exact hrest (fun x hx => hasked x (by simp [hx])) hin
  | case4 chain parent condition inner position rest ih =>
    exact ih (fun x hx => hasked x (by simp [hx])) hs

theorem onMember {sent : Sent} {inner : List Selection}
    (hasked : ∀ x ∈ inner, Asked schema counts sent place x)
    (hx : x ∈ onMember place.type inner) : Asked schema counts sent place x := by
  induction inner with
  | nil => cases hx
  | cons y rest ih =>
    have hrest := ih fun z hz => hasked z (by simp [hz])
    cases y with
    | field f sub => exact hrest hx
    | spread name position => exact hrest hx
    | inline condition sub position =>
      rw [ElmBindings.onMember] at hx
      split at hx
      · next hcondition =>
        rcases List.mem_append.mp hx with hsub | hlater
        · refine .inline (hasked (.inline condition sub position) (by simp)) ?_ hsub
          intro name hname
          rw [hcondition, Option.mem_some_iff] at hname
          simp [Schema.appliesTo, hname]
        · exact hrest hlater
      · exact hrest hx

end Asked

/-! ## Decoders that read what is requested -/

/-- Whether every field decoder that is run at a place or below reads a key that is requested. Below the
place, only objects for which all spreads count are looked at. -/
inductive Supported (schema : Schema) (counts : String → String → Prop) (sent : Sent) :
    Place → Decoder → Prop
  | primitive {place : Place} (leaf : Primitive) :
    Supported schema counts sent place (.primitive leaf)
  | maybe {place : Place} {d : Decoder} (h : Supported schema counts sent place d) :
    Supported schema counts sent place (.maybe d)
  | list {place : Place} {d : Decoder} (h : Supported schema counts sent place d) :
    Supported schema counts sent place (.list d)
  | map {place : Place} {build : Constructor} {ds : List Decoder}
    (h : ∀ d ∈ ds, Supported schema counts sent place d) :
    Supported schema counts sent place (.map build ds)
  | dispatch {place : Place} {cases : List (String × Decoder)}
    (h : ∀ d, cases.lookup place.type = some d → Supported schema counts sent place d) :
    Supported schema counts sent place (.dispatch cases)
  | field {place : Place} {key : String} {d : Decoder} (hkey : Requests schema counts sent place key)
    (h : ∀ type, SpreadsCount schema counts sent (.child place key type) →
      Supported schema counts sent (.child place key type) d) :
    Supported schema counts sent place (.field key d)
  | succeed {place : Place} (build : Constructor) :
    Supported schema counts sent place (.succeed build)

namespace Supported

variable {schema : Schema} {counts : String → String → Prop} {sent : Sent} {place : Place}

/-- Support goes from a decoder to all its parts. -/
theorem of_runs {root d : Decoder}
    (hroot : ∀ type, SpreadsCount schema counts sent (.root type) →
      Supported schema counts sent (.root type) root)
    (hcount : place.All (SpreadsCount schema counts sent)) (h : root.Runs place d) :
    Supported schema counts sent place d := by
  induction h with
  | root type => exact hroot type hcount
  | maybe _ ih =>
    cases ih hcount with
    | maybe hd => exact hd
  | list _ ih =>
    cases ih hcount with
    | list hd => exact hd
  | map _ hmem ih =>
    cases ih hcount with
    | map hds => exact hds _ hmem
  | dispatch _ hlookup ih =>
    cases ih hcount with
    | dispatch hcases => exact hcases _ hlookup
  | field _ type ih =>
    cases ih hcount.2 with
    | field _ hbelow => exact hbelow type hcount.1

theorem lists {d : Decoder} (h : Supported schema counts sent place d) (depth : Nat) :
    Supported schema counts sent place (d.lists depth) := by
  induction depth with
  | zero => exact h
  | succ depth ih => exact .list ih

theorem construct {ds : List Decoder} (h : ∀ d ∈ ds, Supported schema counts sent place d)
    (build : Constructor) : Supported schema counts sent place (.construct build ds) := by
  cases ds with
  | nil => exact .succeed build
  | cons d ds => exact .map h

end Supported

section

variable {schema : Schema} {counts : String → String → Prop} {index : FragmentIndex}
  {op : Operation}

/-- The decoder under the wrappers of a field is supported, if the shapes of the field's sub-selections
are. -/
theorem Selected.Reading.supported {s : Selected} {d : TypeDef} {elm : ElmType} {decoder : Decoder}
    (h : s.Reading schema index d elm decoder) {place : Place}
    (hrecord : ∀ parent shape,
      expand schema index s.chain parent {} s.inner = .ok shape →
      ∀ d ∈ shape.decoders, Supported schema counts (op.sent index) place d)
    (hvariant : ∀ parent shape,
      expand schema index s.chain parent {} (onMember place.type s.inner) = .ok shape →
      ∀ d ∈ shape.decoders, Supported schema counts (op.sent index) place d) :
    Supported schema counts (op.sent index) place decoder := by
  cases h with
  | scalar d => exact .primitive _
  | enum d => exact .primitive _
  | object hd hshape => exact .construct (hrecord _ _ hshape) _
  | union hvariants =>
    apply Supported.dispatch
    intro d hd
    obtain ⟨shape, hshape, rfl⟩ :=
      Option.map_eq_some_iff.mp ((lookup_variantDecoder _ place.type).symm.trans hd)
    obtain ⟨-, object, -, hexpand⟩ :=
      (expandUnion_members hvariants).shapes place.type shape (mem_of_lookup hshape)
    exact .construct (hvariant object shape hexpand) _

/-- The decoders of a fresh expansion are supported wherever its selections are asked for. -/
theorem expand_supported
    (hplain : ∀ place f inner, Asked schema counts (op.sent index) place (.field f inner) →
      f.label = none) (chain : List String) (selections : List Selection) :
    ∀ parent shape place, expand schema index chain parent {} selections = .ok shape →
      SpreadsCount schema counts (op.sent index) place →
      (∀ x ∈ selections, Asked schema counts (op.sent index) place x) →
      ∀ d ∈ shape.decoders, Supported schema counts (op.sent index) place d := by
  induction chain, selections using selections_induction schema index with
  | step chain selections ih =>
    intro parent shape place hshape hcount hasked decoder hdecoder
    obtain ⟨e, he, rfl⟩ := List.mem_map.mp hdecoder
    obtain ⟨s, hs, type, d, elm, base, -, hreading, rfl⟩ :=
      exists_of_mem_right (expand_selected hshape) he
    have hfield := Asked.of_mem_flatten hcount hasked (mem_flatten_of_mem_selected hs)
    -- without labels the key of the answer is the name of the field, by which it is read
    have hkey : s.field.responseKey = s.field.name := by
      rw [Field.responseKey, hplain place _ _ hfield, Option.getD_none]
    obtain ⟨hrecord, hvariant⟩ := ih parent s hs
    have hread : Supported schema counts (op.sent index) place
        (.field s.field.name (base.lists type.layers)) := by
      refine .field ⟨s.field, s.inner, hfield, hkey⟩ ?_
      intro object hbelow
      have hinner : ∀ x ∈ s.inner,
          Asked schema counts (op.sent index) (.child place s.field.name object) x := by
        intro x hx
        rw [← hkey]
        exact .field hfield hx
      refine Supported.lists (hreading.supported ?_ ?_) type.layers
      · intro parent shape hshape
        exact hrecord parent shape _ hshape hbelow hinner
      · intro parent shape hshape
        exact hvariant object parent shape _ hshape hbelow fun x hx => Asked.onMember hinner hx
    simp only [Selected.entry]
    split
    · exact .maybe hread
    · exact hread

end

/-! ## Results -/

/-- In a document without labels, no field that is asked for has one. -/
theorem Asked.label_eq_none {schema : Schema} {counts : String → String → Prop}
    {document : Document} {index : FragmentIndex} {op : Operation} {place : Place} {f : Field}
    {inner : List Selection} (hplain : document.isUnlabelled = true)
    (hindex : FragmentIndex.ofDocument document = .ok index)
    (hop : .operation op ∈ document.definitions)
    (h : Asked schema counts (op.sent index) place (.field f inner)) : f.label = none := by
  rw [Document.isUnlabelled, List.all_eq_true] at hplain
  have hfields := h.allFields (hplain _ hop) ?_
  · rw [Selection.allFields, Bool.and_eq_true] at hfields
    exact Option.isNone_iff_eq_none.mp hfields.1
  · intro fragment hfragment
    have hin := (get?_eq_some (get?_of_mem_reachable hfragment)).1
    rw [fragments_of_ofDocument hindex, Document.fragments, List.mem_filterMap] at hin
    obtain ⟨d, hd, hfragment⟩ := hin
    cases d with
    | operation op => cases hfragment
    | fragment other =>
      cases hfragment
      exact hplain _ hd

/-- The text of an operation requests every key that the decoder of the operation reads from the object
at a place, just if it requests `__typename` in case the decoder tells types apart there. -/
theorem Binding.reads_requested_iff {schema : Schema} {document : Document}
    {bindings : List Binding} {i : Nat} {binding : Binding} {op : Operation}
    (h : Binding.ofDocument schema document = .ok bindings)
    (hbinding : bindings[i]? = some binding)
    (hop : document.definitions[i]? = some (.operation op))
    (hplain : document.isUnlabelled = true) :
    ∃ index, FragmentIndex.ofDocument document = .ok index ∧
      binding.document = (op.sent index).text ∧
      ∀ counts place, place.All (SpreadsCount schema counts (op.sent index)) →
        ((∀ key, binding.decoder.Reads place key →
            Requests schema counts (op.sent index) place key) ↔
          (binding.decoder.Dispatches place →
            Requests schema counts (op.sent index) place typeNameField)) := by
  obtain ⟨index, d, hindex, hd, hof⟩ := Binding.ofDocument_getElem? h hbinding
  cases hop.symm.trans hd
  obtain ⟨parent, shape, -, hshape, -, hdecoder, htext⟩ := Binding.ofOperation_eq_ok hof
  refine ⟨index, hindex, htext, ?_⟩
  intro counts place hcount
  have hlabels : ∀ place f inner, Asked schema counts (op.sent index) place (.field f inner) →
      f.label = none := by
    intro place f inner hasked
    exact hasked.label_eq_none hplain hindex (List.mem_of_getElem? hd)
  have hsupported : ∀ d, binding.decoder.Runs place d →
      Supported schema counts (op.sent index) place d := by
    intro d hruns
    refine Supported.of_runs ?_ hcount hruns
    intro type hroot
    rw [hdecoder]
    refine .construct (expand_supported hlabels [] op.selections parent shape _ hshape hroot ?_) _
    exact fun x hx => .root hx
  constructor
  · intro hall hdispatch
    exact hall typeNameField (.inr ⟨rfl, hdispatch⟩)
  -- keys of field decoders are requested in any case
  · rintro htypeName key (⟨d, hruns⟩ | ⟨rfl, hdispatch⟩)
    · cases hsupported _ hruns with
      | field hkey _ => exact hkey
    · exact htypeName hdispatch

section

open Sample

attribute [local irreducible] Naming.valueName

/-- A query that selects `__typename` on a union. -/
def Sample.typed : Operation :=
  ⟨.query, none, [],
    [select "search" [select "__typename" [], inline "User" [spread "Names"]]], .start⟩

/-- A query that does not. -/
def Sample.untyped : Operation :=
  ⟨.query, none, [], [select "search" [inline "User" [select "id" []]]], .start⟩

def Sample.unions : Document :=
  ⟨[.operation typed, .operation untyped, .fragment names]⟩

theorem Sample.ofDocument_unions : Binding.ofDocument schema unions = .ok (bindings unions) := by
  cbv

theorem Sample.fragments_unions : FragmentIndex.ofDocument unions = .ok (fragments unions) := by
  cbv

/-- A query for results that are users with the given fields. -/
def Sample.usersDecoder (names : List String) (fields : List Decoder) : Decoder :=
  .map (.record (some "AnonymousQuery") ["search"])
    [.field "search" (.list (.dispatch [("User", .map (.variant "User" names) fields)]))]

/-- The place of the users among the results. -/
def Sample.foundUser : Place := .child (.root "Query") "search" "User"

theorem Sample.runs_usersDecoder (names : List String) (fields : List Decoder) :
    (usersDecoder names fields).Runs foundUser
      (.dispatch [("User", .map (.variant "User" names) fields)]) := by
  have hfield : (usersDecoder names fields).Runs (.root "Query") (.field "search" _) :=
    .map (.root "Query") (List.mem_singleton.mpr rfl)
  exact .list (.field hfield "User")

/-- Nothing but its one field is asked of the root of the query. -/
theorem Sample.asked_typed {counts : String → String → Prop} {index : FragmentIndex} {place : Place}
    {x : Selection} (h : Asked schema counts (typed.sent index) place x)
    (hplace : place = .root "Query") : x ∈ typed.selections := by
  induction h with
  | root hx => exact hx
  | spread _ _ _ _ _ ih =>
    have hspread := List.mem_singleton.mp (ih hplace)
    cases hspread
  | inline _ _ _ ih =>
    have hinline := List.mem_singleton.mp (ih hplace)
    cases hinline
  | field => cases hplace

/-- A fragment selects the `name` of users, and applies to them. -/
theorem Binding.reads_requested_name :
    ∃ binding, (bindings unions)[0]? = some binding ∧
      binding.document = (typed.sent (fragments unions)).text ∧
      binding.decoder.Reads foundUser "name" ∧
      Requests schema (fun condition type => schema.appliesTo condition type = true)
        (typed.sent (fragments unions)) foundUser "name" := by
  have hsome : (bindings unions)[0]?.map Binding.decoder =
      some (usersDecoder ["id", "name"]
        [.field "id" (.primitive .string), .maybe (.field "name" (.primitive .string))]) := by
    cbv
  obtain ⟨binding, hbinding, hdecoder⟩ := Option.map_eq_some_iff.mp hsome
  obtain ⟨index, hindex, htext, hiff⟩ :=
    Binding.reads_requested_iff ofDocument_unions hbinding rfl (by cbv)
  cases hindex.symm.trans fragments_unions
  have hreads : binding.decoder.Reads foundUser "name" := by
    rw [hdecoder]
    have hruns := runs_usersDecoder ["id", "name"]
      [.field "id" (.primitive .string), .maybe (.field "name" (.primitive .string))]
    exact .inl ⟨.primitive .string, .maybe (.map (.dispatch hruns rfl) (by simp))⟩
  refine ⟨binding, hbinding, htext, hreads, (hiff _ foundUser ⟨?_, ?_⟩).mpr ?_ "name" hreads⟩
  · intro name position fragment _ hfragment _
    have hnames : (typed.sent (fragments unions)).fragments = [Sample.names] := by cbv
    rw [hnames, List.mem_singleton] at hfragment
    rw [hfragment]
    cbv
  · intro name position fragment hasked _ _
    have hspread := List.mem_singleton.mp (asked_typed hasked rfl)
    cases hspread
  · intro _
    have hsearch : Asked schema (fun condition type => schema.appliesTo condition type = true)
        (typed.sent (fragments unions)) (.root "Query")
        (select "search" [select "__typename" [], inline "User" [spread "Names"]]) :=
      .root (List.mem_singleton.mpr rfl)
    exact ⟨_, [], .field hsearch List.mem_cons_self, rfl⟩

/-- A decoder may read a key that nothing requests: `__typename` where a query on a union leaves it
out, also if every spread is taken to count. -/
theorem Binding.not_reads_requested :
    ¬ ∀ (schema : Schema) (document : Document) (bindings : List Binding) (i : Nat)
        (binding : Binding) (op : Operation) (index : FragmentIndex)
        (counts : String → String → Prop) (place : Place) (key : String),
      Binding.ofDocument schema document = .ok bindings → bindings[i]? = some binding →
      document.definitions[i]? = some (.operation op) → document.isUnlabelled = true →
      FragmentIndex.ofDocument document = .ok index →
      place.All (SpreadsCount schema counts (op.sent index)) →
      binding.decoder.Reads place key → Requests schema counts (op.sent index) place key := by
  intro hall
  have hsome : (Sample.bindings Sample.unions)[1]?.map Binding.decoder =
      some (Sample.usersDecoder ["id"] [.field "id" (.primitive .string)]) := by
    cbv
  obtain ⟨binding, hbinding, hdecoder⟩ := Option.map_eq_some_iff.mp hsome
  have hdispatches : binding.decoder.Dispatches Sample.foundUser := by
    rw [hdecoder]
    exact ⟨_, Sample.runs_usersDecoder _ _⟩
  obtain ⟨f, inner, hasked, hkey⟩ :=
    hall _ _ _ 1 binding Sample.untyped _ (fun _ _ => True) Sample.foundUser typeNameField
      Sample.ofDocument_unions hbinding rfl (by cbv) Sample.fragments_unions
      ⟨fun _ _ _ _ _ _ => trivial, fun _ _ _ _ _ _ => trivial⟩ (.inr ⟨rfl, hdispatches⟩)
  have hother := hasked.allFields (p := fun f => f.responseKey != typeNameField) (by cbv) ?_
  · simp [Selection.allFields, hkey] at hother
  · have hnone : (Sample.untyped.sent (Sample.fragments Sample.unions)).fragments = [] := by cbv
    simp [hnone]

end

end ElmBindings
