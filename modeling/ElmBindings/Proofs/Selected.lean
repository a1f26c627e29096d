import ElmBindings.Binding.Generate
import Mathlib.Data.List.Forall2

set_option autoImplicit false

/-! # Selected fields

What a selection set asks of one object, said in two steps. `flatten` lists the fields in the order of
the document, where a spread stands for the fields of its fragment, selected from the type that the
fragment is on. `selected` keeps of the fields with one Elm name the first.

Neither makes types or decoders: `expand` is compared with them, and so are the payloads that a server
sends. `selections_induction` is the induction that follows a field into its sub-selections, through
any number of spreads. -/

namespace ElmBindings

open FragmentIndex

/-! ## Fields in the order of the document -/

/-- A field as it is selected from one object. -/
structure Selected where
  /-- The type that the field is selected from. -/
  parent : ObjectDef
  field : Field
  /-- The sub-selections of the field. -/
  inner : List Selection
  /-- The fragments that are being expanded, innermost first. -/
  chain : List String

/-- The Elm name of a selected field. How it is made matters to no proof here. -/
@[irreducible]
def Selected.name (s : Selected) : String := Naming.valueName s.field.responseKey

/-- The type that a fragment is on and its selections, unless the fragment is being expanded. -/
def Schema.spread? (schema : Schema) (index : FragmentIndex) (chain : List String)
    (name : String) : Option (ObjectDef × List Selection) :=
  if name ∈ chain then none
  else do
    let fragment ← index.get? name
    let object ← schema.selectable? fragment.condition
    some (object, fragment.selections)

theorem Schema.spread?_eq_some {schema : Schema} {index : FragmentIndex} {chain : List String}
    {name : String} {object : ObjectDef} {selections : List Selection}
    (h : schema.spread? index chain name = some (object, selections)) :
    name ∉ chain ∧ ∃ fragment, index.get? name = some fragment ∧
      schema.selectable? fragment.condition = some object ∧ fragment.selections = selections := by
  rw [spread?] at h
  split at h
  · cases h
  · next hnew =>
    simp only [Option.bind_eq_bind, Option.bind_eq_some_iff, Option.some.injEq, Prod.mk.injEq] at h
    obtain ⟨fragment, hfound, other, hon, rfl, hsel⟩ := h
    exact ⟨hnew, fragment, hfound, hon, hsel⟩

/-- Going into a spread leaves fewer fragments to expand. -/
theorem Schema.unused_of_spread? {schema : Schema} {index : FragmentIndex} {chain : List String}
    {name : String} {target : ObjectDef × List Selection}
    (h : schema.spread? index chain name = some target) :
    index.unused (name :: chain) < index.unused chain := by
  obtain ⟨hnew, fragment, hfound, -⟩ := spread?_eq_some h
  exact unused_cons_lt (mem_names_of_get? hfound) hnew

/-- The fields of selections on `parent`, with those of spreads in their place. Inline fragments have
no place on an object, and add none. -/
def flatten (schema : Schema) (index : FragmentIndex) (chain : List String) (parent : ObjectDef) :
    List Selection → List Selected
  | [] => []
  | .field field inner :: rest =>
    ⟨parent, field, inner, chain⟩ :: flatten schema index chain parent rest
  | .spread name _ :: rest =>
    (match _found : schema.spread? index chain name with
      | some (object, selections) => flatten schema index (name :: chain) object selections
      | none => []) ++ flatten schema index chain parent rest
  | .inline .. :: rest => flatten schema index chain parent rest
termination_by selections => (index.unused chain, selectionsSize selections)
decreasing_by
  · exact Prod.Lex.right _ (by simp [selectionsSize, selectionSize])
  · exact Prod.Lex.left _ _ (Schema.unused_of_spread? ‹_›)
  · exact Prod.Lex.right _ (by simp [selectionsSize, selectionSize])
  · exact Prod.Lex.right _ (by simp [selectionsSize, selectionSize])

/-! ## The first field of each name -/

/-- Of the fields whose name is not taken, the first one of each name. -/
def firsts (taken : List String) : List Selected → List Selected
  | [] => []
  | s :: rest =>
    if s.name ∈ taken then firsts taken rest else s :: firsts (taken ++ [s.name]) rest

theorem firsts_append (taken : List String) (xs ys : List Selected) :
    firsts taken (xs ++ ys) =
      firsts taken xs ++ firsts (taken ++ (firsts taken xs).map Selected.name) ys := by
  induction xs generalizing taken with
  | nil => simp [firsts]
  | cons x xs ih =>
    simp only [List.cons_append, firsts]
    split
    · exact ih taken
    · rw [ih (taken ++ [x.name])]
      simp

theorem firsts_sublist (taken : List String) (xs : List Selected) :
    (firsts taken xs).Sublist xs := by
  induction xs generalizing taken with
  | nil => simp [firsts]
  | cons x xs ih =>
    rw [firsts]
    split
    · exact (ih taken).cons x
    · exact (ih _).cons_cons x

/-- The fields that a selection set asks of an object, one for each Elm name. -/
def selected (schema : Schema) (index : FragmentIndex) (chain : List String) (parent : ObjectDef)
    (selections : List Selection) : List Selected :=
  firsts [] (flatten schema index chain parent selections)

theorem mem_flatten_of_mem_selected {schema : Schema} {index : FragmentIndex}
    {chain : List String} {parent : ObjectDef} {selections : List Selection} {s : Selected}
    (h : s ∈ selected schema index chain parent selections) :
    s ∈ flatten schema index chain parent selections :=
  (firsts_sublist [] _).subset h

/-! ## Types of selected fields -/

/-- The number of list wrappers of a reference. -/
def TypeRef.layers : TypeRef → Nat
  | .named _ => 0
  | .list item => item.layers + 1
  | .nonNull inner => inner.layers

namespace Selected

/-- The type of a selected field and the definition that its name leads to. `__typename` is a string
that every object has. -/
def type? (schema : Schema) (s : Selected) : Option (TypeRef × TypeDef) :=
  if s.field.name = typeNameField then
    some (.nonNull (.named BuiltinScalar.string.name), .scalar ⟨BuiltinScalar.string.name, none⟩)
  else do
    let d ← s.parent.field? s.field.name
    let base ← schema.get? d.type.baseName
    some (d.type, base)

/-- The enum type of a selected field is one of the schema. -/
theorem get?_of_type? {schema : Schema} {s : Selected} {type : TypeRef} {d : EnumDef}
    (h : s.type? schema = some (type, .enum d)) : schema.get? type.baseName = some (.enum d) := by
  unfold type? at h
  split at h
  · cases h
  · simp only [Option.bind_eq_bind, Option.bind_eq_some_iff, Option.some.injEq,
      Prod.mk.injEq] at h
    obtain ⟨field, -, base, hbase, rfl, rfl⟩ := h
    exact hbase

/-- Whether an answer may lack a field of the given type, or hold `null` for it. -/
def isOptional (s : Selected) (type : TypeRef) : Bool :=
  !type.isNonNull || s.field.conditional

end Selected

/-! ## Definitions -/

namespace Definition

/-- The fragments that are being expanded while the selections of a definition are. -/
def chain : Definition → List String
  | operation _ => []
  | fragment f => [f.name]

/-- The type that a definition selects from. -/
def target? (schema : Schema) : Definition → Option ObjectDef
  | operation op =>
    match op.kind with
    | .query => schema.selectable? schema.queryType
    | .mutation => schema.mutationType.bind schema.selectable?
    | .subscription => schema.subscriptionType.bind schema.selectable?
  | fragment f => schema.selectable? f.condition

/-- The fields that a definition asks of its root object. -/
def selected (schema : Schema) (index : FragmentIndex) (d : Definition) : List Selected :=
  match d.target? schema with
  | some parent => ElmBindings.selected schema index d.chain parent d.selections
  | none => []

end Definition

/-! ## Selections on a union -/

/-- The type that an inline fragment is on. -/
def Selection.condition? : Selection → Option String
  | .inline condition _ _ => condition
  | _ => none

/-- The types that the inline fragments of selections are on, in order. -/
def conditions (selections : List Selection) : List String :=
  selections.filterMap Selection.condition?

/-- The selections of all inline fragments on one type, one after the other. -/
def onMember (member : String) : List Selection → List Selection
  | [] => []
  | .inline condition inner _ :: rest =>
    if condition = some member then inner ++ onMember member rest else onMember member rest
  | _ :: rest => onMember member rest

theorem onMember_append (member : String) (xs ys : List Selection) :
    onMember member (xs ++ ys) = onMember member xs ++ onMember member ys := by
  fun_induction onMember member xs <;> simp_all [onMember]

theorem onMember_eq_nil {member : String} {selections : List Selection}
    (h : member ∉ conditions selections) : onMember member selections = [] := by
  fun_induction onMember member selections <;> simp_all [conditions, Selection.condition?]

theorem selectionsSize_onMember_le (member : String) (selections : List Selection) :
    selectionsSize (onMember member selections) ≤ selectionsSize selections := by
  fun_induction onMember member selections <;>
    simp_all [selectionsSize, selectionSize, selectionsSize_append] <;> omega

/-! ## Going into sub-selections -/

/-- Whether selections come later in an expansion than others: fewer fragments are left to expand, or
as many are and the selections are smaller. -/
def Later (index : FragmentIndex) (chain : List String) (inner : List Selection)
    (outerChain : List String) (outer : List Selection) : Prop :=
  index.unused chain < index.unused outerChain ∨
    index.unused chain = index.unused outerChain ∧ selectionsSize inner < selectionsSize outer

theorem Later.lex {index : FragmentIndex} {chain outerChain : List String}
    {inner outer : List Selection} (h : Later index chain inner outerChain outer) :
    Prod.Lex (· < ·) (· < ·) (index.unused chain, selectionsSize inner)
      (index.unused outerChain, selectionsSize outer) := by
  rcases h with hless | ⟨heq, hless⟩
  · exact Prod.Lex.left _ _ hless
  · rw [heq]
    exact Prod.Lex.right _ hless

theorem Later.onMember {index : FragmentIndex} {chain outerChain : List String}
    {inner outer : List Selection} (h : Later index chain inner outerChain outer)
    (member : String) : Later index chain (onMember member inner) outerChain outer := by
  have hle := selectionsSize_onMember_le member inner
  rcases h with hless | ⟨heq, hless⟩
  · exact .inl hless
  · exact .inr ⟨heq, by omega⟩

/-- The sub-selections of a field come later than the selections that the field is among, however many
spreads lead to it. -/
theorem later_of_mem_flatten {schema : Schema} {index : FragmentIndex} {chain : List String}
    {parent : ObjectDef} {selections : List Selection} {s : Selected}
    (h : s ∈ flatten schema index chain parent selections) :
    Later index s.chain s.inner chain selections := by
  fun_induction flatten schema index chain parent selections with
  | case1 => cases h
  | case2 chain parent field inner rest ih =>
    rcases List.mem_cons.mp h with rfl | hrest
    · exact .inr ⟨rfl, by simp only [selectionsSize, selectionSize]; omega⟩
    · have := ih hrest
      simp only [Later, selectionsSize, selectionSize] at this ⊢
      omega
  | case3 chain parent name position rest hspread hrest =>
    rcases List.mem_append.mp h with hin | hin
    · split at hin
      · next object selections found =>
        -- the fragment may be larger than the selections, but it is used up
        have hless := Schema.unused_of_spread? found
        have := hspread object selections found hin
        simp only [Later] at this ⊢
        omega
      · cases hin
    · have := hrest hin
      simp only [Later, selectionsSize, selectionSize] at this ⊢
      omega
  | case4 chain parent condition inner position rest ih =>
    have := ih h
    simp only [Later, selectionsSize, selectionSize] at this ⊢
    omega

theorem later_of_mem_selected {schema : Schema} {index : FragmentIndex} {chain : List String}
    {parent : ObjectDef} {selections : List Selection} {s : Selected}
    (h : s ∈ selected schema index chain parent selections) :
    Later index s.chain s.inner chain selections :=
  later_of_mem_flatten (mem_flatten_of_mem_selected h)

/-- Induction on selections: what holds of the sub-selections of every selected field, also of those on
one member of a union, holds of the selections. -/
theorem selections_induction (schema : Schema) (index : FragmentIndex)
    {motive : List String → List Selection → Prop}
    (step : ∀ chain selections,
      (∀ parent, ∀ s ∈ selected schema index chain parent selections,
        motive s.chain s.inner ∧ ∀ member, motive s.chain (onMember member s.inner)) →
      motive chain selections)
    (chain : List String) (selections : List Selection) : motive chain selections :=
  step chain selections fun _ s _hs =>
    ⟨selections_induction schema index step s.chain s.inner,
      fun member => selections_induction schema index step s.chain (onMember member s.inner)⟩
termination_by (index.unused chain, selectionsSize selections)
decreasing_by
  · exact (later_of_mem_selected _hs).lex
  · exact ((later_of_mem_selected _hs).onMember member).lex

end ElmBindings
