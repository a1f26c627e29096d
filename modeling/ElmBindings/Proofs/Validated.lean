import ElmBindings.Proofs.Declarations
import ElmBindings.Proofs.Reachable
import ElmBindings.Proofs.Written
import ElmBindings.Schema.Validate

set_option autoImplicit false

/-! # Generation from a valid schema

A schema that passes `Schema.validate` has all that a document can ask of it: `Schema.Sound` says that
its references resolve, that the members of its unions and its roots are object types. `validate` goes
through the list of types, and generation through the index of names; in a loaded schema the index leads
to types of the list (`Schema.sound_of_validate`).

So where generation fails, the schema is not to blame (`Binding.ofDocument_error`). Each function has one
lemma on the errors it gives: `fieldPlan_error`, `expand_error`, `namedInput_error`, `input_error`. -/

namespace ElmBindings

open FragmentIndex

theorem forM_eq_ok {ε α : Type} {f : α → Except ε Unit} {xs : List α} (h : xs.forM f = .ok ()) :
    ∀ x ∈ xs, f x = .ok () := by
  induction xs with
  | nil => simp
  | cons x xs ih =>
    obtain ⟨_, hx, hxs⟩ := bind_eq_ok.mp h
    intro y hy
    rcases List.mem_cons.mp hy with rfl | hy
    · exact hx
    · exact ih hxs y hy

theorem map_eq_error {ε α β : Type} {x : Except ε α} {f : α → β} {e : ε} :
    x.map f = .error e ↔ x = .error e := by
  cases x <;> simp [Except.map]

theorem mapError_eq_error {ε ε' α : Type} {x : Except ε α} {f : ε → ε'} {e : ε'} :
    x.mapError f = .error e ↔ ∃ cause, x = .error cause ∧ f cause = e := by
  cases x <;> simp [Except.mapError]

/-- A list whose elements are treated one after the other fails at one of them. -/
theorem exists_of_mapM_eq_error {ε α β : Type} {f : α → Except ε β} {xs : List α} {e : ε}
    (h : xs.mapM f = .error e) : ∃ x ∈ xs, f x = .error e := by
  induction xs with
  | nil => cases h
  | cons x xs ih =>
    rw [List.mapM_cons] at h
    rcases bind_eq_error.mp h with hx | ⟨y, -, h⟩
    · exact ⟨x, List.mem_cons_self, hx⟩
    · rcases bind_eq_error.mp h with hxs | ⟨ys, -, h⟩
      · obtain ⟨z, hz, hfail⟩ := ih hxs
        exact ⟨z, List.mem_cons_of_mem x hz, hfail⟩
      · cases h

namespace Schema

variable {schema : Schema}

/-! ## What a valid schema has -/

/-- Whether a reference can be resolved, wherever it is made. -/
def Resolves (schema : Schema) (ref : TypeRef) : Prop :=
  ∀ context, ∃ type, schema.resolve context ref = .ok type

/-- What generation relies on: references resolve, and the members of unions and the roots of operations
are object types. -/
structure Sound (schema : Schema) : Prop where
  fields : ∀ name object, schema.selectable? name = some object →
    ∀ field ∈ object.fields, schema.Resolves field.type
  inputs : ∀ name d, schema.get? name = some (.input d) →
    ∀ field ∈ d.fields, schema.Resolves field.type
  members : ∀ union, ∀ member ∈ (schema.unionMembers? union).getD [],
    ∃ object, schema.get? member = some (.object object)
  query : ∃ object, schema.get? schema.queryType = some (.object object)
  mutation : ∀ name, schema.mutationType = some name →
    ∃ object, schema.get? name = some (.object object)

theorem Indexed.contains_iff (h : schema.Indexed) (name : String) :
    schema.contains name = true ↔ ∃ d, schema.get? name = some d := by
  rw [contains, get?]
  cases hposition : schema.position? name with
  | none => simp
  | some i =>
    obtain ⟨d, hd, -⟩ := h name i hposition
    simp [hd]

/-- The check of a reference and its resolution come to the same where no name of the index leads to
nothing. -/
theorem checkRef_eq (h : ∀ name, schema.contains name = true ↔ ∃ d, schema.get? name = some d)
    (context : String) (ref : TypeRef) :
    schema.checkRef context ref = (schema.resolve context ref).map fun _ => () := by
  induction ref with
  | named name =>
    rw [checkRef, resolve]
    by_cases hname : schema.contains name = true
    · obtain ⟨d, hd⟩ := (h name).mp hname
      rw [if_pos hname, hd]
      rfl
    · have hnone : schema.get? name = none := by
        rw [Option.eq_none_iff_forall_ne_some]
        intro d hd
        exact hname ((h name).mpr ⟨d, hd⟩)
      rw [if_neg hname, hnone]
      rfl
  | list item ih =>
    rw [checkRef, resolve, ih]
    cases schema.resolve context item <;> rfl
  | nonNull inner ih =>
    rw [checkRef, resolve]
    split
    · rfl
    · rw [ih]
      cases schema.resolve context inner <;> rfl

/-- Whether a reference resolves does not depend on where it is made. -/
theorem resolves_of_resolve {context : String} {ref : TypeRef} {type : ResolvedType}
    (h : schema.resolve context ref = .ok type) : schema.Resolves ref := by
  intro other
  induction ref generalizing type with
  | named name =>
    rw [resolve] at h ⊢
    split at h
    · exact ⟨_, rfl⟩
    · cases h
  | list item ih =>
    rw [resolve] at h ⊢
    obtain ⟨inner, hinner, -⟩ := map_eq_ok.mp h
    obtain ⟨type, htype⟩ := ih hinner
    exact ⟨_, map_eq_ok.mpr ⟨type, htype, rfl⟩⟩
  | nonNull inner ih =>
    rw [resolve] at h ⊢
    split at h
    · cases h
    · next hnull =>
      obtain ⟨resolved, hresolved, -⟩ := map_eq_ok.mp h
      obtain ⟨type, htype⟩ := ih hresolved
      rw [if_neg hnull]
      exact ⟨_, map_eq_ok.mpr ⟨type, htype, rfl⟩⟩

theorem Indexed.resolves_of_checkRef (h : schema.Indexed) {context : String} {ref : TypeRef}
    (hcheck : schema.checkRef context ref = .ok ()) : schema.Resolves ref := by
  rw [checkRef_eq h.contains_iff] at hcheck
  obtain ⟨type, htype, -⟩ := map_eq_ok.mp hcheck
  exact resolves_of_resolve htype

theorem checkMembers_eq_ok {union : String} {seen members : List String}
    (h : schema.checkMembers union seen members = .ok ()) :
    ∀ member ∈ members, ∃ object, schema.get? member = some (.object object) := by
  induction members generalizing seen with
  | nil => simp
  | cons first members ih =>
    rw [checkMembers] at h
    split at h
    · next object hobject =>
      split at h
      · cases h
      · intro member hmember
        rcases List.mem_cons.mp hmember with rfl | hmember
        · exact ⟨object, hobject⟩
        · exact ih h member hmember
    · cases h
    · cases h

theorem checkRoot_eq_ok {operation name : String}
    (h : schema.checkRoot operation (some name) = .ok ()) :
    ∃ object, schema.get? name = some (.object object) := by
  rw [checkRoot] at h
  split at h
  · next object hobject => exact ⟨object, hobject⟩
  · cases h

theorem mem_types_of_unionMembers? {union : String} {members : List String}
    (h : schema.unionMembers? union = some members) :
    ∃ d : UnionDef, .union d ∈ schema.types ∧ d.members = members := by
  obtain ⟨d, hd, rfl⟩ := Option.map_eq_some_iff.mp h
  have hmem := List.mem_reverse.mp (List.mem_of_find?_eq_some hd)
  obtain ⟨type, htype, hunion⟩ := List.mem_filterMap.mp hmem
  cases type <;> cases hunion
  exact ⟨d, htype, rfl⟩

theorem exists_of_selectable? {name : String} {object : ObjectDef}
    (h : schema.selectable? name = some object) :
    schema.get? name = some (.object object) ∨ schema.get? name = some (.interface object) := by
  obtain ⟨d, hd, hobject⟩ := Option.bind_eq_some_iff.mp h
  cases d <;> cases hobject
  · exact .inl hd
  · exact .inr hd

/-- A valid schema is sound: what its names lead to is among the types that were checked. -/
theorem sound_of_validate (hindexed : schema.Indexed) (h : schema.validate = .ok ()) :
    schema.Sound := by
  obtain ⟨_, hquery, h⟩ := bind_eq_ok.mp h
  obtain ⟨_, hmutation, h⟩ := bind_eq_ok.mp h
  obtain ⟨_, -, h⟩ := bind_eq_ok.mp h
  have hchecked : ∀ d ∈ schema.types, schema.checkType d = .ok () := forM_eq_ok h
  refine ⟨?_, ?_, ?_, checkRoot_eq_ok hquery, ?_⟩
  · intro name object hobject field hfield
    have hfields : object.fields.forM (schema.checkField object.name) = .ok () := by
      rcases exists_of_selectable? hobject with hd | hd
      · exact hchecked _ (mem_of_get? hd)
      · exact hchecked _ (mem_of_get? hd)
    obtain ⟨_, htype, -⟩ := bind_eq_ok.mp (forM_eq_ok hfields field hfield)
    exact hindexed.resolves_of_checkRef htype
  · intro name d hd field hfield
    have hfields := hchecked _ (mem_of_get? hd)
    exact hindexed.resolves_of_checkRef (forM_eq_ok hfields field hfield)
  · intro union member hmember
    cases hmembers : schema.unionMembers? union with
    | none =>
      rw [hmembers] at hmember
      cases hmember
    | some members =>
      rw [hmembers] at hmember
      obtain ⟨d, hd, rfl⟩ := mem_types_of_unionMembers? hmembers
      exact checkMembers_eq_ok (hchecked _ hd) member hmember
  · intro name hname
    rw [hname] at hmutation
    exact checkRoot_eq_ok hmutation

theorem selectable_of_object {name : String} {object : ObjectDef}
    (h : schema.get? name = some (.object object)) : schema.selectable name = .ok object := by
  rw [selectable_eq_ok, selectable?, h]
  rfl

end Schema

/-! ## Errors of selections -/

/-- Whether an error does not blame the schema: it is about no reference of the schema, and a type that
is unknown is the one that a fragment is on. -/
structure BlamesSelections (schema : Schema) (index : FragmentIndex) (e : GenerateError) : Prop where
  reference : ∀ cause, e ≠ .schema cause
  fragment : ∀ name, e = .unknownType name →
    ∃ fragment ∈ index.fragments, fragment.condition = name ∧ schema.selectable? name = none

theorem ResolvedType.fieldBase_eq_error {type : ResolvedType} {selects : Bool} {e : GenerateError}
    (h : type.fieldBase selects = .error e) : ∃ name, e = .notALeafType name := by
  unfold fieldBase at h
  split at h
  · cases h
  · cases h
  · rw [map_eq_error, leaf] at h
    split at h <;> cases h
    exact ⟨_, rfl⟩

theorem Schema.selectable_eq_error {schema : Schema} {name : String} {e : GenerateError}
    (h : schema.selectable name = .error e) :
    e = .unknownType name ∧ schema.selectable? name = none := by
  rw [Schema.selectable] at h
  cases hselectable : schema.selectable? name <;> rw [hselectable] at h <;> cases h
  exact ⟨rfl, rfl⟩

theorem Schema.member_eq_error {schema : Schema} {union : String} {condition : Option String}
    {e : GenerateError} (h : schema.member union condition = .error e) :
    ∃ name, e = .notAUnionMember union name := by
  unfold Schema.member at h
  split at h
  · split at h <;> cases h
    exact ⟨_, rfl⟩
  · cases h
    exact ⟨_, rfl⟩

/-- The object under the wrappers of a field is a type of the schema. -/
theorem Schema.exists_selectable?_of_fieldPlan {schema : Schema} {parent object : ObjectDef}
    {field : Field} {selects : Bool} {plan : FieldPlan}
    (h : schema.fieldPlan parent field selects = .ok plan) (hbase : plan.base = .object object) :
    ∃ name, schema.selectable? name = some object := by
  obtain ⟨type, d, htype, hd, -, -⟩ := fieldPlan_eq_ok (s := ⟨parent, field, [], []⟩) h
  rw [hbase] at hd
  unfold Selected.type? at htype
  split at htype
  · cases htype
    cases hd
  · simp only [Option.bind_eq_bind, Option.bind_eq_some_iff, Option.some.injEq,
      Prod.mk.injEq] at htype
    obtain ⟨definition, -, base, hget, rfl, rfl⟩ := htype
    refine ⟨definition.type.baseName, ?_⟩
    rw [selectable?, hget]
    cases base <;> cases hd <;> rfl

section

variable {schema : Schema} {index : FragmentIndex}

theorem Schema.Sound.fieldPlan_error (hsound : schema.Sound) {parent : ObjectDef}
    (hparent : ∃ name, schema.selectable? name = some parent) {field : Field} {selects : Bool}
    {e : GenerateError} (h : schema.fieldPlan parent field selects = .error e) :
    BlamesSelections schema index e := by
  rw [fieldPlan] at h
  split at h
  · cases h
  · split at h
    · cases h
      exact ⟨by simp, by simp⟩
    · next d hd =>
      obtain ⟨name, hname⟩ := hparent
      have hmem : d ∈ parent.fields := List.mem_of_find?_eq_some hd
      rcases bind_eq_error.mp h with hfail | ⟨type, -, h⟩
      · -- the type of a field was checked
        obtain ⟨cause, hcause, -⟩ := mapError_eq_error.mp hfail
        obtain ⟨type, htype⟩ := hsound.fields name parent hname d hmem
          (parent.name ++ "." ++ field.name)
        cases htype.symm.trans hcause
      · rcases bind_eq_error.mp h with hfail | ⟨base, -, h⟩
        · obtain ⟨leaf, rfl⟩ := ResolvedType.fieldBase_eq_error hfail
          exact ⟨by simp, by simp⟩
        · cases h

mutual

/-- Selections on a type of the schema fail for reasons of their own. -/
theorem expand_error (hsound : schema.Sound) {chain : List String} {parent : ObjectDef}
    {shape : Shape} {e : GenerateError} (hparent : ∃ name, schema.selectable? name = some parent) :
    (selections : List Selection) →
      expand schema index chain parent shape selections = .error e → BlamesSelections schema index e
  | [], h => by
    rw [expand] at h
    cases h
  | .field field inner :: rest, h => by
    rw [expand] at h
    split at h
    · exact expand_error hsound hparent rest h
    · rcases bind_eq_error.mp h with hplan | ⟨plan, hplan, h⟩
      · exact hsound.fieldPlan_error hparent hplan
      · rcases bind_eq_error.mp h with hentry | ⟨entry, -, h⟩
        · exact expandField_error hsound
            (fun object hbase => Schema.exists_selectable?_of_fieldPlan hplan hbase) hentry
        · exact expand_error hsound hparent rest h
  | .spread name position :: rest, h => by
    rw [expand] at h
    split at h
    · cases h
      exact ⟨by simp, by simp⟩
    · next hnew =>
      split at h
      · cases h
        exact ⟨by simp, by simp⟩
      · next fragment hfound =>
        have _hless := unused_cons_lt (mem_names_of_get? hfound) hnew
        rcases bind_eq_error.mp h with hobject | ⟨object, hobject, h⟩
        · obtain ⟨rfl, hnone⟩ := Schema.selectable_eq_error hobject
          refine ⟨by simp, fun type htype => ?_⟩
          cases htype
          exact ⟨fragment, (get?_eq_some hfound).1, rfl, hnone⟩
        · rcases bind_eq_error.mp h with hshape | ⟨shape, -, h⟩
          · exact expand_error hsound ⟨_, Schema.selectable_eq_ok.mp hobject⟩ fragment.selections hshape
          · exact expand_error hsound hparent rest h
  | .inline condition inner position :: rest, h => by
    rw [expand] at h
    cases h
    exact ⟨by simp, by simp⟩
termination_by selections => (index.unused chain, 2 * selectionsSize selections)
decreasing_by
  · exact Prod.Lex.right _ (by simp [selectionsSize, selectionSize]; omega)
  · exact Prod.Lex.right _ (by simp [selectionsSize, selectionSize])
  · exact Prod.Lex.right _ (by simp [selectionsSize, selectionSize])
  · exact Prod.Lex.left _ _ _hless
  · exact Prod.Lex.right _ (by simp [selectionsSize, selectionSize])

theorem expandField_error (hsound : schema.Sound) {chain : List String} {field : Field}
    {plan : FieldPlan} {inner : List Selection} {e : GenerateError}
    (hplan : ∀ object, plan.base = .object object → ∃ name, schema.selectable? name = some object)
    (h : expandField schema index chain field plan inner = .error e) :
    BlamesSelections schema index e := by
  rw [expandField] at h
  split at h
  · cases h
  · next object hbase =>
    rcases bind_eq_error.mp h with hrecord | ⟨record, -, h⟩
    · exact expand_error hsound (hplan object hbase) inner hrecord
    · cases h
  · rcases bind_eq_error.mp h with hvariants | ⟨variants, -, h⟩
    · exact expandUnion_error hsound inner hvariants
    · cases h
termination_by (index.unused chain, 2 * selectionsSize inner + 1)
decreasing_by
  · exact Prod.Lex.right _ (by simp)
  · exact Prod.Lex.right _ (by simp)

theorem expandUnion_error (hsound : schema.Sound) {chain : List String} {union : String}
    {variants : Variants} {e : GenerateError} :
    (selections : List Selection) →
      expandUnion schema index chain union variants selections = .error e →
      BlamesSelections schema index e
  | [], h => by
    rw [expandUnion] at h
    cases h
  | .field field inner :: rest, h => by
    rw [expandUnion] at h
    split at h
    · exact expandUnion_error hsound rest h
    · cases h
      exact ⟨by simp, by simp⟩
  | .spread name position :: rest, h => by
    rw [expandUnion] at h
    cases h
    exact ⟨by simp, by simp⟩
  | .inline condition inner position :: rest, h => by
    rw [expandUnion] at h
    rcases bind_eq_error.mp h with hmember | ⟨member, hmember, h⟩
    · obtain ⟨name, rfl⟩ := Schema.member_eq_error hmember
      exact ⟨by simp, by simp⟩
    · -- a member of a union is an object type
      obtain ⟨object, hobject⟩ := hsound.members union member (Schema.member_eq_ok hmember).2
      have hselectable := Schema.selectable_of_object hobject
      rcases bind_eq_error.mp h with hfail | ⟨found, hfound, h⟩
      · cases hselectable.symm.trans hfail
      · rcases bind_eq_error.mp h with hshape | ⟨shape, -, h⟩
        · exact expand_error hsound ⟨member, Schema.selectable_eq_ok.mp hfound⟩ inner hshape
        · exact expandUnion_error hsound rest h
termination_by selections => (index.unused chain, 2 * selectionsSize selections)
decreasing_by
  · exact Prod.Lex.right _ (by simp [selectionsSize, selectionSize])
  · exact Prod.Lex.right _ (by simp [selectionsSize, selectionSize]; omega)
  · exact Prod.Lex.right _ (by simp [selectionsSize, selectionSize])

end

end

/-! ## Errors of variables -/

/-- Whether a definition is of a type that only answers have: an object, interface or union type. -/
def TypeDef.isOutput : TypeDef → Bool
  | .object _ | .interface _ | .union _ => true
  | _ => false

namespace Schema

/-- Whether a type is another one, or an input object with a field whose type encloses it. -/
inductive Encloses (schema : Schema) : String → String → Prop
  | self (name : String) : Encloses schema name name
  | field {name inner : String} {d : InputObjectDef} {field : InputValue}
    (hd : schema.get? name = some (.input d)) (hfield : field ∈ d.fields)
    (h : Encloses schema field.type.baseName inner) : Encloses schema name inner

/-- Whether an error blames the type of an input: it is recursive, or encloses a type that is none of an
input. -/
def BlamesInput (schema : Schema) (name : String) (e : GenerateError) : Prop :=
  (∃ object, e = .recursiveInputType object) ∨
    ∃ inner d, e = .unknownType inner ∧ schema.Encloses name inner ∧
      schema.get? inner = some d ∧ d.isOutput = true

variable {schema : Schema}

theorem BlamesInput.field {name : String} {d : InputObjectDef} {field : InputValue}
    {e : GenerateError} (h : schema.BlamesInput field.type.baseName e)
    (hd : schema.get? name = some (.input d)) (hfield : field ∈ d.fields) :
    schema.BlamesInput name e := by
  rcases h with hrecursive | ⟨inner, d', he, hencloses, hinner⟩
  · exact .inl hrecursive
  · exact .inr ⟨inner, d', he, .field hd hfield hencloses, hinner⟩

theorem Resolves.exists_get? {ref : TypeRef} (h : schema.Resolves ref) :
    ∃ d, schema.get? ref.baseName = some d := by
  obtain ⟨type, htype⟩ := h ""
  obtain ⟨d, hd, -⟩ := resolve_eq_ok htype
  exact ⟨d, hd⟩

/-- A reference without a doubled non-null wrapper fails to resolve only if its type is not defined. -/
theorem resolve_eq_error {context : String} {ref : TypeRef} {depth : Nat} {cause : SchemaError}
    (hwritten : ref.Written depth) (h : schema.resolve context ref = .error cause) :
    cause = .typeNotFound ref.baseName context ∧ schema.get? ref.baseName = none := by
  induction ref generalizing depth with
  | named name =>
    rw [resolve] at h
    split at h
    · cases h
    · next hnone =>
      cases h
      exact ⟨rfl, hnone⟩
  | list item ih =>
    rw [resolve, map_eq_error] at h
    exact ih hwritten.2 h
  | nonNull inner ih =>
    rw [resolve, if_neg (by simp [hwritten.1]), map_eq_error] at h
    exact ih hwritten.2 h

mutual

theorem namedInput_error (hindexed : schema.Indexed) (hsound : schema.Sound) {visited : List String}
    {name : String} {d : TypeDef} {e : GenerateError} (hd : schema.get? name = some d)
    (h : schema.namedInput visited name = .error e) : schema.BlamesInput name e := by
  have hname := hindexed.name_eq hd
  rw [namedInput] at h
  split at h
  · next hnone => cases hd.symm.trans hnone
  · cases h
  · cases h
  · next object hobject =>
    split at h
    · cases h
      exact .inl ⟨_, rfl⟩
    · next hnew =>
      have _hless : schema.unvisited (object.name :: visited) < schema.unvisited visited :=
        unvisited_cons_lt (mem_of_get? hobject) hnew
      obtain ⟨field, hfield, hblames⟩ := fieldInputs_error hindexed hsound object.fields
        (hsound.inputs name object hobject) (map_eq_error.mp h)
      exact hblames.field hobject hfield
  -- an output type is blamed by its name, which is the name it was found under
  all_goals
    next hget =>
      cases hd.symm.trans hget
      cases h
      exact .inr ⟨_, _, rfl, hname ▸ .self _, hname ▸ hd, rfl⟩
termination_by (schema.unvisited visited, 0)
decreasing_by
  exact Prod.Lex.left _ _ _hless

theorem fieldInputs_error (hindexed : schema.Indexed) (hsound : schema.Sound)
    {visited : List String} {object : String} {e : GenerateError} :
    (fields : List InputValue) → (∀ field ∈ fields, schema.Resolves field.type) →
      schema.fieldInputs visited object fields = .error e →
      ∃ field ∈ fields, schema.BlamesInput field.type.baseName e
  | [], _, h => by
    rw [fieldInputs] at h
    cases h
  | field :: fields, hresolves, h => by
    have hfield := hresolves field List.mem_cons_self
    rw [fieldInputs] at h
    rcases bind_eq_error.mp h with hfail | ⟨_, -, h⟩
    · obtain ⟨cause, hcause, -⟩ := mapError_eq_error.mp hfail
      obtain ⟨type, htype⟩ := hfield (object ++ "." ++ field.name)
      cases htype.symm.trans hcause
    · rcases bind_eq_error.mp h with hbase | ⟨_, -, h⟩
      · obtain ⟨d, hd⟩ := hfield.exists_get?
        exact ⟨field, List.mem_cons_self, namedInput_error hindexed hsound hd hbase⟩
      · rcases bind_eq_error.mp h with hrest | ⟨_, -, h⟩
        · obtain ⟨other, hother, hblames⟩ := fieldInputs_error hindexed hsound fields
            (fun other hother => hresolves other (List.mem_cons_of_mem _ hother)) hrest
          exact ⟨other, List.mem_cons_of_mem _ hother, hblames⟩
        · cases h
termination_by fields => (schema.unvisited visited, fields.length + 1)
decreasing_by
  · exact Prod.Lex.right _ (by simp)
  · exact Prod.Lex.right _ (by simp)

end

/-- The input for a reference that can be written fails because its type is not defined, or because of
what its type encloses. -/
theorem input_error (hindexed : schema.Indexed) (hsound : schema.Sound) {context : String}
    {ref : TypeRef} {depth : Nat} {e : GenerateError} (hwritten : ref.Written depth)
    (h : schema.input context ref = .error e) :
    e = .schema (.typeNotFound ref.baseName context) ∧ schema.get? ref.baseName = none ∨
      schema.BlamesInput ref.baseName e := by
  rcases bind_eq_error.mp h with hfail | ⟨type, htype, h⟩
  · obtain ⟨cause, hcause, rfl⟩ := mapError_eq_error.mp hfail
    obtain ⟨rfl, hnone⟩ := resolve_eq_error hwritten hcause
    exact .inl ⟨rfl, hnone⟩
  · rcases bind_eq_error.mp h with hbase | ⟨base, -, h⟩
    · obtain ⟨d, hd, -⟩ := resolve_eq_ok (mapError_eq_ok.mp htype)
      exact .inr (namedInput_error hindexed hsound hd hbase)
    · cases h

/-! ## Look-ups that never fail -/

theorem Sound.selectable_root (hsound : schema.Sound) {kind : OperationKind} {out : BindingKind}
    {type : String} (h : Binding.root schema kind = .ok (out, type)) :
    ∃ object, schema.selectable type = .ok object := by
  rcases Binding.root_eq_ok h with ⟨-, rfl⟩ | ⟨-, hmutation⟩
  · obtain ⟨object, hobject⟩ := hsound.query
    exact ⟨object, selectable_of_object hobject⟩
  · obtain ⟨object, hobject⟩ := hsound.mutation type hmutation
    exact ⟨object, selectable_of_object hobject⟩

theorem Sound.selectable_member (hsound : schema.Sound) {union member : String}
    {condition : Option String} (h : schema.member union condition = .ok member) :
    ∃ object, schema.selectable member = .ok object := by
  obtain ⟨object, hobject⟩ := hsound.members union member (member_eq_ok h).2
  exact ⟨object, selectable_of_object hobject⟩

end Schema

/-! ## Errors of documents -/

theorem Document.mem_operations {document : Document} {op : Operation} :
    op ∈ document.operations ↔ .operation op ∈ document.definitions := by
  rw [operations, List.mem_filterMap]
  constructor
  · rintro ⟨d, hd, hop⟩
    cases d <;> cases hop
    exact hd
  · intro h
    exact ⟨_, h, rfl⟩

theorem Document.mem_fragments {document : Document} {fragment : Fragment} :
    fragment ∈ document.fragments ↔ .fragment fragment ∈ document.definitions := by
  rw [fragments, List.mem_filterMap]
  constructor
  · rintro ⟨d, hd, hfragment⟩
    cases d <;> cases hfragment
    exact hd
  · intro h
    exact ⟨_, h, rfl⟩

namespace Binding

variable {schema : Schema} {index : FragmentIndex}

theorem root_eq_error {kind : OperationKind} {e : GenerateError}
    (h : root schema kind = .error e) :
    (∃ operation, e = .missingRootType operation) ∨ ∃ operation, e = .unsupportedOperation operation := by
  unfold root at h
  split at h
  · cases h
  · split at h <;> cases h
    exact .inl ⟨_, rfl⟩
  · cases h
    exact .inr ⟨_, rfl⟩

/-- An operation fails because of its selections or because of a variable. -/
theorem ofOperation_error (hsound : schema.Sound) {op : Operation} {e : GenerateError}
    (h : ofOperation schema index op = .error e) :
    BlamesSelections schema index e ∨
      ∃ v ∈ op.parameters, schema.input ("$" ++ v.name) v.type = .error e := by
  rcases bind_eq_error.mp h with hroot | ⟨⟨kind, type⟩, hroot, h⟩
  · rcases root_eq_error hroot with ⟨operation, rfl⟩ | ⟨operation, rfl⟩
    · exact .inl ⟨by simp, by simp⟩
    · exact .inl ⟨by simp, by simp⟩
  · obtain ⟨object, hobject⟩ := hsound.selectable_root hroot
    rcases bind_eq_error.mp h with hfail | ⟨parent, hparent, h⟩
    · cases hobject.symm.trans hfail
    · rcases bind_eq_error.mp h with hshape | ⟨shape, -, h⟩
      · have hselectable : ∃ name, schema.selectable? name = some parent :=
          ⟨type, Schema.selectable_eq_ok.mp hparent⟩
        exact .inl (expand_error hsound hselectable op.selections hshape)
      · rcases bind_eq_error.mp h with hinputs | ⟨inputs, -, h⟩
        · obtain ⟨v, hv, hfail⟩ := exists_of_mapM_eq_error hinputs
          rcases bind_eq_error.mp hfail with hinput | ⟨input, -, hfail⟩
          · exact .inr ⟨v, hv, hinput⟩
          · cases hfail
        · cases h

theorem ofFragment_error (hsound : schema.Sound) {fragment : Fragment} {e : GenerateError}
    (hfragment : fragment ∈ index.fragments) (h : ofFragment schema index fragment = .error e) :
    BlamesSelections schema index e := by
  rcases bind_eq_error.mp h with hparent | ⟨parent, hparent, h⟩
  · obtain ⟨rfl, hnone⟩ := Schema.selectable_eq_error hparent
    refine ⟨by simp, fun name hname => ?_⟩
    cases hname
    exact ⟨fragment, hfragment, rfl, hnone⟩
  · rcases bind_eq_error.mp h with hshape | ⟨shape, -, h⟩
    · have hselectable : ∃ name, schema.selectable? name = some parent :=
        ⟨_, Schema.selectable_eq_ok.mp hparent⟩
      exact expand_error hsound hselectable fragment.selections hshape
    · cases h

/-- A document that was read fails because a fragment is there twice, because of selections, or because
of the type of a variable. -/
theorem ofDocument_cause (hindexed : schema.Indexed) (hsound : schema.Sound) {source : String}
    {document : Document} (hparse : Document.parse source = .ok document) {e : GenerateError}
    (h : ofDocument schema document = .error e) :
    (∃ cause, e = .document cause) ∨
      (∃ index, index.fragments = document.fragments ∧ BlamesSelections schema index e) ∨
      ∃ op ∈ document.operations, ∃ v ∈ op.parameters,
        e = .schema (.typeNotFound v.type.baseName ("$" ++ v.name)) ∧
            schema.get? v.type.baseName = none ∨
          schema.BlamesInput v.type.baseName e := by
  rcases bind_eq_error.mp h with hindex | ⟨index, hindex, h⟩
  · obtain ⟨cause, -, rfl⟩ := mapError_eq_error.mp hindex
    exact .inl ⟨cause, rfl⟩
  · have hfragments := FragmentIndex.fragments_of_ofDocument (mapError_eq_ok.mp hindex)
    obtain ⟨d, hd, hfail⟩ := exists_of_mapM_eq_error h
    cases d with
    | operation op =>
      rcases ofOperation_error hsound hfail with hblames | ⟨v, hv, hinput⟩
      · exact .inr (.inl ⟨index, hfragments, hblames⟩)
      · have hwritten : (Definition.operation op).Written fun _ => true :=
          Document.parse_written hparse (by simp) _ hd
        obtain ⟨-, htype, -⟩ := hwritten.2.1 v hv
        exact .inr (.inr ⟨op, Document.mem_operations.mpr hd, v, hv,
          Schema.input_error hindexed hsound htype hinput⟩)
    | fragment fragment =>
      have hmem : fragment ∈ index.fragments := hfragments ▸ Document.mem_fragments.mpr hd
      exact .inr (.inl ⟨index, hfragments, ofFragment_error hsound hmem hfail⟩)

/-- Where a schema is valid, a document that was read is refused for reasons of its own. No reference has
a doubled non-null wrapper, a type that is not found is that of a variable, and a type that is unknown is
the one that a fragment is on or stands in the type of a variable. The roots of operations and the
members of unions are always found. -/
theorem ofDocument_error (hschema : schema.IsLoaded) (hvalid : schema.validate = .ok ())
    {source : String} {document : Document} (hparse : Document.parse source = .ok document)
    {e : GenerateError} (h : ofDocument schema document = .error e) :
    (∀ context, e ≠ .schema (.nestedNonNull context)) ∧
      (∀ name context, e = .schema (.typeNotFound name context) →
        ∃ op ∈ document.operations, ∃ v ∈ op.parameters,
          context = "$" ++ v.name ∧ name = v.type.baseName ∧ schema.get? name = none) ∧
      (∀ name, e = .unknownType name →
        (∃ fragment ∈ document.fragments,
          fragment.condition = name ∧ schema.selectable? name = none) ∨
        ∃ op ∈ document.operations, ∃ v ∈ op.parameters, schema.Encloses v.type.baseName name ∧
          ∃ d, schema.get? name = some d ∧ d.isOutput = true) ∧
      (∀ kind out type, root schema kind = .ok (out, type) →
        ∃ object, schema.selectable type = .ok object) ∧
      ∀ union condition member, schema.member union condition = .ok member →
        ∃ object, schema.selectable member = .ok object := by
  have hindexed := hschema.indexed
  have hsound := Schema.sound_of_validate hindexed hvalid
  have hcause := ofDocument_cause hindexed hsound hparse h
  refine ⟨?_, ?_, ?_, fun _ _ _ => hsound.selectable_root, fun _ _ _ => hsound.selectable_member⟩
  · rintro context rfl
    rcases hcause with ⟨cause, he⟩ | ⟨index, -, hblames⟩ | ⟨op, -, v, -, hinput⟩
    · cases he
    · exact hblames.reference _ rfl
    · rcases hinput with ⟨he, -⟩ | ⟨object, he⟩ | ⟨inner, d, he, -⟩ <;> cases he
  · rintro name context rfl
    rcases hcause with ⟨cause, he⟩ | ⟨index, -, hblames⟩ | ⟨op, hop, v, hv, hinput⟩
    · cases he
    · exact absurd rfl (hblames.reference _)
    · rcases hinput with ⟨he, hnone⟩ | ⟨object, he⟩ | ⟨inner, d, he, -⟩ <;> cases he
      exact ⟨op, hop, v, hv, rfl, rfl, hnone⟩
  · rintro name rfl
    rcases hcause with ⟨cause, he⟩ | ⟨index, hfragments, hblames⟩ | ⟨op, hop, v, hv, hinput⟩
    · cases he
    · exact .inl (hfragments ▸ hblames.fragment name rfl)
    · rcases hinput with ⟨he, -⟩ | ⟨object, he⟩ | ⟨inner, d, he, hencloses, hd⟩ <;> cases he
      exact .inr ⟨op, hop, v, hv, hencloses, d, hd⟩

end Binding

namespace Sample

/-- A query whose variable has a type that only answers have. -/
def dotText : String := "query q($x: [Dot!]) \x7b s \x7b ... on Dot \x7b x \x7d \x7d \x7d"

def dotDocument : Document := (Document.parse dotText).toOption.getD ⟨[]⟩

theorem parse_dotText : Document.parse dotText = .ok dotDocument :=
  eq_ok_getD (by decide +kernel) _

theorem validate_shapes : shapes.validate = .ok () := by
  decide +kernel

theorem fragments_dotDocument : dotDocument.fragments = [] := by
  cbv

section

attribute [local irreducible] Naming.valueName

theorem ofDocument_dotDocument :
    Binding.ofDocument shapes dotDocument = .error (.unknownType "Dot") := by
  cbv

end

end Sample

theorem Binding.ofDocument_error_dot :
    Sample.shapes.IsLoaded ∧ Sample.shapes.validate = .ok () ∧
      Document.parse Sample.dotText = .ok Sample.dotDocument ∧
      Binding.ofDocument Sample.shapes Sample.dotDocument = .error (.unknownType "Dot") ∧
      ∃ op ∈ Sample.dotDocument.operations, ∃ v ∈ op.parameters,
        Sample.shapes.Encloses v.type.baseName "Dot" := by
  have hloaded : Sample.shapes.IsLoaded := ⟨_, .inl Sample.parseDefinitions_shapesText⟩
  obtain ⟨-, -, hunknown, -⟩ := Binding.ofDocument_error hloaded Sample.validate_shapes
    Sample.parse_dotText Sample.ofDocument_dotDocument
  refine ⟨hloaded, Sample.validate_shapes, Sample.parse_dotText, Sample.ofDocument_dotDocument, ?_⟩
  rcases hunknown "Dot" rfl with ⟨fragment, hfragment, -⟩ | ⟨op, hop, v, hv, hencloses, -⟩
  · rw [Sample.fragments_dotDocument] at hfragment
    cases hfragment
  · exact ⟨op, hop, v, hv, hencloses⟩

end ElmBindings
