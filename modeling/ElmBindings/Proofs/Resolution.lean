import ElmBindings.Proofs.TypeIndex
import ElmBindings.Proofs.Validated

set_option autoImplicit false

/-! # Resolution of references

A reference is resolved while modules are generated, and checked before that, each by a recursion of its
own over the wrappers. What either comes to can be said without a recursion: a doubled non-null wrapper is a
fault wherever it stands, a name that leads nowhere is one if there is no doubled wrapper, and without a
fault the definition of the name stands under the wrappers of the reference (`resolve_eq_error_iff`,
`resolve_eq_ok_iff`). -/

namespace ElmBindings

/-! ## Wrappers -/

/-- A wrapper of a type. -/
inductive Wrapper
  | list
  | nonNull
  deriving DecidableEq

/-- The wrappers of a reference, from the outermost one inwards. -/
def TypeRef.wrappers : TypeRef → List Wrapper
  | named _ => []
  | list item => .list :: item.wrappers
  | nonNull inner => .nonNull :: inner.wrappers

/-- The wrappers of a resolved type, from the outermost one inwards. -/
def ResolvedType.wrappers : ResolvedType → List Wrapper
  | list item => .list :: item.wrappers
  | nonNull inner => .nonNull :: inner.wrappers
  | _ => []

/-- Whether one of the wrappers is non-null and so is the next one inside it. -/
def Doubled (ws : List Wrapper) : Prop := [.nonNull, .nonNull] <:+: ws

instance (ws : List Wrapper) : Decidable (Doubled ws) :=
  inferInstanceAs (Decidable ([Wrapper.nonNull, Wrapper.nonNull] <:+: ws))

theorem not_doubled_nil : ¬ Doubled [] := by decide

theorem doubled_list {ws : List Wrapper} : Doubled (.list :: ws) ↔ Doubled ws := by
  simp [Doubled, List.infix_cons_iff]

theorem TypeRef.doubled_nonNull {ref : TypeRef} :
    Doubled (.nonNull :: ref.wrappers) ↔ ref.isNonNull = true ∨ Doubled ref.wrappers := by
  cases ref <;> simp [Doubled, List.infix_cons_iff, wrappers, isNonNull]

namespace ResolvedType

/-- Whether a definition is the one under the wrappers. An object type does not show whether it is an
interface. -/
def StandsFor : ResolvedType → TypeDef → Prop
  | scalar d, other => .scalar d = other
  | enum d, other => .enum d = other
  | object d, other => .object d = other ∨ .interface d = other
  | union d, other => .union d = other
  | input d, other => .input d = other
  | list item, other => item.StandsFor other
  | nonNull inner, other => inner.StandsFor other

theorem eq_ofDef_iff {type : ResolvedType} {d : TypeDef} :
    type = ofDef d ↔ type.wrappers = [] ∧ type.StandsFor d := by
  cases type <;> cases d <;> simp [ofDef, wrappers, StandsFor]

end ResolvedType

/-! ## What references come to -/

namespace Schema

variable {schema : Schema} {context : String} {ref : TypeRef}

theorem resolve_named_eq_ok {name : String} {type : ResolvedType} :
    schema.resolve context (.named name) = .ok type ↔
      ∃ d, schema.get? name = some d ∧ type = .ofDef d := by
  rw [resolve]
  cases schema.get? name <;> simp [eq_comm]

/-- A reference is refused for a doubled wrapper at any depth, and else for a name that leads nowhere. -/
theorem resolve_eq_error_iff {e : SchemaError} :
    schema.resolve context ref = .error e ↔
      if Doubled ref.wrappers then e = .nestedNonNull context
      else schema.get? ref.baseName = none ∧ e = .typeNotFound ref.baseName context := by
  induction ref with
  | named name =>
    rw [resolve, TypeRef.wrappers, if_neg not_doubled_nil, TypeRef.baseName]
    cases schema.get? name <;> simp [eq_comm]
  | list item ih =>
    rw [resolve, map_eq_error, ih, TypeRef.wrappers, TypeRef.baseName]
    simp only [doubled_list]
  | nonNull inner ih =>
    rw [resolve, TypeRef.wrappers, TypeRef.baseName]
    simp only [TypeRef.doubled_nonNull]
    by_cases hnull : inner.isNonNull = true
    · simp [hnull, eq_comm]
    · rw [if_neg hnull, map_eq_error, ih]
      simp only [hnull, Bool.false_eq_true, false_or]

/-- A reference without a fault resolves to the definition of its name under its own wrappers, and to
nothing else. -/
theorem resolve_eq_ok_iff {type : ResolvedType} :
    schema.resolve context ref = .ok type ↔
      type.wrappers = ref.wrappers ∧ ¬ Doubled ref.wrappers ∧
        ∃ d, schema.get? ref.baseName = some d ∧ type.StandsFor d := by
  induction ref generalizing type with
  | named name =>
    simp only [resolve_named_eq_ok, ResolvedType.eq_ofDef_iff, TypeRef.wrappers, TypeRef.baseName]
    constructor
    · rintro ⟨d, hd, hwrappers, hfor⟩
      exact ⟨hwrappers, not_doubled_nil, d, hd, hfor⟩
    · rintro ⟨hwrappers, -, d, hd, hfor⟩
      exact ⟨d, hd, hwrappers, hfor⟩
  | list item ih =>
    rw [resolve, map_eq_ok, TypeRef.wrappers, TypeRef.baseName, doubled_list]
    constructor
    · rintro ⟨inner, hinner, rfl⟩
      obtain ⟨hwrappers, hrest⟩ := ih.mp hinner
      exact ⟨congrArg (Wrapper.list :: ·) hwrappers, hrest⟩
    · rintro ⟨hwrappers, hdoubled, d, hd, hfor⟩
      cases type with
      | list inner =>
        exact ⟨inner, ih.mpr ⟨(List.cons.inj hwrappers).2, hdoubled, d, hd, hfor⟩, rfl⟩
      | _ => simp [ResolvedType.wrappers] at hwrappers
  | nonNull inner ih =>
    rw [resolve, TypeRef.wrappers, TypeRef.baseName, TypeRef.doubled_nonNull]
    by_cases hnull : inner.isNonNull = true
    · simp [hnull]
    · rw [if_neg hnull, map_eq_ok]
      constructor
      · rintro ⟨resolved, hresolved, rfl⟩
        obtain ⟨hwrappers, hdoubled, hrest⟩ := ih.mp hresolved
        exact ⟨congrArg (Wrapper.nonNull :: ·) hwrappers, not_or.mpr ⟨hnull, hdoubled⟩, hrest⟩
      · rintro ⟨hwrappers, hdoubled, d, hd, hfor⟩
        cases type with
        | nonNull resolved =>
          have hinner := (List.cons.inj hwrappers).2
          exact ⟨resolved, ih.mpr ⟨hinner, (not_or.mp hdoubled).2, d, hd, hfor⟩, rfl⟩
        | _ => simp [ResolvedType.wrappers] at hwrappers

theorem InRange.contains_iff (h : schema.InRange) (name : String) :
    schema.contains name = true ↔ ∃ d, schema.get? name = some d := by
  cases h.leads name with
  | found _ _ d _ hposition hget _ _ => simp [contains, hposition, hget]
  | unknown hposition hget _ _ => simp [contains, hposition, hget]

/-- In every schema whose index is in range, as whatever is done to a schema leaves it (`InRange.edits`),
the check of a reference fails exactly if its resolution does, and for the same reason. A type that a
reference resolves to has the wrappers of the reference, none of them doubled, around the definition that
the name of the reference leads to. -/
theorem checkRef_agrees (h : schema.InRange) (context : String) (ref : TypeRef) :
    (∀ e, schema.checkRef context ref = .error e ↔ schema.resolve context ref = .error e) ∧
    (∀ e, schema.resolve context ref = .error e ↔
      if Doubled ref.wrappers then e = .nestedNonNull context
      else schema.get? ref.baseName = none ∧ e = .typeNotFound ref.baseName context) ∧
    ∀ type, schema.resolve context ref = .ok type ↔
      type.wrappers = ref.wrappers ∧ ¬ Doubled type.wrappers ∧
        ∃ d, schema.get? ref.baseName = some d ∧ type.StandsFor d := by
  refine ⟨fun e => ?_, fun e => resolve_eq_error_iff, fun type => ?_⟩
  · rw [checkRef_eq h.contains_iff, map_eq_error]
  · rw [resolve_eq_ok_iff]
    refine and_congr_right fun hwrappers => ?_
    rw [hwrappers]

end Schema

namespace Sample

/-- A schema in which the name `Query` leads to the definition of an enum of another name. -/
def renamed : Schema :=
  (Schema.ofQuery "Query").edits [.add (queryWith "a"), .overwrite "Query" (colorWith "RED")]

end Sample

/-- A doubled wrapper is reported although the name under it is unknown, an unknown name is reported under
wrappers that are right, and a known one resolves to the definition that it leads to. -/
theorem Schema.checkRef_agrees_renamed :
    Sample.renamed.InRange ∧
    Sample.renamed.checkRef "Query.a" (.list (.nonNull (.nonNull (.named "User")))) =
      .error (.nestedNonNull "Query.a") ∧
    Sample.renamed.checkRef "Query.a" (.nonNull (.list (.nonNull (.named "User")))) =
      .error (.typeNotFound "User" "Query.a") ∧
    ∃ color, Sample.colorWith "RED" = .enum color ∧
      Sample.renamed.resolve "Query.a" (.nonNull (.list (.nonNull (.named "Query")))) =
        .ok (.nonNull (.list (.nonNull (.enum color)))) := by
  have hrange : Sample.renamed.InRange := (listed_ofQuery "Query").inRange.edits _
  have hunknown : Sample.renamed.get? "User" = none := by rfl
  have hagrees := checkRef_agrees hrange "Query.a"
  refine ⟨hrange, ?_, ?_, _, rfl, ?_⟩
  · exact ((hagrees _).1 _).mpr (((hagrees _).2.1 _).mpr rfl)
  · exact ((hagrees _).1 _).mpr (((hagrees _).2.1 _).mpr ⟨hunknown, rfl⟩)
  · exact ((hagrees _).2.2 _).mpr ⟨rfl, by decide, _, rfl, rfl⟩

end ElmBindings
