import ElmBindings.Proofs.Selected
import Mathlib

set_option autoImplicit false

/-! # What an expansion makes

A successful expansion gives one entry for each selected field, in order (`expand_selected`), and a
successful expansion of a union one variant for each type that its inline fragments are on
(`expandUnion_members`). `Selected.IsEntry` says all that an entry can be: a base type and a base
decoder under the wrappers of the field's type. What holds of the results of generation is derived from
these, without opening `expand` again. -/

namespace ElmBindings

open FragmentIndex

/-! ## Outcomes -/

theorem bind_eq_ok {ε α β : Type} {x : Except ε α} {f : α → Except ε β} {b : β} :
    (x >>= f) = .ok b ↔ ∃ a, x = .ok a ∧ f a = .ok b := by
  cases x <;> simp [bind, Except.bind]

theorem bind_eq_error {ε α β : Type} {x : Except ε α} {f : α → Except ε β} {e : ε} :
    (x >>= f) = .error e ↔ x = .error e ∨ ∃ a, x = .ok a ∧ f a = .error e := by
  cases x <;> simp [bind, Except.bind]

theorem map_eq_ok {ε α β : Type} {x : Except ε α} {f : α → β} {b : β} :
    x.map f = .ok b ↔ ∃ a, x = .ok a ∧ f a = b := by
  cases x <;> simp [Except.map]

theorem mapError_eq_ok {ε ε' α : Type} {x : Except ε α} {f : ε → ε'} {a : α} :
    x.mapError f = .ok a ↔ x = .ok a := by
  cases x <;> simp [Except.mapError]

theorem exists_eq_ok {ε α : Type} {x : Except ε α} (h : x.toOption.isSome = true) :
    ∃ a, x = .ok a := by
  cases x with
  | error e => cases h
  | ok a => exact ⟨a, rfl⟩

/-- A result that is there is the one that is taken out of it. -/
theorem eq_ok_getD {ε α : Type} {x : Except ε α} (h : x.toOption.isSome = true) (a : α) :
    x = .ok (x.toOption.getD a) := by
  obtain ⟨b, rfl⟩ := exists_eq_ok h
  rfl

theorem forall₂_of_mapM_eq_ok {ε α β : Type} {f : α → Except ε β} {xs : List α} {ys : List β}
    (h : xs.mapM f = .ok ys) : List.Forall₂ (fun x y => f x = .ok y) xs ys := by
  induction xs generalizing ys with
  | nil =>
    cases h
    exact .nil
  | cons x xs ih =>
    rw [List.mapM_cons] at h
    obtain ⟨y, hy, h⟩ := bind_eq_ok.mp h
    obtain ⟨rest, hrest, h⟩ := bind_eq_ok.mp h
    cases h
    exact .cons hy (ih hrest)

theorem exists_mapM_eq_ok {ε α β : Type} {f : α → Except ε β} {xs : List α}
    (h : ∀ x ∈ xs, ∃ y, f x = .ok y) : ∃ ys, xs.mapM f = .ok ys := by
  induction xs with
  | nil => exact ⟨[], rfl⟩
  | cons x xs ih =>
    obtain ⟨y, hy⟩ := h x List.mem_cons_self
    obtain ⟨ys, hys⟩ := ih fun x' hx' => h x' (List.mem_cons_of_mem x hx')
    exact ⟨y :: ys, by rw [List.mapM_cons, hy, hys]; rfl⟩

section Runs

variable {ε σ α : Type} {I : List α → σ → Prop} {step : σ → α → Except ε σ}
  (hstep : ∀ done s x s', I done s → step s x = .ok s' → I (done ++ [x]) s')
include hstep

/-- What every step keeps of a state and of the inputs so far, a run keeps. -/
theorem foldlM_holds {s s' : σ} (done xs : List α) (hs : I done s)
    (h : xs.foldlM step s = .ok s') : I (done ++ xs) s' := by
  induction xs generalizing done s with
  | nil =>
    cases h
    rwa [List.append_nil]
  | cons x xs ih =>
    rw [List.foldlM_cons] at h
    obtain ⟨next, hnext, h⟩ := bind_eq_ok.mp h
    rw [List.append_cons]
    exact ih _ (hstep done s x next hs hnext) h

/-- A run that fails does so at one of its steps. -/
theorem foldlM_fails {s : σ} {e : ε} (done xs : List α) (hs : I done s)
    (h : xs.foldlM step s = .error e) :
    ∃ before x after s', done ++ xs = before ++ x :: after ∧ I before s' ∧
      step s' x = .error e := by
  induction xs generalizing done s with
  | nil => cases h
  | cons x xs ih =>
    rw [List.foldlM_cons] at h
    rcases bind_eq_error.mp h with hfail | ⟨next, hnext, h⟩
    · exact ⟨done, x, xs, s, rfl, hs, hfail⟩
    · rw [List.append_cons]
      exact ih _ (hstep done s x next hs hnext) h

end Runs

theorem exists_of_getElem?_right {α β : Type} {R : α → β → Prop} {xs : List α} {ys : List β}
    (h : List.Forall₂ R xs ys) {i : Nat} {y : β} (hy : ys[i]? = some y) :
    ∃ x, xs[i]? = some x ∧ R x y := by
  induction h generalizing i with
  | nil => simp at hy
  | cons hxy _ ih =>
    cases i with
    | zero =>
      cases hy
      exact ⟨_, rfl, hxy⟩
    | succ i => exact ih hy

theorem exists_of_getElem?_left {α β : Type} {R : α → β → Prop} {xs : List α} {ys : List β}
    (h : List.Forall₂ R xs ys) {i : Nat} {x : α} (hx : xs[i]? = some x) :
    ∃ y, ys[i]? = some y ∧ R x y :=
  exists_of_getElem?_right h.flip hx

theorem exists_of_mem_right {α β : Type} {R : α → β → Prop} {xs : List α} {ys : List β}
    (h : List.Forall₂ R xs ys) {y : β} (hy : y ∈ ys) : ∃ x ∈ xs, R x y := by
  obtain ⟨i, hi⟩ := List.mem_iff_getElem?.mp hy
  obtain ⟨x, hx, hxy⟩ := exists_of_getElem?_right h hi
  exact ⟨x, List.mem_of_getElem? hx, hxy⟩

/-- Two lists that are related to one list are related to each other. -/
theorem forall₂_join {α β γ : Type} {R : α → β → Prop} {S : α → γ → Prop} {T : β → γ → Prop}
    {xs : List α} {ys : List β} {zs : List γ} (hR : List.Forall₂ R xs ys)
    (hS : List.Forall₂ S xs zs) (h : ∀ x ∈ xs, ∀ y z, R x y → S x z → T y z) :
    List.Forall₂ T ys zs := by
  induction hR generalizing zs with
  | nil =>
    cases hS
    exact .nil
  | @cons x y xs ys hxy _ ih =>
    cases hS with
    | @cons _ z _ zs hxz hrest =>
      refine .cons (h x (by simp) y z hxy hxz) (ih hrest ?_)
      intro x' hx'
      exact h x' (by simp [hx'])

theorem Schema.selectable_eq_ok {schema : Schema} {name : String} {object : ObjectDef} :
    schema.selectable name = .ok object ↔ schema.selectable? name = some object := by
  rw [Schema.selectable]
  cases schema.selectable? name <;> simp

/-! ## Resolved types -/

theorem ResolvedType.named_ofDef (d : TypeDef) :
    (ofDef d).named = ofDef d ∧ (ofDef d).listDepth = 0 ∧ (ofDef d).isNonNull = false := by
  cases d <;> exact ⟨rfl, rfl, rfl⟩

/-- A reference resolves to the definition of its name under the same wrappers. -/
theorem Schema.resolve_eq_ok {schema : Schema} {context : String} {t : TypeRef}
    {type : ResolvedType} (h : schema.resolve context t = .ok type) :
    ∃ d, schema.get? t.baseName = some d ∧ type.named = .ofDef d ∧
      type.listDepth = t.layers ∧ type.isNonNull = t.isNonNull := by
  induction t generalizing type with
  | named name =>
    rw [resolve] at h
    split at h
    · next d hd =>
      cases h
      exact ⟨d, hd, ResolvedType.named_ofDef d⟩
    · cases h
  | list item ih =>
    rw [resolve] at h
    obtain ⟨inner, hinner, rfl⟩ := map_eq_ok.mp h
    obtain ⟨d, hd, hnamed, hdepth, -⟩ := ih hinner
    exact ⟨d, hd, hnamed, by simp [ResolvedType.listDepth, TypeRef.layers, hdepth], rfl⟩
  | nonNull inner ih =>
    rw [resolve] at h
    split at h
    · cases h
    · obtain ⟨inner, hinner, rfl⟩ := map_eq_ok.mp h
      obtain ⟨d, hd, hnamed, hdepth, -⟩ := ih hinner
      exact ⟨d, hd, hnamed, hdepth, rfl⟩

/-- A scalar is one of four leaves, none of which is an enum. -/
theorem scalarLeaf_cases (name : String) :
    scalarLeaf name = (.int, .int) ∨ scalarLeaf name = (.float, .float) ∨
      scalarLeaf name = (.bool, .bool) ∨ scalarLeaf name = (.string, .string) := by
  unfold scalarLeaf
  split <;> simp

/-- What stands under the wrappers of a selected field, by the definition of its type. -/
def TypeDef.fieldBase? : TypeDef → Option FieldBase
  | .scalar d => some (.leaf (scalarLeaf d.name).1 (scalarLeaf d.name).2)
  | .enum d => some (.leaf (.enum d.name (Decoder.enumName d.name)) (.enum d.name))
  | .object d | .interface d => some (.object d)
  | .union d => some (.union d)
  | .input _ => none

theorem ResolvedType.fieldBase_eq_ok {type : ResolvedType} {selects : Bool} {base : FieldBase}
    {d : TypeDef} (hnamed : type.named = .ofDef d) (h : type.fieldBase selects = .ok base) :
    d.fieldBase? = some base := by
  cases d <;> cases selects <;>
    simp_all [fieldBase, leaf, ofDef, TypeDef.fieldBase?, Except.map]

/-- The plan of a field follows the wrappers of its type and the definition of its type's name. -/
theorem Schema.fieldPlan_eq_ok {schema : Schema} {s : Selected} {selects : Bool} {plan : FieldPlan}
    (h : schema.fieldPlan s.parent s.field selects = .ok plan) :
    ∃ type d, s.type? schema = some (type, d) ∧ d.fieldBase? = some plan.base ∧
      plan.depth = type.layers ∧ plan.optional = s.isOptional type := by
  rw [fieldPlan] at h
  by_cases hname : s.field.name = typeNameField
  · rw [if_pos hname] at h
    cases h
    refine ⟨_, _, by rw [Selected.type?, if_pos hname], rfl, rfl, ?_⟩
    simp [Selected.isOptional, TypeRef.isNonNull]
  · rw [if_neg hname] at h
    split at h
    · cases h
    · next d hd =>
      obtain ⟨type, htype, h⟩ := bind_eq_ok.mp h
      obtain ⟨base, hbase, h⟩ := bind_eq_ok.mp h
      cases h
      obtain ⟨def', hget, hnamed, hdepth, hnull⟩ := resolve_eq_ok (mapError_eq_ok.mp htype)
      refine ⟨d.type, def', ?_, ResolvedType.fieldBase_eq_ok hnamed hbase, hdepth, ?_⟩
      · simp [Selected.type?, hname, hd, hget]
      · simp [Selected.isOptional, hnull]

/-! ## Entries of selected fields -/

namespace Selected

/-- The Elm type and the decoder under the wrappers of a selected field, by the definition of the
field's type. -/
inductive Reading (schema : Schema) (index : FragmentIndex) (s : Selected) :
    TypeDef → ElmType → Decoder → Prop
  | scalar (d : ScalarDef) :
    Reading schema index s (.scalar d) (scalarLeaf d.name).2 (.primitive (scalarLeaf d.name).1)
  | enum (d : EnumDef) :
    Reading schema index s (.enum d) (.enum d.name)
      (.primitive (.enum d.name (Decoder.enumName d.name)))
  | object {d : TypeDef} {object : ObjectDef} {shape : Shape} (hd : d.selectable? = some object)
    (h : expand schema index s.chain object {} s.inner = .ok shape) :
    Reading schema index s d shape.recordType (shape.recordDecoder none)
  | union {d : UnionDef} {variants : Variants}
    (h : expandUnion schema index s.chain d.name [] s.inner = .ok variants) :
    Reading schema index s (.union d) (unionType d.name variants) (unionDecoder variants)

/-- The entry of a selected field of the given type: as many list layers as the type has, read by the
name of the field, and one `Maybe` if the field is optional. -/
def entry (s : Selected) (type : TypeRef) (elm : ElmType) (decoder : Decoder) : ShapeEntry :=
  let elm := elm.lists type.layers
  let read := Decoder.field s.field.name (decoder.lists type.layers)
  if s.isOptional type then ⟨s.name, .maybe elm, .maybe read⟩ else ⟨s.name, elm, read⟩

@[simp]
theorem entry_name (s : Selected) (type : TypeRef) (elm : ElmType) (decoder : Decoder) :
    (s.entry type elm decoder).name = s.name := by
  simp only [entry]
  split <;> rfl

/-- Whether an entry is what a selected field gives. -/
def IsEntry (schema : Schema) (index : FragmentIndex) (s : Selected) (e : ShapeEntry) : Prop :=
  ∃ type d elm decoder, s.type? schema = some (type, d) ∧ s.Reading schema index d elm decoder ∧
    e = s.entry type elm decoder

theorem IsEntry.name_eq {schema : Schema} {index : FragmentIndex} {s : Selected} {e : ShapeEntry}
    (h : s.IsEntry schema index e) : e.name = s.name := by
  obtain ⟨type, d, elm, decoder, -, -, rfl⟩ := h
  exact entry_name s type elm decoder

theorem entry_of_plan {s : Selected} {plan : FieldPlan} {type : TypeRef}
    (hdepth : plan.depth = type.layers) (hopt : plan.optional = s.isOptional type)
    (elm : ElmType) (decoder : Decoder) :
    plan.entry s.field elm decoder = s.entry type elm decoder := by
  simp only [FieldPlan.entry, entry, hdepth, hopt, name]

theorem isEntry_of_expandField {schema : Schema} {index : FragmentIndex} {s : Selected}
    {plan : FieldPlan} {e : ShapeEntry}
    (hplan : schema.fieldPlan s.parent s.field (!s.inner.isEmpty) = .ok plan)
    (h : expandField schema index s.chain s.field plan s.inner = .ok e) :
    s.IsEntry schema index e := by
  obtain ⟨type, d, htype, hbase, hdepth, hopt⟩ := Schema.fieldPlan_eq_ok hplan
  have hwrap := entry_of_plan hdepth hopt
  rw [expandField] at h
  cases hb : plan.base with
  | leaf primitive elm =>
    rw [hb] at h hbase
    cases h
    refine ⟨type, d, _, _, htype, ?_, hwrap _ _⟩
    cases d with
    | scalar d => cases hbase; exact .scalar d
    | enum d => cases hbase; exact .enum d
    | _ => cases hbase
  | object object =>
    rw [hb] at h hbase
    obtain ⟨shape, hshape, h⟩ := bind_eq_ok.mp h
    cases h
    refine ⟨type, d, _, _, htype, .object ?_ hshape, hwrap _ _⟩
    cases d <;> cases hbase <;> rfl
  | union union =>
    rw [hb] at h hbase
    obtain ⟨variants, hvariants, h⟩ := bind_eq_ok.mp h
    cases h
    cases d <;> cases hbase
    exact ⟨type, _, _, _, htype, .union hvariants, hwrap _ _⟩

end Selected

/-! ## Shapes of selections -/

theorem names_of_isEntry {schema : Schema} {index : FragmentIndex} {xs : List Selected}
    {entries : List ShapeEntry} (h : List.Forall₂ (Selected.IsEntry schema index) xs entries) :
    entries.map ShapeEntry.name = xs.map Selected.name := by
  induction h with
  | nil => rfl
  | cons hentry _ ih => rw [List.map_cons, List.map_cons, hentry.name_eq, ih]

theorem Shape.contains_iff (shape : Shape) (name : String) :
    shape.contains name = true ↔ name ∈ shape.names := by
  simp [contains]

/-- A spread is expanded to the selections of its fragment, and the rest after it. -/
theorem expand_spread_eq_ok {schema : Schema} {index : FragmentIndex} {chain : List String}
    {parent : ObjectDef} {shape result : Shape} {name : String} {position : GraphQL.Position}
    {rest : List Selection}
    (h : expand schema index chain parent shape (.spread name position :: rest) = .ok result) :
    ∃ object selections middle, schema.spread? index chain name = some (object, selections) ∧
      expand schema index (name :: chain) object shape selections = .ok middle ∧
      expand schema index chain parent middle rest = .ok result := by
  rw [expand] at h
  split at h
  · cases h
  · next hnew =>
    split at h
    · cases h
    · next fragment hfound =>
      obtain ⟨object, hobject, h⟩ := bind_eq_ok.mp h
      obtain ⟨middle, hmiddle, h⟩ := bind_eq_ok.mp h
      refine ⟨object, fragment.selections, middle, ?_, hmiddle, h⟩
      simp [Schema.spread?, hnew, hfound, Schema.selectable_eq_ok.mp hobject]

/-- A successful expansion adds one entry for each field whose name is new to the shape. -/
theorem expand_eq_ok {schema : Schema} {index : FragmentIndex} {chain : List String}
    {parent : ObjectDef} {shape result : Shape} {selections : List Selection}
    (h : expand schema index chain parent shape selections = .ok result) :
    ∃ entries, result.entries = shape.entries ++ entries ∧
      List.Forall₂ (Selected.IsEntry schema index)
        (firsts shape.names (flatten schema index chain parent selections)) entries := by
  fun_induction flatten schema index chain parent selections generalizing shape result with
  | case1 =>
    rw [expand] at h
    cases h
    exact ⟨[], by simp, .nil⟩
  | case2 chain parent field inner rest ih =>
    have hname : Naming.valueName field.responseKey =
        (⟨parent, field, inner, chain⟩ : Selected).name := by
      rw [Selected.name]
    rw [expand, hname] at h
    rw [firsts]
    by_cases htaken : (⟨parent, field, inner, chain⟩ : Selected).name ∈ shape.names
    · rw [if_pos ((Shape.contains_iff _ _).mpr htaken)] at h
      rw [if_pos htaken]
      exact ih h
    · rw [if_neg (mt (Shape.contains_iff _ _).mp htaken)] at h
      rw [if_neg htaken]
      obtain ⟨plan, hplan, h⟩ := bind_eq_ok.mp h
      obtain ⟨entry, hentry, h⟩ := bind_eq_ok.mp h
      have hent : Selected.IsEntry schema index ⟨parent, field, inner, chain⟩ entry :=
        Selected.isEntry_of_expandField hplan hentry
      -- the rest is read with the name of this entry taken
      obtain ⟨entries, hres, hall⟩ := ih h
      rw [Shape.names_push, hent.name_eq] at hall
      exact ⟨entry :: entries, by simp [hres, Shape.push], .cons hent hall⟩
  | case3 chain parent name position rest hspread hrest =>
    obtain ⟨object, selections, middle, htarget, hmiddle, h⟩ := expand_spread_eq_ok h
    obtain ⟨first, hfirst, hallFirst⟩ := hspread _ _ htarget hmiddle
    obtain ⟨second, hsecond, hallSecond⟩ := hrest h
    -- the fields of the fragment are in the shape when the rest is read
    have hnames : middle.names = shape.names ++
        (firsts shape.names
          (flatten schema index (name :: chain) object selections)).map Selected.name := by
      rw [Shape.names, hfirst, List.map_append, names_of_isEntry hallFirst, Shape.names]
    refine ⟨first ++ second, by rw [hsecond, hfirst, List.append_assoc], ?_⟩
    split
    · next object' selections' found =>
      cases htarget.symm.trans found
      rw [firsts_append, ← hnames]
      exact List.rel_append hallFirst hallSecond
    · next found => cases htarget.symm.trans found
  | case4 chain parent condition inner position rest ih =>
    rw [expand] at h
    cases h

/-- The entries of a fresh expansion are those of the selected fields. -/
theorem expand_selected {schema : Schema} {index : FragmentIndex} {chain : List String}
    {parent : ObjectDef} {shape : Shape} {selections : List Selection}
    (h : expand schema index chain parent {} selections = .ok shape) :
    List.Forall₂ (Selected.IsEntry schema index)
      (selected schema index chain parent selections) shape.entries := by
  obtain ⟨entries, hres, hall⟩ := expand_eq_ok h
  rw [hres]
  exact hall

/-- Selections can be expanded part by part. -/
theorem expand_append (schema : Schema) (index : FragmentIndex) (chain : List String)
    (parent : ObjectDef) (shape : Shape) (xs ys : List Selection) :
    expand schema index chain parent shape (xs ++ ys) =
      expand schema index chain parent shape xs >>= fun middle =>
        expand schema index chain parent middle ys := by
  induction xs generalizing shape with
  | nil => rw [List.nil_append, expand]; rfl
  | cons x xs ih =>
    rw [List.cons_append]
    cases x with
    | field field inner =>
      rw [expand, expand]
      split
      · exact ih shape
      · simp only [ih, bind_assoc]
    | spread name position =>
      rw [expand, expand]
      split
      · rfl
      · split
        · rfl
        · simp only [ih, bind_assoc]
    | inline condition inner position =>
      rw [expand, expand]
      rfl

/-! ## Variants of unions -/

theorem map_fst_putShape (member : String) (shape : Shape) (variants : Variants) :
    (putShape member shape variants).map Prod.fst =
      if member ∈ variants.map Prod.fst then variants.map Prod.fst
      else variants.map Prod.fst ++ [member] := by
  induction variants with
  | nil => simp [putShape]
  | cons head rest ih =>
    obtain ⟨name, old⟩ := head
    rw [putShape]
    by_cases hname : name = member
    · simp [hname]
    · have hne : member ≠ name := fun he => hname he.symm
      rw [if_neg hname, List.map_cons, ih]
      by_cases hmem : member ∈ rest.map Prod.fst
      · simp [hmem]
      · simp [hmem, hne]

theorem mem_putShape {member name : String} {shape s : Shape} {variants : Variants}
    (hnodup : (variants.map Prod.fst).Nodup) (h : (name, s) ∈ putShape member shape variants) :
    name = member ∧ s = shape ∨ name ≠ member ∧ (name, s) ∈ variants := by
  induction variants with
  | nil =>
    simp only [putShape, List.mem_singleton, Prod.mk.injEq] at h
    exact .inl h
  | cons head rest ih =>
    obtain ⟨other, old⟩ := head
    rw [List.map_cons, List.nodup_cons] at hnodup
    rw [putShape] at h
    by_cases hother : other = member
    · rw [if_pos hother, List.mem_cons, Prod.mk.injEq] at h
      rcases h with ⟨hname, hs⟩ | hrest
      · exact .inl ⟨hname.trans hother, hs⟩
      · have hkey : name ∈ rest.map Prod.fst := List.mem_map_of_mem hrest
        exact .inr ⟨fun he => hnodup.1 (hother ▸ he ▸ hkey), List.mem_cons_of_mem _ hrest⟩
    · rw [if_neg hother, List.mem_cons, Prod.mk.injEq] at h
      rcases h with ⟨rfl, rfl⟩ | hrest
      · exact .inr ⟨hother, List.mem_cons_self⟩
      · rcases ih hnodup.2 hrest with heq | ⟨hne, hin⟩
        · exact .inl heq
        · exact .inr ⟨hne, List.mem_cons_of_mem _ hin⟩

theorem mem_memberShape {member : String} {variants : Variants}
    (h : member ∈ variants.map Prod.fst) : (member, memberShape variants member) ∈ variants := by
  induction variants with
  | nil => cases h
  | cons head rest ih =>
    obtain ⟨name, shape⟩ := head
    by_cases hname : member = name
    · simp [memberShape, hname]
    · have hrest : member ∈ rest.map Prod.fst := by simpa [hname] using h
      have hlookup : memberShape ((name, shape) :: rest) member = memberShape rest member := by
        simp [memberShape, List.lookup_cons, beq_eq_false_iff_ne.mpr hname]
      rw [hlookup]
      exact List.mem_cons_of_mem _ (ih hrest)

theorem memberShape_of_not_mem {member : String} {variants : Variants}
    (h : member ∉ variants.map Prod.fst) : memberShape variants member = {} := by
  have hnone : variants.lookup member = none := by
    rw [List.lookup_eq_none_iff]
    intro pair hpair
    have hne : pair.1 ≠ member := fun he => h (he ▸ List.mem_map_of_mem hpair)
    simpa using hne.symm
  rw [memberShape, hnone, Option.getD_none]

/-- What the variants of a union hold after some selections: one variant for each type that an inline
fragment is on, with the shape of all that is selected on it. -/
structure HoldsMembers (schema : Schema) (index : FragmentIndex) (chain : List String)
    (union : String) (selections : List Selection) (variants : Variants) : Prop where
  keys : variants.map Prod.fst = (conditions selections).eraseDups
  nodup : (variants.map Prod.fst).Nodup
  shapes : ∀ member shape, (member, shape) ∈ variants →
    member ∈ (schema.unionMembers? union).getD [] ∧
      ∃ object, schema.selectable? member = some object ∧
        expand schema index chain object {} (onMember member selections) = .ok shape

namespace HoldsMembers

variable {schema : Schema} {index : FragmentIndex} {chain : List String} {union : String}
  {done : List Selection} {variants : Variants}

theorem mem_keys (h : HoldsMembers schema index chain union done variants) (member : String) :
    member ∈ variants.map Prod.fst ↔ member ∈ conditions done := by
  rw [h.keys, List.mem_eraseDups]

theorem exists_lookup (h : HoldsMembers schema index chain union done variants) {member : String}
    (hmember : member ∈ conditions done) : ∃ shape, variants.lookup member = some shape := by
  cases hlookup : variants.lookup member with
  | some shape => exact ⟨shape, rfl⟩
  | none =>
    obtain ⟨pair, hpair, rfl⟩ := List.mem_map.mp ((h.mem_keys member).mpr hmember)
    have := List.lookup_eq_none_iff.mp hlookup pair hpair
    simp at this

/-- A field among the selections of a union adds nothing. -/
theorem field (h : HoldsMembers schema index chain union done variants) (f : Field)
    (inner : List Selection) :
    HoldsMembers schema index chain union (done ++ [.field f inner]) variants := by
  refine ⟨?_, h.nodup, ?_⟩
  · rw [h.keys, conditions, conditions, List.filterMap_append]
    simp [List.filterMap_cons, Selection.condition?]
  · intro member shape hmem
    rw [onMember_append, onMember, onMember, List.append_nil]
    · exact h.shapes member shape hmem
    · simp

/-- The shape that an inline fragment starts from is that of the earlier ones on its type. -/
theorem expand_memberShape (h : HoldsMembers schema index chain union done variants)
    {member : String} {object : ObjectDef} (hobject : schema.selectable? member = some object) :
    expand schema index chain object {} (onMember member done) =
      .ok (memberShape variants member) := by
  by_cases hkey : member ∈ variants.map Prod.fst
  · obtain ⟨-, other, hother, hshape⟩ := h.shapes member _ (mem_memberShape hkey)
    rw [hobject] at hother
    cases hother
    exact hshape
  · rw [memberShape_of_not_mem hkey, onMember_eq_nil (mt (h.mem_keys member).mpr hkey), expand]

/-- An inline fragment puts what it selects behind what is selected on its type already. -/
theorem inline (h : HoldsMembers schema index chain union done variants) {member : String}
    {object : ObjectDef} {inner : List Selection} {shape : Shape} (position : GraphQL.Position)
    (hmember : member ∈ (schema.unionMembers? union).getD [])
    (hobject : schema.selectable? member = some object)
    (hshape : expand schema index chain object (memberShape variants member) inner = .ok shape) :
    HoldsMembers schema index chain union (done ++ [.inline (some member) inner position])
      (putShape member shape variants) := by
  have hconditions : conditions (done ++ [.inline (some member) inner position]) =
      conditions done ++ [member] := by
    simp [conditions, Selection.condition?]
  refine ⟨?_, ?_, ?_⟩
  · rw [map_fst_putShape, hconditions, List.eraseDups_append, ← h.keys]
    by_cases hkey : member ∈ variants.map Prod.fst
    · have hin := (h.mem_keys member).mp hkey
      simp [hkey, List.removeAll, hin]
    · have hout := mt (h.mem_keys member).mpr hkey
      simp [hkey, List.removeAll, hout, List.eraseDups_cons]
  · rw [map_fst_putShape]
    split
    · exact h.nodup
    · next hkey =>
      rw [List.nodup_append]
      refine ⟨h.nodup, by simp, ?_⟩
      intro name hname other hother
      rw [List.mem_singleton] at hother
      rintro rfl
      exact hkey (hother ▸ hname)
  · intro name s hmem
    rw [onMember_append, onMember, onMember]
    rcases mem_putShape h.nodup hmem with ⟨rfl, rfl⟩ | ⟨hne, hold⟩
    · -- the new shape goes on from that of the earlier inline fragments on the member
      refine ⟨hmember, object, hobject, ?_⟩
      rw [if_pos rfl, List.append_nil, expand_append, h.expand_memberShape hobject]
      exact hshape
    · rw [if_neg (fun he => hne (Option.some.inj he).symm), List.append_nil]
      exact h.shapes name s hold

end HoldsMembers

theorem Schema.member_eq_ok {schema : Schema} {union member : String} {condition : Option String}
    (h : schema.member union condition = .ok member) :
    condition = some member ∧ member ∈ (schema.unionMembers? union).getD [] := by
  unfold Schema.member at h
  split at h
  · split at h
    · next hin =>
      cases h
      exact ⟨rfl, hin⟩
    · cases h
  · cases h

/-- What the variants hold stays true through the rest of the selections. -/
theorem expandUnion_holdsMembers {schema : Schema} {index : FragmentIndex} {chain : List String}
    {union : String} {done selections : List Selection} {variants result : Variants}
    (hdone : HoldsMembers schema index chain union done variants)
    (h : expandUnion schema index chain union variants selections = .ok result) :
    HoldsMembers schema index chain union (done ++ selections) result := by
  induction selections generalizing done variants with
  | nil =>
    rw [expandUnion] at h
    cases h
    rwa [List.append_nil]
  | cons x rest ih =>
    rw [List.append_cons]
    cases x with
    | field f inner =>
      rw [expandUnion] at h
      split at h
      · exact ih (hdone.field f inner) h
      · cases h
    | spread name position =>
      rw [expandUnion] at h
      cases h
    | inline condition inner position =>
      rw [expandUnion] at h
      obtain ⟨member, hmember, hrest⟩ := bind_eq_ok.mp h
      obtain ⟨object, hobject, hrest⟩ := bind_eq_ok.mp hrest
      obtain ⟨shape, hshape, hrest⟩ := bind_eq_ok.mp hrest
      obtain ⟨rfl, hin⟩ := Schema.member_eq_ok hmember
      exact ih (hdone.inline position hin (Schema.selectable_eq_ok.mp hobject) hshape) hrest

theorem expandUnion_members {schema : Schema} {index : FragmentIndex} {chain : List String}
    {union : String} {selections : List Selection} {variants : Variants}
    (h : expandUnion schema index chain union [] selections = .ok variants) :
    HoldsMembers schema index chain union selections variants := by
  have hstart : HoldsMembers schema index chain union [] [] :=
    ⟨rfl, by simp, by simp⟩
  exact expandUnion_holdsMembers hstart h

/-! ## Bindings of definitions -/

namespace Binding

theorem root_eq_ok {schema : Schema} {kind : OperationKind} {out : BindingKind} {type : String}
    (h : root schema kind = .ok (out, type)) :
    kind = .query ∧ type = schema.queryType ∨
      kind = .mutation ∧ schema.mutationType = some type := by
  unfold root at h
  split at h
  · cases h
    exact .inl ⟨rfl, rfl⟩
  · split at h
    · next name hname =>
      cases h
      exact .inr ⟨rfl, hname⟩
    · cases h
  · cases h

theorem ofOperation_eq_ok {schema : Schema} {index : FragmentIndex} {op : Operation}
    {binding : Binding} (h : ofOperation schema index op = .ok binding) :
    ∃ parent shape, (Definition.operation op).target? schema = some parent ∧
      expand schema index [] parent {} op.selections = .ok shape ∧
      binding.type = shape.recordType ∧
      binding.decoder = shape.recordDecoder (some binding.typeName) ∧
      binding.document = op.documentText index := by
  rw [ofOperation] at h
  obtain ⟨⟨kind, type⟩, hroot, h⟩ := bind_eq_ok.mp h
  obtain ⟨parent, hparent, h⟩ := bind_eq_ok.mp h
  obtain ⟨shape, hshape, h⟩ := bind_eq_ok.mp h
  obtain ⟨inputs, -, h⟩ := bind_eq_ok.mp h
  cases h
  refine ⟨parent, shape, ?_, hshape, rfl, rfl, rfl⟩
  have hparent := Schema.selectable_eq_ok.mp hparent
  rcases root_eq_ok hroot with ⟨hkind, rfl⟩ | ⟨hkind, htype⟩
  · simp [Definition.target?, hkind, hparent]
  · simp [Definition.target?, hkind, htype, hparent]

theorem ofFragment_eq_ok {schema : Schema} {index : FragmentIndex} {fragment : Fragment}
    {binding : Binding} (h : ofFragment schema index fragment = .ok binding) :
    ∃ parent shape, (Definition.fragment fragment).target? schema = some parent ∧
      expand schema index [fragment.name] parent {} fragment.selections = .ok shape ∧
      binding.type = shape.recordType ∧ binding.decoder = shape.recordDecoder none := by
  rw [ofFragment] at h
  obtain ⟨parent, hparent, h⟩ := bind_eq_ok.mp h
  obtain ⟨shape, hshape, h⟩ := bind_eq_ok.mp h
  cases h
  exact ⟨parent, shape, Schema.selectable_eq_ok.mp hparent, hshape, rfl, rfl⟩

/-- The type and the decoder of a binding are those of one shape, which is expanded from the selections
of the definition. -/
theorem ofDefinition_eq_ok {schema : Schema} {index : FragmentIndex} {d : Definition}
    {binding : Binding} (h : ofDefinition schema index d = .ok binding) :
    ∃ parent shape label, d.target? schema = some parent ∧
      expand schema index d.chain parent {} d.selections = .ok shape ∧
      binding.type = shape.recordType ∧ binding.decoder = shape.recordDecoder label := by
  cases d with
  | operation op =>
    obtain ⟨parent, shape, htarget, hshape, htype, hdecoder, -⟩ := ofOperation_eq_ok h
    exact ⟨parent, shape, _, htarget, hshape, htype, hdecoder⟩
  | fragment fragment =>
    obtain ⟨parent, shape, htarget, hshape, htype, hdecoder⟩ := ofFragment_eq_ok h
    exact ⟨parent, shape, _, htarget, hshape, htype, hdecoder⟩

theorem ofDocument_eq_ok {schema : Schema} {document : Document} {bindings : List Binding}
    (h : ofDocument schema document = .ok bindings) :
    ∃ index, FragmentIndex.ofDocument document = .ok index ∧
      List.Forall₂ (fun d binding => ofDefinition schema index d = .ok binding)
        document.definitions bindings := by
  rw [ofDocument] at h
  obtain ⟨index, hindex, h⟩ := bind_eq_ok.mp h
  exact ⟨index, mapError_eq_ok.mp hindex, forall₂_of_mapM_eq_ok h⟩

/-- The binding at a place of the output is that of the definition at the same place of the document. -/
theorem ofDocument_getElem? {schema : Schema} {document : Document} {bindings : List Binding}
    {i : Nat} {binding : Binding} (h : ofDocument schema document = .ok bindings)
    (hbinding : bindings[i]? = some binding) :
    ∃ index d, FragmentIndex.ofDocument document = .ok index ∧
      document.definitions[i]? = some d ∧ ofDefinition schema index d = .ok binding := by
  obtain ⟨index, hindex, hall⟩ := ofDocument_eq_ok h
  obtain ⟨d, hd, hof⟩ := exists_of_getElem?_right hall hbinding
  exact ⟨index, d, hindex, hd, hof⟩

end Binding

/-! ## A sample

A small schema and a document on it, at which statements about bindings are evaluated. -/

deriving instance DecidableEq for Schema

namespace Sample

def fieldDef (name : String) (type : TypeRef) : FieldDef := ⟨name, type, [], none, none⟩

def queryType : ObjectDef :=
  ⟨"Query", none, [],
    [fieldDef "user" (.named "User"),
      fieldDef "search" (.nonNull (.list (.nonNull (.named "Result"))))]⟩

/-- The types `Query`, `User` and `Bot` and the union `Result` of the last two. -/
def schema : Schema :=
  [TypeDef.object queryType,
    .object ⟨"User", none, [],
      [fieldDef "id" (.nonNull (.named "ID")), fieldDef "name" (.named "String"),
        fieldDef "friends" (.list (.nonNull (.named "User")))]⟩,
    .object ⟨"Bot", none, [],
      [fieldDef "active" (.named "Boolean"), fieldDef "owner" (.nonNull (.named "User"))]⟩,
    .union ⟨"Result", none, ["User", "Bot"]⟩].foldl Schema.add (.ofQuery "Query")

def select (name : String) (inner : List Selection) : Selection :=
  .field ⟨none, name, [], false, .start⟩ inner

def spread (name : String) : Selection := .spread name .start

def inline (member : String) (inner : List Selection) : Selection :=
  .inline (some member) inner .start

def query (selections : List Selection) : Definition :=
  .operation ⟨.query, none, [], selections, .start⟩

/-- A query through a fragment, a list and a union. -/
def search : Definition :=
  query
    [select "user" [spread "Names", select "friends" [select "id" []]],
      select "search" [select "__typename" [], inline "User" [spread "Names"],
        inline "Bot" [select "active" [], select "owner" [select "id" []]]]]

def names : Fragment := ⟨"Names", "User", [select "id" [], select "name" []], .start⟩

def document : Document := ⟨[search, .fragment names]⟩

/-- The bindings of a document on the schema. -/
def bindings (document : Document) : List Binding :=
  (Binding.ofDocument schema document).toOption.getD []

/-- The fragments of a document. -/
def fragments (document : Document) : FragmentIndex :=
  (FragmentIndex.ofDocument document).toOption.getD ⟨[], by simp⟩

-- names are evaluated, not unfolded
attribute [local irreducible] Naming.valueName

theorem ofDocument_document : Binding.ofDocument schema document = .ok (bindings document) := by
  cbv

end Sample

end ElmBindings
