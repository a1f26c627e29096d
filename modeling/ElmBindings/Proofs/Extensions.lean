import ElmBindings.Proofs.Loaded
import ElmBindings.Proofs.ReadingOrder

set_option autoImplicit false

/-! # Extensions of types

A schema text defines types, names its roots and extends types, in any order. The definitions make the types:
the last definition of a name counts, and it stands where the first one stood (`Schema.Collects`). Then every
extension changes one type (`Schema.ExtendedBy`). What becomes of a type depends only on the extensions of its
name, in their order (`Extends`), so extensions can be moved past everything but extensions of the same type
(`SchemaItem.Moves`) without any effect on the schema, or on whether there is one
(`Schema.ofItems_merges`). -/

namespace ElmBindings

/-! ## Parts of a type -/

namespace TypeDef

/-- The description of a type. -/
def description : TypeDef → Option String
  | scalar d => d.description
  | object d => d.description
  | interface d => d.description
  | union d => d.description
  | enum d => d.description
  | input d => d.description

/-- The interfaces that an object type implements. -/
def interfaces : TypeDef → List String
  | object d => d.interfaces
  | _ => []

/-- The fields of an object or interface type. -/
def fields : TypeDef → List FieldDef
  | object d | interface d => d.fields
  | _ => []

/-- The members of a union. -/
def members : TypeDef → List String
  | union d => d.members
  | _ => []

/-- The values of an enum. -/
def values : TypeDef → List EnumValue
  | enum d => d.values
  | _ => []

/-- The fields of an input object. -/
def inputs : TypeDef → List InputValue
  | input d => d.fields
  | _ => []

/-- Whether a definition is a base definition with all that additions hold behind it, in order. -/
structure Merges (base : TypeDef) (additions : List TypeDef) (d : TypeDef) : Prop where
  name : d.name = base.name
  kind : d.kind = base.kind
  description : d.description = base.description
  interfaces : d.interfaces = base.interfaces ++ additions.flatMap TypeDef.interfaces
  fields : d.fields = base.fields ++ additions.flatMap TypeDef.fields
  members : d.members = base.members ++ additions.flatMap TypeDef.members
  values : d.values = base.values ++ additions.flatMap TypeDef.values
  inputs : d.inputs = base.inputs ++ additions.flatMap TypeDef.inputs

theorem Merges.nil (d : TypeDef) : d.Merges [] d :=
  ⟨rfl, rfl, rfl, by simp, by simp, by simp, by simp, by simp⟩

theorem Merges.append {base middle d : TypeDef} {additions more : List TypeDef}
    (h : base.Merges additions middle) (h' : middle.Merges more d) :
    base.Merges (additions ++ more) d := by
  refine ⟨h'.name.trans h.name, h'.kind.trans h.kind, h'.description.trans h.description,
    ?_, ?_, ?_, ?_, ?_⟩
  · rw [h'.interfaces, h.interfaces, List.flatMap_append, List.append_assoc]
  · rw [h'.fields, h.fields, List.flatMap_append, List.append_assoc]
  · rw [h'.members, h.members, List.flatMap_append, List.append_assoc]
  · rw [h'.values, h.values, List.flatMap_append, List.append_assoc]
  · rw [h'.inputs, h.inputs, List.flatMap_append, List.append_assoc]

theorem merges_of_extended? {base addition d : TypeDef} (h : base.extended? addition = some d) :
    base.Merges [addition] d := by
  cases base <;> cases addition <;> cases h <;>
    exact ⟨rfl, rfl, rfl, by simp [interfaces], by simp [fields], by simp [members],
      by simp [values], by simp [inputs]⟩

/-- One addition after the other is put behind a definition. -/
theorem merges_of_foldlM {base d : TypeDef} {additions : List TypeDef}
    (h : additions.foldlM extended? base = some d) : base.Merges additions d := by
  induction additions generalizing base with
  | nil =>
    cases h
    exact .nil d
  | cons addition additions ih =>
    rw [List.foldlM_cons] at h
    obtain ⟨middle, hmiddle, h⟩ := Option.bind_eq_some_iff.mp h
    exact (merges_of_extended? hmiddle).append (ih h)

theorem exists_extended?_iff {base addition : TypeDef} :
    (∃ d, base.extended? addition = some d) ↔ base.kind = addition.kind := by
  cases base <;> cases addition <;> simp [extended?, kind]

end TypeDef

/-! ## Extending types -/

/-- Whether a type is what another one becomes by those of some additions that have its name. -/
def Extends (additions : List TypeDef) (base d : TypeDef) : Prop :=
  (additions.filter (·.name == base.name)).foldlM TypeDef.extended? base = some d

namespace Extends

variable {additions more : List TypeDef} {base middle d d' : TypeDef}

theorem nil_iff : Extends [] base d ↔ d = base := by
  simp [Extends, eq_comm]

theorem singleton_of_eq {addition : TypeDef} (hname : base.name = addition.name) :
    Extends [addition] base d ↔ base.extended? addition = some d := by
  simp [Extends, hname]

theorem singleton_of_ne {addition : TypeDef} (hname : base.name ≠ addition.name) :
    Extends [addition] base d ↔ d = base := by
  rw [Extends, List.filter_cons_of_neg (by simpa using hname.symm)]
  exact nil_iff

theorem unique (h : Extends additions base d) (h' : Extends additions base d') : d = d' :=
  Option.some.inj (h.symm.trans h')

theorem merges (h : Extends additions base d) :
    base.Merges (additions.filter (·.name == base.name)) d :=
  TypeDef.merges_of_foldlM h

theorem append (h : Extends additions base middle) (h' : Extends more middle d) :
    Extends (additions ++ more) base d := by
  rw [Extends, List.filter_append, List.foldlM_append]
  rw [Extends, h.merges.name] at h'
  exact Option.bind_eq_some_iff.mpr ⟨middle, h, h'⟩

theorem congr (h : Extends additions base d)
    (hsame : ∀ name : String, more.filter (·.name == name) = additions.filter (·.name == name)) :
    Extends more base d := by
  rwa [Extends, hsame]

end Extends

namespace Schema

variable {schema extended : Schema} {additions : List TypeDef} {addition : TypeDef}

/-- The names of the types with their kinds. -/
def outline (schema : Schema) : List (String × String) :=
  schema.types.map fun d => (d.name, d.kind)

theorem map_fst_outline (schema : Schema) : schema.outline.map Prod.fst = schema.names := by
  rw [outline, List.map_map]
  rfl

/-- Whether a schema is another one after some additions to its types. -/
structure ExtendedBy (schema : Schema) (additions : List TypeDef) (extended : Schema) : Prop where
  roots : extended.roots = schema.roots
  positions : extended.positions = schema.positions
  types : List.Forall₂ (Extends additions) schema.types extended.types

namespace ExtendedBy

theorem refl (schema : Schema) : schema.ExtendedBy [] schema := by
  refine ⟨rfl, rfl, ?_⟩
  rw [List.forall₂_same]
  intro d _
  exact Extends.nil_iff.mpr rfl

theorem append {more : List TypeDef} {result : Schema} (h : schema.ExtendedBy additions extended)
    (h' : extended.ExtendedBy more result) : schema.ExtendedBy (additions ++ more) result := by
  refine ⟨h'.roots.trans h.roots, h'.positions.trans h.positions, ?_⟩
  refine forall₂_join h.types.flip h'.types fun middle _ base d hbase hd => ?_
  exact Extends.append hbase hd

theorem outline (h : schema.ExtendedBy additions extended) : extended.outline = schema.outline := by
  rw [eq_comm, Schema.outline, Schema.outline, ← List.forall₂_eq_eq_eq, List.forall₂_map_left_iff,
    List.forall₂_map_right_iff]
  refine h.types.imp fun base d hd => ?_
  rw [hd.merges.name, hd.merges.kind]

theorem listed (h : schema.ExtendedBy additions extended) (hs : schema.Listed) : extended.Listed := by
  have hnames : extended.names = schema.names := by
    rw [← map_fst_outline, h.outline, map_fst_outline]
  exact ⟨hnames ▸ hs.nodup, by rw [h.positions, hnames, hs.positions_eq]⟩

theorem unique {other : Schema} (h : schema.ExtendedBy additions extended)
    (h' : schema.ExtendedBy additions other) : extended = other := by
  have htypes : extended.types = other.types := by
    rw [← List.forall₂_eq_eq_eq]
    exact forall₂_join h.types h'.types fun _ _ _ _ hd hd' => Extends.unique hd hd'
  have hroots := h.roots.trans h'.roots.symm
  have hpositions := h.positions.trans h'.positions.symm
  cases extended
  cases other
  cases htypes
  cases hroots
  cases hpositions
  rfl

theorem congr {more : List TypeDef} (h : schema.ExtendedBy additions extended)
    (hsame : ∀ name : String, more.filter (·.name == name) = additions.filter (·.name == name)) :
    schema.ExtendedBy more extended :=
  ⟨h.roots, h.positions, h.types.imp fun _ _ hd => hd.congr hsame⟩

end ExtendedBy

theorem getElem?_names {d : TypeDef} {i : Nat} (h : schema.types[i]? = some d) :
    schema.names[i]? = some d.name := by
  rw [names, List.getElem?_map, h]
  rfl

theorem Listed.get?_iff (h : schema.Listed) {name : String} {d : TypeDef} :
    schema.get? name = some d ↔ d ∈ schema.types ∧ d.name = name := by
  constructor
  · intro hget
    exact ⟨mem_of_get? hget, h.indexed.name_eq hget⟩
  · rintro ⟨hd, rfl⟩
    obtain ⟨i, hi⟩ := List.getElem?_of_mem hd
    rw [get?, (h.position?_eq_some d.name i).mpr (getElem?_names hi)]
    exact hi

/-- The place of a type is taken by what it becomes, and no other type is touched. -/
theorem Listed.extendedBy_add (h : schema.Listed) {base d : TypeDef} (hbase : base ∈ schema.types)
    (hname : base.name = addition.name) (hd : base.extended? addition = some d) :
    schema.ExtendedBy [addition] (schema.add d) := by
  obtain ⟨i, hi⟩ := List.getElem?_of_mem hbase
  have hat := getElem?_names hi
  have hplace : schema.names[i]? = some d.name := by
    rw [hat, (TypeDef.merges_of_extended? hd).name]
  rw [h.add_known hplace]
  refine ⟨rfl, rfl, List.forall₂_iff_get.mpr ⟨by simp, fun j hj hj' => ?_⟩⟩
  have hother := getElem?_names (List.getElem?_eq_getElem hj)
  simp only [List.get_eq_getElem, List.getElem_set]
  split
  · next hij =>
    subst hij
    rw [List.getElem?_eq_getElem hj, Option.some.injEq] at hi
    rw [hi]
    exact (Extends.singleton_of_eq hname).mpr hd
  · next hij =>
    refine (Extends.singleton_of_ne fun heq => hij ?_).mpr rfl
    -- no two types have one name
    refine (List.getElem?_inj (List.getElem?_eq_some_iff.mp hat).1 h.nodup).mp ?_
    rw [hat, hother, heq, hname]

/-- A type can be extended if it is there and of the same kind. -/
theorem Listed.extend_cases (h : schema.Listed) (addition : TypeDef) :
    (addition.name, addition.kind) ∈ schema.outline ∧
        (∃ extended, schema.extend addition = .ok extended ∧
          schema.ExtendedBy [addition] extended) ∨
      (addition.name, addition.kind) ∉ schema.outline ∧
        ∃ e, schema.extend addition = .error e := by
  have houtline : (addition.name, addition.kind) ∈ schema.outline ↔
      ∃ base, schema.get? addition.name = some base ∧ base.kind = addition.kind := by
    simp only [outline, List.mem_map, Prod.mk.injEq, h.get?_iff, and_assoc]
  rw [houtline, extend]
  cases hget : schema.get? addition.name with
  | none => exact .inr ⟨by simp, _, rfl⟩
  | some base =>
    obtain ⟨hbase, hname⟩ := h.get?_iff.mp hget
    cases hd : base.extended? addition with
    | none =>
      refine .inr ⟨?_, .mismatchedExtension base.kind addition.name, by simp only [hd]⟩
      rintro ⟨other, hother, hkind⟩
      cases hother
      obtain ⟨d, hsome⟩ := TypeDef.exists_extended?_iff.mpr hkind
      cases hd.symm.trans hsome
    | some d =>
      have hkind := TypeDef.exists_extended?_iff.mp ⟨d, hd⟩
      exact .inl ⟨⟨base, rfl, hkind⟩, schema.add d, by simp only [hd],
        h.extendedBy_add hbase hname hd⟩

theorem Listed.extendedBy_of_foldlM (h : schema.Listed)
    (hrun : additions.foldlM extend schema = .ok extended) :
    schema.ExtendedBy additions extended := by
  have hrun := foldlM_holds (I := fun done s => schema.ExtendedBy done s) ?_ [] additions
    (.refl schema) hrun
  · simpa using hrun
  · intro done middle addition result hdone hstep
    rcases (hdone.listed h).extend_cases addition with ⟨-, next, hnext, hextended⟩ | ⟨-, e, he⟩
    · cases hstep.symm.trans hnext
      exact hdone.append hextended
    · cases hstep.symm.trans he

theorem Listed.exists_foldlM_iff (h : schema.Listed) :
    (∃ extended, additions.foldlM extend schema = .ok extended) ↔
      ∀ addition ∈ additions, (addition.name, addition.kind) ∈ schema.outline := by
  induction additions generalizing schema with
  | nil => simp [pure, Except.pure]
  | cons addition additions ih =>
    rw [List.forall_mem_cons, List.foldlM_cons]
    rcases h.extend_cases addition with ⟨hin, next, hnext, hextended⟩ | ⟨hout, e, he⟩
    · rw [hnext, and_iff_right hin, ← hextended.outline]
      exact ih (hextended.listed h)
    · rw [he]
      simp [bind, Except.bind, hout]

/-- Where extensions stand among each other matters for each type alone. -/
theorem Listed.foldlM_congr {more : List TypeDef} (h : schema.Listed)
    (hsame : ∀ name : String, more.filter (·.name == name) = additions.filter (·.name == name))
    (hrun : additions.foldlM extend schema = .ok extended) :
    more.foldlM extend schema = .ok extended := by
  have hmem {addition : TypeDef} (hin : addition ∈ more) : addition ∈ additions := by
    have hfilter : addition ∈ more.filter (·.name == addition.name) := by simp [hin]
    rw [hsame] at hfilter
    exact List.mem_of_mem_filter hfilter
  have hknown := h.exists_foldlM_iff.mp ⟨extended, hrun⟩
  obtain ⟨other, hother⟩ := h.exists_foldlM_iff.mpr fun addition hin => hknown addition (hmem hin)
  have heq := ((h.extendedBy_of_foldlM hrun).congr hsame).unique (h.extendedBy_of_foldlM hother)
  rw [hother, heq]

end Schema

/-! ## Definitions -/

/-- The type that an item defines. -/
def SchemaItem.definition? : SchemaItem → Option TypeDef
  | .definition d => some d
  | _ => none

/-- The built-in scalars. -/
def builtinDefs : List TypeDef := BuiltinScalar.all.map fun s => .scalar ⟨s.name, none⟩

/-- The last definition of a name. -/
def lastNamed? (ds : List TypeDef) (name : String) : Option TypeDef :=
  ds.reverse.find? (·.name == name)

theorem lastNamed?_append_singleton (ds : List TypeDef) (d : TypeDef) (name : String) :
    lastNamed? (ds ++ [d]) name = if d.name = name then some d else lastNamed? ds name := by
  rw [lastNamed?, lastNamed?, List.reverse_append, List.reverse_singleton, List.singleton_append,
    List.find?_cons]
  split
  · next h => rw [if_pos (eq_of_beq h)]
  · next h => rw [if_neg (by simpa using h)]

namespace Schema

variable {schema : Schema}

theorem Listed.mem_add_iff (h : schema.Listed) {d x : TypeDef} :
    x ∈ (schema.add d).types ↔ x = d ∨ x ∈ schema.types ∧ x.name ≠ d.name := by
  by_cases hd : d.name ∈ schema.names
  · obtain ⟨i, hi⟩ := List.getElem?_of_mem hd
    have hlt : i < schema.types.length := by
      simpa [names] using (List.getElem?_eq_some_iff.mp hi).1
    have hself : d ∈ schema.types.set i d := List.mem_set hlt d
    have hnodup : ((schema.types.set i d).map TypeDef.name).Nodup := by
      rw [names_set hi]
      exact h.nodup
    rw [h.add_known hi]
    constructor
    · intro hx
      by_cases hname : x.name = d.name
      · exact .inl (List.inj_on_of_nodup_map hnodup hx hself hname)
      · rcases List.mem_or_eq_of_mem_set hx with hold | rfl
        · exact .inr ⟨hold, hname⟩
        · exact absurd rfl hname
    · rintro (rfl | ⟨hx, hne⟩)
      · exact hself
      · obtain ⟨j, hj⟩ := List.getElem?_of_mem hx
        have hij : i ≠ j := by
          rintro rfl
          exact hne (Option.some.inj ((getElem?_names hj).symm.trans hi))
        exact List.mem_of_getElem? ((List.getElem?_set_ne hij).trans hj)
  · rw [h.add_new hd, List.mem_append, List.mem_singleton, or_comm]
    refine or_congr_right (iff_self_and.mpr fun hx heq => hd ?_)
    exact heq ▸ List.mem_map_of_mem hx

/-- What a schema has after definitions: one type for each name, in the order of the first definitions of
names, and of each name its last definition. -/
structure Collects (schema : Schema) (ds : List TypeDef) : Prop where
  listed : schema.Listed
  names_eq : schema.names = (ds.map TypeDef.name).eraseDups
  mem_iff : ∀ d, d ∈ schema.types ↔ lastNamed? ds d.name = some d

namespace Collects

variable {ds : List TypeDef}

theorem add (h : schema.Collects ds) (d : TypeDef) : (schema.add d).Collects (ds ++ [d]) := by
  refine ⟨h.listed.add d, ?_, ?_⟩
  · rw [h.listed.names_add, h.names_eq, List.map_append, List.eraseDups_append]
    split
    · next hd =>
      rw [List.mem_eraseDups] at hd
      simp [List.removeAll, List.mem_map.mp hd]
    · next hd =>
      rw [List.mem_eraseDups, List.mem_map] at hd
      simp [List.removeAll, hd, List.eraseDups_cons]
  · intro x
    rw [h.listed.mem_add_iff, h.mem_iff, lastNamed?_append_singleton]
    split
    · next hname => simp [hname, eq_comm]
    · next hname =>
      refine ⟨?_, fun hx => .inr ⟨hx, Ne.symm hname⟩⟩
      rintro (rfl | ⟨hx, -⟩)
      · exact absurd rfl hname
      · exact hx

theorem addAll (h : schema.Collects ds) (more : List TypeDef) :
    (more.foldl Schema.add schema).Collects (ds ++ more) := by
  induction more generalizing schema ds with
  | nil => rwa [List.append_nil]
  | cons d more ih =>
    rw [List.append_cons]
    exact ih (h.add d)

theorem empty (queryType : String) : Collects ⟨queryType, none, none, [], []⟩ [] :=
  ⟨listed_empty queryType, rfl, by simp [lastNamed?]⟩

theorem ofQuery (queryType : String) : (Schema.ofQuery queryType).Collects builtinDefs :=
  (Collects.empty queryType).addAll builtinDefs

theorem withItems (h : schema.Collects ds) (items : List SchemaItem) :
    (items.foldl withItem schema).Collects (ds ++ items.filterMap SchemaItem.definition?) := by
  induction items generalizing schema ds with
  | nil => simpa using h
  | cons item items ih =>
    cases item with
    | definition d =>
      have hsplit : ds ++ (SchemaItem.definition d :: items).filterMap SchemaItem.definition? =
          ds ++ [d] ++ items.filterMap SchemaItem.definition? := by simp [SchemaItem.definition?]
      rw [hsplit]
      exact ih (h.add d)
    | roots roots => exact ih ⟨⟨h.listed.nodup, h.listed.positions_eq⟩, h.names_eq, h.mem_iff⟩
    | extension addition => exact ih h
    | directive => exact ih h

end Collects

/-! ## Items -/

/-- The definitions of types before the extensions: the built-in scalars, and then those of the items. -/
def allDefinitions (items : List SchemaItem) : List TypeDef :=
  builtinDefs ++ items.filterMap SchemaItem.definition?

/-- What items add to a type. -/
def additionsTo (items : List SchemaItem) (name : String) : List TypeDef :=
  (items.filterMap addition?).filter (·.name == name)

/-- Whether a schema has the types of items, in the order of the first definitions of their names. Each
type is the last definition of its name, with all that is added to it behind its own parts. -/
structure Describes (schema : Schema) (items : List SchemaItem) : Prop where
  get?_iff : ∀ name d, schema.get? name = some d ↔ d ∈ schema.types ∧ d.name = name
  order : IsFirsts ((allDefinitions items).map TypeDef.name) schema.names
  builtins : BuiltinScalar.all.map BuiltinScalar.name <+: schema.names
  merged : ∀ d ∈ schema.types, ∃ base, lastNamed? (allDefinitions items) d.name = some base ∧
    base.Merges (additionsTo items d.name) d

theorem collects_items (items : List SchemaItem) :
    (items.foldl withItem (ofQuery "Query")).Collects (allDefinitions items) :=
  (Collects.ofQuery "Query").withItems items

/-- Items describe a schema if their extensions can be made. Only the roots are still missing then. -/
theorem ofItems_eq_ok {items : List SchemaItem} {schema : Schema} (h : ofItems items = .ok schema) :
    ∃ extended, (items.filterMap addition?).foldlM extend (items.foldl withItem (ofQuery "Query")) =
        .ok extended ∧
      schema.types = extended.types ∧ schema.positions = extended.positions := by
  obtain ⟨extended, hextended, h⟩ := bind_eq_ok.mp h
  refine ⟨extended, hextended, ?_⟩
  split at h
  · cases h
    exact ⟨rfl, rfl⟩
  · cases h
    exact ⟨rfl, rfl⟩

theorem exists_ofItems_iff (items : List SchemaItem) :
    (∃ schema, ofItems items = .ok schema) ↔
      ∃ extended, (items.filterMap addition?).foldlM extend
        (items.foldl withItem (ofQuery "Query")) = .ok extended := by
  constructor
  · rintro ⟨schema, h⟩
    obtain ⟨extended, hextended, -⟩ := ofItems_eq_ok h
    exact ⟨extended, hextended⟩
  · rintro ⟨extended, hextended⟩
    rw [ofItems, hextended]
    by_cases hroots : items.any namesRoots
    · exact ⟨extended, by simp [hroots, bind, Except.bind]⟩
    · exact ⟨_, by simp only [hroots, bind, Except.bind]; rfl⟩

theorem Collects.mem_outline_iff {ds : List TypeDef} (h : schema.Collects ds) (name kind : String) :
    (name, kind) ∈ schema.outline ↔ ∃ base, lastNamed? ds name = some base ∧ base.kind = kind := by
  rw [outline, List.mem_map]
  constructor
  · rintro ⟨d, hd, heq⟩
    cases heq
    exact ⟨d, (h.mem_iff d).mp hd, rfl⟩
  · rintro ⟨base, hbase, rfl⟩
    have hname : base.name = name := by simpa using List.find?_some hbase
    subst hname
    exact ⟨base, (h.mem_iff base).mpr hbase, rfl⟩

theorem describes_of_ofItems {items : List SchemaItem} (h : ofItems items = .ok schema) :
    schema.Describes items := by
  obtain ⟨extended, hextended, htypes, hpositions⟩ := ofItems_eq_ok h
  have hcollects := collects_items items
  have hby := hcollects.listed.extendedBy_of_foldlM hextended
  have hnames : schema.names = ((allDefinitions items).map TypeDef.name).eraseDups := by
    rw [names, htypes, ← names, ← map_fst_outline, hby.outline, map_fst_outline, hcollects.names_eq]
  have hlisted : schema.Listed := by
    have hlisted := hby.listed hcollects.listed
    refine ⟨?_, ?_⟩
    · rw [names, htypes]
      exact hlisted.nodup
    · rw [hpositions, names, htypes]
      exact hlisted.positions_eq
  refine ⟨fun _ _ => hlisted.get?_iff, ?_, ?_, ?_⟩
  · rw [hnames]
    exact isFirsts_eraseDups _
  · have hdistinct : (builtinDefs.map TypeDef.name).eraseDups =
        BuiltinScalar.all.map BuiltinScalar.name := by decide
    rw [hnames, allDefinitions, List.map_append, List.eraseDups_append, hdistinct]
    exact List.prefix_append _ _
  · intro d hd
    rw [htypes] at hd
    obtain ⟨base, hbase, hextends⟩ := exists_of_mem_right hby.types hd
    have hmerges := Extends.merges hextends
    rw [additionsTo, hmerges.name]
    exact ⟨base, (hcollects.mem_iff base).mp hbase, hmerges⟩

end Schema

/-! ## Moving extensions -/

/-- The moves of extensions that change nothing: past items that are no extensions, and past an extension of
another type. -/
inductive SchemaItem.Moves : List SchemaItem → List SchemaItem → Prop
  | past {addition : TypeDef} (before between after : List SchemaItem)
    (h : ∀ item ∈ between, Schema.addition? item = none) :
    Moves (before ++ .extension addition :: (between ++ after))
      (before ++ (between ++ .extension addition :: after))
  | swap {addition other : TypeDef} (before after : List SchemaItem)
    (h : addition.name ≠ other.name) :
    Moves (before ++ .extension addition :: .extension other :: after)
      (before ++ .extension other :: .extension addition :: after)

namespace Schema

/-- Whether items are the same apart from where extensions of different types stand. -/
structure SameParts (items others : List SchemaItem) : Prop where
  rest : items.filter (fun item => (addition? item).isNone) =
    others.filter fun item => (addition? item).isNone
  additions : ∀ name, additionsTo items name = additionsTo others name

theorem sameParts_of_moves {items others : List SchemaItem} (h : SchemaItem.Moves items others) :
    SameParts items others := by
  cases h with
  | @past addition before between after h =>
    have hnone : between.filterMap addition? = [] := List.filterMap_eq_nil_iff.mpr h
    refine ⟨?_, fun name => ?_⟩
    · simp [List.filter_append, addition?]
    · simp [additionsTo, List.filterMap_append, hnone, addition?]
  | @swap addition other before after h =>
    refine ⟨?_, fun name => ?_⟩
    · simp [List.filter_append, addition?]
    · simp only [additionsTo, List.filterMap_append, List.filter_append, List.filterMap_cons,
        addition?, List.filter_cons]
      by_cases hname : addition.name = name
      · have hother : other.name ≠ name := fun heq => h (hname.trans heq.symm)
        simp [hname, hother]
      · simp [hname]

theorem ofItems_congr {items others : List SchemaItem} {schema : Schema}
    (hsame : SameParts items others)
    (h : ofItems items = .ok schema) : ofItems others = .ok schema := by
  have hfold (items : List SchemaItem) (schema : Schema) : items.foldl withItem schema =
      (items.filter fun item => (addition? item).isNone).foldl withItem schema := by
    rw [List.foldl_filter]
    congr 1
    funext schema item
    cases item <;> rfl
  have hany (items : List SchemaItem) : items.any namesRoots =
      (items.filter fun item => (addition? item).isNone).any namesRoots := by
    rw [List.any_filter]
    congr 1
    funext item
    cases item <;> rfl
  rw [ofItems] at h ⊢
  obtain ⟨extended, hextended, h⟩ := bind_eq_ok.mp h
  rw [hany, hsame.rest, ← hany] at h
  refine bind_eq_ok.mpr ⟨extended, ?_, h⟩
  rw [hfold, ← hsame.rest, ← hfold]
  exact (collects_items items).listed.foldlM_congr (fun name => (hsame.additions name).symm)
    hextended

theorem SameParts.of_eqvGen {items others : List SchemaItem}
    (h : Relation.EqvGen SchemaItem.Moves items others) : SameParts items others := by
  induction h with
  | rel items others h => exact sameParts_of_moves h
  | refl items => exact ⟨rfl, fun _ => rfl⟩
  | symm items others _ ih => exact ⟨ih.rest.symm, fun name => (ih.additions name).symm⟩
  | trans items middle others _ _ ih ih' =>
    exact ⟨ih.rest.trans ih'.rest, fun name => (ih.additions name).trans (ih'.additions name)⟩

/-- Items describe a schema exactly if every extension is of a type that is defined, and of its kind. The
schema has the last definition of each name in the place of the first one, followed by what its extensions
add, in order. Moving extensions past definitions or past extensions of other types changes nothing. -/
theorem ofItems_merges (items : List SchemaItem) :
    ((∃ schema, ofItems items = .ok schema) ↔
      ∀ addition ∈ items.filterMap addition?, ∃ base,
        lastNamed? (allDefinitions items) addition.name = some base ∧ base.kind = addition.kind) ∧
    (∀ schema, ofItems items = .ok schema → schema.Describes items) ∧
    ∀ others, Relation.EqvGen SchemaItem.Moves items others →
      ∀ schema, ofItems items = .ok schema ↔ ofItems others = .ok schema := by
  refine ⟨?_, fun schema h => describes_of_ofItems h, ?_⟩
  · rw [exists_ofItems_iff, (collects_items items).listed.exists_foldlM_iff]
    simp only [(collects_items items).mem_outline_iff]
  · intro others hmoves schema
    exact ⟨ofItems_congr (.of_eqvGen hmoves), ofItems_congr (.of_eqvGen hmoves.symm)⟩

end Schema

namespace Sample

def queryWith (field : String) : TypeDef :=
  .object ⟨"Query", none, [], [fieldDef field (.named "Int")]⟩

def colorWith (value : String) : TypeDef :=
  .enum ⟨"Color", none, [⟨value, none, none⟩]⟩

/-- A type that is extended before it is defined, and an enum that is extended afterwards. -/
def scattered : List SchemaItem :=
  [.extension (queryWith "b"), .definition (queryWith "a"), .definition (colorWith "RED"),
    .extension (colorWith "GREEN")]

/-- The same items with all extensions at the end, in another order. -/
def gathered : List SchemaItem :=
  [.definition (queryWith "a"), .definition (colorWith "RED"), .extension (colorWith "GREEN"),
    .extension (queryWith "b")]

theorem moves_scattered : Relation.EqvGen SchemaItem.Moves scattered gathered := by
  have hpast : SchemaItem.Moves scattered
      [.definition (queryWith "a"), .definition (colorWith "RED"), .extension (queryWith "b"),
        .extension (colorWith "GREEN")] :=
    .past [] [.definition (queryWith "a"), .definition (colorWith "RED")] _
      (by simp [Schema.addition?])
  have hswap : SchemaItem.Moves
      [.definition (queryWith "a"), .definition (colorWith "RED"), .extension (queryWith "b"),
        .extension (colorWith "GREEN")] gathered :=
    .swap [.definition (queryWith "a"), .definition (colorWith "RED")] _ (by decide)
  exact .trans _ _ _ (.rel _ _ hpast) (.rel _ _ hswap)

end Sample

theorem Schema.ofItems_merges_scattered :
    ∃ schema query color, ofItems Sample.scattered = .ok schema ∧
      schema.get? "Query" = some query ∧
      query.fields = [Sample.fieldDef "a" (.named "Int"), Sample.fieldDef "b" (.named "Int")] ∧
      schema.get? "Color" = some color ∧
      color.values.map EnumValue.name = ["RED", "GREEN"] ∧
      ofItems Sample.gathered = .ok schema := by
  obtain ⟨hiff, hdescribes, hmoves⟩ := ofItems_merges Sample.scattered
  obtain ⟨schema, hschema⟩ := hiff.mpr (by
    have hadditions : Sample.scattered.filterMap addition? =
        [Sample.queryWith "b", Sample.colorWith "GREEN"] := rfl
    rw [hadditions, List.forall_mem_cons, List.forall_mem_singleton]
    exact ⟨⟨Sample.queryWith "a", rfl, rfl⟩, Sample.colorWith "RED", rfl, rfl⟩)
  obtain ⟨hget, horder, -, hmerged⟩ := hdescribes schema hschema
  have hfound (name : String) (base : TypeDef)
      (hbase : lastNamed? (allDefinitions Sample.scattered) name = some base)
      (hname : name ∈ (allDefinitions Sample.scattered).map TypeDef.name) : ∃ d,
      schema.get? name = some d ∧ base.Merges (additionsTo Sample.scattered name) d := by
    obtain ⟨d, hd, rfl⟩ := List.mem_map.mp ((horder.mem_iff name).mpr hname)
    obtain ⟨base', hbase', hmerges⟩ := hmerged d hd
    cases hbase.symm.trans hbase'
    exact ⟨d, (hget d.name d).mpr ⟨hd, rfl⟩, hmerges⟩
  obtain ⟨query, hquery, hfields⟩ := hfound "Query" (Sample.queryWith "a") rfl (by decide)
  obtain ⟨color, hcolor, hvalues⟩ := hfound "Color" (Sample.colorWith "RED") rfl (by decide)
  refine ⟨schema, query, color, hschema, hquery, hfields.fields, hcolor, ?_,
    (hmoves _ Sample.moves_scattered schema).mp hschema⟩
  rw [hvalues.values]
  rfl

end ElmBindings
