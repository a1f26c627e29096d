import ElmBindings.Schema.Basic
import Mathlib

set_option autoImplicit false

/-! # Schemas built type by type

What every schema has that is made by adding types to the built-in scalars. The names of its types
differ, and the index is the one that they determine (`Listed`), so the schema is known from its roots
and its types (`Listed.ext`). Adding its types in order to the built-in scalars therefore makes the
schema once more (`Built.restored`). -/

namespace ElmBindings

namespace Schema

/-- The names of the types, in order. -/
def names (schema : Schema) : List String := schema.types.map TypeDef.name

/-- The roots of the operations. -/
def roots (schema : Schema) : String × Option String × Option String :=
  (schema.queryType, schema.mutationType, schema.subscriptionType)

/-! ## The index -/

/-- Whether no two types have one name, and the index leads from each name to its type. -/
structure Listed (schema : Schema) : Prop where
  nodup : schema.names.Nodup
  positions_eq : schema.positions = schema.names.zipIdx.reverse

theorem lookup_reverse_zipIdx {names : List String} (h : names.Nodup) (name : String) (i : Nat) :
    names.zipIdx.reverse.lookup name = some i ↔ names[i]? = some name := by
  rw [List.lookup_eq_some_iff, ← List.mk_mem_zipIdx_iff_getElem?, ← List.mem_reverse]
  constructor
  · rintro ⟨before, after, heq, -⟩
    rw [heq]
    simp
  · intro hmem
    obtain ⟨before, after, heq⟩ := List.append_of_mem hmem
    have hkeys : ((before ++ (name, i) :: after).map Prod.fst).Nodup := by
      rw [← heq, List.map_reverse, List.zipIdx_map_fst]
      exact List.nodup_reverse.mpr h
    refine ⟨before, after, heq, fun entry hentry => ?_⟩
    rw [List.map_append, List.map_cons, List.nodup_append] at hkeys
    simpa using (hkeys.2.2 _ (List.mem_map_of_mem hentry) name List.mem_cons_self).symm

namespace Listed

variable {schema : Schema}

theorem position?_eq_some (h : schema.Listed) (name : String) (i : Nat) :
    schema.position? name = some i ↔ schema.names[i]? = some name := by
  rw [position?, h.positions_eq, lookup_reverse_zipIdx h.nodup]

theorem position?_eq_none (h : schema.Listed) {name : String} (hname : name ∉ schema.names) :
    schema.position? name = none := by
  cases hposition : schema.position? name with
  | none => rfl
  | some i => exact absurd (List.mem_of_getElem? ((h.position?_eq_some name i).mp hposition)) hname

/-- A schema is known from its roots and its types. -/
theorem ext {other : Schema} (h : schema.Listed) (h' : other.Listed)
    (hroots : schema.roots = other.roots) (htypes : schema.types = other.types) : schema = other := by
  have hpositions : schema.positions = other.positions := by
    rw [h.positions_eq, h'.positions_eq, names, names, htypes]
  cases schema
  cases other
  cases hroots
  cases htypes
  cases hpositions
  rfl

end Listed

/-! ## Adding a type -/

variable {schema : Schema}

/-- A type is put in the place of the one that has its name. -/
theorem Listed.add_known (h : schema.Listed) {d : TypeDef} {i : Nat}
    (hi : schema.names[i]? = some d.name) :
    schema.add d = { schema with types := schema.types.set i d } := by
  rw [add, (h.position?_eq_some d.name i).mpr hi]

/-- A type of a new name is put at the end. -/
theorem Listed.add_new (h : schema.Listed) {d : TypeDef} (hd : d.name ∉ schema.names) :
    schema.add d = { schema with
      types := schema.types ++ [d]
      positions := (d.name, schema.types.length) :: schema.positions } := by
  rw [add, h.position?_eq_none hd]

theorem Listed.withRoots (h : schema.Listed) (mutationType subscriptionType : Option String) :
    Listed { schema with mutationType, subscriptionType } :=
  ⟨h.nodup, h.positions_eq⟩

theorem names_set {d : TypeDef} {i : Nat} (hi : schema.names[i]? = some d.name) :
    (schema.types.set i d).map TypeDef.name = schema.names := by
  rw [List.map_set, ← names]
  obtain ⟨hlt, heq⟩ := List.getElem?_eq_some_iff.mp hi
  rw [← heq, List.set_getElem_self]

theorem Listed.names_add (h : schema.Listed) (d : TypeDef) :
    (schema.add d).names = if d.name ∈ schema.names then schema.names else schema.names ++ [d.name] := by
  split
  · next hd =>
    obtain ⟨i, hi⟩ := List.getElem?_of_mem hd
    rw [h.add_known hi]
    exact names_set hi
  · next hd =>
    rw [h.add_new hd, names, List.map_append]
    rfl

theorem Listed.add (h : schema.Listed) (d : TypeDef) : (schema.add d).Listed := by
  by_cases hd : d.name ∈ schema.names
  · obtain ⟨i, hi⟩ := List.getElem?_of_mem hd
    have hnames : (schema.add d).names = schema.names := by rw [h.names_add, if_pos hd]
    refine ⟨hnames ▸ h.nodup, ?_⟩
    rw [hnames, ← h.positions_eq, h.add_known hi]
  · have hnames : (schema.add d).names = schema.names ++ [d.name] := by rw [h.names_add, if_neg hd]
    constructor
    · rw [hnames, List.nodup_append]
      refine ⟨h.nodup, List.nodup_singleton _, ?_⟩
      rintro name hname other hother rfl
      exact hd (List.mem_singleton.mp hother ▸ hname)
    · rw [hnames, h.add_new hd, h.positions_eq]
      simp [List.zipIdx_append, names]

theorem roots_add (schema : Schema) (d : TypeDef) : (schema.add d).roots = schema.roots := by
  rw [Schema.add]
  split <;> rfl

/-! ## Adding types in order -/

theorem Listed.addAll (h : schema.Listed) (ds : List TypeDef) : (ds.foldl Schema.add schema).Listed := by
  induction ds generalizing schema with
  | nil => exact h
  | cons d ds ih => exact ih (h.add d)

theorem roots_addAll (schema : Schema) (ds : List TypeDef) :
    (ds.foldl Schema.add schema).roots = schema.roots := by
  induction ds generalizing schema with
  | nil => rfl
  | cons d ds ih => rw [List.foldl_cons, ih, roots_add]

/-- Types that are added in order take the places of those that have the first names, one by one, and
the others follow them. -/
theorem Listed.types_addAll (h : schema.Listed) (front back ds : List TypeDef)
    (htypes : schema.types = front ++ back)
    (hback : back.map TypeDef.name <+: ds.map TypeDef.name)
    (hnodup : ((front ++ ds).map TypeDef.name).Nodup) :
    (ds.foldl Schema.add schema).types = front ++ ds := by
  induction ds generalizing schema front back with
  | nil =>
    have hnil : back = [] := List.map_eq_nil_iff.mp (List.prefix_nil.mp hback)
    rw [List.foldl_nil, htypes, hnil]
  | cons d ds ih =>
    rw [List.append_cons] at hnodup ⊢
    -- `back` is what stands at the places that are still to be taken
    cases back with
    | nil =>
      have hd : d.name ∉ schema.names := by
        rw [names, htypes, List.append_nil]
        intro hmem
        rw [List.map_append, List.map_append, List.nodup_append, List.nodup_append] at hnodup
        exact hnodup.1.2.2 _ hmem d.name (by simp) rfl
      refine ih (h.add d) _ [] ?_ List.nil_prefix hnodup
      rw [h.add_new hd, htypes, List.append_nil, List.append_nil]
    | cons b back =>
      obtain ⟨hname, hback⟩ := List.cons_prefix_cons.mp hback
      have hi : schema.names[front.length]? = some d.name := by
        rw [names, htypes, ← hname]
        simp
      refine ih (h.add d) _ back ?_ hback hnodup
      rw [h.add_known hi, htypes]
      simp

/-! ## Built schemas -/

/-- The schemas that are made from the built-in scalars by adding types, none of which belongs to the
introspection system itself. -/
inductive Built : Schema → Prop
  | ofQuery (queryType : String) : Built (.ofQuery queryType)
  | add {schema : Schema} {d : TypeDef} (h : Built schema)
      (hd : "__".toList.isPrefixOf d.name.toList = false) : Built (schema.add d)
  | withRoots {schema : Schema} (h : Built schema) (mutationType subscriptionType : Option String) :
      Built { schema with mutationType, subscriptionType }

theorem listed_empty (queryType : String) : Listed ⟨queryType, none, none, [], []⟩ :=
  ⟨List.nodup_nil, rfl⟩

theorem listed_ofQuery (queryType : String) : (ofQuery queryType).Listed :=
  (listed_empty queryType).addAll _

theorem queryType_ofQuery (queryType : String) : (ofQuery queryType).queryType = queryType := by
  have hroots : (ofQuery queryType).roots = (queryType, none, none) := by rw [ofQuery, roots_addAll]; rfl
  exact congrArg Prod.fst hroots

theorem types_ofQuery (queryType : String) :
    (ofQuery queryType).types = BuiltinScalar.all.map fun s => TypeDef.scalar ⟨s.name, none⟩ :=
  (listed_empty queryType).types_addAll [] [] _ rfl List.nil_prefix (by decide)

theorem names_ofQuery (queryType : String) :
    (ofQuery queryType).names = BuiltinScalar.all.map BuiltinScalar.name := by
  rw [names, types_ofQuery, List.map_map]
  rfl

namespace Built

theorem listed (h : schema.Built) : schema.Listed := by
  induction h with
  | ofQuery queryType => exact listed_ofQuery queryType
  | add _ _ ih => exact ih.add _
  | withRoots _ _ _ ih => exact ih.withRoots _ _

/-- The built-in scalars stay at the front. -/
theorem builtins_prefix (h : schema.Built) :
    BuiltinScalar.all.map BuiltinScalar.name <+: schema.names := by
  induction h with
  | ofQuery queryType => rw [names_ofQuery]
  | @add schema d h _ ih =>
    rw [h.listed.names_add]
    split
    · exact ih
    · exact ih.trans (List.prefix_append _ _)
  | withRoots _ _ _ ih => exact ih

theorem not_reserved (h : schema.Built) :
    ∀ d ∈ schema.types, "__".toList.isPrefixOf d.name.toList = false := by
  induction h with
  | ofQuery queryType =>
    rw [types_ofQuery]
    decide
  | @add schema d h hd ih =>
    intro d' hd'
    rw [Schema.add] at hd'
    split at hd'
    · rcases List.mem_or_eq_of_mem_set hd' with hd' | rfl
      · exact ih d' hd'
      · exact hd
    · rcases List.mem_append.mp hd' with hd' | hd'
      · exact ih d' hd'
      · rwa [List.mem_singleton.mp hd']
  | withRoots _ _ _ ih => exact ih

/-- A schema is made once more from its own types. -/
theorem restored (h : schema.Built) :
    schema.types.foldl Schema.add { Schema.ofQuery schema.queryType with
      mutationType := schema.mutationType
      subscriptionType := schema.subscriptionType } = schema := by
  have hstart := (listed_ofQuery schema.queryType).withRoots schema.mutationType schema.subscriptionType
  refine (hstart.addAll schema.types).ext h.listed ?_ ?_
  · rw [roots_addAll, roots, roots, queryType_ofQuery]
  · refine hstart.types_addAll [] _ schema.types rfl ?_ h.listed.nodup
    exact (names_ofQuery schema.queryType).symm ▸ h.builtins_prefix

end Built

end Schema

end ElmBindings
