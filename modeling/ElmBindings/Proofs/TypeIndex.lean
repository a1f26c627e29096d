import ElmBindings.Proofs.Decoding
import ElmBindings.Proofs.Extensions

set_option autoImplicit false

/-! # The index of the types

A schema finds a definition through a list of places beside the list of definitions, and the two can be
changed apart: a definition can be pushed where no name leads to it, or written over one of another name.
Whatever is done, every place stays one of the list (`InRange.edits`), so that a name either leads to a
definition or nowhere (`InRange.leads`). As long as definitions are only added, or changed under their
own name, more is true: the schema collects what was written (`Collects.edits`), of which each name leads to
the latest definition, at the place of the first one. -/

namespace ElmBindings.Schema

variable {schema : Schema}

/-! ## Operations -/

/-- An operation on the types of a schema. -/
inductive Edit
  | add (d : TypeDef)
  | push (d : TypeDef)
  /-- Writes over the definition that a name leads to, if it leads to one. -/
  | overwrite (name : String) (d : TypeDef)
  | reindex
  | lookUp (name : String)

/-- The schema after an operation. -/
def edit (schema : Schema) : Edit → Schema
  | .add d => schema.add d
  | .push d => schema.push d
  | .overwrite name d => (schema.replace? name d).getD schema
  | .reindex => schema.reindex
  | .lookUp _ => schema

/-- The schema after operations, one after the other. -/
def edits (schema : Schema) (es : List Edit) : Schema := es.foldl edit schema

/-! ## Places in range -/

/-- Whether every place of the index is one of the list of types. -/
def InRange (schema : Schema) : Prop :=
  ∀ entry ∈ schema.positions, entry.2 < schema.types.length

theorem Listed.inRange (h : schema.Listed) : schema.InRange := by
  intro entry hentry
  rw [h.positions_eq, List.mem_reverse] at hentry
  simpa [names] using List.snd_lt_of_mem_zipIdx hentry

theorem inRange_reindex (schema : Schema) : schema.reindex.InRange := by
  intro entry hentry
  rw [reindex, List.mem_reverse, List.mem_map] at hentry
  obtain ⟨place, hplace, rfl⟩ := hentry
  simpa [reindex] using List.snd_lt_of_mem_zipIdx hplace

namespace InRange

/-- No operation leaves a place behind that the list does not have. -/
theorem edit (h : schema.InRange) (e : Edit) : (schema.edit e).InRange := by
  cases e with
  | add d =>
    rw [Schema.edit, Schema.add]
    split
    · simpa [InRange] using h
    · intro entry hentry
      rcases List.mem_cons.mp hentry with rfl | hold
      · simp
      · have hlt := h entry hold
        simp only [List.length_append, List.length_singleton]
        omega
  | push d =>
    intro entry hentry
    have hlt := h entry hentry
    simp only [Schema.edit, Schema.push, List.length_append, List.length_singleton]
    omega
  | overwrite name d =>
    rw [Schema.edit, replace?]
    cases schema.position? name with
    | none => exact h
    | some i => simpa [InRange] using h
  | reindex => exact inRange_reindex schema
  | lookUp name => exact h

theorem edits (h : schema.InRange) (es : List Edit) : (schema.edits es).InRange := by
  induction es generalizing schema with
  | nil => exact h
  | cons e es ih => exact ih (h.edit e)

theorem position?_lt (h : schema.InRange) {name : String} {i : Nat}
    (hi : schema.position? name = some i) : i < schema.types.length :=
  h _ (mem_of_lookup hi)

end InRange

/-- What a name comes to. Either it leads to a definition, which is found, and whose place is the one that
an overwrite or an addition of the name writes to; or it leads nowhere, and an addition goes to the end. -/
inductive Leads (schema : Schema) (name : String) : Prop
  | found (before after : List TypeDef) (d : TypeDef)
      (types_eq : schema.types = before ++ d :: after)
      (position_eq : schema.position? name = some before.length)
      (get_eq : schema.get? name = some d)
      (replace_eq : ∀ new,
        schema.replace? name new = some { schema with types := before ++ new :: after })
      (add_eq : ∀ new : TypeDef, new.name = name →
        schema.add new = { schema with types := before ++ new :: after })
  | unknown
      (position_eq : schema.position? name = none)
      (get_eq : schema.get? name = none)
      (replace_eq : ∀ new, schema.replace? name new = none)
      (add_eq : ∀ new : TypeDef, new.name = name → schema.add new =
        { schema with
          types := schema.types ++ [new]
          positions := (name, schema.types.length) :: schema.positions })

theorem InRange.leads (h : schema.InRange) (name : String) : schema.Leads name := by
  cases hposition : schema.position? name with
  | none =>
    refine .unknown hposition (by rw [get?, hposition]; rfl)
      (fun new => by rw [replace?, hposition]; rfl) ?_
    rintro new rfl
    rw [Schema.add, hposition]
  | some i =>
    have hlt := h.position?_lt hposition
    have htypes : schema.types = schema.types.take i ++ schema.types[i] :: schema.types.drop (i + 1) := by
      rw [List.getElem_cons_drop, List.take_append_drop]
    have hlength : (schema.types.take i).length = i := List.length_take_of_le hlt.le
    refine .found (schema.types.take i) (schema.types.drop (i + 1)) schema.types[i] htypes
      (by rw [hposition, hlength]) ?_ ?_ ?_
    · rw [get?, hposition, Option.bind_some, List.getElem?_eq_getElem hlt]
    · intro new
      rw [replace?, hposition, Option.map_some, List.set_eq_take_append_cons_drop, if_pos hlt]
    · rintro new rfl
      rw [Schema.add, hposition]
      simp only [List.set_eq_take_append_cons_drop, if_pos hlt]

/-! ## Indexing anew -/

theorem lookup_zipIdx_reverse (ds : List TypeDef) (name : String) :
    ((ds.zipIdx.map fun entry => (entry.1.name, entry.2)).reverse.lookup name).bind (ds[·]?) =
      lastNamed? ds name := by
  induction ds using List.reverseRecOn with
  | nil => rfl
  | append_singleton ds d ih =>
    have hlast : ((ds ++ [d]).zipIdx.map fun entry => (entry.1.name, entry.2)).reverse =
        (d.name, ds.length) ::
          (ds.zipIdx.map fun entry => (entry.1.name, entry.2)).reverse := by
      simp [List.zipIdx_append]
    rw [lastNamed?_append_singleton, hlast, List.lookup_cons, ← ih]
    by_cases hname : d.name = name
    · simp [hname]
    · rw [if_neg hname, beq_eq_false_iff_ne.mpr (Ne.symm hname)]
      -- the places of the other definitions are before the last one
      refine Option.bind_congr fun i hi => ?_
      obtain ⟨entry, hentry, heq⟩ := List.mem_map.mp (List.mem_reverse.mp (mem_of_lookup hi))
      cases heq
      have hlt : entry.2 < ds.length := by simpa using List.snd_lt_of_mem_zipIdx hentry
      exact List.getElem?_append_left hlt

/-- A new index leads to the last definition of each name. -/
theorem get?_reindex (schema : Schema) (name : String) :
    schema.reindex.get? name = lastNamed? schema.types name :=
  lookup_zipIdx_reverse schema.types name

theorem Listed.reindex_eq (h : schema.Listed) : schema.reindex = schema := by
  have hpositions : schema.reindex.positions = schema.positions := by
    rw [h.positions_eq, names, List.zipIdx_map]
    rfl
  exact Listed.ext ⟨h.nodup, hpositions.trans h.positions_eq⟩ h rfl rfl

/-! ## What was written -/

/-- Whether an operation leaves every name where it is: it may add a definition, or write over one of the
same name. -/
def Edit.Preserves (schema : Schema) : Edit → Prop
  | .push _ => False
  | .overwrite name d => ∀ old ∈ schema.get? name, d.name = old.name
  | _ => True

/-- The definition that an operation writes by name. -/
def Edit.written (schema : Schema) : Edit → List TypeDef
  | .add d => [d]
  | .overwrite name d => if schema.contains name then [d] else []
  | _ => []

/-- Whether every one of some operations leaves the names where they are. -/
def AllPreserve : Schema → List Edit → Prop
  | _, [] => True
  | schema, e :: es => e.Preserves schema ∧ AllPreserve (schema.edit e) es

/-- The definitions that operations write by name, in order. -/
def log : Schema → List Edit → List TypeDef
  | _, [] => []
  | schema, e :: es => e.written schema ++ log (schema.edit e) es

/-- To write over a definition under its own name is to add the new one. -/
theorem Listed.replace?_eq_add (h : schema.Listed) {name : String} {d : TypeDef}
    (hknown : schema.contains name = true)
    (hname : ∀ old ∈ schema.get? name, d.name = old.name) :
    schema.replace? name d = some (schema.add d) := by
  cases h.inRange.leads name with
  | found before after old _ _ hget hreplace hadd =>
    have hsame : d.name = name := (hname old hget).trans (h.indexed.name_eq hget)
    rw [hreplace, hadd d hsame]
  | unknown hposition _ _ _ =>
    rw [contains, hposition] at hknown
    cases hknown

namespace Collects

variable {ds : List TypeDef}

theorem edit (h : schema.Collects ds) {e : Edit} (he : e.Preserves schema) :
    (schema.edit e).Collects (ds ++ e.written schema) := by
  cases e with
  | add d => exact h.add d
  | push d => exact he.elim
  | overwrite name d =>
    rw [Schema.edit, Edit.written]
    by_cases hknown : schema.contains name = true
    · rw [if_pos hknown, h.listed.replace?_eq_add hknown he]
      exact h.add d
    · have hnone : schema.position? name = none := by simpa [contains] using hknown
      rw [if_neg hknown, replace?, hnone, List.append_nil]
      exact h
  | reindex =>
    rw [Schema.edit, h.listed.reindex_eq]
    simpa [Edit.written] using h
  | lookUp name => simpa [Schema.edit, Edit.written] using h

theorem edits (h : schema.Collects ds) {es : List Edit} (hes : AllPreserve schema es) :
    (schema.edits es).Collects (ds ++ log schema es) := by
  induction es generalizing schema ds with
  | nil => simpa [Schema.edits, log] using h
  | cons e es ih =>
    rw [log, ← List.append_assoc]
    exact ih (h.edit hes.1) hes.2

theorem get?_eq (h : schema.Collects ds) (name : String) : schema.get? name = lastNamed? ds name := by
  ext d
  rw [h.listed.get?_iff, h.mem_iff]
  constructor
  · rintro ⟨hd, rfl⟩
    exact hd
  · intro hd
    have hname : d.name = name := by simpa using List.find?_some hd
    subst hname
    exact ⟨hd, rfl⟩

/-- A name that is new stands behind all names that were written before. -/
theorem position?_eq (h : schema.Collects ds) {before after : List TypeDef} {d : TypeDef}
    (hds : ds = before ++ d :: after) (hnew : d.name ∉ before.map TypeDef.name) :
    schema.position? d.name = some (before.map TypeDef.name).eraseDups.length := by
  have hrest : (d.name :: after.map TypeDef.name).removeAll (before.map TypeDef.name) =
      d.name :: (after.map TypeDef.name).removeAll (before.map TypeDef.name) := by
    rw [List.removeAll, List.filter_cons_of_pos (by simpa using hnew)]
    rfl
  rw [h.listed.position?_eq_some, h.names_eq, hds, List.map_append, List.map_cons,
    List.eraseDups_append, hrest, List.eraseDups_cons]
  simp

end Collects

/-- Whether a schema is a faithful record of definitions that were written: no two of its types have one
name, a name leads to the definition that was written last, at the place that it had when it was new, and
the index is the one that the types determine. -/
structure Records (schema : Schema) (ds : List TypeDef) : Prop where
  nodup : schema.names.Nodup
  get?_eq : ∀ name, schema.get? name = lastNamed? ds name
  position?_eq : ∀ before d after, ds = before ++ d :: after → d.name ∉ before.map TypeDef.name →
    schema.position? d.name = some (before.map TypeDef.name).eraseDups.length
  reindex_eq : schema.reindex = schema

theorem Collects.records {ds : List TypeDef} (h : schema.Collects ds) : schema.Records ds :=
  ⟨h.listed.nodup, h.get?_eq, fun _ _ _ => h.position?_eq, h.listed.reindex_eq⟩

/-! ## Every run -/

/-- Whatever is done to a new schema, its index stays in range, and every name leads to a definition or
nowhere. If definitions are only added, or changed under their own name, the schema is a faithful record of
them. In any state a new index leads to the last definition of each name. -/
theorem index_faithful (queryType : String) :
    (∀ es, ((ofQuery queryType).edits es).InRange ∧
      ∀ name, ((ofQuery queryType).edits es).Leads name) ∧
    (∀ es, AllPreserve (ofQuery queryType) es →
      ((ofQuery queryType).edits es).Records (builtinDefs ++ log (ofQuery queryType) es)) ∧
    ∀ (schema : Schema) (name : String),
      schema.reindex.get? name = lastNamed? schema.types name := by
  refine ⟨fun es => ?_, fun es hes => ?_, get?_reindex⟩
  · have hrange := (listed_ofQuery queryType).inRange.edits es
    exact ⟨hrange, hrange.leads⟩
  · exact ((Collects.ofQuery queryType).edits hes).records

end ElmBindings.Schema

namespace ElmBindings

namespace Sample

/-- A type is added, changed in place and added again. Nothing is written under a name that is not there. -/
def preserving : List Schema.Edit :=
  [.add (queryWith "a"), .overwrite "Query" (queryWith "b"), .add (colorWith "RED"),
    .overwrite "Missing" (colorWith "GREEN"), .add (queryWith "c"), .lookUp "Query"]

theorem allPreserve_preserving : Schema.AllPreserve (.ofQuery "Query") preserving := by
  refine ⟨trivial, ?_, trivial, ?_, trivial, trivial, trivial⟩
  · rintro old hold
    cases hold
    rfl
  · rintro old hold
    cases hold

/-- The name of a type is taken away from it, and a definition is pushed past the index. -/
def displacing : List Schema.Edit :=
  [.add (queryWith "a"), .overwrite "Query" (colorWith "RED"), .push (colorWith "GREEN"),
    .add (queryWith "b"), .push (queryWith "c")]

end Sample

theorem Schema.index_faithful_query :
    AllPreserve (ofQuery "Query") Sample.preserving ∧
    ((ofQuery "Query").edits Sample.preserving).get? "Query" = some (Sample.queryWith "c") ∧
    ((ofQuery "Query").edits Sample.preserving).position? "Query" = some 5 ∧
    ((ofQuery "Query").edits Sample.displacing).InRange ∧
    ((ofQuery "Query").edits Sample.displacing).reindex.get? "Query" = some (Sample.queryWith "c") := by
  obtain ⟨hrange, hrecords, hreindex⟩ := index_faithful "Query"
  have hrecords := hrecords Sample.preserving Sample.allPreserve_preserving
  refine ⟨Sample.allPreserve_preserving, hrecords.get?_eq "Query", ?_,
    (hrange Sample.displacing).1, hreindex _ "Query"⟩
  exact hrecords.position?_eq builtinDefs (Sample.queryWith "a")
    [Sample.queryWith "b", Sample.colorWith "RED", Sample.queryWith "c"] rfl (by decide)

end ElmBindings
