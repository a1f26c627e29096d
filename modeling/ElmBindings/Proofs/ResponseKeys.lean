import ElmBindings.Proofs.Flattening

set_option autoImplicit false

/-! # Response keys and record keys

The fields of an answer are told apart by their response keys, those of an Elm record by the Elm names
of these keys. Of the fields with one Elm name a shape keeps the first, so it has an entry for each
response key exactly if no two of the keys have one Elm name (`hasKeysOf_iff`). Which keys do is a
matter of names alone (`valueName_eq_iff`): `id` and `_id`, `id` and `Id`, `type` and `type_`. -/

namespace ElmBindings

/-! ## Names that become one -/

namespace Naming

/-- A name without leading underscores and with its first letter lowered. -/
def stem (s : String) : String := lowerFirst (String.ofList (s.toList.dropWhile (· == '_')))

/-- A stem made acceptable as the name of a value. -/
def guarded (name : String) : String :=
  if name = "" then "x"
  else if name ∈ reservedWords then name ++ "_"
  else name

theorem valueName_eq_guarded (s : String) : valueName s = guarded (stem s) := rfl

/-- Whether a stem is not acceptable, and what it becomes. -/
def Escapes (name result : String) : Prop :=
  name = "" ∧ result = "x" ∨ name ∈ reservedWords ∧ result = name ++ "_"

instance (name result : String) : Decidable (Escapes name result) :=
  inferInstanceAs (Decidable (_ ∨ _))

theorem escapes_or_guarded_eq (name : String) :
    Escapes name (guarded name) ∨ guarded name = name := by
  rw [guarded]
  split
  · next hempty => exact .inl (.inl ⟨hempty, rfl⟩)
  · split
    · next hreserved => exact .inl (.inr ⟨hreserved, rfl⟩)
    · exact .inr rfl

/-- A reserved word with an underscore is neither reserved nor the name that stands for no name. -/
theorem reserved_append : ∀ word ∈ reservedWords,
    word ≠ "" ∧ word ++ "_" ≠ "" ∧ word ++ "_" ≠ "x" ∧ word ++ "_" ∉ reservedWords := by decide

theorem Escapes.guarded_eq {name result : String} (h : Escapes name result) :
    guarded name = result ∧ guarded result = result := by
  rcases h with ⟨rfl, rfl⟩ | ⟨hreserved, rfl⟩
  · exact ⟨by decide, by decide⟩
  · obtain ⟨hname, hempty, -, hresult⟩ := reserved_append name hreserved
    simp [guarded, hname, hreserved, hempty, hresult]

theorem Escapes.inj {a b result : String} (ha : Escapes a result) (hb : Escapes b result) :
    a = b := by
  rcases ha with ⟨rfl, rfl⟩ | ⟨hreserved, rfl⟩
  · rcases hb with ⟨rfl, -⟩ | ⟨hreserved, hx⟩
    · rfl
    · exact absurd hx.symm (reserved_append b hreserved).2.2.1
  · rcases hb with ⟨-, hx⟩ | ⟨-, heq⟩
    · exact absurd hx (reserved_append a hreserved).2.2.1
    · exact (String.append_left_inj _).mp heq

/-- Whether two names become one though they differ: they have one stem, or the stem of one is what that
of the other becomes. -/
def Collide (a b : String) : Prop :=
  a ≠ b ∧ (stem a = stem b ∨ Escapes (stem a) (stem b) ∨ Escapes (stem b) (stem a))

instance (a b : String) : Decidable (Collide a b) := inferInstanceAs (Decidable (_ ∧ _))

theorem valueName_eq_iff {a b : String} : valueName a = valueName b ↔ a = b ∨ Collide a b := by
  rw [valueName_eq_guarded, valueName_eq_guarded]
  constructor
  · intro heq
    refine Classical.or_iff_not_imp_left.mpr fun hne => ⟨hne, ?_⟩
    rcases escapes_or_guarded_eq (stem a) with ha | ha
    · rw [heq] at ha
      rcases escapes_or_guarded_eq (stem b) with hb | hb
      · exact .inl (ha.inj hb)
      · rw [hb] at ha
        exact .inr (.inl ha)
    · rw [ha] at heq
      rcases escapes_or_guarded_eq (stem b) with hb | hb
      · rw [← heq] at hb
        exact .inr (.inr hb)
      · exact .inl (heq.trans hb)
  · rintro (rfl | ⟨-, hstem | hescapes | hescapes⟩)
    · rfl
    · rw [hstem]
    · rw [hescapes.guarded_eq.1, hescapes.guarded_eq.2]
    · rw [hescapes.guarded_eq.1, hescapes.guarded_eq.2]

/-- Names that do not collide are told apart by their Elm names. -/
theorem valueName_injOn {names : List String} :
    (∀ a ∈ names, ∀ b ∈ names, valueName a = valueName b → a = b) ↔
      ∀ a ∈ names, ∀ b ∈ names, ¬ Collide a b := by
  constructor
  · intro hinj a ha b hb hcollide
    exact hcollide.1 (hinj a ha b hb (valueName_eq_iff.mpr (.inr hcollide)))
  · intro hnone a ha b hb heq
    exact (valueName_eq_iff.mp heq).resolve_right (hnone a ha b hb)

end Naming

/-- First occurrences stay first under a map that tells the members of the list apart. -/
theorem eraseDups_map {α β : Type} [DecidableEq α] [DecidableEq β] {f : α → β} {xs : List α}
    (h : ∀ x ∈ xs, ∀ y ∈ xs, f x = f y → x = y) : (xs.map f).eraseDups = xs.eraseDups.map f := by
  match xs, h with
  | [], _ => rfl
  | x :: xs, h =>
    have htail (y : α) (hy : y ∈ xs) : y ∈ x :: xs := List.mem_cons_of_mem _ hy
    have hfilter : (xs.map f).filter (fun z => !z == f x) = (xs.filter fun y => !y == x).map f := by
      rw [List.filter_map]
      refine congrArg (List.map f) (List.filter_congr fun y hy => ?_)
      have hxy : f y = f x ↔ y = x := ⟨h y (htail y hy) x List.mem_cons_self, congrArg f⟩
      simp [hxy, beq_eq_decide]
    have hrest : ((xs.filter fun y => !y == x).map f).eraseDups =
        (xs.filter fun y => !y == x).eraseDups.map f :=
      eraseDups_map fun y hy z hz =>
        h y (htail y (List.mem_of_mem_filter hy)) z (htail z (List.mem_of_mem_filter hz))
    rw [List.map_cons, List.eraseDups_cons, List.eraseDups_cons, hfilter, hrest, List.map_cons]
termination_by xs.length
decreasing_by
  have := List.length_filter_le (fun y => !y == x) xs
  rw [List.length_cons]
  omega

/-! ## Entries and response keys -/

/-- The response keys of fields, each once, in the order of the fields. -/
def responseKeys (fields : List Selected) : List String :=
  (fields.map (·.field.responseKey)).eraseDups

theorem mem_responseKeys {fields : List Selected} {key : String} :
    key ∈ responseKeys fields ↔ ∃ s ∈ fields, s.field.responseKey = key := by
  rw [responseKeys, List.mem_eraseDups, List.mem_map]

/-- Whether a shape has one entry for each response key of the fields and no other, in order, and the
entry is that of a field that has the key. -/
def Shape.HasKeysOf (schema : Schema) (index : FragmentIndex) (fields : List Selected)
    (shape : Shape) : Prop :=
  List.Forall₂ (fun key entry =>
    ∃ s ∈ fields, s.field.responseKey = key ∧ s.IsEntry schema index entry)
    (responseKeys fields) shape.entries

section

variable {schema : Schema} {index : FragmentIndex} {chain : List String} {parent : ObjectDef}
  {selections : List Selection} {fields : List Selected} {shape : Shape}

theorem map_name_eq (fields : List Selected) :
    fields.map Selected.name = (fields.map (·.field.responseKey)).map Naming.valueName := by
  rw [List.map_map]
  refine List.map_congr_left fun s _ => ?_
  rw [Selected.name, Function.comp_apply]

/-- The names of a shape are the Elm names of the response keys, each once. -/
theorem Flattens.names_eq (hflat : Flattens schema index chain parent selections fields)
    (h : expand schema index chain parent {} selections = .ok shape) :
    shape.names = ((fields.map (·.field.responseKey)).map Naming.valueName).eraseDups ∧
      shape.names.Nodup := by
  have hnames : shape.names = (firsts [] fields).map Selected.name := by
    rw [hflat.unique (flattens_of_expand h)]
    exact names_of_isEntry (expand_selected h)
  constructor
  · rw [hnames, map_name_firsts, map_name_eq]
    simp [List.removeAll]
  · rw [hnames]
    exact nodup_firsts [] fields

/-- An entry of a shape is that of a field. -/
theorem Flattens.exists_field (hflat : Flattens schema index chain parent selections fields)
    (h : expand schema index chain parent {} selections = .ok shape) {entry : ShapeEntry}
    (hentry : entry ∈ shape.entries) : ∃ s ∈ fields, s.IsEntry schema index entry := by
  obtain ⟨s, hs, hmade⟩ := exists_of_mem_right (expand_selected h) hentry
  rw [hflat.unique (flattens_of_expand h)]
  exact ⟨s, mem_flatten_of_mem_selected hs, hmade⟩

/-- A shape that has the keys of the fields has their Elm names in this order. -/
theorem Shape.HasKeysOf.names_eq (h : shape.HasKeysOf schema index fields) :
    shape.names = (responseKeys fields).map Naming.valueName := by
  rw [Shape.names, eq_comm, ← List.forall₂_eq_eq_eq, List.forall₂_map_left_iff,
    List.forall₂_map_right_iff]
  refine h.imp fun key entry => ?_
  rintro ⟨s, -, rfl, hentry⟩
  rw [hentry.name_eq, Selected.name]

theorem Flattens.hasKeysOf (hflat : Flattens schema index chain parent selections fields)
    (h : expand schema index chain parent {} selections = .ok shape)
    (hinj : ∀ a ∈ responseKeys fields, ∀ b ∈ responseKeys fields,
      Naming.valueName a = Naming.valueName b → a = b) : shape.HasKeysOf schema index fields := by
  have hnames : (responseKeys fields).map Naming.valueName = shape.entries.map ShapeEntry.name := by
    rw [responseKeys, ← eraseDups_map, ← (hflat.names_eq h).1, Shape.names]
    intro a ha b hb
    exact hinj a (List.mem_eraseDups.mpr ha) b (List.mem_eraseDups.mpr hb)
  rw [← List.forall₂_eq_eq_eq, List.forall₂_map_left_iff, List.forall₂_map_right_iff] at hnames
  rw [List.forall₂_iff_zip] at hnames
  refine List.forall₂_iff_zip.mpr ⟨hnames.1, fun {key entry} hpair => ?_⟩
  -- the entry at the place of a key is made from some field, which has the Elm name of the key
  obtain ⟨hkey, hentry⟩ := List.of_mem_zip hpair
  obtain ⟨s, hs, hmade⟩ := hflat.exists_field h hentry
  refine ⟨s, hs, hinj _ (mem_responseKeys.mpr ⟨s, hs, rfl⟩) key hkey ?_, hmade⟩
  rw [hnames.2 hpair, hmade.name_eq, Selected.name]

end

/-- A shape has one entry for each response key exactly if no two keys of its fields collide. -/
theorem hasKeysOf_iff {schema : Schema} {index : FragmentIndex} {chain : List String}
    {parent : ObjectDef} {selections : List Selection} {shape : Shape}
    (h : expand schema index chain parent {} selections = .ok shape) :
    ∃ fields, Flattens schema index chain parent selections fields ∧
      (∀ other, Flattens schema index chain parent selections other → other = fields) ∧
      (shape.HasKeysOf schema index fields ↔
        ∀ a ∈ responseKeys fields, ∀ b ∈ responseKeys fields, ¬ Naming.Collide a b) := by
  have hflat := flattens_of_expand h
  refine ⟨_, hflat, fun other hother => hother.unique hflat, ?_⟩
  rw [← Naming.valueName_injOn]
  constructor
  · intro hkeys
    have hnodup := (hflat.names_eq h).2
    rw [hkeys.names_eq] at hnodup
    exact fun a ha b hb => List.inj_on_of_nodup_map hnodup ha hb
  · exact hflat.hasKeysOf h

namespace Sample

-- names are evaluated, not unfolded
attribute [local irreducible] Naming.valueName

/-- A type with an identifier and a name. -/
def userType : ObjectDef :=
  ⟨"User", none, [], [fieldDef "id" (.nonNull (.named "ID")), fieldDef "name" (.named "String")]⟩

/-- The identifier, and the name under the key `_id`. -/
def underscored : List Selection :=
  [select "id" [], .field ⟨some "_id", "name", [], false, .start⟩ []]

/-- The fields of these selections. -/
def underscoredFields : List Selected :=
  [⟨userType, ⟨none, "id", [], false, .start⟩, [], []⟩,
    ⟨userType, ⟨some "_id", "name", [], false, .start⟩, [], []⟩]

theorem flattens_underscored :
    Flattens schema peopleIndex [] userType underscored underscoredFields := .field (.field .nil)

theorem expand_underscored :
    ∃ shape, expand schema peopleIndex [] userType {} underscored = .ok shape :=
  exists_eq_ok (by cbv)

end Sample

/-- Of three fields, two have one response key, and the other key does not collide with it. -/
theorem hasKeysOf_iff_twice :
    expand Sample.schema Sample.peopleIndex [] Sample.queryType {} Sample.twice =
        .ok Sample.twiceShape ∧
      ∃ fields, Flattens Sample.schema Sample.peopleIndex [] Sample.queryType Sample.twice fields ∧
        responseKeys fields = ["__typename", "user"] ∧
        Sample.twiceShape.HasKeysOf Sample.schema Sample.peopleIndex fields := by
  obtain ⟨fields, hflat, hunique, hiff⟩ := hasKeysOf_iff Sample.expand_twice
  have hkeys : responseKeys fields = ["__typename", "user"] := by
    rw [← hunique _ Sample.flattens_twice]
    decide
  refine ⟨Sample.expand_twice, fields, hflat, hkeys, hiff.mpr ?_⟩
  rw [hkeys]
  decide

/-- The keys `id` and `_id` have one entry between them. -/
theorem not_hasKeysOf :
    ∃ shape, expand Sample.schema Sample.peopleIndex [] Sample.userType {} Sample.underscored =
        .ok shape ∧
      Flattens Sample.schema Sample.peopleIndex [] Sample.userType Sample.underscored
        Sample.underscoredFields ∧
      responseKeys Sample.underscoredFields = ["id", "_id"] ∧ shape.names = ["id"] ∧
      ¬ shape.HasKeysOf Sample.schema Sample.peopleIndex Sample.underscoredFields := by
  obtain ⟨shape, h⟩ := Sample.expand_underscored
  have hkeys : responseKeys Sample.underscoredFields = ["id", "_id"] := by decide
  have hnames : shape.names = ["id"] := by
    rw [(Sample.flattens_underscored.names_eq h).1]
    decide
  refine ⟨shape, h, Sample.flattens_underscored, hkeys, hnames, fun hall => ?_⟩
  have heq := hall.names_eq
  rw [hnames, hkeys] at heq
  cases heq

end ElmBindings
