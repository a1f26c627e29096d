import ElmBindings.Document.Basic

set_option autoImplicit false

/-! # Fragments by name

A `FragmentIndex` holds the fragments of one document, whose names differ. `reachable` follows the
spreads of a selection set through fields, inline fragments and other fragments. -/

namespace ElmBindings

/-! ## The index -/

/-- Fragments with different names, in the order of their definitions. -/
structure FragmentIndex where
  fragments : List Fragment
  nodup : (fragments.map Fragment.name).Nodup

namespace FragmentIndex

/-- The names of the fragments. -/
def names (index : FragmentIndex) : List String := index.fragments.map Fragment.name

/-- The fragment of a name. -/
def get? (index : FragmentIndex) (name : String) : Option Fragment :=
  index.fragments.find? (·.name == name)

/-- Whether there is a fragment of a name. -/
def contains (index : FragmentIndex) (name : String) : Bool := (index.get? name).isSome

/-- The first name that stands in a list a second time. -/
def firstRepeated : List String → List String → Option String
  | _, [] => none
  | seen, name :: names =>
    if name ∈ seen then some name else firstRepeated (name :: seen) names

/-- A list without a repeated name has no duplicates. -/
theorem nodup_of_firstRepeated {seen names : List String} (h : firstRepeated seen names = none) :
    names.Nodup ∧ ∀ name ∈ names, name ∉ seen := by
  induction names generalizing seen with
  | nil => simp
  | cons name names ih =>
    rw [firstRepeated] at h
    split at h
    · cases h
    · next hseen =>
      obtain ⟨hnodup, hnew⟩ := ih h
      refine ⟨List.nodup_cons.mpr ⟨fun hmem => hnew name hmem (by simp), hnodup⟩, ?_⟩
      intro other hother
      rcases List.mem_cons.mp hother with rfl | hmem
      · exact hseen
      · exact fun hs => hnew other hmem (by simp [hs])

/-- The index of a document, or the first name that two of its fragments share. -/
def ofDocument (document : Document) : Except DocumentError FragmentIndex :=
  match h : firstRepeated [] (document.fragments.map Fragment.name) with
  | some name => .error (.duplicateFragment name)
  | none => .ok ⟨document.fragments, (nodup_of_firstRepeated h).1⟩

/-- A fragment that is found is in the index under its own name. -/
theorem get?_eq_some {index : FragmentIndex} {name : String} {f : Fragment}
    (h : index.get? name = some f) : f ∈ index.fragments ∧ f.name = name := by
  rw [get?] at h
  exact ⟨List.mem_of_find?_eq_some h, by simpa using List.find?_some h⟩

/-- The name of a fragment that is found is a name of the index. -/
theorem mem_names_of_get? {index : FragmentIndex} {name : String} {f : Fragment}
    (h : index.get? name = some f) : name ∈ index.names := by
  obtain ⟨hmem, rfl⟩ := get?_eq_some h
  exact List.mem_map_of_mem hmem

/-! ## Names not used yet -/

/-- How many names of the index are not among those given. -/
def unused (index : FragmentIndex) (used : List String) : Nat :=
  (index.names.filter (· ∉ used)).length

/-- Using one more name of the index leaves fewer names unused. -/
theorem unused_cons_lt {index : FragmentIndex} {used : List String} {name : String}
    (hmem : name ∈ index.names) (hnew : name ∉ used) :
    index.unused (name :: used) < index.unused used := by
  have hsplit : index.names.filter (· ∉ name :: used) =
      (index.names.filter (· ∉ used)).filter (· ≠ name) := by
    rw [List.filter_filter]
    refine List.filter_congr fun other _ => ?_
    simp [not_or]
  rw [unused, unused, hsplit]
  have hin : name ∈ index.names.filter (· ∉ used) := by simp [hmem, hnew]
  exact List.length_filter_lt_length_iff_exists.mpr ⟨name, hin, by simp⟩

/-! ## Reachable fragments -/

mutual

/-- The number of selections at all depths. -/
def selectionSize : Selection → Nat
  | .field _ selections => selectionsSize selections + 1
  | .spread .. => 1
  | .inline _ selections _ => selectionsSize selections + 1

/-- The number of selections in a list at all depths. -/
def selectionsSize : List Selection → Nat
  | [] => 0
  | selection :: selections => selectionSize selection + selectionsSize selections

end

/-- The size of two lists of selections one after the other. -/
theorem selectionsSize_append (xs ys : List Selection) :
    selectionsSize (xs ++ ys) = selectionsSize xs + selectionsSize ys := by
  induction xs with
  | nil => simp [selectionsSize]
  | cons x xs ih => simp [selectionsSize, ih]; omega

/-- The names of the fragments met when selections are read from left to right, each followed into its
own selections where it is met for the first time. `seen` holds the names met so far, latest first.
Names without a fragment are passed over. -/
def spreadsFrom (index : FragmentIndex) (seen : List String) : List Selection → List String
  | [] => seen.reverse
  | .field _ inner :: rest => spreadsFrom index seen (inner ++ rest)
  | .inline _ inner _ :: rest => spreadsFrom index seen (inner ++ rest)
  | .spread name _ :: rest =>
    match _found : index.get? name with
    | none => spreadsFrom index seen rest
    | some f =>
      if name ∈ seen then spreadsFrom index seen rest
      else spreadsFrom index (name :: seen) (f.selections ++ rest)
termination_by selections => (index.unused seen, selectionsSize selections)
decreasing_by
  · exact Prod.Lex.right _ (by simp [selectionsSize, selectionSize, selectionsSize_append])
  · exact Prod.Lex.right _ (by simp [selectionsSize, selectionSize, selectionsSize_append])
  · exact Prod.Lex.right _ (by simp [selectionsSize, selectionSize])
  · exact Prod.Lex.right _ (by simp [selectionsSize, selectionSize])
  · exact Prod.Lex.left _ _ (unused_cons_lt (mem_names_of_get? ‹_›) ‹_›)

/-- The fragments that selections spread, directly or through other fragments, in the order of their
first use. -/
def reachable (index : FragmentIndex) (selections : List Selection) : List Fragment :=
  (spreadsFrom index [] selections).filterMap index.get?

end FragmentIndex

end ElmBindings
