import ElmBindings.Proofs.Paths

set_option autoImplicit false

/-! # File names without their extension

A path ends in a segment that counts, and a trail of slashes and dots that does not (`Path.Ends`). Cutting
the extension off a path cuts it off that segment and leaves the names before it as they are
(`Ends.names_withExtension`), so that the names left are those of the path up to the last dot of the segment
(`exists_withoutExtension`). -/

namespace ElmBindings.Path

/-! ## Names of a path -/

/-- Whether a segment is a name. -/
def isNormal (segment : String) : Bool := segment ≠ "" && segment ≠ "." && segment ≠ ".."

theorem names_eq_filter (path : String) : names path = (segments path).filter isNormal := by
  rw [names, components, List.filterMap_append, List.filterMap_filterMap,
    ← List.nil_append (List.filter _ _), ← List.filterMap_eq_filter]
  congr 1
  · split_ifs <;> rfl
  · refine List.filterMap_congr fun segment _ => ?_
    unfold Component.ofSegment?
    split
    · rfl
    · rfl
    · rfl
    · next hempty hcurrent hparent =>
      simpa [Option.guard, isNormal] using ⟨hempty, hcurrent, hparent⟩

theorem names_empty : names (String.ofList []) = [] := by rfl

theorem names_append (xs ys : List Char) :
    names (String.ofList (xs ++ '/' :: ys)) = names (String.ofList xs) ++ names (String.ofList ys) := by
  simp only [names_eq_filter, segments, String.toList_ofList]
  rw [Text.runsBetween_append _ _ (by rfl), List.map_append, List.filter_append]

/-- What stands before a slash has names of its own. -/
theorem names_directory {before : List Char} (h : ∀ c ∈ before.getLast?, c = '/') (rest : List Char) :
    names (String.ofList (before ++ rest)) =
      names (String.ofList before) ++ names (String.ofList rest) := by
  rcases List.eq_nil_or_concat' before with rfl | ⟨front, c, rfl⟩
  · rw [List.nil_append, names_empty, List.nil_append]
  · obtain rfl : c = '/' := h c (by simp)
    rw [List.append_assoc, List.singleton_append, names_append, names_append, names_empty,
      List.append_nil]

/-! ## Trails -/

/-- Whether the end of a path does not count: slashes, with a dot or nothing behind each. -/
inductive IsTrail : List Char → Prop
  | nil : IsTrail []
  | slash {trail : List Char} (h : IsTrail trail) : IsTrail (trail ++ ['/'])
  | dot {trail : List Char} (h : IsTrail trail) : IsTrail (trail ++ ['/', '.'])

namespace IsTrail

variable {trail : List Char}

theorem names_append_trail (h : IsTrail trail) (path : List Char) :
    names (String.ofList (path ++ trail)) = names (String.ofList path) := by
  induction h with
  | nil => rw [List.append_nil]
  | slash _ ih => rw [← List.append_assoc, names_append, names_empty, List.append_nil, ih]
  | dot _ ih =>
    have hdot : names (String.ofList ['.']) = [] := by rfl
    rw [← List.append_assoc, names_append, hdot, List.append_nil, ih]

theorem withoutTrail_append_trail (h : IsTrail trail) (path : List Char) :
    withoutTrail (path ++ trail).reverse = withoutTrail path.reverse := by
  induction h with
  | nil => rw [List.append_nil]
  | slash _ ih =>
    rw [← List.append_assoc, List.reverse_append, List.reverse_singleton, List.singleton_append,
      withoutTrail, ih]
  | @dot trail _ ih =>
    have hreverse : (path ++ (trail ++ ['/', '.'])).reverse = '.' :: '/' :: (path ++ trail).reverse := by
      simp
    rw [hreverse, withoutTrail, ih]

theorem take (h : IsTrail trail) (n : Nat) : IsTrail (trail.take n) := by
  induction h with
  | nil => simpa using nil
  | @slash trail h ih =>
    rw [List.take_append]
    rcases Nat.eq_zero_or_pos (n - trail.length) with hn | hn
    · simpa [hn] using ih
    · rw [List.take_of_length_le (by omega), List.take_of_length_le (by rw [List.length_singleton]; omega)]
      exact h.slash
  | @dot trail h ih =>
    rw [List.take_append]
    rcases hn : n - trail.length with _ | _ | m
    · simpa using ih
    · rw [List.take_of_length_le (by omega)]
      exact h.slash
    · rw [List.take_of_length_le (by omega)]
      simpa using h.dot

end IsTrail

/-- What is cut off the end of a path is a trail. -/
theorem exists_isTrail (cs : List Char) :
    ∃ trail, IsTrail trail ∧ cs.reverse = (withoutTrail cs).reverse ++ trail := by
  fun_induction withoutTrail cs with
  | case1 cs ih =>
    obtain ⟨trail, htrail, heq⟩ := ih
    exact ⟨trail ++ ['/'], htrail.slash, by rw [List.reverse_cons, heq, List.append_assoc]⟩
  | case2 cs ih =>
    obtain ⟨trail, htrail, heq⟩ := ih
    refine ⟨trail ++ ['/', '.'], htrail.dot, ?_⟩
    rw [List.reverse_cons, List.reverse_cons, heq]
    simp
  | case3 cs _ _ => exact ⟨[], .nil, by simp⟩

/-- No trail is left behind. -/
theorem withoutTrail_ne (cs rest : List Char) :
    withoutTrail cs ≠ '/' :: rest ∧ withoutTrail cs ≠ '.' :: '/' :: rest := by
  fun_induction withoutTrail cs with
  | case1 cs ih => exact ih
  | case2 cs ih => exact ih
  | case3 cs hslash hdot => exact ⟨hslash rest, hdot rest⟩

/-! ## The end of a path -/

/-- A path as what stands before its last segment, that segment, and a trail. A segment that does not count
itself is the last one only if nothing stands before it. -/
structure Ends (path before name trail : List Char) : Prop where
  path_eq : path = before ++ name ++ trail
  before_slash : ∀ c ∈ before.getLast?, c = '/'
  no_slash : '/' ∉ name
  isTrail : IsTrail trail
  proper : before = [] ∨ name ≠ [] ∧ name ≠ ['.']

theorem exists_ends (path : List Char) : ∃ before name trail, Ends path before name trail := by
  obtain ⟨trail, htrail, heq⟩ := exists_isTrail path.reverse
  have hne := withoutTrail_ne path.reverse
  rw [List.reverse_reverse] at heq
  generalize withoutTrail path.reverse = cs at heq hne
  have hsplit := List.takeWhile_append_dropWhile (p := fun c => decide (c ≠ '/')) (l := cs)
  have hhead := List.head?_dropWhile_not (fun c => decide (c ≠ '/')) cs
  have hname : '/' ∉ cs.takeWhile fun c => decide (c ≠ '/') := fun hslash => by
    simpa using List.mem_takeWhile_imp hslash
  generalize cs.takeWhile (fun c => decide (c ≠ '/')) = name at hsplit hname
  generalize cs.dropWhile (fun c => decide (c ≠ '/')) = before at hsplit hhead
  refine ⟨before.reverse, name.reverse, trail, ?_, ?_, by simpa using hname, htrail, ?_⟩
  · rw [heq, ← hsplit, List.reverse_append]
  · intro c hc
    rw [List.getLast?_reverse] at hc
    simpa [Option.mem_def.mp hc] using hhead
  · cases before with
    | nil => exact .inl rfl
    | cons c before =>
      obtain rfl : c = '/' := by simpa using hhead
      refine .inr ⟨fun hempty => (hne before).1 ?_, fun hdot => (hne before).2 ?_⟩
      · rw [← hsplit, List.reverse_eq_nil_iff.mp hempty, List.nil_append]
      · rw [← hsplit, List.reverse_eq_iff.mp hdot]
        rfl

/-! ## Cutting the extension off -/

/-- The last dot of a file name begins its extension, unless the name begins with it. -/
theorem splitExtension_cases (name : List Char) :
    (splitExtension name = (name, none) ∧ '.' ∉ name.tail) ∨
      ∃ stem extension, name = stem ++ '.' :: extension ∧ stem ≠ [] ∧ '.' ∉ extension := by
  by_cases hdot : '.' ∈ name
  · obtain ⟨after, before, heq, hafter⟩ := List.eq_append_cons_of_mem (List.mem_reverse.mpr hdot)
    have hname : name = before.reverse ++ '.' :: after.reverse := by
      rw [← List.reverse_reverse name, heq]
      simp
    rcases List.eq_nil_or_concat' before with rfl | ⟨front, c, rfl⟩
    · have hrun : ∀ c ∈ after, decide (c ≠ '.') = true := by
        intro c hc
        rw [decide_eq_true_eq]
        rintro rfl
        exact hafter hc
      have hlength : name.length - after.reverse.length - 1 = 0 := by simp [hname]
      refine .inl ⟨?_, by simpa [hname] using hafter⟩
      simp only [splitExtension]
      rw [heq, Text.takeWhile_run hrun (by simp), hlength]
      rfl
    · exact .inr ⟨_, after.reverse, hname, by simp, by simpa using hafter⟩
  · have hall : name.reverse.takeWhile (fun c => decide (c ≠ '.')) = name.reverse := by
      rw [List.takeWhile_eq_self_iff]
      intro c hc
      rw [decide_eq_true_eq]
      rintro rfl
      exact hdot (List.mem_reverse.mp hc)
    have hlength : name.length - name.reverse.reverse.length - 1 = 0 := by simp
    refine .inl ⟨?_, fun htail => hdot (List.mem_of_mem_tail htail)⟩
    simp only [splitExtension]
    rw [hall, hlength]
    rfl

theorem splitName?_append_trail {trail : List Char} (h : IsTrail trail) (path : List Char) :
    splitName? (String.ofList (path ++ trail)) = splitName? (String.ofList path) := by
  simp only [splitName?, String.toList_ofList, h.withoutTrail_append_trail]

theorem withExtension_of_none {path : String} (h : splitName? path = none) (extension : String) :
    withExtension path extension = path := by
  simp [withExtension, extension?, setExtension, h]

/-- The extension of a file name is cut off, with all that follows it. -/
theorem names_setExtension {before stem extension trail : List Char}
    (hbefore : ∀ c ∈ before.getLast?, c = '/') (hslash : '/' ∉ stem) (hempty : stem ≠ [])
    (hextension : '/' ∉ extension) (hdot : '.' ∉ extension) (htrail : IsTrail trail) :
    names (setExtension (String.ofList (before ++ (stem ++ '.' :: extension) ++ trail)) "") =
      names (String.ofList before) ++ names (String.ofList stem) := by
  have hname : '/' ∉ stem ++ '.' :: extension := by simp [hslash, hextension]
  have hsplit : splitName? (String.ofList (before ++ (stem ++ '.' :: extension) ++ trail)) =
      if stem ++ '.' :: extension = ['.', '.'] then none
      else some (before, stem ++ '.' :: extension) := by
    rw [splitName?_append_trail htrail,
      splitName?_directory hbefore hname (by simp) (by simp [List.append_eq_singleton_iff, hempty])]
  by_cases hparent : stem ++ '.' :: extension = ['.', '.']
  · -- a name such as `..x` was cut to `..`, which is no name and has no extension
    obtain rfl : stem = ['.'] := by
      cases stem with
      | nil => exact absurd rfl hempty
      | cons c stem =>
        obtain ⟨rfl, hrest⟩ := List.cons.inj hparent
        rcases List.append_eq_singleton_iff.mp hrest with ⟨rfl, -⟩ | ⟨-, hdot⟩
        · rfl
        · cases hdot
    rw [if_pos hparent] at hsplit
    have hkept (path : String) (h : splitName? path = none) : setExtension path "" = path := by
      rw [setExtension, h]
    rw [hkept _ hsplit, htrail.names_append_trail, names_directory hbefore, hparent]
    rfl
  · rw [if_neg hparent] at hsplit
    rw [setExtension, hsplit]
    simp only [splitExtension_append hempty hdot, if_true, String.append_empty]
    exact names_directory hbefore stem

/-- As many characters as the extension has are cut off the end of the path. With a trail behind the
extension, some of the extension may stay, and some of the trail. -/
theorem take_length_sub_extension (before stem extension trail : List Char) :
    (before ++ (stem ++ '.' :: extension) ++ trail).take
        ((before ++ (stem ++ '.' :: extension) ++ trail).length - extension.length) =
      before ++ (stem ++ '.' :: extension.take trail.length) ++
        trail.take (trail.length - extension.length) := by
  have hsplit : before ++ (stem ++ '.' :: extension) ++ trail =
      (before ++ stem ++ ['.']) ++ (extension ++ trail) := by simp
  have hlength : (before ++ (stem ++ '.' :: extension) ++ trail).length - extension.length =
      (before ++ stem ++ ['.']).length + trail.length := by
    simp only [hsplit, List.length_append]
    omega
  rw [hlength, hsplit, List.take_length_add_append, List.take_append]
  simp

/-- The names of a path without its extension are those before the last segment, and what is left of that
segment if it is still a name. -/
theorem Ends.names_withExtension {path before name trail : List Char}
    (h : Ends path before name trail) :
    names (withExtension (String.ofList path) "") =
      names (String.ofList before) ++ names (String.ofList (splitExtension name).1) := by
  obtain ⟨rfl, hbefore, hslash, htrail, hproper⟩ := h
  by_cases hname : name = [] ∨ name = ['.'] ∨ name = ['.', '.']
  · have hnone : splitName? (String.ofList (before ++ name ++ trail)) = none := by
      rw [splitName?_append_trail htrail]
      rcases hname with rfl | rfl | rfl
      · obtain rfl : before = [] := hproper.resolve_right (by simp)
        rfl
      · obtain rfl : before = [] := hproper.resolve_right (by simp)
        rfl
      · rw [splitName?_directory hbefore hslash (by simp) (by simp), if_pos rfl]
    rw [withExtension_of_none hnone, htrail.names_append_trail, names_directory hbefore]
    rcases hname with rfl | rfl | rfl <;> rfl
  · obtain ⟨hempty, hcurrent, hparent⟩ : name ≠ [] ∧ name ≠ ['.'] ∧ name ≠ ['.', '.'] := by
      simpa [not_or] using hname
    have hsplit : splitName? (String.ofList (before ++ name ++ trail)) = some (before, name) := by
      rw [splitName?_append_trail htrail, splitName?_append hbefore hslash hempty hcurrent hparent]
    rcases splitExtension_cases name with ⟨hnone, -⟩ | ⟨stem, extension, rfl, hstem, hdot⟩
    · simp only [withExtension, extension?, setExtension, hsplit, Option.bind_some, hnone,
        Option.map_none, if_true, String.append_empty]
      exact names_directory hbefore name
    · simp only [List.mem_append, List.mem_cons, not_or] at hslash
      have hsub : extension.take trail.length ⊆ extension := List.take_subset _ _
      simp only [withExtension, extension?, hsplit, Option.bind_some,
        splitExtension_append hstem hdot, Option.map_some, String.toList_ofList, String.length_ofList,
        take_length_sub_extension]
      exact names_setExtension hbefore hslash.1 hstem (fun hin => hslash.2.2 (hsub hin))
        (fun hin => hdot (hsub hin)) (htrail.take _)

/-- A path up to the last dot of its last segment. A dot that the segment starts with ends nothing. -/
inductive WithoutExtension : List Char → List Char → Prop
  | whole {path before name trail : List Char} (h : Ends path before name trail)
    (hdot : '.' ∉ name.tail) : WithoutExtension path (before ++ name)
  | cut {path before stem extension trail : List Char}
    (h : Ends path before (stem ++ '.' :: extension) trail) (hstem : stem ≠ [])
    (hdot : '.' ∉ extension) : WithoutExtension path (before ++ stem)

theorem exists_withoutExtension (path : String) :
    ∃ rest, WithoutExtension path.toList rest ∧
      names (withExtension path "") = names (String.ofList rest) := by
  obtain ⟨before, name, trail, hends⟩ := exists_ends path.toList
  have hnames := hends.names_withExtension
  rw [String.ofList_toList, ← names_directory hends.before_slash] at hnames
  rcases splitExtension_cases name with ⟨hnone, hdot⟩ | ⟨stem, extension, rfl, hstem, hdot⟩
  · rw [hnone] at hnames
    exact ⟨_, .whole hends hdot, hnames⟩
  · rw [splitExtension_append hstem hdot] at hnames
    exact ⟨_, .cut hends hstem hdot, hnames⟩

end ElmBindings.Path
