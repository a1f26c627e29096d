import ElmBindings.Project.Run
import Mathlib

set_option autoImplicit false

/-! # Paths of query files

A scan writes the paths of the files it finds as names with slashes between them (`QueryFile.path_eq`),
and the path of a module differs from that of its query file in the extension of the last name only
(`outputPath_concat`). So both paths can be taken apart into their names again, and files of different
names have modules of different names. -/

namespace ElmBindings

/-! ## Runs between separators -/

namespace Text

variable {isSeparator : Char → Bool}

theorem runsBetween_ne_nil (cs : List Char) : runsBetween isSeparator cs ≠ [] := by
  cases cs with
  | nil => simp [runsBetween]
  | cons c cs =>
    rw [runsBetween]
    split
    · simp
    · split <;> simp

theorem runsBetween_append (xs : List Char) {c : Char} (ys : List Char)
    (hc : isSeparator c = true) :
    runsBetween isSeparator (xs ++ c :: ys) =
      runsBetween isSeparator xs ++ runsBetween isSeparator ys := by
  induction xs with
  | nil => simp [runsBetween, hc]
  | cons x xs ih =>
    rw [List.cons_append, runsBetween, runsBetween, ih]
    split
    · rfl
    · cases hruns : runsBetween isSeparator xs with
      | nil => exact absurd hruns (runsBetween_ne_nil xs)
      | cons run runs => rfl

theorem runsBetween_run {run : List Char} (h : ∀ c ∈ run, isSeparator c = false) :
    runsBetween isSeparator run = [run] := by
  induction run with
  | nil => rfl
  | cons c run ih =>
    rw [runsBetween, ih fun x hx => h x (List.mem_cons_of_mem c hx)]
    simp [h c List.mem_cons_self]

theorem not_mem_of_mem_runsBetween {cs run : List Char} (h : run ∈ runsBetween isSeparator cs) :
    ∀ c ∈ run, isSeparator c = false := by
  induction cs generalizing run with
  | nil => simp_all [runsBetween]
  | cons c cs ih =>
    rw [runsBetween] at h
    split at h
    · rcases List.mem_cons.mp h with rfl | h
      · simp
      · exact ih h
    · next hc =>
      split at h
      · simp_all
      · next first runs hruns =>
        rcases List.mem_cons.mp h with rfl | h
        · have hfirst := ih (by rw [hruns]; exact List.mem_cons_self)
          simp_all
        · exact ih (by rw [hruns]; exact List.mem_cons_of_mem _ h)

end Text

/-! ## Segments -/

namespace Path

/-- Whether a text can be the name of a file: it is one segment of a path, and leads below the
directory. -/
structure IsName (name : String) : Prop where
  ne_empty : name ≠ ""
  ne_current : name ≠ "."
  ne_parent : name ≠ ".."
  no_slash : '/' ∉ name.toList

theorem ofSegment?_name {name : String} (h : IsName name) :
    Component.ofSegment? name = some (.normal name) := by
  unfold Component.ofSegment?
  split
  · exact absurd rfl h.ne_empty
  · exact absurd rfl h.ne_current
  · exact absurd rfl h.ne_parent
  · rfl

theorem segments_of_no_slash {s : String} (h : '/' ∉ s.toList) : segments s = [s] := by
  have hrun : ∀ c ∈ s.toList, (c == '/') = false := by
    intro c hc
    rw [beq_eq_false_iff_ne]
    rintro rfl
    exact h hc
  simp [segments, Text.runsBetween_run hrun]

theorem segments_append (a b : String) : segments (a ++ "/" ++ b) = segments a ++ segments b := by
  have hchars : (a ++ "/" ++ b).toList = a.toList ++ '/' :: b.toList := by simp
  rw [segments, hchars, Text.runsBetween_append _ _ (by rfl), List.map_append]
  rfl

/-- Names with slashes between them are the segments of the path. -/
theorem segments_intercalate {names : List String} (hne : names ≠ [])
    (h : ∀ name ∈ names, '/' ∉ name.toList) : segments ("/".intercalate names) = names := by
  induction names with
  | nil => exact absurd rfl hne
  | cons name names ih =>
    have hname := segments_of_no_slash (h name List.mem_cons_self)
    cases names with
    | nil => rw [String.intercalate_singleton, hname]
    | cons next names =>
      rw [String.intercalate_cons_cons, segments_append, hname,
        ih (by simp) fun x hx => h x (List.mem_cons_of_mem name hx)]
      rfl

/-- The last name ends the path. -/
theorem toList_intercalate_concat (names : List String) (name : String) :
    ∃ before, ("/".intercalate (names ++ [name])).toList = before ++ name.toList ∧
      (∀ c ∈ before.getLast?, c = '/') ∧
      ∀ other : String, ("/".intercalate (names ++ [other])).toList = before ++ other.toList := by
  by_cases hnames : names = []
  · subst hnames
    exact ⟨[], by simp, by simp, by simp⟩
  · refine ⟨("/".intercalate names).toList ++ ['/'], ?_, by simp, ?_⟩
    · rw [String.intercalate_append_of_ne_nil hnames (by simp)]
      simp
    · intro other
      rw [String.intercalate_append_of_ne_nil hnames (by simp)]
      simp

theorem no_slash_of_mem_segments {path segment : String} (h : segment ∈ segments path) :
    '/' ∉ segment.toList := by
  obtain ⟨run, hrun, rfl⟩ := List.mem_map.mp h
  intro hmem
  rw [String.toList_ofList] at hmem
  have := Text.not_mem_of_mem_runsBetween hrun '/' hmem
  simp at this

/-! ## File names -/

/-- A path that ends in a name has nothing to cut off at its end. -/
theorem withoutTrail_append {before name : List Char} (hslash : '/' ∉ name) (hempty : name ≠ [])
    (hcurrent : name ≠ ['.']) :
    withoutTrail (before ++ name).reverse = (before ++ name).reverse := by
  obtain ⟨front, last, rfl⟩ := List.eq_nil_or_concat' name |>.resolve_left hempty
  have hlast : last ≠ '/' := by
    rintro rfl
    simp at hslash
  rw [← List.append_assoc, List.reverse_append, List.reverse_singleton, List.singleton_append]
  unfold withoutTrail
  split
  · next heq => exact absurd (List.cons.inj heq).1 hlast
  · next cs heq =>
    -- before a dot stands another character of the name, which is no slash
    obtain ⟨rfl, hrest⟩ := List.cons.inj heq
    exfalso
    rcases List.eq_nil_or_concat' front with rfl | ⟨more, c, rfl⟩
    · exact hcurrent rfl
    · rw [← List.append_assoc, List.reverse_append, List.reverse_singleton,
        List.singleton_append] at hrest
      rw [(List.cons.inj hrest).1] at hslash
      simp at hslash
  · rfl

/-- A path that is nothing or a directory before its last segment is split there, if that is a file name. -/
theorem splitName?_directory {before name : List Char}
    (hbefore : ∀ c ∈ before.getLast?, c = '/') (hslash : '/' ∉ name) (hempty : name ≠ [])
    (hcurrent : name ≠ ['.']) :
    splitName? (String.ofList (before ++ name)) =
      if name = ['.', '.'] then none else some (before, name) := by
  have hname : ∀ c ∈ name.reverse, decide (c ≠ '/') = true := by
    intro c hc
    rw [decide_eq_true_eq]
    rintro rfl
    exact hslash (List.mem_reverse.mp hc)
  have hrest : ∀ c ∈ before.reverse.head?, decide (c ≠ '/') = false := by
    intro c hc
    rw [List.head?_reverse] at hc
    simp [hbefore c hc]
  have hdrop : (before.reverse).dropWhile (fun c => decide (c ≠ '/')) = before.reverse := by
    cases hcs : before.reverse with
    | nil => rfl
    | cons c cs =>
      rw [List.dropWhile_cons_of_neg]
      simpa using hrest c (by simp [hcs])
  simp only [splitName?, String.toList_ofList, withoutTrail_append hslash hempty hcurrent]
  rw [List.reverse_append, Text.takeWhile_run hname hrest, List.dropWhile_append_of_pos hname, hdrop]
  simp [hempty, hcurrent]

theorem splitName?_append {before name : List Char}
    (hbefore : ∀ c ∈ before.getLast?, c = '/') (hslash : '/' ∉ name) (hempty : name ≠ [])
    (hcurrent : name ≠ ['.']) (hparent : name ≠ ['.', '.']) :
    splitName? (String.ofList (before ++ name)) = some (before, name) := by
  rw [splitName?_directory hbefore hslash hempty hcurrent, if_neg hparent]

/-- The extension is what follows the last dot, if anything stands before that. -/
theorem splitExtension_append {stem extension : List Char} (hstem : stem ≠ [])
    (hdot : '.' ∉ extension) :
    splitExtension (stem ++ '.' :: extension) = (stem, some extension) := by
  have hrun : ∀ c ∈ extension.reverse, decide (c ≠ '.') = true := by
    intro c hc
    rw [decide_eq_true_eq]
    rintro rfl
    exact hdot (List.mem_reverse.mp hc)
  have hreverse : (stem ++ '.' :: extension).reverse =
      extension.reverse ++ '.' :: stem.reverse := by simp
  have hlength : (stem ++ '.' :: extension).length - extension.length - 1 = stem.length := by
    simp only [List.length_append, List.length_cons]
    omega
  simp only [splitExtension]
  rw [hreverse, Text.takeWhile_run hrun (by simp), List.reverse_reverse, hlength,
    List.take_left]
  simp [hstem]

end Path

/-! ## Paths of modules -/

/-- The end of the name of a module file. -/
def moduleSuffix : List Char := ".elm".toList

/-- A file name that has something before its last dot is split there, and stays a file name if the
extension is cut off. -/
theorem Path.splitName?_stem {before stem extension : List Char}
    (hbefore : ∀ c ∈ before.getLast?, c = '/') (hslash : '/' ∉ stem) (hempty : stem ≠ [])
    (hdot : stem.head? ≠ some '.') (hextension : '/' ∉ extension) :
    splitName? (String.ofList (before ++ (stem ++ '.' :: extension))) =
      some (before, stem ++ '.' :: extension) := by
  obtain ⟨c, rest, rfl⟩ := List.exists_cons_of_ne_nil hempty
  have hc : c ≠ '.' := by simpa using hdot
  refine splitName?_append hbefore ?_ (by simp) (by simp) (by simp [hc])
  simp_all

/-- The module of a query file stands beside it, under a name with another extension. -/
theorem outputPath_append {before stem : List Char} (hbefore : ∀ c ∈ before.getLast?, c = '/')
    (hslash : '/' ∉ stem) (hempty : stem ≠ []) (hdot : stem.head? ≠ some '.') :
    outputPath (String.ofList (before ++ (stem ++ querySuffix))) =
      String.ofList (before ++ (stem ++ moduleSuffix)) := by
  have hsuffix : querySuffix = '.' :: "graphql".toList := rfl
  have hextension : Path.extension? (String.ofList (before ++ (stem ++ querySuffix))) =
      some "graphql" := by
    have hnodot : '.' ∉ "graphql".toList := by decide
    rw [Path.extension?, hsuffix, Path.splitName?_stem hbefore hslash hempty hdot (by decide)]
    simp only [Option.bind_some, Path.splitExtension_append hempty hnodot, Option.map_some,
      String.ofList_toList]
  -- the old extension is cut off, and the dot before it is left
  have hcut : (before ++ (stem ++ querySuffix)).take
      ((before ++ (stem ++ querySuffix)).length - "graphql".length) =
        before ++ (stem ++ ['.']) := by
    have hsplit : before ++ (stem ++ querySuffix) =
        (before ++ (stem ++ ['.'])) ++ "graphql".toList := by simp [hsuffix]
    have hlength : (before ++ (stem ++ querySuffix)).length - "graphql".length =
        (before ++ (stem ++ ['.'])).length := by
      rw [hsplit, List.length_append, String.length_toList]
      omega
    rw [hlength, hsplit, List.take_left]
  rw [outputPath, Path.withExtension, hextension]
  simp only [String.toList_ofList, String.length_ofList, hcut, Path.setExtension]
  rw [Path.splitName?_stem hbefore hslash hempty hdot (by simp)]
  simp [Path.splitExtension_append hempty, moduleSuffix, String.append_assoc]

/-! ## Files that a scan finds -/

/-- The segments of the directory of a scan, without the empty ones inside. -/
def scanSegments (root : String) : List String :=
  (if Path.isAbsolute root then [""] else []) ++ (Path.segments root).filter (· ≠ "")

theorem no_slash_of_mem_scanSegments {root segment : String} (h : segment ∈ scanSegments root) :
    '/' ∉ segment.toList := by
  rcases List.mem_append.mp h with h | h
  · split at h <;> simp_all
  · exact Path.no_slash_of_mem_segments (List.mem_filter.mp h).1

/-- Names with slashes between them make a path that neither starts nor ends with a slash. -/
theorem Path.intercalate_ends {names : List String} (hne : names ≠ [])
    (hempty : ∀ name ∈ names, name ≠ "") (hslash : ∀ name ∈ names, '/' ∉ name.toList) :
    (∃ c, ("/".intercalate names).toList.head? = some c ∧ c ≠ '/') ∧
      ∃ c, ("/".intercalate names).toList.getLast? = some c ∧ c ≠ '/' := by
  have hchars : ∀ name ∈ names, name.toList ≠ [] := fun name hname heq =>
    hempty name hname (String.toList_injective heq)
  constructor
  · obtain ⟨name, rest, rfl⟩ := List.exists_cons_of_ne_nil hne
    obtain ⟨c, cs, hc⟩ := List.exists_cons_of_ne_nil (hchars name List.mem_cons_self)
    have hslash := hslash name List.mem_cons_self
    refine ⟨c, ?_, ?_⟩
    · by_cases hrest : rest = []
      · simp [hrest, hc]
      · simp [String.intercalate_cons_of_ne_nil hrest, hc]
    · rintro rfl
      simp [hc] at hslash
  · obtain ⟨front, name, rfl⟩ := (List.eq_nil_or_concat' names).resolve_left hne
    obtain ⟨before, htext, -, -⟩ := toList_intercalate_concat front name
    obtain ⟨cs, c, hc⟩ := (List.eq_nil_or_concat' name.toList).resolve_left (hchars name (by simp))
    have hslash := hslash name (by simp)
    refine ⟨c, ?_, ?_⟩
    · rw [htext, hc, ← List.append_assoc, List.getLast?_append, List.getLast?_singleton,
        Option.some_or]
    · rintro rfl
      simp [hc] at hslash

/-- The path of a file below the directory of a scan is made of the segments of the directory and of
the names that lead to the file. -/
theorem QueryFile.path_eq {root : String} {names : List String} (hne : names ≠ [])
    (hnames : ∀ name ∈ names, Path.IsName name) :
    (⟨scanBase root, names⟩ : QueryFile).path = "/".intercalate (scanSegments root ++ names) := by
  obtain ⟨⟨c, hc, hslash⟩, -⟩ := Path.intercalate_ends hne
    (fun name h => (hnames name h).ne_empty) fun name h => (hnames name h).no_slash
  have hrelative : Path.isAbsolute ("/".intercalate names) = false := by
    rw [Path.isAbsolute, hc]
    simpa using hslash
  have htop (rest : List String) (hrest : rest ≠ []) :
      "/".intercalate ("" :: rest) = "/" ++ "/".intercalate rest := by
    rw [String.intercalate_cons_of_ne_nil hrest]
    rfl
  rw [path, relative, Path.join, hrelative, Bool.false_or, scanBase, scanSegments]
  by_cases hsegments : (Path.segments root).filter (· ≠ "") = []
  · -- the directory is the top, or there is none
    rw [hsegments]
    split
    · simpa using (htop names hne).symm
    · simp
  · obtain ⟨⟨first, hfirst, -⟩, last, hlast, hend⟩ := Path.intercalate_ends hsegments
      (fun name h => by simpa using (List.mem_filter.mp h).2)
      fun name h => Path.no_slash_of_mem_segments (List.mem_filter.mp h).1
    have happend := String.intercalate_append_of_ne_nil hsegments hne (s := "/")
    split
    · rw [List.singleton_append, List.cons_append, htop _ (by simp [hne]), happend]
      generalize "/".intercalate ((Path.segments root).filter (· ≠ "")) = base at *
      simp [List.getLast?_cons, hlast, hend, String.append_assoc]
    · rw [List.nil_append, happend]
      generalize "/".intercalate ((Path.segments root).filter (· ≠ "")) = base at *
      have hnonempty : base ≠ "" := by
        rintro rfl
        simp at hfirst
      simp [hlast, hend, hnonempty]

/-- A path that a scan finds has the names as its last segments. -/
theorem segments_scanned {root : String} {names : List String} (hne : names ≠ [])
    (hnames : ∀ name ∈ names, '/' ∉ name.toList) :
    Path.segments ("/".intercalate (scanSegments root ++ names)) = scanSegments root ++ names := by
  refine Path.segments_intercalate (by simp [hne]) fun name hname => ?_
  rcases List.mem_append.mp hname with h | h
  · exact no_slash_of_mem_scanSegments h
  · exact hnames name h

/-- The path of the module of a query file differs from that of the file in the last name. -/
theorem outputPath_concat (segments : List String) {stem : List Char} (hslash : '/' ∉ stem)
    (hempty : stem ≠ []) (hdot : stem.head? ≠ some '.') :
    outputPath ("/".intercalate (segments ++ [String.ofList (stem ++ querySuffix)])) =
      "/".intercalate (segments ++ [String.ofList (stem ++ moduleSuffix)]) := by
  obtain ⟨before, htext, hbefore, hother⟩ :=
    Path.toList_intercalate_concat segments (String.ofList (stem ++ querySuffix))
  apply String.toList_injective
  rw [hother, String.toList_ofList]
  rw [String.toList_ofList] at htext
  rw [← String.ofList_toList (s := "/".intercalate _), htext,
    outputPath_append hbefore hslash hempty hdot, String.toList_ofList]

end ElmBindings
