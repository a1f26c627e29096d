import ElmBindings.Proofs.Paths

set_option autoImplicit false

/-! # Query files in a tree

Where the paths of query files and of their modules lead. In a tree that a disk can hold
(`WellFormed`), a file that a scan finds is at the place that its path leads to, and the path of its
module leads to a place beside it (`Holds`). This stays so as long as directories stay directories and
nothing goes away (`Grows`). -/

namespace ElmBindings

namespace FileTree

/-! ## Trees -/

/-- Whether a tree is one that a disk can hold: every place is there once, is reached by file names, and
is in a directory. -/
structure WellFormed (tree : FileTree) : Prop where
  nodup : (tree.entries.map Prod.fst).Nodup
  names : ∀ place ∈ tree.entries.map Prod.fst, ∀ name ∈ place, Path.IsName name
  parents : ∀ place ∈ tree.entries.map Prod.fst,
    place ≠ [] ∧ tree.isDirectory place.dropLast = true

variable {tree : FileTree}

theorem mem_places {place : List String} (hplace : place ≠ []) :
    place ∈ tree.entries.map Prod.fst ↔ (tree.get? place).isSome = true := by
  rw [get?, if_neg hplace]
  cases hlookup : tree.entries.lookup place with
  | none =>
    rw [List.lookup_eq_none_iff] at hlookup
    simp only [List.mem_map, Option.isSome_none, Bool.false_eq_true, iff_false]
    rintro ⟨entry, hentry, rfl⟩
    simpa using hlookup entry hentry
  | some node =>
    simp only [Option.isSome_some, iff_true]
    by_contra hnot
    have hnone : tree.entries.lookup place = none := by
      refine List.lookup_eq_none_iff.mpr fun entry hentry => ?_
      have hne : entry.1 ≠ place := fun heq => hnot (heq ▸ List.mem_map_of_mem hentry)
      simpa using hne.symm
    cases hnone.symm.trans hlookup

theorem isSome_of_isDirectory {place : List String} (h : tree.isDirectory place = true) :
    (tree.get? place).isSome = true := by
  rw [isDirectory, decide_eq_true_eq] at h
  rw [h]
  rfl

/-- What a place is below is a directory. -/
theorem WellFormed.isDirectory (h : tree.WellFormed) {place below : List String}
    (hpresent : (tree.get? (place ++ below)).isSome = true) (hbelow : below ≠ []) :
    tree.isDirectory place = true := by
  induction below using List.reverseRecOn with
  | nil => exact absurd rfl hbelow
  | append_singleton front name ih =>
    have hmem := (mem_places (by simp)).mpr hpresent
    have hparent := (h.parents _ hmem).2
    rw [← List.append_assoc, List.dropLast_concat] at hparent
    by_cases hfront : front = []
    · simpa [hfront] using hparent
    · exact ih (isSome_of_isDirectory hparent) hfront

/-! ## Walking -/

theorem step_name {place : List String} {name : String} (hdirectory : tree.isDirectory place = true)
    (hname : Path.IsName name) (hpresent : (tree.get? (place ++ [name])).isSome = true) :
    tree.step place name = some (place ++ [name]) := by
  simp [step, hdirectory, hname.ne_empty, hname.ne_current, hname.ne_parent, hpresent]

/-- The names of a place lead to it. -/
theorem WellFormed.walk_names (h : tree.WellFormed) {place names : List String}
    (hnames : ∀ name ∈ names, Path.IsName name)
    (hpresent : (tree.get? (place ++ names)).isSome = true) :
    names.foldlM tree.step place = some (place ++ names) := by
  induction names generalizing place with
  | nil => simp
  | cons name names ih =>
    have hdirectory := h.isDirectory hpresent (by simp)
    rw [← List.singleton_append, ← List.append_assoc] at hpresent
    have hfirst : (tree.get? (place ++ [name])).isSome = true := by
      by_cases hrest : names = []
      · simpa [hrest] using hpresent
      · exact isSome_of_isDirectory (h.isDirectory hpresent hrest)
    rw [List.foldlM_cons, step_name hdirectory (hnames name List.mem_cons_self) hfirst]
    have hrest := ih (fun x hx => hnames x (List.mem_cons_of_mem name hx)) hpresent
    simpa using hrest

/-- Empty segments lead nowhere else. -/
theorem foldlM_step_filter {segments : List String} {start place : List String}
    (h : segments.foldlM tree.step start = some place) :
    (segments.filter (· ≠ "")).foldlM tree.step start = some place := by
  induction segments generalizing start with
  | nil => exact h
  | cons segment segments ih =>
    rw [List.foldlM_cons] at h
    obtain ⟨next, hnext, hrest⟩ := Option.bind_eq_some_iff.mp h
    by_cases hsegment : segment = ""
    · have hstay : next = start := by
        simp only [step, hsegment] at hnext
        split at hnext
        · cases hnext
        · simpa using hnext.symm
      subst hsegment hstay
      simpa using ih hrest
    · simp only [ne_eq, hsegment, not_false_eq_true, decide_true, List.filter_cons_of_pos,
        List.foldlM_cons, hnext]
      exact ih hrest

/-- The segments of the directory of a scan lead where its path does. -/
theorem walk_scanSegments {root : String} {place : List String}
    (h : tree.locate root = some place) : tree.walk (scanSegments root) = some place := by
  rw [locate] at h
  split at h
  · cases h
  · have hfilter := foldlM_step_filter h
    rw [walk, scanSegments]
    split
    · simpa [step, isDirectory, get?] using hfilter
    · exact hfilter

/-! ## Trees that grow -/

/-- Whether a tree came from another one in which directories stay directories, no directory is made,
and nothing goes away. -/
structure Grows (tree later : FileTree) : Prop where
  directory : ∀ place, later.isDirectory place = tree.isDirectory place
  present : ∀ place, (tree.get? place).isSome = true → (later.get? place).isSome = true

theorem Grows.refl (tree : FileTree) : tree.Grows tree := ⟨fun _ => rfl, fun _ h => h⟩

theorem Grows.trans {middle later : FileTree} (h : tree.Grows middle) (h' : middle.Grows later) :
    tree.Grows later :=
  ⟨fun place => (h'.directory place).trans (h.directory place),
    fun place hplace => h'.present place (h.present place hplace)⟩

/-- A text that is written where no directory is makes a tree grow. -/
theorem grows_put {place : List String} (content : String)
    (h : tree.isDirectory place = false) : tree.Grows (tree.put place (.text content)) := by
  have hne : place ≠ [] := by
    rintro rfl
    simp [isDirectory, get?] at h
  constructor
  · intro other
    by_cases hother : other = place
    · subst hother
      rw [h, isDirectory, get?_put_self tree _ hne]
      simp
    · rw [isDirectory, get?_put_of_ne tree _ hother, isDirectory]
  · intro other hpresent
    by_cases hother : other = place
    · subst hother
      rw [get?_put_self tree _ hne]
      rfl
    · rwa [get?_put_of_ne tree _ hother]

theorem Grows.step {later : FileTree} (h : tree.Grows later) {place next : List String}
    {segment : String} (hstep : tree.step place segment = some next) :
    later.step place segment = some next := by
  simp only [FileTree.step, h.directory] at hstep ⊢
  split_ifs at hstep ⊢ <;> simp_all [h.present]

/-- What is found in a tree is found where it grows. -/
theorem Grows.walk {later : FileTree} (h : tree.Grows later) {segments place : List String}
    (hwalk : tree.walk segments = some place) : later.walk segments = some place := by
  unfold FileTree.walk at hwalk ⊢
  generalize ([] : List String) = start at hwalk ⊢
  induction segments generalizing start with
  | nil => exact hwalk
  | cons segment segments ih =>
    rw [List.foldlM_cons] at hwalk ⊢
    obtain ⟨next, hnext, hrest⟩ := Option.bind_eq_some_iff.mp hwalk
    rw [h.step hnext]
    exact ih next hrest

/-! ## Query files and their modules -/

/-- Whether a tree holds a query file below the directory of a scan, which is at the place `top`: under
a name with the given stem, in the given directories. -/
structure Holds (tree : FileTree) (root : String) (top : List String) (file : QueryFile)
    (dirs : List String) (stem : List Char) : Prop where
  file_eq : file = ⟨scanBase root, dirs ++ [String.ofList (stem ++ querySuffix)]⟩
  dirs_names : ∀ name ∈ dirs, Path.IsName name
  no_slash : '/' ∉ stem
  ne_nil : stem ≠ []
  not_hidden : stem.head? ≠ some '.'
  walk : tree.walk (scanSegments root ++ dirs) = some (top ++ dirs)
  directory : tree.isDirectory (top ++ dirs) = true
  present : (tree.get? (top ++ dirs ++ [String.ofList (stem ++ querySuffix)])).isSome = true

/-- The place of the module for a query file. -/
def modulePlace (top dirs : List String) (stem : List Char) : List String :=
  top ++ dirs ++ [String.ofList (stem ++ moduleSuffix)]

namespace Holds

variable {root : String} {top : List String} {file : QueryFile} {dirs : List String}
  {stem : List Char}

theorem grows {later : FileTree} (h : tree.Holds root top file dirs stem)
    (hgrows : tree.Grows later) : later.Holds root top file dirs stem :=
  { h with
    walk := hgrows.walk h.walk
    directory := by rw [hgrows.directory, h.directory]
    present := hgrows.present _ h.present }

/-- A stem with one of the two suffixes is a file name. -/
theorem isName (h : tree.Holds root top file dirs stem) (suffix : List Char)
    (hslash : '/' ∉ suffix) (hlength : 2 < suffix.length) :
    Path.IsName (String.ofList (stem ++ suffix)) := by
  have hchars : ∀ s : String, s.length ≤ 2 → String.ofList (stem ++ suffix) ≠ s := by
    intro s hs heq
    rw [← heq, String.length_ofList, List.length_append] at hs
    omega
  refine ⟨hchars "" (by decide), hchars "." (by decide), hchars ".." (by decide), ?_⟩
  rw [String.toList_ofList, List.mem_append]
  rintro (hmem | hmem)
  · exact h.no_slash hmem
  · exact hslash hmem

theorem path_eq (h : tree.Holds root top file dirs stem) :
    file.path =
      "/".intercalate (scanSegments root ++ dirs ++ [String.ofList (stem ++ querySuffix)]) := by
  have hnames : ∀ name ∈ dirs ++ [String.ofList (stem ++ querySuffix)], Path.IsName name := by
    intro name hname
    rcases List.mem_append.mp hname with hname | hname
    · exact h.dirs_names name hname
    · rw [List.mem_singleton.mp hname]
      exact h.isName querySuffix (by decide) (by decide)
  rw [h.file_eq, QueryFile.path_eq (by simp) hnames, List.append_assoc]

theorem output_eq (h : tree.Holds root top file dirs stem) :
    outputPath file.path =
      "/".intercalate (scanSegments root ++ dirs ++ [String.ofList (stem ++ moduleSuffix)]) := by
  rw [h.path_eq, outputPath_concat _ h.no_slash h.ne_nil h.not_hidden]

theorem segments_eq (h : tree.Holds root top file dirs stem) {name : String}
    (hname : Path.IsName name) :
    Path.segments ("/".intercalate (scanSegments root ++ dirs ++ [name])) =
      scanSegments root ++ dirs ++ [name] := by
  rw [List.append_assoc, segments_scanned (by simp)]
  intro other hother
  rcases List.mem_append.mp hother with hother | hother
  · exact (h.dirs_names other hother).no_slash
  · rw [List.mem_singleton.mp hother]
    exact hname.no_slash

/-- A path to a name beside the query file leads there if anything is there. -/
theorem locate_concat (h : tree.Holds root top file dirs stem) {name : String}
    (hname : Path.IsName name) (hpresent : (tree.get? (top ++ dirs ++ [name])).isSome = true) :
    tree.locate ("/".intercalate (scanSegments root ++ dirs ++ [name])) =
      some (top ++ dirs ++ [name]) := by
  have hsegments := h.segments_eq hname
  have hne : "/".intercalate (scanSegments root ++ dirs ++ [name]) ≠ "" := by
    intro heq
    have hlast := congrArg List.getLast? hsegments
    rw [heq, List.getLast?_concat] at hlast
    exact hname.ne_empty (Option.some.inj hlast).symm
  have hwalk := h.walk
  rw [FileTree.walk] at hwalk
  rw [locate, if_neg hne, hsegments, FileTree.walk, List.foldlM_append, hwalk]
  simpa using step_name h.directory hname hpresent

/-- The path of a query file leads to its place. -/
theorem locate_path (h : tree.Holds root top file dirs stem) :
    tree.locate file.path = some (top ++ dirs ++ [String.ofList (stem ++ querySuffix)]) := by
  rw [h.path_eq]
  exact h.locate_concat (h.isName querySuffix (by decide) (by decide)) h.present

/-- The path of a module that is there leads to its place. -/
theorem locate_outputPath (h : tree.Holds root top file dirs stem)
    (hpresent : (tree.get? (modulePlace top dirs stem)).isSome = true) :
    tree.locate (outputPath file.path) = some (modulePlace top dirs stem) := by
  rw [h.output_eq]
  exact h.locate_concat (h.isName moduleSuffix (by decide) (by decide)) hpresent

/-- The path of the module leads beside the query file, unless a directory is there. -/
theorem target_eq (h : tree.Holds root top file dirs stem) :
    tree.target (outputPath file.path) =
      if tree.isDirectory (modulePlace top dirs stem) then none
      else some (modulePlace top dirs stem) := by
  have hname := h.isName moduleSuffix (by decide) (by decide)
  have hsegments := h.segments_eq hname
  rw [← h.output_eq] at hsegments
  rw [target, hsegments, List.getLast?_concat, Option.bind_some, Path.ofSegment?_name hname,
    List.dropLast_concat]
  have hplace : top ++ dirs ++ [String.ofList (stem ++ moduleSuffix)] =
    modulePlace top dirs stem := rfl
  simp only [h.walk, h.directory, Bool.true_and, hplace]
  by_cases hdirectory : tree.isDirectory (modulePlace top dirs stem) = true <;> simp [hdirectory]

theorem chars_of_concat {place place' : List String} {cs cs' : List Char}
    (h : place ++ [String.ofList cs] = place' ++ [String.ofList cs']) :
    place = place' ∧ cs = cs' := by
  obtain ⟨hplace, hname⟩ := List.append_inj' h rfl
  have hchars := congrArg String.toList (List.singleton_inj.mp hname)
  rw [String.toList_ofList, String.toList_ofList] at hchars
  exact ⟨hplace, hchars⟩

/-- Files whose modules are at one place are one file. -/
theorem eq_of_modulePlace {file' : QueryFile} {dirs' : List String} {stem' : List Char}
    (h : tree.Holds root top file dirs stem) (h' : tree.Holds root top file' dirs' stem')
    (hplace : modulePlace top dirs stem = modulePlace top dirs' stem') : file = file' := by
  obtain ⟨hdirs, hstem⟩ := chars_of_concat hplace
  rw [h.file_eq, h'.file_eq, List.append_cancel_left hdirs, List.append_cancel_right hstem]

/-- A module is at no place where a query file can be. -/
theorem modulePlace_ne (top dirs : List String) (stem : List Char) (place : List String)
    (stem' : List Char) :
    modulePlace top dirs stem ≠ place ++ [String.ofList (stem' ++ querySuffix)] := by
  intro hplace
  have hmodule : moduleSuffix = ['.', 'e', 'l', 'm'] := rfl
  have hquery : querySuffix = ['.', 'g', 'r', 'a', 'p', 'h', 'q', 'l'] := rfl
  have hlast := congrArg List.getLast? (chars_of_concat hplace).2
  rw [hmodule, hquery] at hlast
  simp at hlast

/-- Files whose modules have one path are one file. -/
theorem eq_of_outputPath {file' : QueryFile} {dirs' : List String} {stem' : List Char}
    (h : tree.Holds root top file dirs stem) (h' : tree.Holds root top file' dirs' stem')
    (hpath : outputPath file.path = outputPath file'.path) : file = file' := by
  refine h.eq_of_modulePlace h' ?_
  have hsegments := congrArg Path.segments hpath
  rw [h.output_eq, h'.output_eq, h.segments_eq (h.isName moduleSuffix (by decide) (by decide)),
    h'.segments_eq (h'.isName moduleSuffix (by decide) (by decide)), List.append_assoc,
    List.append_assoc] at hsegments
  rw [modulePlace, modulePlace, List.append_assoc, List.append_assoc,
    List.append_cancel_left hsegments]

/-- No module has the path of a query file. -/
theorem outputPath_ne {file' : QueryFile} {dirs' : List String} {stem' : List Char}
    (h : tree.Holds root top file dirs stem) (h' : tree.Holds root top file' dirs' stem') :
    outputPath file.path ≠ file'.path := by
  intro hpath
  have hsegments := congrArg Path.segments hpath
  rw [h.output_eq, h'.path_eq, h.segments_eq (h.isName moduleSuffix (by decide) (by decide)),
    h'.segments_eq (h'.isName querySuffix (by decide) (by decide))] at hsegments
  exact modulePlace_ne (scanSegments root) dirs stem _ stem' hsegments

end Holds

/-! ## What a scan finds -/

theorem exists_stem {name : String} (hquery : isQueryName name = true)
    (hhidden : isHidden name = false) :
    ∃ stem, name = String.ofList (stem ++ querySuffix) ∧ stem ≠ [] ∧ stem.head? ≠ some '.' := by
  rw [isQueryName, Bool.and_eq_true, List.isSuffixOf_iff_suffix, decide_eq_true_eq] at hquery
  obtain ⟨⟨stem, hstem⟩, hlength⟩ := hquery
  have hne : stem ≠ [] := by
    rintro rfl
    rw [← String.length_toList, ← hstem] at hlength
    simp at hlength
  refine ⟨stem, by rw [hstem, String.ofList_toList], hne, ?_⟩
  obtain ⟨c, cs, rfl⟩ := List.exists_cons_of_ne_nil hne
  rw [isHidden, ← hstem] at hhidden
  simpa using hhidden

/-- The names that lead from a directory to a place below it. -/
def below? (top place : List String) : Option (List String) :=
  if top.isPrefixOf place && top.length < place.length then some (place.drop top.length) else none

theorem below?_eq_some {top place names : List String} :
    below? top place = some names ↔ place = top ++ names ∧ names ≠ [] := by
  rw [below?]
  constructor
  · intro h
    split at h
    · next hbelow =>
      rw [Bool.and_eq_true, List.isPrefixOf_iff_prefix, decide_eq_true_eq] at hbelow
      obtain ⟨⟨below, rfl⟩, hlength⟩ := hbelow
      rw [List.drop_left, Option.some.injEq] at h
      subst h
      refine ⟨rfl, ?_⟩
      rintro rfl
      simp at hlength
    · cases h
  · rintro ⟨rfl, hne⟩
    have hlength : 0 < names.length := List.length_pos_iff.mpr hne
    simp [hlength]

theorem descendants_eq (tree : FileTree) (root : String) :
    tree.descendants root = [] ∨ ∃ top, tree.locate root = some top ∧
      tree.descendants root = (tree.entries.map Prod.fst).filterMap (below? top) := by
  unfold descendants
  split
  · next top htop =>
    split
    · exact .inr ⟨top, htop, by rw [List.filterMap_map]; rfl⟩
    · exact .inl rfl
  · exact .inl rfl

theorem mem_descendants {root : String} {names : List String} (h : names ∈ tree.descendants root) :
    ∃ top, tree.locate root = some top ∧ names ≠ [] ∧
      top ++ names ∈ tree.entries.map Prod.fst := by
  rcases tree.descendants_eq root with hnone | ⟨top, htop, heq⟩
  · rw [hnone] at h
    cases h
  · rw [heq] at h
    obtain ⟨place, hplace, hbelow⟩ := List.mem_filterMap.mp h
    obtain ⟨rfl, hne⟩ := below?_eq_some.mp hbelow
    exact ⟨top, htop, hne, hplace⟩

theorem WellFormed.nodup_descendants (hwf : tree.WellFormed) (root : String) :
    (tree.descendants root).Nodup := by
  rcases tree.descendants_eq root with hnone | ⟨top, -, heq⟩
  · rw [hnone]
    exact List.nodup_nil
  · rw [heq]
    refine hwf.nodup.filterMap fun place place' names hplace hplace' => ?_
    rw [(below?_eq_some.mp hplace).1, (below?_eq_some.mp hplace').1]

/-- A tree holds the query files that a scan of it finds. -/
theorem WellFormed.holds (hwf : tree.WellFormed) {root : String} {file : QueryFile}
    (h : file ∈ queryFiles root (tree.descendants root)) :
    ∃ top dirs stem, tree.locate root = some top ∧ tree.Holds root top file dirs stem := by
  unfold queryFiles at h
  split at h
  · obtain ⟨names, hnames, rfl⟩ := List.mem_map.mp h
    rw [List.mem_mergeSort, List.mem_filter, isQueryFile, Bool.and_eq_true] at hnames
    obtain ⟨hbelow, hquery, hhidden⟩ := hnames
    obtain ⟨top, htop, hne, hplace⟩ := mem_descendants hbelow
    obtain ⟨dirs, name, rfl⟩ := (List.eq_nil_or_concat' names).resolve_left hne
    have hname : isQueryName name = true := by simpa using hquery
    have hshown : isHidden name = false := by simp_all
    obtain ⟨stem, rfl, hstem, hdot⟩ := exists_stem hname hshown
    have hpresent := (mem_places (by simp)).mp hplace
    have hlegal : ∀ x ∈ dirs ++ [String.ofList (stem ++ querySuffix)], Path.IsName x :=
      fun x hx => hwf.names _ hplace x (List.mem_append_right top hx)
    have hdirectory : tree.isDirectory (top ++ dirs) = true := by
      rw [← List.append_assoc] at hpresent
      exact hwf.isDirectory hpresent (by simp)
    refine ⟨top, dirs, stem, htop, ?_⟩
    refine
      { file_eq := rfl
        dirs_names := fun x hx => hlegal x (List.mem_append_left _ hx)
        no_slash := ?_
        ne_nil := hstem
        not_hidden := hdot
        walk := ?_
        directory := hdirectory
        present := by rwa [List.append_assoc] }
    · have hslash := (hlegal _ (List.mem_append_right dirs List.mem_cons_self)).no_slash
      rw [String.toList_ofList] at hslash
      exact fun hmem => hslash (List.mem_append_left _ hmem)
    · have hwalk := walk_scanSegments htop
      have hdirs : dirs.foldlM tree.step top = some (top ++ dirs) :=
        hwf.walk_names (fun x hx => hlegal x (List.mem_append_left _ hx))
          (isSome_of_isDirectory hdirectory)
      rw [walk] at hwalk ⊢
      rw [List.foldlM_append, hwalk]
      exact hdirs
  · cases h

/-- A scan finds every file once. -/
theorem WellFormed.nodup_queryFiles (hwf : tree.WellFormed) (root : String) :
    (queryFiles root (tree.descendants root)).Nodup := by
  unfold queryFiles
  split
  · refine List.Nodup.map (fun names names' heq => (QueryFile.mk.inj heq).2) ?_
    rw [(List.mergeSort_perm _ _).nodup_iff]
    exact (hwf.nodup_descendants root).filter _
  · exact List.nodup_nil

end FileTree

end ElmBindings
