import ElmBindings.Proofs.Expansion
import ElmBindings.Proofs.FileTrees

set_option autoImplicit false

/-! # What a run changes

A run reads and writes one tree by turns. `runOn` gives the outcome of an action and the tree after it,
and each part of a run has an equation for it. What a run writes for a query file can be said in the
tree at the start (`moduleFor`): no module is written over a query file or over another module, so
every step finds its own file and its own target as they were (`Wrote.moduleFor_eq`). `Wrote` is the
invariant of the loop, and `generateProject_changes` what it comes to for a whole project. -/

namespace ElmBindings

/-! ## Runs in a tree -/

/-- The outcome of an action on a tree, and the tree after it. -/
def runOn {α : Type} (action : ExceptT RunError (StateM FileTree) α) (tree : FileTree) :
    Except RunError α × FileTree :=
  action.run.run tree

section

variable {α β ε : Type}

theorem runOn_bind (action : ExceptT RunError (StateM FileTree) α)
    (next : α → ExceptT RunError (StateM FileTree) β) (tree : FileTree) :
    runOn (action >>= next) tree =
      match runOn action tree with
      | (.ok a, tree) => runOn (next a) tree
      | (.error e, tree) => (.error e, tree) := by
  have hsplit : runOn (action >>= next) tree =
      (ExceptT.bindCont next (runOn action tree).1).run (runOn action tree).2 := rfl
  rw [hsplit]
  rcases runOn action tree with ⟨_ | _, _⟩ <;> rfl

@[simp]
theorem runOn_pure (a : α) (tree : FileTree) : runOn (pure a) tree = (.ok a, tree) := rfl

theorem runOn_mk (outcome : Except RunError α) (tree : FileTree) :
    runOn (ExceptT.mk (pure outcome)) tree = (outcome, tree) := rfl

theorem runOn_attempt (task : String) (cause : ε → RunCause) (outcome : Except ε α)
    (tree : FileTree) :
    runOn (attempt task cause outcome) tree =
      (outcome.mapError fun e => { cause := cause e, context := [task] }, tree) := by
  cases outcome <;> rfl

/-- What only looks at the tree leaves it as it is. -/
theorem runOn_bind_lift {action : StateM FileTree α} {tree : FileTree} {a : α}
    (h : action.run tree = (a, tree)) (next : α → ExceptT RunError (StateM FileTree) β) :
    runOn (liftM action >>= next) tree = runOn (next a) tree := by
  have hlift : runOn (liftM action) tree = (.ok (action.run tree).1, (action.run tree).2) := rfl
  rw [runOn_bind, hlift, h]

end

namespace FileTree

variable {formatter : List String → FileTree → FileTree} {tree : FileTree} {settings : Settings}
  {schema : Schema}

/-! ## The schema and the query files -/

/-- The schema of a project, checked. -/
def schemaAt (tree : FileTree) (path : String) : Except RunError Schema := do
  let schema ← (Schema.ofFile path (tree.readText path)).mapError fun e =>
    { cause := .load e, context := ["loading schema " ++ path] }
  schema.validate.mapError fun e => { cause := .schema e, context := ["invalid schema " ++ path] }
  .ok schema

theorem runOn_loadSchema (tree : FileTree) (path : String) :
    runOn (loadSchema (store formatter) path) tree = (tree.schemaAt path, tree) := by
  have hread : ((store formatter).readText path).run tree = (tree.readText path, tree) := rfl
  rw [loadSchema, runOn_bind_lift hread, runOn_bind, runOn_attempt, schemaAt]
  cases Schema.ofFile path (tree.readText path) with
  | error e => rfl
  | ok schema =>
    simp only [Except.mapError, bind, Except.bind]
    cases schema.validate <;> rfl

/-- A schema that is loaded is in a file. -/
theorem exists_locate_of_schemaAt {path : String} (h : tree.schemaAt path = .ok schema) :
    ∃ place, tree.locate path = some place := by
  rw [schemaAt, bind_eq_ok] at h
  obtain ⟨loaded, hload, -⟩ := h
  cases hlocate : tree.locate path with
  | some place => exact ⟨place, rfl⟩
  | none =>
    have hread : tree.readText path = none := by rw [readText, hlocate]; rfl
    rw [hread] at hload
    cases hload

/-- The query files of a project. The schema file is none of them. -/
def queryFiles (tree : FileTree) (settings : Settings) : List QueryFile :=
  (ElmBindings.queryFiles settings.root (tree.descendants settings.root)).filter fun file =>
    tree.locate file.path ≠ tree.locate settings.schema

theorem runOn_filesElsewhere (tree : FileTree) (place : List String) (files : List QueryFile) :
    runOn (filesElsewhere (store formatter) place files) tree =
      (.ok (files.filter fun file => tree.locate file.path ≠ some place), tree) := by
  induction files with
  | nil => rfl
  | cons file files ih =>
    have hhere : ((store formatter).location file.path).run tree =
      (tree.locate file.path, tree) := rfl
    rw [filesElsewhere, runOn_bind_lift hhere, runOn_bind, ih]
    by_cases h : tree.locate file.path = some place <;> simp [h]

theorem runOn_findQueryFiles {place : List String} (h : tree.locate settings.schema = some place) :
    runOn (findQueryFiles (store formatter) settings) tree = (.ok (tree.queryFiles settings), tree) := by
  have hschema : ((store formatter).location settings.schema).run tree = (some place, tree) := by
    rw [← h]
    rfl
  have hbelow : ((store formatter).descendants settings.root).run tree =
    (tree.descendants settings.root, tree) := rfl
  rw [findQueryFiles, runOn_bind_lift hschema, runOn_bind_lift hbelow, runOn_filesElsewhere,
    queryFiles, h]

/-! ## One query file -/

/-- The module for a query file, and the place where it is written. -/
def moduleFor (tree : FileTree) (settings : Settings) (schema : Schema) (file : QueryFile) :
    Except RunError (List String × String) := do
  let elm ← moduleText settings schema file (tree.readText file.path)
  match tree.target (outputPath file.path) with
  | some place => .ok (place, elm)
  | none => .error { cause := .file, context := ["writing " ++ outputPath file.path] }

/-- A module is made from the text of its query file, under the name of the file. -/
theorem moduleText_eq_ok {file : QueryFile} {text : Option String} {elm : String}
    (h : moduleText settings schema file text = .ok elm) :
    ∃ name source, moduleName file.relative = .ok name ∧ text = some source ∧
      generateModule schema { name, endpoint := settings.endpoint, method := settings.method } source =
        .ok elm := by
  rw [moduleText, bind_eq_ok] at h
  obtain ⟨name, hname, hgenerated⟩ := h
  rw [mapError_eq_ok] at hname hgenerated
  cases text with
  | none => cases hgenerated
  | some source => exact ⟨name, source, hname, rfl, hgenerated⟩

theorem moduleFor_eq_ok {file : QueryFile} {place : List String} {elm : String} :
    tree.moduleFor settings schema file = .ok (place, elm) ↔
      tree.target (outputPath file.path) = some place ∧
        moduleText settings schema file (tree.readText file.path) = .ok elm := by
  rw [moduleFor, bind_eq_ok]
  constructor
  · rintro ⟨text, htext, h⟩
    split at h
    · next htarget =>
      cases h
      exact ⟨htarget, htext⟩
    · cases h
  · rintro ⟨htarget, htext⟩
    exact ⟨elm, htext, by rw [htarget]⟩

theorem runOn_writeFile (tree : FileTree) (path content : String) :
    runOn (writeFile (store formatter) path content) tree =
      match tree.target path with
      | some place => (.ok (), tree.put place (.text content))
      | none => (.error { cause := .file, context := ["writing " ++ path] }, tree) := by
  have hwrite : ((store formatter).writeText path content).run tree =
      match tree.target path with
      | some place => (true, tree.put place (.text content))
      | none => (false, tree) := by
    simp only [store, writeText]
    cases h : tree.target path <;> simp [h] <;> rfl
  have hlift : runOn (liftM ((store formatter).writeText path content)) tree =
      (.ok (((store formatter).writeText path content).run tree).1,
        (((store formatter).writeText path content).run tree).2) := rfl
  rw [writeFile, runOn_bind, hlift, hwrite]
  cases tree.target path <;> rfl

/-- The step of a run: it writes the module of its query file, or it fails and changes nothing. -/
theorem runOn_generateFile (tree : FileTree) (schema : Schema) (file : QueryFile)
    (hformat : settings.format = false) :
    runOn (generateFile (store formatter) settings schema file) tree =
      match tree.moduleFor settings schema file with
      | .ok (place, elm) => (.ok (), tree.put place (.text elm))
      | .error e => (.error e, tree) := by
  have hread : ((store formatter).readText file.path).run tree =
    (tree.readText file.path, tree) := rfl
  rw [generateFile, runOn_bind_lift hread, runOn_bind, runOn_mk, moduleFor]
  cases moduleText settings schema file (tree.readText file.path) with
  | error e => rfl
  | ok elm =>
    simp only [runOn_bind, runOn_writeFile, hformat]
    cases tree.target (outputPath file.path) <;> rfl

/-! ## Query files that a scan finds -/

/-- Whether a scan of a directory finds a file in a tree. -/
def Finds (tree : FileTree) (root : String) (file : QueryFile) : Prop :=
  ∃ top dirs stem, tree.locate root = some top ∧ tree.Holds root top file dirs stem

section

variable {root : String} {file other : QueryFile} {place : List String}

/-- Two files that a scan finds are below one place. -/
theorem Finds.together (h : tree.Finds root file) (h' : tree.Finds root other) :
    ∃ top dirs stem dirs' stem',
      tree.Holds root top file dirs stem ∧ tree.Holds root top other dirs' stem' := by
  obtain ⟨top, dirs, stem, htop, h⟩ := h
  obtain ⟨top', dirs', stem', htop', h'⟩ := h'
  obtain rfl : top = top' := Option.some.inj (htop.symm.trans htop')
  exact ⟨top, dirs, stem, dirs', stem', h, h'⟩

theorem not_isDirectory_of_target {path : String} (h : tree.target path = some place) :
    tree.isDirectory place = false := by
  unfold target at h
  split at h
  · split at h
    · split_ifs at h with hfree
      cases h
      rw [Bool.and_eq_true, Bool.not_eq_true'] at hfree
      exact hfree.2
    · cases h
  · cases h

/-- The modules for two files are not written at one place. -/
theorem Finds.eq_of_target (h : tree.Finds root file) (h' : tree.Finds root other)
    (htarget : tree.target (outputPath file.path) = some place)
    (htarget' : tree.target (outputPath other.path) = some place) : file = other := by
  obtain ⟨top, dirs, stem, dirs', stem', h, h'⟩ := h.together h'
  rw [h.target_eq] at htarget
  rw [h'.target_eq] at htarget'
  split_ifs at htarget htarget'
  exact h.eq_of_modulePlace h' (Option.some.inj (htarget.trans htarget'.symm))

/-- No module is written over a query file. -/
theorem Finds.target_ne (h : tree.Finds root file) (h' : tree.Finds root other)
    (hplace : tree.locate other.path = some place) :
    tree.target (outputPath file.path) ≠ some place := by
  intro htarget
  obtain ⟨top, dirs, stem, dirs', stem', h, h'⟩ := h.together h'
  rw [h.target_eq] at htarget
  rw [h'.locate_path] at hplace
  split_ifs at htarget
  exact Holds.modulePlace_ne top dirs stem _ stem' (Option.some.inj (htarget.trans hplace.symm))

/-- A tree that grows takes the module where it did before. -/
theorem Finds.target_eq {later : FileTree} (h : tree.Finds root file) (hgrows : tree.Grows later) :
    later.target (outputPath file.path) = tree.target (outputPath file.path) := by
  obtain ⟨top, dirs, stem, -, h⟩ := h
  rw [h.target_eq, (h.grows hgrows).target_eq, hgrows.directory]

/-- A query file that nothing is written over keeps its text. -/
theorem Finds.readText_eq {later : FileTree} (h : tree.Finds root file) (hgrows : tree.Grows later)
    (hkept : ∀ place, tree.locate file.path = some place → later.get? place = tree.get? place) :
    later.readText file.path = tree.readText file.path := by
  obtain ⟨top, dirs, stem, -, h⟩ := h
  have hplace := h.locate_path
  rw [readText, readText, hplace, (h.grows hgrows).locate_path, Option.bind_some, Option.bind_some,
    hkept _ hplace]

/-- The text of a module is read under its path. -/
theorem Finds.readText_module {later : FileTree} {elm : String} (h : tree.Finds root file)
    (hgrows : tree.Grows later) (htarget : tree.target (outputPath file.path) = some place)
    (helm : later.get? place = some (.text elm)) :
    later.readText (outputPath file.path) = some elm := by
  obtain ⟨top, dirs, stem, -, h⟩ := h
  rw [h.target_eq] at htarget
  split_ifs at htarget
  cases htarget
  rw [readText, (h.grows hgrows).locate_outputPath (by rw [helm]; rfl), Option.bind_some, helm]

end

/-! ## The loop -/

/-- What the tree is after the modules for some files are written: each of them is at its place, and
every other place is as it was. -/
structure Wrote (settings : Settings) (schema : Schema) (tree : FileTree) (files : List QueryFile)
    (later : FileTree) : Prop where
  grows : tree.Grows later
  modules : ∀ file ∈ files, ∃ place elm,
    tree.moduleFor settings schema file = .ok (place, elm) ∧ later.get? place = some (.text elm)
  kept : ∀ place, (∀ file ∈ files, tree.target (outputPath file.path) ≠ some place) →
    later.get? place = tree.get? place

namespace Wrote

variable {root : String} {files : List QueryFile} {later : FileTree}

theorem nil (settings : Settings) (schema : Schema) (tree : FileTree) :
    Wrote settings schema tree [] tree :=
  ⟨Grows.refl tree, by simp, fun _ _ => rfl⟩

/-- A query file has its text after a part of a run. -/
theorem readText_eq (h : Wrote settings schema tree files later)
    (hfinds : ∀ file ∈ files, tree.Finds root file) {file : QueryFile}
    (hfile : tree.Finds root file) : later.readText file.path = tree.readText file.path :=
  hfile.readText_eq h.grows fun place hplace =>
    h.kept place fun other hother => (hfinds other hother).target_ne hfile hplace

/-- What is written for a file does not depend on what was written for others. -/
theorem moduleFor_eq (h : Wrote settings schema tree files later)
    (hfinds : ∀ file ∈ files, tree.Finds root file) {file : QueryFile}
    (hfile : tree.Finds root file) :
    later.moduleFor settings schema file = tree.moduleFor settings schema file := by
  rw [moduleFor, moduleFor, h.readText_eq hfinds hfile, hfile.target_eq h.grows]

/-- One more module keeps the ones before it. -/
theorem concat (h : Wrote settings schema tree files later)
    (hfinds : ∀ file ∈ files, tree.Finds root file) {file : QueryFile}
    (hfile : tree.Finds root file) (hnew : file ∉ files) {place : List String} {elm : String}
    (hmodule : tree.moduleFor settings schema file = .ok (place, elm)) :
    Wrote settings schema tree (files ++ [file]) (later.put place (.text elm)) := by
  obtain ⟨htarget, -⟩ := moduleFor_eq_ok.mp hmodule
  have hfree : later.isDirectory place = false := by
    rw [h.grows.directory]
    exact not_isDirectory_of_target htarget
  have hne : place ≠ [] := by
    rintro rfl
    simp [isDirectory, get?] at hfree
  refine ⟨h.grows.trans (grows_put elm hfree), ?_, ?_⟩
  · intro other hother
    rcases List.mem_append.mp hother with hother | hother
    · obtain ⟨place', elm', hmodule', hget⟩ := h.modules other hother
      refine ⟨place', elm', hmodule', ?_⟩
      -- two modules at one place would be those of one file
      rwa [get?_put_of_ne]
      rintro rfl
      have heq := (hfinds other hother).eq_of_target hfile (moduleFor_eq_ok.mp hmodule').1 htarget
      exact hnew (heq ▸ hother)
    · rw [List.mem_singleton.mp hother]
      exact ⟨place, elm, hmodule, get?_put_self later _ hne⟩
  · intro elsewhere helsewhere
    have hplace : elsewhere ≠ place := by
      rintro rfl
      exact helsewhere file (by simp) htarget
    rw [get?_put_of_ne _ _ hplace]
    exact h.kept elsewhere fun other hother => helsewhere other (List.mem_append_left [file] hother)

/-- The loop writes the modules of its files up to the first one that fails. -/
theorem run (formatter : List String → FileTree → FileTree) (hformat : settings.format = false)
    (rest : List QueryFile)
    (h : Wrote settings schema tree files later)
    (hfinds : ∀ file ∈ files ++ rest, tree.Finds root file) (hnodup : (files ++ rest).Nodup) :
    ∃ before after, rest = before ++ after ∧
      Wrote settings schema tree (files ++ before)
        (runOn (generateFiles (store formatter) settings schema rest) later).2 ∧
      (after = [] ∧
          (runOn (generateFiles (store formatter) settings schema rest) later).1 = .ok () ∨
        ∃ file rest' e, after = file :: rest' ∧ tree.moduleFor settings schema file = .error e ∧
          (runOn (generateFiles (store formatter) settings schema rest) later).1 = .error e) := by
  induction rest generalizing files later with
  | nil => exact ⟨[], [], rfl, by simpa [generateFiles] using h, .inl ⟨rfl, rfl⟩⟩
  | cons file rest ih =>
    have hfile : tree.Finds root file := hfinds file (by simp)
    have hfiles : ∀ file ∈ files, tree.Finds root file := fun other hother =>
      hfinds other (List.mem_append_left _ hother)
    -- the step is the one that the tree at the start would take
    rw [generateFiles, runOn_bind, runOn_generateFile later schema file hformat,
      h.moduleFor_eq hfiles hfile]
    cases hmodule : tree.moduleFor settings schema file with
    | error e =>
      exact ⟨[], file :: rest, rfl, by simpa using h, .inr ⟨file, rest, e, rfl, hmodule, rfl⟩⟩
    | ok written =>
      obtain ⟨place, elm⟩ := written
      have hnew : file ∉ files := fun hmem =>
        List.disjoint_of_nodup_append hnodup hmem List.mem_cons_self
      rw [List.append_cons] at hfinds hnodup
      obtain ⟨before, after, rfl, hwrote, hend⟩ :=
        ih (h.concat hfiles hfile hnew hmodule) hfinds hnodup
      exact ⟨file :: before, after, rfl, by rwa [List.append_cons], hend⟩

end Wrote

/-! ## Whole projects -/

theorem WellFormed.finds (hwf : tree.WellFormed) {file : QueryFile}
    (h : file ∈ tree.queryFiles settings) : tree.Finds settings.root file :=
  hwf.holds (List.mem_of_mem_filter h)

theorem WellFormed.nodup_found (hwf : tree.WellFormed) (settings : Settings) :
    (tree.queryFiles settings).Nodup :=
  (hwf.nodup_queryFiles settings.root).filter _

/-- The modules of a project have different paths. -/
theorem WellFormed.nodup_outputPaths (hwf : tree.WellFormed) (settings : Settings) :
    ((tree.queryFiles settings).map fun file => outputPath file.path).Nodup := by
  refine List.Nodup.map_on ?_ (hwf.nodup_found settings)
  intro file hfile other hother hpath
  obtain ⟨top, dirs, stem, dirs', stem', h, h'⟩ := (hwf.finds hfile).together (hwf.finds hother)
  exact h.eq_of_outputPath h' hpath

theorem WellFormed.outputPath_ne (hwf : tree.WellFormed) {file other : QueryFile}
    (hfile : file ∈ tree.queryFiles settings) (hother : other ∈ tree.queryFiles settings) :
    outputPath file.path ≠ other.path := by
  obtain ⟨top, dirs, stem, dirs', stem', h, h'⟩ := (hwf.finds hfile).together (hwf.finds hother)
  exact h.outputPath_ne h'

/-- A run in a tree with a schema goes through the query files. -/
theorem runOn_generateProject (h : tree.schemaAt settings.schema = .ok schema) :
    runOn (generateProject (store formatter) settings) tree =
      match runOn (generateFiles (store formatter) settings schema (tree.queryFiles settings)) tree with
      | (.ok _, later) => (.ok (.generated (tree.queryFiles settings).length), later)
      | (.error e, later) => (.error e, later) := by
  obtain ⟨place, hplace⟩ := exists_locate_of_schemaAt h
  rw [generateProject, runOn_bind, runOn_loadSchema, h]
  simp only [runOn_bind, runOn_findQueryFiles hplace]
  rcases runOn (generateFiles (store formatter) settings schema (tree.queryFiles settings)) tree with
    ⟨_ | _, _⟩ <;> rfl

end FileTree

/-- A run writes the modules of its query files, each made from the text that the file has at the start,
up to the first one that fails, and changes nothing else. The paths of the modules differ from one
another and from those of the query files. -/
theorem generateProject_changes {formatter : List String → FileTree → FileTree} {tree later : FileTree}
    {settings : Settings} {outcome : Except RunError Outcome} (hwf : tree.WellFormed)
    (hformat : settings.format = false)
    (hrun : runOn (generateProject (FileTree.store formatter) settings) tree = (outcome, later)) :
    ((tree.queryFiles settings).map fun file => outputPath file.path).Nodup ∧
    (∀ file ∈ tree.queryFiles settings, ∀ other ∈ tree.queryFiles settings,
      outputPath file.path ≠ other.path) ∧
    (∀ file ∈ tree.queryFiles settings, later.readText file.path = tree.readText file.path) ∧
    ((∃ e, tree.schemaAt settings.schema = .error e ∧ outcome = .error e ∧ later = tree) ∨
      ∃ schema before after, tree.schemaAt settings.schema = .ok schema ∧
        tree.queryFiles settings = before ++ after ∧
        (∀ file ∈ before, ∃ name source elm, moduleName file.relative = .ok name ∧
          tree.readText file.path = some source ∧
          generateModule schema { name, endpoint := settings.endpoint, method := settings.method }
            source = .ok elm ∧
          later.readText (outputPath file.path) = some elm) ∧
        (∀ place, (∀ file ∈ before, tree.target (outputPath file.path) ≠ some place) →
          later.get? place = tree.get? place) ∧
        (after = [] ∧ outcome = .ok (.generated (tree.queryFiles settings).length) ∨
          ∃ file rest e, after = file :: rest ∧ tree.moduleFor settings schema file = .error e ∧
            outcome = .error e)) := by
  refine ⟨hwf.nodup_outputPaths settings, fun file hfile other hother =>
    hwf.outputPath_ne hfile hother, ?_⟩
  cases hschema : tree.schemaAt settings.schema with
  | error e =>
    rw [generateProject, runOn_bind, FileTree.runOn_loadSchema, hschema] at hrun
    cases hrun
    exact ⟨fun _ _ => rfl, .inl ⟨e, rfl, rfl, rfl⟩⟩
  | ok schema =>
    have hfinds : ∀ file ∈ tree.queryFiles settings, tree.Finds settings.root file :=
      fun file hfile => hwf.finds hfile
    obtain ⟨before, after, hfiles, hwrote, hend⟩ :=
      (FileTree.Wrote.nil settings schema tree).run formatter hformat (tree.queryFiles settings)
        hfinds (hwf.nodup_found settings)
    rw [List.nil_append] at hwrote
    have hbefore : ∀ file ∈ before, tree.Finds settings.root file := fun file hfile =>
      hfinds file (hfiles ▸ List.mem_append_left after hfile)
    rw [FileTree.runOn_generateProject hschema] at hrun
    generalize runOn (generateFiles (FileTree.store formatter) settings schema
      (tree.queryFiles settings)) tree = result at hrun hwrote hend
    obtain rfl : result.2 = later := by
      rcases result with ⟨_ | _, _⟩ <;> cases hrun <;> rfl
    refine ⟨fun file hfile => hwrote.readText_eq hbefore (hfinds file hfile),
      .inr ⟨schema, before, after, rfl, hfiles, ?_, hwrote.kept, ?_⟩⟩
    · intro file hfile
      obtain ⟨place, elm, hmodule, hget⟩ := hwrote.modules file hfile
      obtain ⟨htarget, htext⟩ := FileTree.moduleFor_eq_ok.mp hmodule
      obtain ⟨name, source, hname, hsource, helm⟩ := FileTree.moduleText_eq_ok htext
      exact ⟨name, source, elm, hname, hsource, helm,
        (hbefore file hfile).readText_module hwrote.grows htarget hget⟩
    · rcases result with ⟨first, last⟩
      rcases hend with ⟨hafter, hfirst⟩ | ⟨file, rest, e, hafter, hmodule, hfirst⟩
      · left
        cases hfirst
        cases hrun
        exact ⟨hafter, rfl⟩
      · right
        cases hfirst
        cases hrun
        exact ⟨file, rest, e, hafter, hmodule, rfl⟩

namespace Sample

def meSchemaText : String := "type Query \x7b me: Int \x7d"

def meQueryText : String := "query q \x7b me \x7d"

/-- A text that is no document. -/
def brokenText : String := "query q"

/-- A project with three query files, which are not listed in the order of their names. The one in the middle
is broken. -/
def project : FileTree where
  entries := [(["api"], .directory), (["api", "schema.graphql"], .text meSchemaText),
    (["src"], .directory), (["src", "Me.graphql"], .text meQueryText),
    (["src", "Broken.graphql"], .text brokenText), (["src", "About.graphql"], .text meQueryText)]

def settings : Settings where
  root := "/src"
  schema := "/api/schema.graphql"
  endpoint := "/graphql"
  method := .get
  format := false

def aboutFile : QueryFile := ⟨"/src", ["About.graphql"]⟩

def brokenFile : QueryFile := ⟨"/src", ["Broken.graphql"]⟩

def meFile : QueryFile := ⟨"/src", ["Me.graphql"]⟩

def meSchema : Schema :=
  [TypeDef.object ⟨"Query", none, [], [fieldDef "me" (.named "Int")]⟩].foldl Schema.add
    (.ofQuery "Query")

def meDocument : Document := (Document.parse meQueryText).toOption.getD ⟨[]⟩

def meBinding : Binding where
  kind := .query
  name := "q"
  typeName := "Q"
  type := .record [(Naming.valueName "me", .maybe .int)]
  decoder := .map (.record (some "Q") [Naming.valueName "me"])
    [.maybe (.field "me" (.primitive .int))]
  inputs := []
  document := meQueryText

theorem wellFormed_project : project.WellFormed := by
  have hnames : ∀ place ∈ project.entries.map Prod.fst, ∀ name ∈ place,
      name ≠ "" ∧ name ≠ "." ∧ name ≠ ".." ∧ '/' ∉ name.toList := by decide
  refine ⟨by decide, fun place hplace name hname => ?_, by decide⟩
  obtain ⟨hempty, hcurrent, hparent, hslash⟩ := hnames place hplace name hname
  exact ⟨hempty, hcurrent, hparent, hslash⟩

theorem queryFiles_project : project.queryFiles settings = [aboutFile, brokenFile, meFile] := by
  have hbelow : (project.descendants settings.root).filter isQueryFile =
      [["Me.graphql"], ["Broken.graphql"], ["About.graphql"]] := rfl
  have horder : namesLE ["Me.graphql"] ["Broken.graphql"] = false ∧
      namesLE ["Broken.graphql"] ["About.graphql"] = false := by decide +kernel
  have hpassable : (Path.segments settings.root).all isPassable = true := rfl
  have hbase : scanBase settings.root = "/src" := rfl
  have helsewhere : ∀ file ∈ [aboutFile, brokenFile, meFile],
      project.locate file.path ≠ project.locate settings.schema := by decide
  rw [FileTree.queryFiles, queryFiles, if_pos hpassable, hbelow, hbase]
  simp only [List.forall_mem_cons] at helsewhere
  simpa [List.mergeSort, horder, aboutFile, brokenFile, meFile] using helsewhere

theorem schemaAt_project : project.schemaAt settings.schema = .ok meSchema := by
  have hread : project.readText settings.schema = some meSchemaText := rfl
  have hjson : (Path.extension? settings.schema).any (Text.sameIgnoringAsciiCase · "json") = false := rfl
  have hparse : Schema.parseDefinitions meSchemaText = .ok meSchema := by decide +kernel
  have hvalid : meSchema.validate = .ok () := rfl
  rw [FileTree.schemaAt, hread]
  simp only [Schema.ofFile, hjson, Bool.false_eq_true, if_false, hparse]
  exact bind_eq_ok.mpr ⟨meSchema, rfl, bind_eq_ok.mpr ⟨(), by rw [hvalid]; rfl, rfl⟩⟩

section

attribute [local irreducible] Naming.valueName

theorem ofDocument_me : Binding.ofDocument meSchema meDocument = .ok [meBinding] := by
  cbv

end

theorem exists_generateModule_me (options : ModuleOptions) :
    ∃ elm, generateModule meSchema options meQueryText = .ok elm := by
  have hparse : Document.parse meQueryText = .ok meDocument := eq_ok_getD (by decide +kernel) _
  obtain ⟨plan, hplan⟩ : ∃ plan, ModulePlan.ofBindings meSchema [meBinding] = .ok plan :=
    exists_eq_ok (by rfl)
  exact ⟨_, bind_eq_ok.mpr ⟨_, mapError_eq_ok.mpr hparse,
    bind_eq_ok.mpr ⟨_, ofDocument_me, bind_eq_ok.mpr ⟨plan, hplan, rfl⟩⟩⟩⟩

theorem moduleName_about : moduleName aboutFile.relative = .ok "About" := by rfl

theorem readText_about : project.readText aboutFile.path = some meQueryText := by rfl

theorem target_about : project.target (outputPath aboutFile.path) = some ["src", "About.elm"] := by rfl

theorem exists_moduleFor_about :
    ∃ elm, project.moduleFor settings meSchema aboutFile = .ok (["src", "About.elm"], elm) := by
  obtain ⟨elm, helm⟩ := exists_generateModule_me ⟨"About", "/graphql", .get⟩
  refine ⟨elm, FileTree.moduleFor_eq_ok.mpr ⟨target_about, ?_⟩⟩
  rw [readText_about]
  exact bind_eq_ok.mpr ⟨"About", mapError_eq_ok.mpr moduleName_about, mapError_eq_ok.mpr helm⟩

theorem readText_broken : project.readText brokenFile.path = some brokenText := by rfl

theorem generateModule_broken (schema : Schema) (options : ModuleOptions) (elm : String) :
    generateModule schema options brokenText ≠ .ok elm := by
  intro h
  obtain ⟨document, hdocument, -⟩ := bind_eq_ok.mp h
  have hnone : (Document.parse brokenText).toOption = none := by decide +kernel
  rw [mapError_eq_ok.mp hdocument] at hnone
  cases hnone

end Sample

/-- Three query files of which the second one is broken: the module of the first one is written, and nothing
else changes. -/
theorem generateProject_changes_broken :
    ∃ later elm e,
      Sample.project.queryFiles Sample.settings =
        [Sample.aboutFile, Sample.brokenFile, Sample.meFile] ∧
      runOn (generateProject (FileTree.store fun _ tree => tree) Sample.settings) Sample.project =
        (.error e, later) ∧
      Sample.project.moduleFor Sample.settings Sample.meSchema Sample.brokenFile = .error e ∧
      generateModule Sample.meSchema ⟨"About", "/graphql", .get⟩ Sample.meQueryText = .ok elm ∧
      later.readText (outputPath Sample.aboutFile.path) = some elm ∧
      ∀ place, place ≠ ["src", "About.elm"] → later.get? place = Sample.project.get? place := by
  rcases hrun : runOn (generateProject (FileTree.store fun _ tree => tree) Sample.settings)
    Sample.project with ⟨outcome, later⟩
  obtain ⟨-, -, -, hend⟩ := generateProject_changes Sample.wellFormed_project rfl hrun
  rcases hend with ⟨e, hschema, -⟩ |
    ⟨schema, before, after, hschema, hfiles, hmodules, hkept, hend⟩
  · cases Sample.schemaAt_project.symm.trans hschema
  cases Sample.schemaAt_project.symm.trans hschema
  rw [Sample.queryFiles_project] at hfiles
  -- the run stops where the broken file comes, which is after the first one
  have hbroken : Sample.brokenFile ∉ before := by
    intro hmem
    obtain ⟨name, source, elm, -, hsource, helm, -⟩ := hmodules _ hmem
    cases Sample.readText_broken.symm.trans hsource
    exact Sample.generateModule_broken _ _ _ helm
  rcases before with _ | ⟨first, _ | ⟨second, before⟩⟩
  · obtain ⟨elm, hmodule⟩ := Sample.exists_moduleFor_about
    rcases hend with ⟨rfl, -⟩ | ⟨file, rest, e, rfl, herror, -⟩
    · cases hfiles
    · cases hfiles
      cases hmodule.symm.trans herror
  · cases hfiles
    rcases hend with ⟨hafter, -⟩ | ⟨file, rest, e, hafter, herror, rfl⟩
    · cases hafter
    · cases hafter
      obtain ⟨name, source, elm, hname, hsource, helm, hread⟩ := hmodules _ List.mem_cons_self
      cases Sample.moduleName_about.symm.trans hname
      cases Sample.readText_about.symm.trans hsource
      refine ⟨later, elm, e, Sample.queryFiles_project, rfl, herror, helm, hread,
        fun place hplace => hkept place fun file hfile => ?_⟩
      rw [List.mem_singleton.mp hfile, Sample.target_about]
      exact fun heq => hplace (Option.some.inj heq).symm
  · simp only [List.cons_append, List.cons.injEq] at hfiles
    exact absurd (by simp [hfiles]) hbroken

end ElmBindings
