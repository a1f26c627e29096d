import ElmBindings.Proofs.JsonText
import ElmBindings.Proofs.ProjectRun

set_option autoImplicit false

/-! # Configuration of a project

A run that initialises a project writes the configuration file, and later runs in the same directory read
it. What is read is what was written (`Config.parse?_text`), for all texts, since every character comes back
from its escape; an entry that is not given is not written, and is then not given again. The settings of a
later run take each value from the command line or else from there (`run_init_settings`). -/

namespace ElmBindings

/-! ## Entries of an object on lines of their own -/

namespace Json

theorem skipBlanks_blank {c : Char} (h : isBlank c = true) (cs : List Char) :
    skipBlanks (c :: cs) = skipBlanks cs :=
  List.dropWhile_cons_of_pos h

/-- A string after a blank is read up to its closing quote. -/
theorem value?_quoted (budget : Nat) (s : String) (rest : List Char) :
    value? (budget + 1) (' ' :: ((quoted s).toList ++ rest)) = some (.string s, rest) := by
  rw [value?, skipBlanks_blank (by decide), toList_quoted, skipBlanks_cons (by decide)]
  simp [stringBody?_flatMap]

/-- The line of an entry with a string. -/
def entryLine (entry : String × String) : String :=
  "  " ++ quoted entry.1 ++ ": " ++ quoted entry.2

theorem skipBlanks_entryLine (entry : String × String) (rest : List Char) :
    skipBlanks ((entryLine entry).toList ++ rest) =
      '"' :: (entry.1.toList.flatMap escaped ++ '"' :: ':' :: ' ' :: ((quoted entry.2).toList ++ rest)) := by
  have hchars : (entryLine entry).toList ++ rest =
      ' ' :: ' ' :: '"' :: (entry.1.toList.flatMap escaped ++ '"' :: ':' :: ' ' ::
        ((quoted entry.2).toList ++ rest)) := by
    simp [entryLine, quoted]
  rw [hchars, skipBlanks_blank (by decide), skipBlanks_blank (by decide), skipBlanks_cons (by decide)]

/-- Entries with strings, as they are read. -/
def stringEntries (entries : List (String × String)) : List (String × Json) :=
  entries.map fun entry => (entry.1, .string entry.2)

/-- An entry is read from its line, and then the comma or the brace tells whether more entries follow. -/
theorem entriesUnder?_entryLine {keys : List String} {entry : String × String}
    (hkey : keys.contains entry.1 = true) (budget : Nat) (rest : List Char) :
    entriesUnder? keys (budget + 2) ((entryLine entry).toList ++ rest) =
      match skipBlanks rest with
      | ',' :: rest =>
        (entriesUnder? keys (budget + 1) rest).map fun more =>
          ((entry.1, .string entry.2) :: more.1, more.2)
      | '}' :: rest => some (stringEntries [entry], rest)
      | _ => none := by
  rw [entriesUnder?, skipBlanks_entryLine]
  simp only [stringBody?_flatMap, Option.bind_eq_bind, Option.bind_some, String.ofList_toList,
    skipBlanks_cons (show isBlank ':' = false by decide), entry?, hkey, if_true, value?_quoted,
    Option.map_some]
  generalize skipBlanks rest = next
  split
  · exact Option.map_eq_bind.symm
  · rfl
  · simp

theorem entriesUnder?_skipBlanks (keys : List String) (budget : Nat) (cs : List Char) :
    entriesUnder? keys (budget + 1) (skipBlanks cs) = entriesUnder? keys (budget + 1) cs := by
  have hagain : skipBlanks (skipBlanks cs) = skipBlanks cs := List.dropWhile_idempotent ..
  rw [entriesUnder?, entriesUnder?, hagain]

/-- Entries are read back from their lines, if there are as many steps. -/
theorem entriesUnder?_lines {keys : List String} {entries : List (String × String)} (hne : entries ≠ [])
    (hkeys : ∀ entry ∈ entries, keys.contains entry.1 = true) {budget : Nat}
    (hbudget : entries.length < budget) (rest : List Char) :
    entriesUnder? keys budget ((",\n".intercalate (entries.map entryLine)).toList ++ '\n' :: '}' :: rest) =
      some (stringEntries entries, rest) := by
  induction entries generalizing budget with
  | nil => exact absurd rfl hne
  | cons entry entries ih =>
    obtain ⟨hkey, hkeys⟩ := List.forall_mem_cons.mp hkeys
    -- each entry takes one step, and the value of the last one takes another
    rw [List.length_cons] at hbudget
    obtain ⟨budget, rfl⟩ : ∃ n, budget = n + 2 := ⟨budget - 2, by omega⟩
    cases entries with
    | nil =>
      rw [List.map_singleton, String.intercalate_singleton, entriesUnder?_entryLine hkey,
        skipBlanks_blank (by decide), skipBlanks_cons (by decide)]
      rfl
    | cons next entries =>
      have hmore := ih (by simp) hkeys (show (next :: entries).length < budget + 1 by omega)
      have hsplit : (",\n".intercalate ((entry :: next :: entries).map entryLine)).toList ++
          '\n' :: '}' :: rest = (entryLine entry).toList ++ ',' :: '\n' ::
            ((",\n".intercalate ((next :: entries).map entryLine)).toList ++ '\n' :: '}' :: rest) := by
        simp [String.intercalate_cons_cons]
      rw [hsplit, entriesUnder?_entryLine hkey, skipBlanks_cons (by decide)]
      change Option.map _ (entriesUnder? keys (budget + 1) _) = _
      rw [← entriesUnder?_skipBlanks, skipBlanks_blank (by decide), entriesUnder?_skipBlanks, hmore]
      rfl

/-- An object with its entries on lines. -/
def linesObject (entries : List (String × String)) : String :=
  "\x7b\n" ++ ",\n".intercalate (entries.map entryLine) ++ "\n\x7d\n"

theorem length_le_linesObject (entries : List (String × String)) :
    entries.length ≤ (linesObject entries).length := by
  have hlines : entries.length ≤ (",\n".intercalate (entries.map entryLine)).length := by
    induction entries with
    | nil => simp
    | cons entry entries ih =>
      cases entries with
      | nil =>
        simp only [List.map_cons, List.map_nil, String.intercalate_singleton, entryLine,
          String.length_append, List.length_cons, List.length_nil]
        have hblanks : "  ".length = 2 := rfl
        omega
      | cons next entries =>
        simp only [List.map_cons, String.intercalate_cons_cons, String.length_append,
          List.length_cons] at ih ⊢
        have hcomma : ",\n".length = 2 := rfl
        omega
  rw [linesObject, String.length_append, String.length_append]
  omega

/-- An object is read back from its lines. -/
theorem skim?_linesObject {keys : List String} {entries : List (String × String)} (hne : entries ≠ [])
    (hkeys : ∀ entry ∈ entries, keys.contains entry.1 = true) :
    skim? keys (linesObject entries) = some (.object (stringEntries entries)) := by
  have hchars : (linesObject entries).toList = '{' :: '\n' ::
      ((",\n".intercalate (entries.map entryLine)).toList ++ '\n' :: '}' :: ['\n']) := by
    simp [linesObject]
  have hread := entriesUnder?_lines hne hkeys
    (Nat.lt_succ_of_le (length_le_linesObject entries)) ['\n']
  -- the first thing after the brace is the quote of the first key
  obtain ⟨tail, htail⟩ : ∃ tail, skipBlanks ((",\n".intercalate (entries.map entryLine)).toList ++
      '\n' :: '}' :: ['\n']) = '"' :: tail := by
    obtain ⟨entry, entries, rfl⟩ := List.exists_cons_of_ne_nil hne
    cases entries with
    | nil =>
      rw [List.map_singleton, String.intercalate_singleton]
      exact ⟨_, skipBlanks_entryLine entry _⟩
    | cons next entries =>
      rw [List.map_cons, List.map_cons, String.intercalate_cons_cons, String.toList_append,
        String.toList_append, List.append_assoc, List.append_assoc]
      exact ⟨_, skipBlanks_entryLine entry _⟩
  rw [← entriesUnder?_skipBlanks, htail] at hread
  rw [skim?, String.length_toList, hchars, skipBlanks_cons (by decide)]
  simp only [skipBlanks_blank (show isBlank '\n' = true by decide), htail, Option.bind_eq_bind]
  change ((entriesUnder? keys ((linesObject entries).length + 1) ('"' :: tail)).bind fun read =>
    whole? (.object read.1, read.2)) = _
  rw [hread]
  rfl

end Json

namespace Config

theorem text_eq (config : Config) :
    config.text = if config.entries = [] then "\x7b\x7d\n" else Json.linesObject config.entries := by
  unfold text
  split
  · next h => rw [if_pos h]
  · next h =>
    rw [if_neg h]
    rfl

theorem contains_of_mem_entries {config : Config} {entry : String × String} (h : entry ∈ config.entries) :
    keys.contains entry.1 = true := by
  obtain ⟨⟨key, value⟩, hkey, hentry⟩ := List.mem_filterMap.mp h
  obtain ⟨given, -, rfl⟩ := Option.map_eq_some_iff.mp hentry
  simp only [List.mem_cons, Prod.mk.injEq, List.not_mem_nil, or_false] at hkey
  rcases hkey with ⟨rfl, -⟩ | ⟨rfl, -⟩ | ⟨rfl, -⟩ <;> rfl

/-- The entries of a configuration give it back. -/
theorem ofJson?_entries (config : Config) :
    ofJson? (.object (Json.stringEntries config.entries)) = some config := by
  rcases config with ⟨_ | endpoint, _ | schema, _ | method⟩ <;> rfl

/-- A configuration is read back from its text. -/
theorem parse?_text (config : Config) : parse? config.text = some config := by
  have hentries := ofJson?_entries config
  rw [parse?, text_eq]
  split_ifs with hempty
  · have hskim : Json.skim? keys "\x7b\x7d\n" = some (.object []) := by rfl
    rw [hempty] at hentries
    rw [hskim]
    exact hentries
  · rw [Json.skim?_linesObject hempty fun entry => contains_of_mem_entries]
    exact hentries

end Config

/-! ## Settings -/

/-- A method is read back from its name. -/
theorem HttpMethod.parse_name (method : HttpMethod) : parse method.name = .ok method := by
  cases method <;> rfl

/-- The method of the command line counts, or else that of the configuration, or else the usual one. -/
theorem resolveMethod_name (given configured : Option HttpMethod) :
    resolveMethod given (configured.map HttpMethod.name) = .ok ((given.or configured).getD .get) := by
  cases given with
  | some method => rfl
  | none =>
    cases configured with
    | none => rfl
    | some method =>
      rw [Option.map_some, resolveMethod, HttpMethod.parse_name]
      rfl

/-! ## A file of a directory -/

theorem Path.isName_configName : IsName Config.fileName := by
  refine ⟨?_, ?_, ?_, ?_⟩ <;> decide

/-- The path of a file in a directory is the path of the directory, up to a slash at its end, and the name. -/
theorem Path.segments_join (dir : String) {name : String} (hname : IsName name) :
    ∃ front, segments (join dir name) = front ++ [name] ∧
      (segments dir = front ∨ segments dir = front ++ [""]) := by
  have hsegment : segments name = [name] := segments_of_no_slash hname.no_slash
  have hrelative : isAbsolute name = false := by
    rw [isAbsolute, beq_eq_false_iff_ne]
    intro hhead
    exact hname.no_slash (List.mem_of_head? hhead)
  unfold join
  rw [hrelative, Bool.false_or]
  by_cases hempty : dir = ""
  · subst hempty
    exact ⟨[], by simpa using hsegment, .inr rfl⟩
  rw [if_neg (by simpa using hempty)]
  by_cases hslash : dir.toList.getLast? = some '/'
  · rw [if_pos hslash]
    obtain ⟨cs, hcs⟩ := List.getLast?_eq_some_iff.mp hslash
    have hdir : dir = String.ofList cs ++ "/" ++ "" := String.toList_inj.mp (by simpa using hcs)
    refine ⟨segments (String.ofList cs), ?_, .inr ?_⟩
    · rw [← hsegment, ← segments_append, hdir, String.append_empty]
    · rw [hdir, segments_append]
      rfl
  · rw [if_neg hslash]
    exact ⟨segments dir, by rw [segments_append, hsegment], .inl rfl⟩

namespace FileTree

variable {tree : FileTree} {dir name : String} {place : List String}

/-- The segments before the name of a file lead to its directory. -/
theorem walk_front {front : List String} (h : tree.walk (Path.segments dir) = some place)
    (hfront : Path.segments dir = front ∨ Path.segments dir = front ++ [""]) :
    tree.walk front = some place := by
  rcases hfront with hfront | hfront
  · rwa [hfront] at h
  · rw [hfront, walk, List.foldlM_append] at h
    obtain ⟨last, hlast, hstep⟩ := Option.bind_eq_some_iff.mp h
    -- an empty segment leads nowhere else
    have hstay : last = place := by
      simp only [List.foldlM_cons, List.foldlM_nil, step] at hstep
      split at hstep
      · cases hstep
      · simpa using hstep
    rwa [hstay] at hlast

theorem target_join (h : tree.walk (Path.segments dir) = some place)
    (hplace : tree.isDirectory place = true) (hname : Path.IsName name)
    (hfree : tree.isDirectory (place ++ [name]) = false) :
    tree.target (Path.join dir name) = some (place ++ [name]) := by
  obtain ⟨front, hsegments, hfront⟩ := Path.segments_join dir hname
  rw [target, hsegments, List.getLast?_concat, Option.bind_some, Path.ofSegment?_name hname,
    List.dropLast_concat]
  simp [walk_front h hfront, hplace, hfree]

theorem locate_join (h : tree.walk (Path.segments dir) = some place)
    (hplace : tree.isDirectory place = true) (hname : Path.IsName name)
    (hpresent : (tree.get? (place ++ [name])).isSome = true) :
    tree.locate (Path.join dir name) = some (place ++ [name]) := by
  obtain ⟨front, hsegments, hfront⟩ := Path.segments_join dir hname
  have hne : Path.join dir name ≠ "" := by
    intro hempty
    have hlast := congrArg List.getLast? hsegments
    rw [hempty, List.getLast?_concat] at hlast
    exact hname.ne_empty (Option.some.inj hlast).symm
  have hwalk := walk_front h hfront
  rw [walk] at hwalk
  rw [locate, if_neg hne, hsegments, walk, List.foldlM_append, hwalk]
  simpa using step_name hplace hname hpresent

/-- Whether a file of a name can be written in a directory of a tree: nothing but another directory of that
name is in the way. -/
def Takes (tree : FileTree) (dir name : String) : Prop :=
  ∃ place, tree.walk (Path.segments dir) = some place ∧ tree.isDirectory place = true ∧
    tree.isDirectory (place ++ [name]) = false

/-- What is written in a directory is found there. -/
theorem Takes.exists_put (h : tree.Takes dir name) (hname : Path.IsName name) (content : String) :
    ∃ place, tree.target (Path.join dir name) = some place ∧
      (tree.put place (.text content)).locate (Path.join dir name) = some place ∧
      (tree.put place (.text content)).readText (Path.join dir name) = some content := by
  obtain ⟨place, hwalk, hplace, hfree⟩ := h
  have hgrows := grows_put content hfree
  have hput : (tree.put (place ++ [name]) (.text content)).get? (place ++ [name]) =
    some (.text content) := get?_put_self tree _ (by simp)
  have hlocate : (tree.put (place ++ [name]) (.text content)).locate (Path.join dir name) =
      some (place ++ [name]) :=
    locate_join (hgrows.walk hwalk) (by rw [hgrows.directory, hplace]) hname (by rw [hput]; rfl)
  exact ⟨_, target_join hwalk hplace hname hfree, hlocate,
    by rw [readText, hlocate, Option.bind_some, hput]⟩

/-- The configuration of a directory is what its file is read as. -/
theorem runOn_loadConfig {formatter : List String → FileTree → FileTree} {text : String} {config : Config}
    (hlocate : tree.locate (Path.join dir Config.fileName) = some place)
    (hread : tree.readText (Path.join dir Config.fileName) = some text)
    (hparse : Config.parse? text = some config) :
    runOn (loadConfig (store formatter) dir) tree = (.ok config, tree) := by
  have hpresent : ((store formatter).isPresent (Path.join dir Config.fileName)).run tree =
      (true, tree) := by
    have hsome : (tree.locate (Path.join dir Config.fileName)).isSome = true := by rw [hlocate]; rfl
    rw [← hsome]
    rfl
  have htext : ((store formatter).readText (Path.join dir Config.fileName)).run tree =
      (some text, tree) := by
    rw [← hread]
    rfl
  rw [loadConfig, runOn_bind_lift hpresent, if_pos rfl, runOn_bind_lift htext]
  simp only [hparse, runOn_pure]

end FileTree

/-! ## Initialised projects -/

/-- The configuration for an endpoint, a schema and a method. -/
def Config.given (endpoint : String) (schema : Option String) (method : Option HttpMethod) : Config where
  endpoint := some endpoint
  schema := schema
  method := method.map HttpMethod.name

/-- Settings over a configuration come from the command line where it gives them and from the configuration
otherwise, and need a schema from one of the two. -/
theorem Settings.resolve_given (arguments : Arguments) (endpoint : String) (schema : Option String)
    (method : Option HttpMethod) (dir : String) :
    Settings.resolve arguments (.given endpoint schema method) dir =
      match arguments.schema.or schema with
      | none =>
        .error (.usage ("no schema file given; pass --schema PATH or set \"schema\" in " ++ Config.fileName))
      | some path =>
        .ok
          { endpoint := arguments.endpoint.getD endpoint
            schema := Path.join dir path
            method := (arguments.method.or method).getD .get
            root := Path.normalized (Path.join dir arguments.root)
            format := !arguments.noFormat } := by
  have hendpoint : (arguments.endpoint <|> some endpoint) = some (arguments.endpoint.getD endpoint) := by
    cases arguments.endpoint <;> rfl
  have hschema : (arguments.schema <|> schema) = arguments.schema.or schema := by
    cases arguments.schema <;> rfl
  simp only [Settings.resolve, Config.given, hendpoint, resolveMethod_name, hschema]
  cases arguments.schema.or schema <;> rfl

/-- A run that initialises a directory succeeds where the file can be written, and the configuration is then
the one that its command line gives. Settings of later runs there take what their own command lines give, and
the rest from the configuration; a schema is all that can be missing. -/
theorem run_init_settings {formatter : List String → FileTree → FileTree} {tree : FileTree} {dir : String}
    {arguments : Arguments} {endpoint : String} (hinit : arguments.init = true)
    (hendpoint : arguments.endpoint = some endpoint) (hdir : tree.Takes dir Config.fileName) :
    ∃ later,
      runOn (run (FileTree.store formatter) arguments dir) tree =
        (.ok (.initialized (Path.join dir Config.fileName)), later) ∧
      runOn (loadConfig (FileTree.store formatter) dir) later =
        (.ok (.given endpoint arguments.schema arguments.method), later) ∧
      ∀ next : Arguments,
        ((∃ e, Settings.resolve next (.given endpoint arguments.schema arguments.method) dir = .error e) ↔
          next.schema = none ∧ arguments.schema = none) ∧
        ∀ schema, next.schema.or arguments.schema = some schema →
          Settings.resolve next (.given endpoint arguments.schema arguments.method) dir =
            .ok
              { endpoint := next.endpoint.getD endpoint
                schema := Path.join dir schema
                method := (next.method.or arguments.method).getD .get
                root := Path.normalized (Path.join dir next.root)
                format := !next.noFormat } := by
  have hconfig : Config.ofArguments? arguments =
      some (.given endpoint arguments.schema arguments.method) := by
    rw [Config.ofArguments?, hendpoint]
    rfl
  obtain ⟨place, htarget, hlocate, hread⟩ := hdir.exists_put Path.isName_configName
    (Config.given endpoint arguments.schema arguments.method).text
  refine ⟨_, ?_, FileTree.runOn_loadConfig hlocate hread (Config.parse?_text _), fun next => ⟨?_, ?_⟩⟩
  · rw [run, if_pos hinit, writeConfig, hconfig]
    simp only [runOn_bind, FileTree.runOn_writeFile, htarget, runOn_pure]
  · rw [Settings.resolve_given, ← Option.or_eq_none_iff]
    cases next.schema.or arguments.schema <;> simp
  · intro schema hschema
    rw [Settings.resolve_given, hschema]

namespace Sample

/-- A command line that asks for a configuration with quotes, line ends and a control character. -/
def initArguments : Arguments where
  endpoint := some "/graph\"ql\\\n\x01é"
  init := true
  method := some .post

/-- A command line that gives another endpoint, and the schema that the configuration lacks. -/
def laterArguments : Arguments where
  endpoint := some "/other"
  schema := some "schema.graphql"
  root := "./src"

theorem takes_configName : project.Takes "/api/" Config.fileName :=
  ⟨["api"], by decide, by decide, by decide⟩

end Sample

theorem run_init_settings_quoted :
    ∃ later,
      runOn (run (FileTree.store fun _ tree => tree) Sample.initArguments "/api/") Sample.project =
        (.ok (.initialized "/api/graphelm.json"), later) ∧
      runOn (loadConfig (FileTree.store fun _ tree => tree) "/api/") later =
        (.ok ⟨some "/graph\"ql\\\n\x01é", none, some "POST"⟩, later) ∧
      (∃ e, Settings.resolve {} ⟨some "/graph\"ql\\\n\x01é", none, some "POST"⟩ "/api/" = .error e) ∧
      Settings.resolve Sample.laterArguments ⟨some "/graph\"ql\\\n\x01é", none, some "POST"⟩ "/api/" =
        .ok ⟨"/other", "/api/schema.graphql", .post, "/api/src", true⟩ := by
  obtain ⟨later, hrun, hload, hsettings⟩ := @run_init_settings (fun _ tree => tree) Sample.project "/api/"
    Sample.initArguments _ rfl rfl Sample.takes_configName
  exact ⟨later, hrun, hload, (hsettings {}).1.mpr ⟨rfl, rfl⟩,
    (hsettings Sample.laterArguments).2 "schema.graphql" rfl⟩

end ElmBindings
