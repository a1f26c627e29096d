import ElmBindings.Proofs.DecoderReading
import ElmBindings.Proofs.OsPaths

set_option autoImplicit false

/-! # Names of modules

The name of a module is made of the names of a path: those that follow the last source directory
(`IsBelowSource`), each with its letters and digits alone and a capital at its start (`IsPartFor`). There is
no name only if the path is not text, or has no names, or one of them is of no use (`IsUnfit`). -/

namespace ElmBindings

/-! ## Runs of letters and digits -/

namespace Text

variable {isSeparator : Char → Bool}

/-- Runs hold everything but the separators, in order. -/
theorem flatten_runsBetween (cs : List Char) :
    (runsBetween isSeparator cs).flatten = cs.filter fun c => !isSeparator c := by
  induction cs with
  | nil => rfl
  | cons c cs ih =>
    rw [runsBetween]
    split
    · next hc => rw [List.flatten_cons, ih, List.filter_cons_of_neg (by simp [hc]), List.nil_append]
    · next hc =>
      rw [List.filter_cons_of_pos (by simp [hc]), ← ih]
      cases hruns : runsBetween isSeparator cs with
      | nil => exact absurd hruns (runsBetween_ne_nil cs)
      | cons run runs => rfl

end Text

/-! ## Parts of a module name -/

/-- Whether a text is a part of a module name for a name of a path: a capital and then letters and digits,
which are those of the name but for their case. -/
structure IsPartFor (name part : String) : Prop where
  shape : ∃ c cs, part.toList = c :: cs ∧ c.isUpper = true ∧ ∀ x ∈ cs, x.isAlphanum = true
  letters : part.toList.map Char.toLower = (name.toList.filter Char.isAlphanum).map Char.toLower

/-- Whether no part of a module name can be made of a name: it has no letter or digit, or a digit comes
first. -/
def IsUnfit (name : String) : Prop :=
  (∀ c ∈ name.toList, c.isAlphanum = false) ∨
    ∃ c, name.toList.find? Char.isAlphanum = some c ∧ c.isDigit = true

theorem isAlphanum_toUpper {c : Char} (hc : c.isAlphanum = true) :
    c.toUpper.isAlphanum = true ∧ c.toUpper.toLower = c.toLower ∧
      c.toUpper.isUpper = !c.isDigit := by
  refine Elm.forall_isWordChar
    (P := fun c => c.isAlphanum = true → c.toUpper.isAlphanum = true ∧
      c.toUpper.toLower = c.toLower ∧ c.toUpper.isUpper = !c.isDigit) ?_ (by simp [Elm.isWordChar, hc]) hc
  decide +kernel

theorem toList_capitalize {c : Char} {cs : List Char} (hc : c.isAlphanum = true) :
    (Naming.capitalize (String.ofList (c :: cs))).toList = c.toUpper :: cs := by
  have hascii : c.toNat < 0x80 := Elm.toNat_lt_of_isWordChar (by simp [Elm.isWordChar, hc])
  simp [Naming.capitalize, Text.upper, hascii]

/-- Words with capitals have the letters of the words. -/
theorem capitalized_words {runs : List (List Char)}
    (h : ∀ run ∈ runs, run ≠ [] ∧ ∀ c ∈ run, c.isAlphanum = true) :
    let chars := runs.flatMap fun run => (Naming.capitalize (String.ofList run)).toList
    (∀ c ∈ chars, c.isAlphanum = true) ∧
      chars.map Char.toLower = runs.flatten.map Char.toLower ∧
      chars.head? = runs.flatten.head?.map Char.toUpper := by
  induction runs with
  | nil => simp
  | cons run runs ih =>
    obtain ⟨⟨hne, hrun⟩, hruns⟩ := List.forall_mem_cons.mp h
    obtain ⟨hall, hlower, -⟩ := ih hruns
    obtain ⟨c, cs, rfl⟩ := List.exists_cons_of_ne_nil hne
    obtain ⟨hc, hcs⟩ := List.forall_mem_cons.mp hrun
    obtain ⟨hupper, hsame, -⟩ := isAlphanum_toUpper hc
    simp only [List.flatMap_cons, toList_capitalize hc, List.flatten_cons]
    refine ⟨?_, ?_, rfl⟩
    · simp only [List.cons_append, List.forall_mem_cons, List.forall_mem_append]
      exact ⟨hupper, hcs, hall⟩
    · simp only [List.map_append, List.map_cons, hsame, hlower]

/-- A segment of a module name is the text that its words make, if that starts with a capital. -/
theorem moduleSegment?_eq (name : String) :
    ∃ text : String,
      moduleSegment? name = (if text.toList.head?.any Char.isUpper then some text else none) ∧
      (∀ c ∈ text.toList, c.isAlphanum = true) ∧
      text.toList.map Char.toLower = (name.toList.filter Char.isAlphanum).map Char.toLower ∧
      text.toList.head? = (name.toList.filter Char.isAlphanum).head?.map Char.toUpper := by
  have hwords : ∀ run ∈ (Text.runsBetween (fun c => !c.isAlphanum) name.toList).filter (!·.isEmpty),
      run ≠ [] ∧ ∀ c ∈ run, c.isAlphanum = true := by
    intro run hrun
    obtain ⟨hrun, hne⟩ := List.mem_filter.mp hrun
    refine ⟨by simpa using hne, fun c hc => ?_⟩
    simpa using Text.not_mem_of_mem_runsBetween hrun c hc
  have hletters : ((Text.runsBetween (fun c => !c.isAlphanum) name.toList).filter (!·.isEmpty)).flatten =
      name.toList.filter Char.isAlphanum := by
    rw [List.flatten_filter_not_isEmpty, Text.flatten_runsBetween]
    simp
  refine ⟨String.join ((Text.wordsBetween (fun c => !c.isAlphanum) name).map Naming.capitalize),
    rfl, ?_⟩
  have htext :
      (String.join ((Text.wordsBetween (fun c => !c.isAlphanum) name).map Naming.capitalize)).toList =
        ((Text.runsBetween (fun c => !c.isAlphanum) name.toList).filter (!·.isEmpty)).flatMap
          fun run => (Naming.capitalize (String.ofList run)).toList := by
    simp [Text.wordsBetween, String.toList_join, List.flatMap_def, Function.comp_def]
  rw [htext, ← hletters]
  exact capitalized_words hwords

/-- A name gives a part of a module name unless it is unfit. -/
theorem moduleSegment?_cases (name : String) :
    (∃ part, moduleSegment? name = some part ∧ IsPartFor name part) ∨
      moduleSegment? name = none ∧ IsUnfit name := by
  obtain ⟨text, heq, hall, hlower, hhead⟩ := moduleSegment?_eq name
  rw [heq]
  cases hfirst : (name.toList.filter Char.isAlphanum).head? with
  | none =>
    rw [hfirst] at hhead
    refine .inr ⟨by simp [hhead], .inl fun c hc => ?_⟩
    simpa using List.filter_eq_nil_iff.mp (List.head?_eq_none_iff.mp hfirst) c hc
  | some c =>
    rw [hfirst] at hhead
    have hc : c.isAlphanum = true := (List.mem_filter.mp (List.mem_of_mem_head? hfirst)).2
    have hupper := (isAlphanum_toUpper hc).2.2
    cases hdigit : c.isDigit with
    | true =>
      refine .inr ⟨by simp [hhead, hupper, hdigit], .inr ⟨c, ?_, hdigit⟩⟩
      rw [← List.head?_filter, hfirst]
    | false =>
      obtain ⟨cs, hcs⟩ := List.head?_eq_some_iff.mp hhead
      refine .inl ⟨text, by simp [hhead, hupper, hdigit],
        ⟨c.toUpper, cs, hcs, by simp [hupper, hdigit], fun x hx => hall x ?_⟩, hlower⟩
      rw [hcs]
      exact List.mem_cons_of_mem _ hx

/-! ## Below the source directory -/

/-- Whether names are those that follow the last source directory, or all names if there is none. The last
name is no directory. -/
structure IsBelowSource (names below : List String) : Prop where
  ne_nil : below ≠ []
  no_source : sourceDirectory ∉ below.dropLast
  exists_above : ∃ above, names = above ++ below ∧
    (above = [] ∨ above.getLast? = some sourceDirectory)

theorem isBelowSource_belowSource {names : List String} (h : names ≠ []) :
    IsBelowSource names (belowSource names) := by
  obtain ⟨directories, last, rfl⟩ := (List.eq_nil_or_concat' names).resolve_left h
  have hbelow : belowSource (directories ++ [last]) =
      (directories.reverse.takeWhile (· ≠ sourceDirectory)).reverse ++ [last] := by
    simp [belowSource]
  have hsplit := List.takeWhile_append_dropWhile (p := fun name => decide (name ≠ sourceDirectory))
    (l := directories.reverse)
  have hhead := List.head?_dropWhile_not (fun name => decide (name ≠ sourceDirectory))
    directories.reverse
  rw [hbelow]
  refine ⟨by simp, ?_, (directories.reverse.dropWhile (· ≠ sourceDirectory)).reverse, ?_, ?_⟩
  · rw [List.dropLast_concat, List.mem_reverse]
    intro hsource
    simpa using List.mem_takeWhile_imp hsource
  · rw [← List.append_assoc, ← List.reverse_append, hsplit, List.reverse_reverse]
  · rw [List.getLast?_reverse]
    cases hdrop : directories.reverse.dropWhile (fun name => decide (name ≠ sourceDirectory)) with
    | nil => exact .inl rfl
    | cons name rest =>
      rw [hdrop] at hhead
      exact .inr (by simpa using hhead)

/-! ## The name of a module -/

theorem mapM_eq_none {α β : Type} {f : α → Option β} {xs : List α} (h : xs.mapM f = none) :
    ∃ x ∈ xs, f x = none := by
  induction xs with
  | nil => cases h
  | cons x xs ih =>
    rw [List.mapM_cons] at h
    cases hx : f x with
    | none => exact ⟨x, List.mem_cons_self, hx⟩
    | some y =>
      cases hxs : xs.mapM f with
      | none =>
        obtain ⟨x', hx', hnone⟩ := ih hxs
        exact ⟨x', List.mem_cons_of_mem x hx', hnone⟩
      | some ys =>
        rw [hx, hxs] at h
        cases h

/-- What the name of a module is made of, or why there is none. -/
theorem moduleNameOf_cases (path : String) (names : List String) :
    (∃ below parts, moduleNameOf path names = .ok (".".intercalate parts) ∧
      IsBelowSource names below ∧ List.Forall₂ IsPartFor below parts) ∨
    (∃ e, moduleNameOf path names = .error e) ∧
      (names = [] ∨ ∃ below, IsBelowSource names below ∧ ∃ name ∈ below, IsUnfit name) := by
  by_cases hempty : names = []
  · exact .inr ⟨⟨_, by rw [moduleNameOf, hempty]; rfl⟩, .inl hempty⟩
  have hbelow := isBelowSource_belowSource hempty
  rw [moduleNameOf, if_neg (by simpa using hempty)]
  cases hparts : (belowSource names).mapM moduleSegment? with
  | some parts =>
    refine .inl ⟨_, parts, rfl, hbelow, (mapM_eq_some_iff.mp hparts).imp fun name part hpart => ?_⟩
    rcases moduleSegment?_cases name with ⟨part', hpart', hfor⟩ | ⟨hnone, -⟩
    · cases hpart.symm.trans hpart'
      exact hfor
    · cases hpart.symm.trans hnone
  | none =>
    obtain ⟨name, hname, hnone⟩ := mapM_eq_none hparts
    refine .inr ⟨⟨_, rfl⟩, .inr ⟨_, hbelow, name, hname, ?_⟩⟩
    rcases moduleSegment?_cases name with ⟨part, hpart, -⟩ | ⟨-, hunfit⟩
    · cases hpart.symm.trans hnone
    · exact hunfit

namespace OsPath

/-- A path that is text has all its names. -/
theorem text?_eq_none_of_stemNames? {path : OsPath} (h : path.stemNames? = none) :
    path.text? = none := by
  cases htext : path.text? with
  | none => rfl
  | some text =>
    rw [eq_ofText_of_text? htext, stemNames?_ofText] at h
    cases h

/-- The name of a module has a part for each name of the path below the last source directory, when the
extension of the file is cut off. There is no name only if the path is not text, or no names are left of it,
or one of those is of no use. -/
theorem moduleName_isElmName (path : OsPath) :
    ((∃ names below parts, path.stemNames? = some names ∧ IsBelowSource names below ∧
        parts ≠ [] ∧ List.Forall₂ IsPartFor below parts ∧
        path.moduleName = .ok (".".intercalate parts)) ∨
      (∃ e, path.moduleName = .error e) ∧
        (path.text? = none ∨ path.stemNames? = some [] ∨
          ∃ names below, path.stemNames? = some names ∧ IsBelowSource names below ∧
            ∃ name ∈ below, IsUnfit name)) ∧
    (∃ rest, Path.WithoutExtension path.spelling.toList rest ∧
      path.stemNames? = (Path.names (String.ofList rest)).mapM fun name => (ofSpelling name).text?) ∧
    ∀ text, path.text? = some text →
      path.stemNames? = some (Path.names (Path.withExtension text "")) ∧
      path.moduleName = ElmBindings.moduleName text := by
  refine ⟨?_, ?_, fun text htext => ?_⟩
  · cases hnames : path.stemNames? with
    | none => exact .inr ⟨⟨_, moduleName_of_none hnames⟩, .inl (text?_eq_none_of_stemNames? hnames)⟩
    | some names =>
      rw [moduleName_of_some hnames]
      rcases moduleNameOf_cases path.shown names with
        ⟨below, parts, hok, hbelow, hparts⟩ | ⟨herror, hwhy⟩
      · refine .inl ⟨names, below, parts, rfl, hbelow, ?_, hparts, hok⟩
        rintro rfl
        exact hbelow.ne_nil (List.forall₂_nil_right_iff.mp hparts)
      · refine .inr ⟨herror, .inr (hwhy.imp (fun hempty => by rw [hempty]) ?_)⟩
        rintro ⟨below, hbelow, hunfit⟩
        exact ⟨names, below, rfl, hbelow, hunfit⟩
  · obtain ⟨rest, hrest, hnames⟩ := Path.exists_withoutExtension path.spelling
    exact ⟨rest, hrest, by rw [stemNames?, hnames]⟩
  · rw [eq_ofText_of_text? htext]
    exact ⟨stemNames?_ofText text, moduleName_ofText text⟩

/-- Only the last source directory counts, and a part cannot start with a digit. -/
theorem moduleName_isElmName_nested :
    (ofText "app/src/lib/src/api_v2/user-list.gen.graphql").moduleName = .ok "ApiV2.UserListGen" ∧
    (ofText "src/2fa.graphql").moduleName = .error (.invalidName "src/2fa.graphql") := by
  refine ⟨((moduleName_isElmName _).2.2 _ (text?_ofText _)).2.trans ?_,
    ((moduleName_isElmName _).2.2 _ (text?_ofText _)).2.trans ?_⟩
  · decide +kernel
  · decide +kernel

end OsPath

end ElmBindings
