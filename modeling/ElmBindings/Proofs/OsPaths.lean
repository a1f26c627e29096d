import ElmBindings.Project.OsPath
import ElmBindings.Proofs.EnumDecoding
import ElmBindings.Proofs.FileStems

set_option autoImplicit false

/-! # Paths of bytes that are text

A path that is UTF-8 can be taken apart in two ways: by its bytes, or as the text that they are. Both give
the same names, also without the extension of the file name (`OsPath.stemNames?_ofText`), although the
extension is cut off by its length, and that is not the same in bytes and in characters. So the name of a
module does not depend on the way (`OsPath.moduleName_ofText`). -/

namespace ElmBindings

/-- Characters that are no separators go in front of the first run. -/
theorem Text.runsBetween_block {isSeparator : Char → Bool} {block rest run : List Char}
    {runs : List (List Char)} (hblock : ∀ c ∈ block, isSeparator c = false)
    (h : runsBetween isSeparator rest = run :: runs) :
    runsBetween isSeparator (block ++ rest) = (block ++ run) :: runs := by
  induction block with
  | nil => exact h
  | cons c block ih =>
    obtain ⟨hc, hblock⟩ := List.forall_mem_cons.mp hblock
    rw [List.cons_append, runsBetween, ih hblock]
    simp [hc]

namespace OsPath

/-! ## Characters byte by byte -/

/-- A character with one character for each of its bytes. -/
def spelled (c : Char) : List Char := (String.utf8EncodeChar c).map Char.ofUInt8

theorem toNat_ofUInt8_ofNat (n : Nat) : (Char.ofUInt8 (UInt8.ofNat n)).toNat = n % 256 := by
  simp [Char.ofUInt8, Char.toNat]

theorem spelled_ascii {c : Char} (h : c.toNat < 0x80) : spelled c = [c] := by
  have hc : c.val.toNat ≤ 127 := Nat.le_of_lt_succ h
  rw [spelled, String.utf8EncodeChar, if_pos hc, List.map_singleton]
  congr 1
  apply Char.toNat_inj.mp
  rw [toNat_ofUInt8_ofNat]
  exact Nat.mod_eq_of_lt (by omega)

/-- The bytes of any other character are none of those of ASCII. -/
theorem le_of_mem_spelled {c x : Char} (h : 0x80 ≤ c.toNat) (hx : x ∈ spelled c) : 0x80 ≤ x.toNat := by
  have hc : ¬ c.val.toNat ≤ 127 := Nat.not_le_of_lt h
  rw [spelled, String.utf8EncodeChar, if_neg hc] at hx
  split_ifs at hx <;>
    simp only [List.map_cons, List.map_nil, List.mem_cons, List.not_mem_nil, or_false] at hx
  all_goals
    rcases hx with rfl | rfl | rfl | rfl
    all_goals rw [toNat_ofUInt8_ofNat]; omega

theorem spelled_ne_nil (c : Char) : spelled c ≠ [] := by
  simp [spelled, String.utf8EncodeChar_ne_nil]

/-- An ASCII character stands in the bytes of a text where it stands in the text. -/
theorem mem_flatMap_spelled {x : Char} (hx : x.toNat < 0x80) {cs : List Char} :
    x ∈ cs.flatMap spelled ↔ x ∈ cs := by
  rw [List.mem_flatMap]
  constructor
  · rintro ⟨c, hc, hmem⟩
    by_cases hascii : c.toNat < 0x80
    · rw [spelled_ascii hascii, List.mem_singleton] at hmem
      exact hmem ▸ hc
    · exact absurd hx (Nat.not_lt.mpr (le_of_mem_spelled (Nat.not_lt.mp hascii) hmem))
  · intro hmem
    exact ⟨x, hmem, by simp [spelled_ascii hx]⟩

theorem slash_mem_flatMap {cs : List Char} : '/' ∈ cs.flatMap spelled ↔ '/' ∈ cs :=
  mem_flatMap_spelled (by decide)

theorem dot_mem_flatMap {cs : List Char} : '.' ∈ cs.flatMap spelled ↔ '.' ∈ cs :=
  mem_flatMap_spelled (by decide)

theorem slash_mem_spelled {c : Char} : '/' ∈ spelled c ↔ c = '/' := by
  simpa [eq_comm] using @slash_mem_flatMap [c]

theorem dot_mem_spelled {c : Char} : '.' ∈ spelled c ↔ c = '.' := by
  simpa [eq_comm] using @dot_mem_flatMap [c]

theorem spelled_slash : spelled '/' = ['/'] := spelled_ascii (by decide)

theorem spelled_dot : spelled '.' = ['.'] := spelled_ascii (by decide)

/-! ## Texts byte by byte -/

theorem spelling_ofText (text : String) :
    (ofText text).spelling = String.ofList (text.toList.flatMap spelled) := by
  rw [spelling, ofText, List.map_flatMap]
  rfl

theorem toUInt8_ofUInt8 (b : UInt8) : (Char.ofUInt8 b).toUInt8 = b := by
  simp [Char.ofUInt8, Char.toUInt8]

theorem ofSpelling_spelling (path : OsPath) : ofSpelling path.spelling = path := by
  rw [ofSpelling, spelling, String.toList_ofList, List.map_map]
  have hid : Char.toUInt8 ∘ Char.ofUInt8 = id := funext toUInt8_ofUInt8
  rw [hid, List.map_id]

theorem toByteArray_bytes_ofText (text : String) :
    (ofText text).bytes.toByteArray = text.toByteArray := by
  rw [ofText, ← List.utf8Encode, String.utf8Encode_toList]

theorem text?_ofText (text : String) : (ofText text).text? = some text := by
  rw [text?, toByteArray_bytes_ofText, String.fromUTF8?, dif_pos text.isValidUTF8]
  rfl

theorem eq_ofText_of_text? {path : OsPath} {text : String} (h : path.text? = some text) :
    path = ofText text := by
  have hbytes : path.bytes.toByteArray = text.toByteArray := by
    rw [text?, String.fromUTF8?] at h
    split at h
    · cases h
      rfl
    · cases h
  rw [← toByteArray_bytes_ofText, List.toByteArray_inj] at hbytes
  cases path
  exact congrArg OsPath.mk hbytes

theorem flatMap_spelled_injective : Function.Injective (List.flatMap spelled) := by
  intro cs ds h
  have hpath : ofText (String.ofList cs) = ofText (String.ofList ds) := by
    rw [← ofSpelling_spelling (ofText (String.ofList cs)),
      ← ofSpelling_spelling (ofText (String.ofList ds)), spelling_ofText, spelling_ofText,
      String.toList_ofList, String.toList_ofList, h]
  have htext := text?_ofText (String.ofList cs)
  rw [hpath, text?_ofText] at htext
  exact (String.ofList_injective (Option.some.inj htext)).symm

/-! ## Names byte by byte -/

theorem runsBetween_flatMap_spelled (cs : List Char) :
    Text.runsBetween (· == '/') (cs.flatMap spelled) =
      (Text.runsBetween (· == '/') cs).map (List.flatMap spelled) := by
  induction cs with
  | nil => rfl
  | cons c cs ih =>
    rw [List.flatMap_cons]
    by_cases hc : c = '/'
    · subst hc
      rw [spelled_slash, List.singleton_append, Text.runsBetween, Text.runsBetween, ih]
      rfl
    · have hblock : ∀ x ∈ spelled c, (x == '/') = false := by
        intro x hx
        rw [beq_eq_false_iff_ne]
        rintro rfl
        exact hc (slash_mem_spelled.mp hx)
      cases hruns : Text.runsBetween (· == '/') cs with
      | nil => exact absurd hruns (Text.runsBetween_ne_nil cs)
      | cons run runs =>
        rw [hruns, List.map_cons] at ih
        rw [Text.runsBetween_block hblock ih, Text.runsBetween, hruns]
        simp [hc]

theorem isNormal_spelling_ofText (name : String) :
    Path.isNormal (ofText name).spelling = Path.isNormal name := by
  have hiff (s : String) (hs : s.toList.flatMap spelled = s.toList) :
      (ofText name).spelling = s ↔ name = s := by
    rw [spelling_ofText]
    constructor
    · intro h
      have hlist : name.toList.flatMap spelled = s.toList.flatMap spelled := by
        rw [hs, ← h, String.toList_ofList]
      exact String.toList_injective (flatMap_spelled_injective hlist)
    · rintro rfl
      rw [hs, String.ofList_toList]
  simp only [Path.isNormal, ne_eq, hiff "" rfl, hiff "." (by simp [spelled_dot]),
    hiff ".." (by simp [spelled_dot])]

theorem names_flatMap_spelled (cs : List Char) :
    Path.names (String.ofList (cs.flatMap spelled)) =
      (Path.names (String.ofList cs)).map fun name => (ofText name).spelling := by
  have hsegments : (Path.segments (String.ofList (cs.flatMap spelled))) =
      (Path.segments (String.ofList cs)).map fun name => (ofText name).spelling := by
    simp [Path.segments, runsBetween_flatMap_spelled, spelling_ofText, Function.comp_def]
  have hnormal : (Path.isNormal ∘ fun name => (ofText name).spelling) = Path.isNormal := by
    funext name
    rw [Function.comp_apply, isNormal_spelling_ofText]
  rw [Path.names_eq_filter, Path.names_eq_filter, hsegments, List.filter_map, hnormal]

/-! ## Extensions byte by byte -/

theorem splitExtension_flatMap_spelled (name : List Char) :
    (Path.splitExtension (name.flatMap spelled)).1 = (Path.splitExtension name).1.flatMap spelled := by
  rcases Path.splitExtension_cases name with ⟨hnone, hdot⟩ | ⟨stem, extension, rfl, hstem, hdot⟩
  · -- a dot behind the first byte is one behind the first character
    have hdot : '.' ∉ (name.flatMap spelled).tail := by
      cases name with
      | nil => simp
      | cons c cs =>
        rw [List.flatMap_cons, List.tail_append_of_ne_nil (spelled_ne_nil c), List.mem_append,
          dot_mem_flatMap, not_or]
        refine ⟨fun hmem => ?_, hdot⟩
        obtain rfl := dot_mem_spelled.mp (List.mem_of_mem_tail hmem)
        rw [spelled_dot] at hmem
        cases hmem
    rw [hnone]
    rcases Path.splitExtension_cases (name.flatMap spelled) with ⟨hnone, -⟩ | ⟨stem, _, heq, hstem, -⟩
    · rw [hnone]
    · rw [heq, List.tail_append_of_ne_nil hstem] at hdot
      simp at hdot
  · have hextension : '.' ∉ extension.flatMap spelled := fun hmem => hdot (dot_mem_flatMap.mp hmem)
    have hempty : stem.flatMap spelled ≠ [] := fun heq => hstem (flatMap_spelled_injective heq)
    rw [List.flatMap_append, List.flatMap_cons, spelled_dot, List.singleton_append,
      Path.splitExtension_append hempty hextension, Path.splitExtension_append hstem hdot]

theorem isTrail_flatMap_spelled {trail : List Char} (h : Path.IsTrail trail) :
    trail.flatMap spelled = trail := by
  induction h with
  | nil => rfl
  | slash _ ih => simp [ih, spelled_slash]
  | dot _ ih => simp [ih, spelled_slash, spelled_dot]

theorem ends_flatMap_spelled {path before name trail : List Char}
    (h : Path.Ends path before name trail) :
    Path.Ends (path.flatMap spelled) (before.flatMap spelled) (name.flatMap spelled) trail where
  path_eq := by
    rw [h.path_eq, List.flatMap_append, List.flatMap_append, isTrail_flatMap_spelled h.isTrail]
  before_slash := by
    rcases List.eq_nil_or_concat' before with rfl | ⟨front, c, rfl⟩
    · simp
    · obtain rfl : c = '/' := h.before_slash c (by simp)
      simp [spelled_slash]
  no_slash := fun hmem => h.no_slash (slash_mem_flatMap.mp hmem)
  isTrail := h.isTrail
  proper := by
    refine h.proper.imp (fun hbefore => by rw [hbefore]; rfl) fun ⟨hempty, hcurrent⟩ => ?_
    refine ⟨fun heq => hempty (flatMap_spelled_injective heq), fun heq => hcurrent ?_⟩
    refine flatMap_spelled_injective (heq.trans ?_)
    simp [spelled_dot]

/-- The names of a text without the extension of its file name are those of its bytes. -/
theorem stemNames?_ofText (text : String) :
    (ofText text).stemNames? = some (Path.names (Path.withExtension text "")) := by
  obtain ⟨before, name, trail, hends⟩ := Path.exists_ends text.toList
  have hnames : Path.names (Path.withExtension (ofText text).spelling "") =
      (Path.names (Path.withExtension text "")).map fun name => (ofText name).spelling := by
    have htext := hends.names_withExtension
    rw [String.ofList_toList] at htext
    rw [spelling_ofText, (ends_flatMap_spelled hends).names_withExtension, htext,
      splitExtension_flatMap_spelled, names_flatMap_spelled, names_flatMap_spelled, List.map_append]
  rw [stemNames?, hnames, mapM_eq_some_iff, List.forall₂_map_left_iff]
  refine List.forall₂_same.mpr fun name _ => ?_
  rw [ofSpelling_spelling, text?_ofText]

/-! ## Paths in messages -/

theorem shownChars_append (c : Char) (bs : List UInt8) :
    shownChars (String.utf8EncodeChar c ++ bs) = c :: shownChars bs := by
  have hdecode : (String.utf8EncodeChar c ++ bs).toByteArray.utf8DecodeChar? 0 = some c := by
    rw [List.toByteArray_append]
    exact ByteArray.utf8DecodeChar?_utf8EncodeChar_append
  have hlength := String.length_utf8EncodeChar c
  cases hbytes : String.utf8EncodeChar c with
  | nil => exact absurd hbytes String.utf8EncodeChar_ne_nil
  | cons b block =>
    rw [hbytes, List.cons_append] at hdecode
    rw [hbytes, List.length_cons] at hlength
    rw [List.cons_append, shownChars, hdecode]
    have hdrop : c.utf8Size - 1 = block.length := by omega
    simp [hdrop]

theorem shown_ofText (text : String) : (ofText text).shown = text := by
  have hchars (cs : List Char) : shownChars (cs.flatMap String.utf8EncodeChar) = cs := by
    induction cs with
    | nil => rw [List.flatMap_nil, shownChars]
    | cons c cs ih => rw [List.flatMap_cons, shownChars_append, ih]
  rw [shown, ofText, hchars, String.ofList_toList]

/-! ## Modules -/

theorem moduleName_of_some {path : OsPath} {names : List String} (h : path.stemNames? = some names) :
    path.moduleName = moduleNameOf path.shown names := by
  unfold moduleName
  rw [h]

theorem moduleName_of_none {path : OsPath} (h : path.stemNames? = none) :
    path.moduleName = .error (.notUnicode path.shown) := by
  unfold moduleName
  rw [h]

/-- A path that is text has the module name of the text. -/
theorem moduleName_ofText (text : String) :
    (ofText text).moduleName = ElmBindings.moduleName text := by
  rw [moduleName_of_some (stemNames?_ofText text), shown_ofText, ElmBindings.moduleName]

end OsPath

end ElmBindings
