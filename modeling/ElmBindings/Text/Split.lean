set_option autoImplicit false

/-! # Splitting texts

Runs between separators, and the lines of a text. -/

namespace ElmBindings.Text

/-! ## Runs and words -/

/-- The runs of characters between separators, the empty ones too. -/
def runsBetween (isSeparator : Char → Bool) : List Char → List (List Char)
  | [] => [[]]
  | c :: cs =>
    if isSeparator c then [] :: runsBetween isSeparator cs
    else
      match runsBetween isSeparator cs with
      | [] => [[c]]
      | run :: runs => (c :: run) :: runs

/-- The non-empty runs of characters between separators. -/
def wordsBetween (isSeparator : Char → Bool) (s : String) : List String :=
  ((runsBetween isSeparator s.toList).filter (!·.isEmpty)).map String.ofList

/-- A run ends at the first character that is unlike those of the run. -/
theorem takeWhile_run {p : Char → Bool} {run rest : List Char} (hrun : ∀ c ∈ run, p c = true)
    (hrest : ∀ c ∈ rest.head?, p c = false) : (run ++ rest).takeWhile p = run := by
  rw [List.takeWhile_append_of_pos hrun]
  cases rest with
  | nil => simp
  | cons c rest => simp [hrest c rfl]

/-! ## Lines -/

/-- A line without the carriage return at its end. -/
def withoutReturn (line : List Char) : List Char :=
  if line.getLast? = some '\r' then line.dropLast else line

/-- The lines of a text. A line ends with a line feed, or a carriage return and a line feed; what
follows the last line feed is a line only if it is not empty. -/
def lines (cs : List Char) : List (List Char) :=
  let runs := runsBetween (· == '\n') cs
  let unended := runs.getLast?.getD []
  runs.dropLast.map withoutReturn ++ if unended.isEmpty then [] else [unended]

/-! ## Replacing -/

/-- The text with every occurrence of a pattern replaced, found from left to right. -/
def replaced (pattern replacement : List Char) : List Char → List Char
  | [] => []
  | c :: cs =>
    if pattern.isPrefixOf (c :: cs) then
      replacement ++ replaced pattern replacement (cs.drop (pattern.length - 1))
    else c :: replaced pattern replacement cs
termination_by cs => cs.length
decreasing_by all_goals simp; try omega

end ElmBindings.Text
