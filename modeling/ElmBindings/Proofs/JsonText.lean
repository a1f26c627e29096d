import ElmBindings.Binary64.Shortest
import ElmBindings.Json.Parser
import Mathlib

set_option autoImplicit false

/-! # JSON texts

`Json.text` writes a value without blanks, and `parse?_text` reads back what is written, for values
without numbers. What is read with so many steps is stated with the length of the text as the number of
steps, since every step of the reader takes a character. -/

namespace ElmBindings.Json

/-! ## Strings -/

theorem hexQuad?_hexDigit : ∀ n < 0x20,
    hexQuad? '0' '0' (hexDigit (n / 16)) (hexDigit (n % 16)) = some n := by
  decide

theorem stringBody?_simple {e c : Char} (h : simpleEscape? e = some c) (rest : List Char) :
    stringBody? ('\\' :: e :: rest) = (stringBody? rest).map fun body => (c :: body.1, body.2) := by
  have hne : e ≠ 'u' := by
    rintro rfl
    cases h
  rw [stringBody?.eq_def]
  cases hbody : stringBody? rest <;> simp_all

/-- A control character is read back from the number of it. -/
theorem stringBody?_control {c : Char} (h : c.toNat < 0x20) (rest : List Char) :
    stringBody? ('\\' :: 'u' :: '0' :: '0' :: hexDigit (c.toNat / 16) :: hexDigit (c.toNat % 16) ::
        rest) =
      (stringBody? rest).map fun body => (c :: body.1, body.2) := by
  have hhigh : isHighSurrogate c.toNat = false := by
    simp only [isHighSurrogate, Bool.and_eq_false_iff, decide_eq_false_iff_not]
    omega
  have hlow : isLowSurrogate c.toNat = false := by
    simp only [isLowSurrogate, Bool.and_eq_false_iff, decide_eq_false_iff_not]
    omega
  rw [stringBody?.eq_def]
  cases hbody : stringBody? rest <;> simp [hexQuad?_hexDigit c.toNat h, hhigh, hlow, hbody]

/-- A character is read back from how it stands in a string. -/
theorem stringBody?_escaped (c : Char) (rest : List Char) :
    stringBody? (escaped c ++ rest) =
      (stringBody? rest).map fun body => (c :: body.1, body.2) := by
  by_cases hquote : c = '"'
  · subst hquote
    exact stringBody?_simple rfl rest
  by_cases hslash : c = '\\'
  · subst hslash
    exact stringBody?_simple rfl rest
  by_cases hline : c = '\n'
  · subst hline
    exact stringBody?_simple rfl rest
  by_cases hreturn : c = '\r'
  · subst hreturn
    exact stringBody?_simple rfl rest
  by_cases htab : c = '\t'
  · subst htab
    exact stringBody?_simple rfl rest
  by_cases hback : c = '\x08'
  · subst hback
    exact stringBody?_simple rfl rest
  by_cases hfeed : c = '\x0c'
  · subst hfeed
    exact stringBody?_simple rfl rest
  rw [escaped, if_neg hquote, if_neg hslash, if_neg hline, if_neg hreturn, if_neg htab, if_neg hback,
    if_neg hfeed]
  by_cases hcontrol : c.toNat < 0x20
  · rw [if_pos hcontrol]
    exact stringBody?_control hcontrol rest
  · rw [if_neg hcontrol, List.singleton_append, stringBody?.eq_def]
    cases hbody : stringBody? rest <;> simp [hquote, hslash, hcontrol, hbody]

theorem stringBody?_flatMap (cs rest : List Char) :
    stringBody? (cs.flatMap escaped ++ '"' :: rest) = some (cs, rest) := by
  induction cs with
  | nil => rw [List.flatMap_nil, List.nil_append, stringBody?.eq_def]; rfl
  | cons c cs ih =>
    rw [List.flatMap_cons, List.append_assoc, stringBody?_escaped, ih]
    rfl

/-! ## Values -/

mutual

/-- The value as text, without blanks. -/
def chars : Json → List Char
  | null => ['n', 'u', 'l', 'l']
  | bool true => ['t', 'r', 'u', 'e']
  | bool false => ['f', 'a', 'l', 's', 'e']
  | int value => (toString value).toList
  | float value => value.text.toList
  | string value => (quoted value).toList
  | array items => '[' :: itemsChars items
  | object entries => '{' :: entriesChars entries

/-- The items of an array and its closing bracket. -/
def itemsChars : List Json → List Char
  | [] => [']']
  | [item] => item.chars ++ [']']
  | item :: next :: items => item.chars ++ ',' :: itemsChars (next :: items)

/-- The entries of an object and its closing brace. -/
def entriesChars : List (String × Json) → List Char
  | [] => ['}']
  | [(key, value)] => (quoted key).toList ++ ':' :: (value.chars ++ ['}'])
  | (key, value) :: next :: entries =>
    (quoted key).toList ++ ':' :: (value.chars ++ ',' :: entriesChars (next :: entries))

end

/-- The value as text, without blanks. -/
def text (json : Json) : String := String.ofList json.chars

mutual

/-- Whether there is no number in a value. -/
def isNumberless : Json → Bool
  | int _ | float _ => false
  | array items => areNumberless items
  | object entries => entriesNumberless entries
  | _ => true

/-- Whether there is no number in any item. -/
def areNumberless : List Json → Bool
  | [] => true
  | item :: items => item.isNumberless && areNumberless items

/-- Whether there is no number in the value of any entry. -/
def entriesNumberless : List (String × Json) → Bool
  | [] => true
  | (_, value) :: entries => value.isNumberless && entriesNumberless entries

end

mutual

theorem isFinite_of_isNumberless {json : Json} (h : json.isNumberless = true) :
    json.isFinite = true := by
  cases json with
  | array items =>
    rw [isNumberless] at h
    rw [isFinite, areFinite_of_areNumberless h]
  | object entries =>
    rw [isNumberless] at h
    rw [isFinite, entriesFinite_of_entriesNumberless h]
  | float value => simp [isNumberless] at h
  | _ => rfl

theorem areFinite_of_areNumberless {items : List Json} (h : areNumberless items = true) :
    areFinite items = true := by
  cases items with
  | nil => rfl
  | cons item items =>
    rw [areNumberless, Bool.and_eq_true] at h
    rw [areFinite, isFinite_of_isNumberless h.1, areFinite_of_areNumberless h.2, Bool.and_self]

theorem entriesFinite_of_entriesNumberless {entries : List (String × Json)}
    (h : entriesNumberless entries = true) : entriesFinite entries = true := by
  cases entries with
  | nil => rfl
  | cons entry entries =>
    obtain ⟨key, value⟩ := entry
    rw [entriesNumberless, Bool.and_eq_true] at h
    rw [entriesFinite, isFinite_of_isNumberless h.1, entriesFinite_of_entriesNumberless h.2,
      Bool.and_self]

end

/-! ## Reading back -/

/-- Whether a character may stand between the parts of a text. -/
def isBlank (c : Char) : Bool := c == ' ' || c == '\n' || c == '\r' || c == '\t'

theorem skipBlanks_cons {c : Char} (h : isBlank c = false) (cs : List Char) :
    skipBlanks (c :: cs) = c :: cs := by
  rw [skipBlanks, List.dropWhile_cons_of_neg]
  simpa [isBlank] using h

theorem toList_quoted (s : String) (rest : List Char) :
    (quoted s).toList ++ rest = '"' :: (s.toList.flatMap escaped ++ '"' :: rest) := by
  simp [quoted]

/-- A value starts neither with a blank nor with the end of an array. -/
theorem exists_chars_eq_cons {json : Json} (h : json.isNumberless = true) :
    ∃ c cs, json.chars = c :: cs ∧ c ≠ ']' ∧ isBlank c = false := by
  cases json with
  | bool value => cases value <;> exact ⟨_, _, rfl, by decide, by decide⟩
  | int value => simp [isNumberless] at h
  | float value => simp [isNumberless] at h
  | string value => exact ⟨'"', _, by simpa [chars] using toList_quoted value [], by decide, by decide⟩
  | _ => exact ⟨_, _, by rw [chars], by decide, by decide⟩

theorem exists_itemsChars_eq_cons {item : Json} {items : List Json}
    (h : areNumberless (item :: items) = true) :
    ∃ c cs, itemsChars (item :: items) = c :: cs ∧ c ≠ ']' ∧ isBlank c = false := by
  rw [areNumberless, Bool.and_eq_true] at h
  obtain ⟨c, cs, hcs, hc⟩ := exists_chars_eq_cons h.1
  cases items <;> exact ⟨c, _, by rw [itemsChars, hcs, List.cons_append], hc⟩

theorem exists_entriesChars_eq_cons (entry : String × Json) (entries : List (String × Json)) :
    ∃ cs, entriesChars (entry :: entries) = '"' :: cs := by
  obtain ⟨key, value⟩ := entry
  cases entries <;> exact ⟨_, by rw [entriesChars, toList_quoted]⟩

mutual

theorem value?_chars {json : Json} (h : json.isNumberless = true) (budget : Nat)
    (hbudget : json.chars.length ≤ budget) (rest : List Char) :
    value? budget (json.chars ++ rest) = some (json, rest) := by
  obtain ⟨c, cs, hcs, -⟩ := exists_chars_eq_cons h
  obtain ⟨budget, rfl⟩ : ∃ n, budget = n + 1 := Nat.exists_eq_succ_of_ne_zero (by
    rintro rfl
    simp [hcs] at hbudget)
  clear hcs
  cases json with
  | null => rfl
  | bool value => cases value <;> rfl
  | int value => simp [isNumberless] at h
  | float value => simp [isNumberless] at h
  | string value =>
    rw [chars, toList_quoted, value?, skipBlanks_cons (by decide)]
    simp [stringBody?_flatMap]
  | array items =>
    rw [isNumberless] at h
    rw [chars, List.length_cons, Nat.add_le_add_iff_right] at hbudget
    rw [chars, List.cons_append, value?, skipBlanks_cons (by decide)]
    cases items with
    | nil => rfl
    | cons item items =>
      obtain ⟨c, cs, hcs, hbracket, hblank⟩ := exists_itemsChars_eq_cons h
      have hitems := items?_chars h (by simp) budget hbudget rest
      rw [hcs, List.cons_append] at hitems ⊢
      simp only [skipBlanks_cons hblank]
      -- the first item does not look like the end of an array
      split
      · simp_all
      · rw [hitems]
        rfl
  | object entries =>
    rw [isNumberless] at h
    rw [chars, List.length_cons, Nat.add_le_add_iff_right] at hbudget
    rw [chars, List.cons_append, value?, skipBlanks_cons (by decide)]
    cases entries with
    | nil => rfl
    | cons entry entries =>
      have hentries := entries?_chars h (by simp) budget hbudget rest
      obtain ⟨cs, hcs⟩ := exists_entriesChars_eq_cons entry entries
      rw [hcs, List.cons_append] at hentries ⊢
      simp [skipBlanks_cons, isBlank, hentries]
termination_by budget
decreasing_by all_goals omega

theorem items?_chars {items : List Json} (h : areNumberless items = true) (hne : items ≠ [])
    (budget : Nat) (hbudget : (itemsChars items).length ≤ budget) (rest : List Char) :
    items? budget (itemsChars items ++ rest) = some (items, rest) := by
  cases items with
  | nil => exact absurd rfl hne
  | cons item items =>
    rw [areNumberless, Bool.and_eq_true] at h
    cases items with
    | nil =>
      rw [itemsChars, List.length_append, List.length_singleton] at hbudget
      obtain ⟨budget, rfl⟩ : ∃ n, budget = n + 1 := ⟨budget - 1, by omega⟩
      rw [itemsChars, List.append_assoc, items?, value?_chars h.1 budget (by omega)]
      simp [skipBlanks_cons, isBlank]
    | cons next items =>
      rw [itemsChars, List.length_append, List.length_cons] at hbudget
      obtain ⟨budget, rfl⟩ : ∃ n, budget = n + 1 := ⟨budget - 1, by omega⟩
      rw [itemsChars, List.append_assoc, items?, value?_chars h.1 budget (by omega)]
      simp [skipBlanks_cons, isBlank, items?_chars h.2 (by simp) budget (by omega)]
termination_by budget
decreasing_by all_goals omega

theorem entries?_chars {entries : List (String × Json)} (h : entriesNumberless entries = true)
    (hne : entries ≠ []) (budget : Nat) (hbudget : (entriesChars entries).length ≤ budget)
    (rest : List Char) :
    entries? budget (entriesChars entries ++ rest) = some (entries, rest) := by
  cases entries with
  | nil => exact absurd rfl hne
  | cons entry entries =>
    obtain ⟨key, value⟩ := entry
    rw [entriesNumberless, Bool.and_eq_true] at h
    cases entries with
    | nil =>
      simp only [entriesChars, List.length_append, List.length_cons] at hbudget
      obtain ⟨budget, rfl⟩ : ∃ n, budget = n + 1 := ⟨budget - 1, by omega⟩
      rw [entriesChars, List.append_assoc, toList_quoted, entries?, skipBlanks_cons (by decide)]
      have hvalue := value?_chars h.1 budget (by omega)
      simp [stringBody?_flatMap, skipBlanks_cons, isBlank, hvalue]
    | cons next entries =>
      simp only [entriesChars, List.length_append, List.length_cons] at hbudget
      obtain ⟨budget, rfl⟩ : ∃ n, budget = n + 1 := ⟨budget - 1, by omega⟩
      rw [entriesChars, List.append_assoc, toList_quoted, entries?, skipBlanks_cons (by decide)]
      have hvalue := value?_chars h.1 budget (by omega)
      have hentries := entries?_chars h.2 (by simp) budget (by omega) rest
      simp [stringBody?_flatMap, skipBlanks_cons, isBlank, hvalue, hentries]
termination_by budget
decreasing_by all_goals omega

end

/-- A value without numbers is read back from its text. -/
theorem parse?_text {json : Json} (h : json.isNumberless = true) : parse? json.text = some json := by
  have hread := value?_chars h (json.chars.length + 1) (Nat.le_succ _) []
  rw [List.append_nil] at hread
  simp only [parse?, text, String.toList_ofList, hread, Option.bind_some]
  rfl

end ElmBindings.Json
