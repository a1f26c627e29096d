import ElmBindings.Proofs.DecoderReading
import ElmBindings.Proofs.ResponseKeys

set_option autoImplicit false

/-! # Names of values

Fields and functions of a module are called by names that are made of GraphQL names. Whatever the GraphQL
name is, the result is a word and no reserved one, for a suffix never makes a reserved word out of another.
The first character is another matter: it is what follows the leading underscores, and that can be a digit
(`valueName_isValueName_iff`). -/

namespace ElmBindings

open Elm

/-- Whether a text is the name of an Elm value: a lower-case letter, then letters, digits and underscores,
and no reserved word. -/
structure Elm.IsValueName (s : String) : Prop where
  shape : ∃ c cs, s.toList = c :: cs ∧ c.isLower = true ∧ ∀ d ∈ cs, isWordChar d = true
  free : s ∉ Naming.reservedWords

namespace Naming

/-- Whether the first character of a name after its leading underscores is a digit. -/
def LeadsWithDigit (s : String) : Prop :=
  ∃ c, s.toList.find? (· != '_') = some c ∧ c.isDigit = true

/-- A word that is not reserved is the name of a value exactly if it starts with a lower-case letter. -/
theorem isValueName_iff {s : String} (h : Elm.IsName s) :
    IsValueName s ↔ ∀ c, s.toList.head? = some c → c.isLower = true := by
  obtain ⟨first, rest, hs, -, hrest⟩ := isWord_cons h.1
  constructor
  · rintro ⟨⟨c, cs, hchars, hlower, -⟩, -⟩ d hd
    rw [hchars, List.head?_cons, Option.some.injEq] at hd
    rwa [← hd]
  · intro hlower
    exact ⟨⟨first, rest, hs, hlower first (by rw [hs, List.head?_cons]), hrest⟩, h.2⟩

theorem isWordChar_of_mem {s : String} (h : isWord s = true) {c : Char} (hc : c ∈ s.toList) :
    isWordChar c = true := by
  obtain ⟨first, rest, hs, hfirst, hrest⟩ := isWord_cons h
  rw [hs] at hc
  rcases List.mem_cons.mp hc with rfl | hc
  · exact hfirst
  · exact hrest c hc

theorem head?_guarded {s : String} {c : Char} (h : s.toList.head? = some c) :
    (guarded s).toList.head? = some c := by
  have hne : s ≠ "" := by
    rintro rfl
    cases h
  rw [guarded, if_neg hne]
  split_ifs
  · simp [h]
  · exact h

/-- The name of a value starts with the first character that is no underscore, in lower case. -/
theorem head?_valueName {s : String} (h : isWord s = true) :
    (valueName s).toList.head? = some (((s.toList.find? (· != '_')).map Char.toLower).getD 'x') := by
  have hfind : s.toList.find? (· != '_') = (s.toList.dropWhile (· == '_')).head? :=
    List.find?_not_eq_head?_dropWhile _ _
  rw [hfind, valueName_eq_guarded, stem]
  cases hstem : s.toList.dropWhile (· == '_') with
  | nil => rfl
  | cons c cs =>
    have hc : isWordChar c = true :=
      isWordChar_of_mem h ((List.dropWhile_sublist _).subset (hstem ▸ List.mem_cons_self))
    refine head?_guarded ?_
    simp [lowerFirst, Text.lower, toNat_lt_of_isWordChar hc]

theorem isLower_toLower {c : Char} (h : isWordChar c = true) (hne : c ≠ '_') :
    c.toLower.isLower = !c.isDigit := by
  refine forall_isWordChar
    (P := fun c => isWordChar c = true → c ≠ '_' → c.toLower.isLower = !c.isDigit) ?_ h h hne
  decide +kernel

/-- What is made of a GraphQL name is always a word that is not reserved. It is the name of a value exactly
if no digit comes first once the leading underscores are gone. -/
theorem valueName_isValueName_iff {s : String} (h : GraphQL.isName s = true) :
    Elm.IsName (valueName s) ∧ (IsValueName (valueName s) ↔ ¬ LeadsWithDigit s) := by
  have hword : isWord s = true := isWord_of_isName h
  have hname : Elm.IsName (valueName s) := isName_valueName hword
  refine ⟨hname, ?_⟩
  -- only the first character is in question
  rw [isValueName_iff hname, head?_valueName hword]
  cases hfind : s.toList.find? (· != '_') with
  | none => simp [LeadsWithDigit, hfind]
  | some c =>
    have hne : c ≠ '_' := by simpa using List.find?_some hfind
    have hc : isWordChar c = true := isWordChar_of_mem hword (List.mem_of_find?_eq_some hfind)
    simp [LeadsWithDigit, hfind, isLower_toLower hc hne]

/-- Dropping the underscore and lowering the letter make a reserved word, which then gets a suffix. -/
theorem valueName_isValueName_type :
    GraphQL.isName "_Type" = true ∧ valueName "_Type" = "type_" ∧ IsValueName (valueName "_Type") := by
  have hname : GraphQL.isName "_Type" = true := by decide
  refine ⟨hname, by rfl, (valueName_isValueName_iff hname).2.mpr ?_⟩
  rintro ⟨c, hc, hdigit⟩
  cases hc
  cases hdigit

/-- With its underscore dropped, `_1` is a number. -/
theorem not_isValueName_digit :
    GraphQL.isName "_1" = true ∧ valueName "_1" = "1" ∧ ¬ IsValueName (valueName "_1") := by
  refine ⟨by decide, by rfl, ?_⟩
  rintro ⟨⟨c, cs, hchars, hlower, -⟩, -⟩
  cases hchars
  cases hlower

end Naming

end ElmBindings
