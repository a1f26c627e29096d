import ElmBindings.Elm.Layout
import Mathlib

set_option autoImplicit false

/-! # Lines of a text

A text hangs if after each of its line breaks there is either another one or an indentation (`Hangs`). Texts
that hang can be put together in any way and still hang, which is not so plain of their lines, since the
last line of one text goes on with the first line of the next. What it comes to is that all lines after the
first one are empty or indented (`Hangs.indented`). -/

namespace ElmBindings.Layout

/-! ## Lines -/

/-- The lines of a text. -/
def lines (cs : List Char) : List (List Char) := cs.splitOn '\n'

/-- The indentation of a line. -/
def spaces (n : Nat) : List Char := List.replicate n ' '

/-- Whether a text has no line break. -/
def Unbroken (text : String) : Prop := '\n' ∉ text.toList

instance (text : String) : Decidable (Unbroken text) :=
  inferInstanceAs (Decidable ('\n' ∉ text.toList))

theorem unbroken_append {s t : String} : Unbroken (s ++ t) ↔ Unbroken s ∧ Unbroken t := by
  simp [Unbroken, not_or]

theorem unbroken_between {before text after : String} (hbefore : Unbroken before) (h : Unbroken text)
    (hafter : Unbroken after) : Unbroken (before ++ text ++ after) :=
  unbroken_append.mpr ⟨unbroken_append.mpr ⟨hbefore, h⟩, hafter⟩

theorem unbroken_intercalate {separator : String} {texts : List String} (h : Unbroken separator)
    (htexts : ∀ text ∈ texts, Unbroken text) : Unbroken (separator.intercalate texts) := by
  induction texts with
  | nil => simp [Unbroken]
  | cons text texts ih =>
    rw [List.forall_mem_cons] at htexts
    cases texts with
    | nil => simpa using htexts.1
    | cons next texts =>
      rw [String.intercalate_cons_cons]
      exact unbroken_between htexts.1 h (ih htexts.2)

theorem lines_break (cs ds : List Char) : lines (cs ++ '\n' :: ds) = lines cs ++ lines ds :=
  List.splitOn_append_cons_self cs ds

theorem lines_of_not_mem {cs : List Char} (h : '\n' ∉ cs) : lines cs = [cs] :=
  List.splitOn_eq_singleton h

theorem lines_lineEnd (cs : List Char) : lines ('\n' :: cs) = [] :: lines cs :=
  lines_break [] cs

theorem lines_cons {c : Char} (h : c ≠ '\n') (cs : List Char) :
    lines (c :: cs) = (lines cs).modifyHead (c :: ·) := by
  simp [lines, List.splitOn, List.splitOnP_cons_eq_if_modifyHead, h]

theorem lines_append {cs : List Char} (h : '\n' ∉ cs) (ds : List Char) :
    lines (cs ++ ds) = (lines ds).modifyHead (cs ++ ·) := by
  induction cs with
  | nil => cases hds : lines ds <;> simp [hds]
  | cons c cs ih =>
    obtain ⟨hc, hcs⟩ := not_or.mp (fun hmem => h (List.mem_cons.mpr hmem))
    rw [List.cons_append, lines_cons (Ne.symm hc), ih hcs, List.modifyHead_modifyHead]
    rfl

theorem newline_toList (n : Nat) : (newline n).toList = '\n' :: spaces n := by
  simp [newline, spaces]

theorem not_mem_spaces (n : Nat) : '\n' ∉ spaces n := by
  simp [spaces]

theorem spaces_prefix_spaces {m n : Nat} (h : m ≤ n) : spaces m <+: spaces n :=
  (List.prefix_replicate_iff).mpr ⟨by simpa [spaces] using h, by simp [spaces]⟩

/-! ## Hanging texts -/

/-- Whether every line break is followed by another one or by an indentation of at least `n`. -/
def Hangs (n : Nat) (cs : List Char) : Prop :=
  ∀ before after, cs = before ++ '\n' :: after → after.head? = some '\n' ∨ spaces n <+: after

theorem hangs_of_not_mem {n : Nat} {cs : List Char} (h : '\n' ∉ cs) : Hangs n cs := by
  rintro before after rfl
  exact absurd (by simp) h

theorem hangs_cons {n : Nat} {c : Char} {cs : List Char} :
    Hangs n (c :: cs) ↔ (c = '\n' → cs.head? = some '\n' ∨ spaces n <+: cs) ∧ Hangs n cs := by
  constructor
  · refine fun h => ⟨?_, ?_⟩
    · rintro rfl
      exact h [] cs rfl
    · rintro before after rfl
      exact h (c :: before) after rfl
  · rintro ⟨hfirst, hrest⟩ before after heq
    cases before with
    | nil =>
      cases heq
      exact hfirst rfl
    | cons _ before =>
      cases heq
      exact hrest before after rfl

namespace Hangs

variable {n : Nat} {cs ds : List Char}

theorem append (hcs : Hangs n cs) (hds : Hangs n ds) : Hangs n (cs ++ ds) := by
  induction cs with
  | nil => exact hds
  | cons c cs ih =>
    rw [hangs_cons] at hcs
    rw [List.cons_append, hangs_cons]
    refine ⟨fun hc => ?_, ih hcs.2⟩
    rcases hcs.1 hc with hhead | hspaces
    · exact .inl (by simp [hhead])
    · exact .inr (hspaces.trans (List.prefix_append cs ds))

theorem mono {m : Nat} (h : Hangs n cs) (hm : m ≤ n) : Hangs m cs := fun before after heq =>
  (h before after heq).imp_right (spaces_prefix_spaces hm).trans

/-- After the first line of a hanging text, every line that is not empty is indented. -/
theorem indented (h : Hangs n cs) :
    ∀ line ∈ (lines cs).tail, line ≠ [] → spaces n <+: line := by
  induction cs with
  | nil => simp [lines]
  | cons c cs ih =>
    rw [hangs_cons] at h
    by_cases hc : c = '\n'
    · subst hc
      rw [lines_lineEnd, List.tail_cons]
      rcases h.1 rfl with hhead | ⟨ds, rfl⟩
      · -- the next line is empty, and what is known of the others is known of `cs`
        obtain ⟨ds, rfl⟩ := List.head?_eq_some_iff.mp hhead
        have hrest := ih h.2
        rw [lines_lineEnd] at hrest ⊢
        simpa using hrest
      · have hrest := ih h.2
        rw [lines_append (not_mem_spaces n)] at hrest ⊢
        cases hds : lines ds with
        | nil => simp
        | cons first rest =>
          rw [hds] at hrest
          simpa using hrest
    · rw [lines_cons hc, List.tail_modifyHead]
      exact ih h.2

end Hangs

theorem hangs_of_unbroken {n : Nat} {text : String} (h : Unbroken text) : Hangs n text.toList :=
  hangs_of_not_mem h

theorem hangs_newline {n m : Nat} (h : n ≤ m) : Hangs n (newline m).toList := by
  rw [newline_toList, hangs_cons]
  exact ⟨fun _ => .inr (spaces_prefix_spaces h), hangs_of_not_mem (not_mem_spaces m)⟩

theorem hangs_line {n m : Nat} {text : String} (hn : n ≤ m) (h : Unbroken text) :
    Hangs n (newline m ++ text).toList := by
  rw [String.toList_append]
  exact (hangs_newline hn).append (hangs_of_unbroken h)

theorem hangs_join {n : Nat} {texts : List String} (h : ∀ text ∈ texts, Hangs n text.toList) :
    Hangs n (String.join texts).toList := by
  induction texts with
  | nil => exact hangs_of_not_mem (by simp)
  | cons text texts ih =>
    rw [List.forall_mem_cons] at h
    rw [String.join_cons, String.toList_append]
    exact h.1.append (ih h.2)

end ElmBindings.Layout
