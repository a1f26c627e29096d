import ElmBindings.Document.Parser
import Mathlib

set_option autoImplicit false

/-! # Documents that can be read from a text

What the parser returns is not any document: names are names, integers fit 64 bits, the entries of an
object stand in the order of their keys, a type is not non-null twice and brackets do not nest too
deeply. `Written` says so of each part, and `Document.parse_written` that every definition of a document
that was read is `Written`. Whether a float can stand in the text is left open (`floats`). -/

namespace ElmBindings

namespace GraphQL

/-! ## Tokens -/

/-- Whether a text is a name. -/
def isName (s : String) : Bool :=
  match s.toList with
  | [] => false
  | c :: cs => isNameStart c && cs.all isNameChar

/-- Whether a token can stand in a text, if `floats` can. -/
def Token.Valid (floats : Binary64 → Bool) : Token → Prop
  | .name s => isName s = true
  | .int n => -(twoPow 63 : Int) ≤ n ∧ n < (twoPow 63 : Int)
  | .float x => floats x = true
  | .punct _ | .spread | .string _ => True

/-- Whether tokens can stand in a text inside so many open brackets. -/
def Legible (floats : Binary64 → Bool) : Nat → List Lexeme → Prop
  | _, [] => True
  | depth, l :: ls =>
    l.token.Valid floats ∧ ∃ after, depthAfter? depth l.token = some after ∧ Legible floats after ls

/-- The number that a token is, if it is a float. -/
def Token.float? : Token → Option Binary64
  | .float x => some x
  | _ => none

/-- The float literals of a text. -/
def floatLiterals (text : String) : List Binary64 :=
  ((lexemes? text).getD []).filterMap fun l => l.token.float?

section

variable {floats : Binary64 → Bool}

theorem intToken?_valid {text : List Char} {t : Token} (h : intToken? text = some t) :
    t.Valid floats := by
  unfold intToken? at h
  obtain ⟨⟨negative, magnitude⟩, -, h⟩ := Option.bind_eq_some_iff.mp h
  obtain ⟨hrange, h⟩ := Option.ite_none_right_eq_some.mp h
  cases h
  exact hrange

theorem floatToken?_eq_some {text : List Char} {t : Token} (h : floatToken? text = some t) :
    ∃ x, t = .float x := by
  unfold floatToken? at h
  extract_lets token at h
  -- whatever the mantissa and the exponent are, the token is a float
  have htoken : ∀ parts, token parts = some t → ∃ x, t = .float x := by
    rintro ⟨mantissa, exponent⟩ ht
    dsimp only [token] at ht
    split at ht
    · obtain ⟨⟨negative, magnitude⟩, -, ht⟩ := Option.bind_eq_some_iff.mp ht
      obtain ⟨-, ht⟩ := Option.ite_none_right_eq_some.mp ht
      cases ht
      exact ⟨_, rfl⟩
    · obtain ⟨⟨negative, magnitude⟩, -, ht⟩ := Option.bind_eq_some_iff.mp ht
      cases ht
      exact ⟨_, rfl⟩
  split at h
  all_goals
    obtain ⟨parts, -, h⟩ := Option.bind_eq_some_iff.mp h
    exact htoken parts h

/-- A token that is read can stand in a text. -/
theorem token?_valid {c : Char} {rest : List Char} {t : Token} {taken : Nat}
    (h : token? c rest = some (t, taken)) (hfloat : ∀ x, t.float? = some x → floats x = true) :
    t.Valid floats := by
  unfold token? at h
  split at h
  · next hstart =>
    cases h
    simp [Token.Valid, isName, hstart]
  · split at h
    · obtain ⟨number, hnumber, heq⟩ := Option.map_eq_some_iff.mp h
      cases heq
      rw [numberToken?] at hnumber
      split at hnumber
      · obtain ⟨x, rfl⟩ := floatToken?_eq_some hnumber
        exact hfloat x rfl
      · exact intToken?_valid hnumber
    · split at h
      · split at h
        all_goals
          obtain ⟨value, -, heq⟩ := Option.map_eq_some_iff.mp h
          cases heq
          trivial
      · split at h
        · split at h
          · cases h
            trivial
          · cases h
        · obtain ⟨p, -, heq⟩ := Option.map_eq_some_iff.mp h
          cases heq
          trivial

theorem lexemesFrom?_legible {position : Position} {depth : Nat}
    {cs : List Char} {ls : List Lexeme} (h : lexemesFrom? position depth cs = some ls)
    (hfloat : ∀ l ∈ ls, ∀ x, l.token.float? = some x → floats x = true) :
    Legible floats depth ls := by
  fun_induction lexemesFrom? position depth cs generalizing ls with
  | case1 =>
    cases h
    trivial
  | case2 position depth rest ih => exact ih h hfloat
  | case3 position depth c rest _ _ ih => exact ih h hfloat
  | case4 position depth c rest _ _ _ ih => exact ih h hfloat
  | case5 position depth rest _ _ _ ih => exact ih h hfloat
  | case6 =>
    rename_i ih
    exact ih h hfloat
  | case7 position depth c rest _ _ _ _ _ ih =>
    simp only [Option.bind_eq_bind, Option.bind_eq_some_iff, Prod.exists] at h
    obtain ⟨t, taken, ht, after, hafter, others, hothers, heq⟩ := h
    cases heq
    exact ⟨token?_valid ht (hfloat _ List.mem_cons_self), after, hafter,
      ih _ _ hothers fun l hl => hfloat l (List.mem_cons_of_mem _ hl)⟩

/-! ### Legible tokens, by the first one -/

variable {depth : Nat} {position : Position} {ls : List Lexeme}

@[simp]
theorem legible_nil : Legible floats depth [] := trivial

theorem legible_cons {l : Lexeme} :
    Legible floats depth (l :: ls) ↔
      l.token.Valid floats ∧ ∃ after, depthAfter? depth l.token = some after ∧ Legible floats after ls :=
  Iff.rfl

attribute [local simp] Token.Valid depthAfter?

@[simp]
theorem legible_name {s : String} :
    Legible floats depth (⟨.name s, position⟩ :: ls) ↔ isName s = true ∧ Legible floats depth ls := by
  simp [legible_cons]

@[simp]
theorem legible_int {n : Int} :
    Legible floats depth (⟨.int n, position⟩ :: ls) ↔
      Token.Valid floats (.int n) ∧ Legible floats depth ls := by
  simp [legible_cons]

@[simp]
theorem legible_float {x : Binary64} :
    Legible floats depth (⟨.float x, position⟩ :: ls) ↔
      floats x = true ∧ Legible floats depth ls := by
  simp [legible_cons]

@[simp]
theorem legible_string {s : String} :
    Legible floats depth (⟨.string s, position⟩ :: ls) ↔ Legible floats depth ls := by
  simp [legible_cons]

@[simp]
theorem legible_spread :
    Legible floats depth (⟨.spread, position⟩ :: ls) ↔ Legible floats depth ls := by
  simp [legible_cons]

/-- Whether a punctuator opens brackets. -/
def Punctuator.opens : Punctuator → Bool
  | .openParen | .openBracket | .openBrace => true
  | _ => false

/-- Whether a punctuator closes brackets. -/
def Punctuator.closes : Punctuator → Bool
  | .closeParen | .closeBracket | .closeBrace => true
  | _ => false

theorem legible_open {p : Punctuator} (hp : p.opens = true) :
    Legible floats depth (⟨.punct p, position⟩ :: ls) ↔
      depth < maxDepth ∧ Legible floats (depth + 1) ls := by
  cases p <;> simp_all [Punctuator.opens, legible_cons]

theorem legible_close {p : Punctuator} (hp : p.closes = true) :
    Legible floats (depth + 1) (⟨.punct p, position⟩ :: ls) ↔ Legible floats depth ls := by
  cases p <;> simp_all [Punctuator.closes, legible_cons]

theorem legible_punct {p : Punctuator} (hopens : p.opens = false) (hcloses : p.closes = false) :
    Legible floats depth (⟨.punct p, position⟩ :: ls) ↔ Legible floats depth ls := by
  cases p <;> simp_all [Punctuator.opens, Punctuator.closes, legible_cons]

end

end GraphQL

/-! ## Types -/

open GraphQL

/-- Whether a type can be written inside so many open brackets. -/
def TypeRef.Written (depth : Nat) : TypeRef → Prop
  | .named name => isName name = true
  | .list item => depth < maxDepth ∧ item.Written (depth + 1)
  | .nonNull inner => inner.isNonNull = false ∧ inner.Written depth

namespace GraphQL

variable {floats : Binary64 → Bool}

theorem afterType_written {t : TypeRef} {depth : Nat} {ls : List Lexeme} (ht : t.Written depth)
    (hnull : t.isNonNull = false) (hl : Legible floats depth ls) :
    (afterType t ls).1.Written depth ∧ Legible floats depth (afterType t ls).2 := by
  unfold afterType
  split
  · next rest =>
    rw [legible_punct rfl rfl] at hl
    simp [TypeRef.required, hnull, TypeRef.Written, ht, hl]
  · exact ⟨ht, hl⟩

theorem type?_written {budget depth : Nat} {ls rest : List Lexeme} {t : TypeRef}
    (h : type? budget ls = some (t, rest)) (hl : Legible floats depth ls) :
    t.Written depth ∧ Legible floats depth rest := by
  induction budget generalizing ls rest t depth with
  | zero => simp [type?] at h
  | succ budget ih =>
    unfold type? at h
    split at h
    · next hb =>
      cases hb
      simp only [Option.bind_eq_bind, Option.bind_eq_some_iff, Prod.exists] at h
      obtain ⟨item, inner, hitem, h⟩ := h
      rw [legible_open rfl] at hl
      obtain ⟨hwritten, hinner⟩ := ih hitem hl.2
      split at h
      · rw [legible_close rfl] at hinner
        rw [Option.some.injEq] at h
        have hafter := afterType_written (t := .list item) ⟨hl.1, hwritten⟩ rfl hinner
        rwa [h] at hafter
      · cases h
    · rw [Option.some.injEq] at h
      rw [legible_name] at hl
      have hafter := afterType_written (t := .named _) hl.1 rfl hl.2
      rwa [h] at hafter
    · cases h

end GraphQL

/-! ## Values -/

namespace GraphQL

mutual

/-- Whether a value can be written inside so many open brackets. -/
def Value.Written (floats : Binary64 → Bool) (constant : Bool) (depth : Nat) : Value → Prop
  | .variable name => constant = false ∧ isName name = true
  | .int n => Token.Valid floats (.int n)
  | .float x => floats x = true
  | .string _ | .boolean _ | .null => True
  | .enum name => isName name = true ∧ nameValue name = .enum name
  | .list items => depth < maxDepth ∧ ItemsWritten floats constant (depth + 1) items
  | .object entries =>
    depth < maxDepth ∧ EntriesWritten floats constant (depth + 1) entries ∧
      entries.Pairwise fun a b => a.1 < b.1

/-- Whether the items of a list can be written. -/
def ItemsWritten (floats : Binary64 → Bool) (constant : Bool) (depth : Nat) : List Value → Prop
  | [] => True
  | item :: items =>
    item.Written floats constant depth ∧ ItemsWritten floats constant depth items

/-- Whether named values can be written. -/
def EntriesWritten (floats : Binary64 → Bool) (constant : Bool) (depth : Nat) :
    List (String × Value) → Prop
  | [] => True
  | (key, value) :: entries =>
    isName key = true ∧ value.Written floats constant depth ∧
      EntriesWritten floats constant depth entries

end

/-- Whether the arguments of a field can be written: there are none, or brackets around them. -/
def ArgumentsWritten (floats : Binary64 → Bool) (depth : Nat) (arguments : List (String × Value)) :
    Prop :=
  arguments = [] ∨ depth < maxDepth ∧ EntriesWritten floats false (depth + 1) arguments

section

variable {floats : Binary64 → Bool} {constant : Bool} {depth : Nat}

theorem nameValue_written {name : String} (h : isName name = true) :
    (nameValue name).Written floats constant depth := by
  unfold nameValue
  split_ifs
  all_goals simp_all [Value.Written, nameValue]

/-! ### Objects -/

theorem insertEntry_written {key : String} {value : Value} {entries : List (String × Value)}
    (hkey : isName key = true) (hvalue : value.Written floats constant depth)
    (h : EntriesWritten floats constant depth entries) :
    EntriesWritten floats constant depth (insertEntry key value entries) := by
  induction entries with
  | nil => exact ⟨hkey, hvalue, trivial⟩
  | cons entry entries ih =>
    obtain ⟨k, v⟩ := entry
    obtain ⟨hk, hv, hrest⟩ := h
    rw [insertEntry]
    split_ifs
    · exact ⟨hk, hvalue, hrest⟩
    · exact ⟨hkey, hvalue, hk, hv, hrest⟩
    · exact ⟨hk, hv, ih hrest⟩

theorem key_of_mem_insertEntry {key : String} {value : Value} {entries : List (String × Value)}
    {entry : String × Value} (h : entry ∈ insertEntry key value entries) :
    entry.1 = key ∨ entry.1 ∈ entries.map Prod.fst := by
  induction entries with
  | nil => simp_all [insertEntry]
  | cons other entries ih =>
    obtain ⟨k, v⟩ := other
    rw [insertEntry] at h
    split_ifs at h
    · rcases List.mem_cons.mp h with rfl | hrest
      · simp
      · exact .inr (by simp [List.mem_map_of_mem hrest])
    · rcases List.mem_cons.mp h with rfl | hrest
      · simp
      · exact .inr (List.mem_map_of_mem hrest)
    · rcases List.mem_cons.mp h with rfl | hrest
      · simp
      · rcases ih hrest with heq | hmem
        · exact .inl heq
        · exact .inr (List.mem_cons_of_mem _ hmem)

/-- Entries stay in the order of their keys. -/
theorem insertEntry_sorted {key : String} {value : Value} {entries : List (String × Value)}
    (h : entries.Pairwise fun a b => a.1 < b.1) :
    (insertEntry key value entries).Pairwise fun a b => a.1 < b.1 := by
  induction entries with
  | nil => simp [insertEntry]
  | cons other entries ih =>
    obtain ⟨k, v⟩ := other
    rw [List.pairwise_cons] at h
    rw [insertEntry]
    split_ifs with heq hlt
    · exact List.pairwise_cons.mpr h
    · refine List.pairwise_cons.mpr ⟨?_, List.pairwise_cons.mpr h⟩
      intro entry hentry
      rcases List.mem_cons.mp hentry with rfl | hrest
      · exact hlt
      · exact hlt.trans (h.1 entry hrest)
    · refine List.pairwise_cons.mpr ⟨?_, ih h.2⟩
      have hgt : k < key := lt_of_le_of_ne (not_lt.mp hlt) (Ne.symm heq)
      intro entry hentry
      rcases key_of_mem_insertEntry hentry with hkey | hold
      · rw [hkey]
        exact hgt
      · obtain ⟨old, hmem, hfst⟩ := List.mem_map.mp hold
        rw [← hfst]
        exact h.1 old hmem

theorem ofEntries_eq (entries : List (String × Value)) :
    Value.ofEntries entries =
      .object (entries.foldl (fun sorted entry => insertEntry entry.1 entry.2 sorted) []) :=
  rfl

theorem ofEntries_written {entries : List (String × Value)} (hdepth : depth < maxDepth)
    (h : EntriesWritten floats constant (depth + 1) entries) :
    (Value.ofEntries entries).Written floats constant depth := by
  -- the entries that are sorted so far
  have hfold : ∀ sorted : List (String × Value),
      EntriesWritten floats constant (depth + 1) sorted →
      sorted.Pairwise (fun a b => a.1 < b.1) →
      EntriesWritten floats constant (depth + 1)
          (entries.foldl (fun sorted entry => insertEntry entry.1 entry.2 sorted) sorted) ∧
        (entries.foldl (fun sorted entry => insertEntry entry.1 entry.2 sorted) sorted).Pairwise
          fun a b => a.1 < b.1 := by
    induction entries with
    | nil => exact fun sorted hw hs => ⟨hw, hs⟩
    | cons entry entries ih =>
      intro sorted hw hs
      exact ih h.2.2 _ (insertEntry_written h.1 h.2.1 hw) (insertEntry_sorted hs)
  rw [ofEntries_eq]
  exact ⟨hdepth, hfold [] trivial List.Pairwise.nil⟩

/-! ### Reading -/

mutual

theorem value?_written {budget depth : Nat} {ls rest : List Lexeme} {v : Value}
    (h : value? constant budget ls = some (v, rest)) (hl : Legible floats depth ls) :
    v.Written floats constant depth ∧ Legible floats depth rest := by
  unfold value? at h
  split at h
  · cases h
    rw [legible_name] at hl
    exact ⟨nameValue_written hl.1, hl.2⟩
  · cases h
    exact legible_int.mp hl
  · cases h
    exact legible_float.mp hl
  · cases h
    exact ⟨trivial, legible_string.mp hl⟩
  · rw [legible_punct rfl rfl, legible_name] at hl
    split_ifs at h with hconstant
    cases h
    exact ⟨⟨by simpa using hconstant, hl.1⟩, hl.2⟩
  · simp only [Option.bind_eq_bind, Option.bind_eq_some_iff, Prod.exists] at h
    obtain ⟨items, inner, hitems, heq⟩ := h
    cases heq
    rw [legible_open rfl] at hl
    obtain ⟨hwritten, hrest⟩ := items?_written hitems hl.2
    exact ⟨⟨hl.1, hwritten⟩, hrest⟩
  · simp only [Option.bind_eq_bind, Option.bind_eq_some_iff, Prod.exists] at h
    obtain ⟨entries, inner, hentries, heq⟩ := h
    cases heq
    rw [legible_open rfl] at hl
    obtain ⟨hwritten, hrest⟩ := entries?_written rfl hentries hl.2
    exact ⟨ofEntries_written hl.1 hwritten, hrest⟩
  · cases h
termination_by budget

theorem items?_written {budget depth : Nat} {ls rest : List Lexeme} {items : List Value}
    (h : items? constant budget ls = some (items, rest)) (hl : Legible floats (depth + 1) ls) :
    ItemsWritten floats constant (depth + 1) items ∧ Legible floats depth rest := by
  unfold items? at h
  split at h
  · cases h
    exact ⟨trivial, (legible_close rfl).mp hl⟩
  · simp only [Option.bind_eq_bind, Option.bind_eq_some_iff, Prod.exists] at h
    obtain ⟨item, next, hitem, others, last, hothers, heq⟩ := h
    cases heq
    obtain ⟨hwritten, hnext⟩ := value?_written hitem hl
    obtain ⟨hrest, hlast⟩ := items?_written hothers hnext
    exact ⟨⟨hwritten, hrest⟩, hlast⟩
  · cases h
termination_by budget

theorem entries?_written {close : Punctuator} {budget depth : Nat} {ls rest : List Lexeme}
    {entries : List (String × Value)} (hclose : close.closes = true)
    (h : entries? constant close budget ls = some (entries, rest))
    (hl : Legible floats (depth + 1) ls) :
    EntriesWritten floats constant (depth + 1) entries ∧ Legible floats depth rest := by
  unfold entries? at h
  split at h
  · rw [legible_name, legible_punct rfl rfl] at hl
    simp only [Option.bind_eq_bind, Option.bind_eq_some_iff, Prod.exists] at h
    obtain ⟨value, next, hvalue, others, last, hothers, heq⟩ := h
    cases heq
    obtain ⟨hwritten, hnext⟩ := value?_written hvalue hl.2
    obtain ⟨hrest, hlast⟩ := entries?_written hclose hothers hnext
    exact ⟨⟨hl.1, hwritten, hrest⟩, hlast⟩
  · split_ifs at h with hp
    cases h
    rw [hp, legible_close hclose] at hl
    exact ⟨trivial, hl⟩
  · cases h
termination_by budget

end

theorem arguments?_written {depth : Nat} {ls rest : List Lexeme} {arguments : List (String × Value)}
    (h : arguments? ls = some (arguments, rest)) (hl : Legible floats depth ls) :
    ArgumentsWritten floats depth arguments ∧ Legible floats depth rest := by
  unfold arguments? at h
  split at h
  · simp only [Option.bind_eq_bind, Option.bind_eq_some_iff, Prod.exists] at h
    obtain ⟨entries, inner, hentries, h⟩ := h
    split_ifs at h
    cases h
    rw [legible_open rfl] at hl
    obtain ⟨hwritten, hrest⟩ := entries?_written rfl hentries hl.2
    exact ⟨.inr ⟨hl.1, hwritten⟩, hrest⟩
  · cases h
    exact ⟨.inl rfl, hl⟩

theorem defaultValue?_written {depth : Nat} {ls rest : List Lexeme} {value : Option Value}
    (h : defaultValue? ls = some (value, rest)) (hl : Legible floats depth ls) :
    (∀ v ∈ value, v.Written floats true depth) ∧ Legible floats depth rest := by
  unfold defaultValue? at h
  split at h
  · simp only [Option.bind_eq_bind, Option.bind_eq_some_iff, Prod.exists] at h
    obtain ⟨v, inner, hv, heq⟩ := h
    cases heq
    rw [legible_punct rfl rfl] at hl
    obtain ⟨hwritten, hrest⟩ := value?_written hv hl
    exact ⟨by simpa using hwritten, hrest⟩
  · cases h
    exact ⟨by simp, hl⟩

theorem directivesUpTo?_legible {budget depth : Nat} {ls rest : List Lexeme}
    {directives : List Directive} (h : directivesUpTo? budget ls = some (directives, rest))
    (hl : Legible floats depth ls) : Legible floats depth rest := by
  fun_induction directivesUpTo? budget ls generalizing rest directives with
  | case1 budget position name position' ls ih =>
    simp only [Option.bind_eq_bind, Option.bind_eq_some_iff, Prod.exists] at h
    obtain ⟨arguments, next, harguments, others, last, hothers, heq⟩ := h
    cases heq
    rw [legible_punct rfl rfl, legible_name] at hl
    exact ih next hothers (arguments?_written harguments hl.2).2
  | case2 => cases h
  | case3 =>
    cases h
    exact hl

theorem directives?_legible {depth : Nat} {ls rest : List Lexeme} {directives : List Directive}
    (h : directives? ls = some (directives, rest)) (hl : Legible floats depth ls) :
    Legible floats depth rest :=
  directivesUpTo?_legible h hl

end

end GraphQL

/-! ## Selections -/

mutual

/-- Whether a selection can be written inside so many open brackets. -/
def Selection.Written (floats : Binary64 → Bool) (depth : Nat) : Selection → Prop
  | .field f selections =>
    (∀ label ∈ f.label, isName label = true) ∧ isName f.name = true ∧
      ArgumentsWritten floats depth f.arguments ∧
      (selections = [] ∨ depth < maxDepth ∧ SelectionsWritten floats (depth + 1) selections)
  | .spread name _ => isName name = true ∧ name ≠ "on"
  | .inline condition selections _ =>
    (∀ name ∈ condition, isName name = true) ∧ selections ≠ [] ∧
      depth < maxDepth ∧ SelectionsWritten floats (depth + 1) selections

/-- Whether selections can be written. -/
def SelectionsWritten (floats : Binary64 → Bool) (depth : Nat) : List Selection → Prop
  | [] => True
  | selection :: selections =>
    selection.Written floats depth ∧ SelectionsWritten floats depth selections

end

section

variable {floats : Binary64 → Bool}

/-- Whether a reader gives selections that can be written, from what follows an opening brace. -/
def ReadsSelections (floats : Binary64 → Bool) (inner : Reader (List Selection)) : Prop :=
  ∀ {depth : Nat} {ls rest : List Lexeme} {selections : List Selection},
    inner ls = some (selections, rest) → Legible floats (depth + 1) ls →
    selections ≠ [] ∧ SelectionsWritten floats (depth + 1) selections ∧ Legible floats depth rest

variable {inner : Reader (List Selection)} {depth : Nat} {ls rest : List Lexeme}

theorem optionalSelections?_written (hinner : ReadsSelections floats inner)
    {selections : List Selection} (h : optionalSelections? inner ls = some (selections, rest))
    (hl : Legible floats depth ls) :
    (selections = [] ∨ depth < maxDepth ∧ SelectionsWritten floats (depth + 1) selections) ∧
      Legible floats depth rest := by
  unfold optionalSelections? at h
  split at h
  · rw [legible_open rfl] at hl
    obtain ⟨-, hwritten, hrest⟩ := hinner h hl.2
    exact ⟨.inr ⟨hl.1, hwritten⟩, hrest⟩
  · cases h
    exact ⟨.inl rfl, hl⟩

theorem requiredSelections?_written (hinner : ReadsSelections floats inner)
    {selections : List Selection} (h : requiredSelections? inner ls = some (selections, rest))
    (hl : Legible floats depth ls) :
    (selections ≠ [] ∧ depth < maxDepth ∧ SelectionsWritten floats (depth + 1) selections) ∧
      Legible floats depth rest := by
  unfold requiredSelections? at h
  split at h
  · rw [legible_open rfl] at hl
    obtain ⟨hne, hwritten, hrest⟩ := hinner h hl.2
    exact ⟨⟨hne, hl.1, hwritten⟩, hrest⟩
  · cases h

theorem fieldTail?_written (hinner : ReadsSelections floats inner) {label : Option String}
    {name : String} {position : Position} {selection : Selection}
    (hlabel : ∀ l ∈ label, isName l = true) (hname : isName name = true)
    (h : fieldTail? inner label name position ls = some (selection, rest))
    (hl : Legible floats depth ls) :
    selection.Written floats depth ∧ Legible floats depth rest := by
  simp only [fieldTail?, Option.bind_eq_bind, Option.bind_eq_some_iff, Prod.exists] at h
  obtain ⟨arguments, ls₁, harguments, directives, ls₂, hdirectives, selections, ls₃, hselections,
    heq⟩ := h
  cases heq
  obtain ⟨hargs, hl₁⟩ := arguments?_written harguments hl
  have hl₂ := directives?_legible hdirectives hl₁
  obtain ⟨hwritten, hl₃⟩ := optionalSelections?_written hinner hselections hl₂
  exact ⟨⟨hlabel, hname, hargs, hwritten⟩, hl₃⟩

theorem inlineTail?_written (hinner : ReadsSelections floats inner) {condition : Option String}
    {position : Position} {selection : Selection} (hcondition : ∀ c ∈ condition, isName c = true)
    (h : inlineTail? inner condition position ls = some (selection, rest))
    (hl : Legible floats depth ls) :
    selection.Written floats depth ∧ Legible floats depth rest := by
  simp only [inlineTail?, Option.bind_eq_bind, Option.bind_eq_some_iff, Prod.exists] at h
  obtain ⟨directives, ls₁, hdirectives, selections, ls₂, hselections, heq⟩ := h
  cases heq
  have hl₁ := directives?_legible hdirectives hl
  obtain ⟨hwritten, hl₂⟩ := requiredSelections?_written hinner hselections hl₁
  exact ⟨⟨hcondition, hwritten⟩, hl₂⟩

theorem selection?_written (hinner : ReadsSelections floats inner) {selection : Selection}
    (h : selection? inner ls = some (selection, rest)) (hl : Legible floats depth ls) :
    selection.Written floats depth ∧ Legible floats depth rest := by
  unfold selection? at h
  split at h
  · rw [legible_name, legible_punct rfl rfl] at hl
    split at h
    · rw [legible_name] at hl
      exact fieldTail?_written hinner (by simpa using hl.1) hl.2.1 h hl.2.2
    · cases h
  · rw [legible_name] at hl
    exact fieldTail?_written hinner (by simp) hl.1 h hl.2
  · rw [legible_spread, legible_name] at hl
    split_ifs at h with hon
    · split at h
      · rw [legible_name] at hl
        exact inlineTail?_written hinner (by simpa using hl.2.1) h hl.2.2
      · cases h
    · simp only [Option.bind_eq_bind, Option.bind_eq_some_iff, Prod.exists] at h
      obtain ⟨directives, ls₁, hdirectives, heq⟩ := h
      cases heq
      exact ⟨⟨hl.1, hon⟩, directives?_legible hdirectives hl.2⟩
  · rw [legible_spread] at hl
    exact inlineTail?_written hinner (by simp) h hl
  · cases h

theorem selections?_written (budget : Nat) : ReadsSelections floats (selections? budget) := by
  induction budget with
  | zero =>
    intro depth ls rest selections h
    cases h
  | succ budget ih =>
    intro depth ls rest selections h hl
    simp only [selections?, Option.bind_eq_bind, Option.bind_eq_some_iff, Prod.exists] at h
    obtain ⟨selection, ls₁, hselection, h⟩ := h
    obtain ⟨hwritten, hl₁⟩ := selection?_written ih hselection hl
    split at h
    · cases h
      exact ⟨by simp, ⟨hwritten, trivial⟩, (legible_close rfl).mp hl₁⟩
    · simp only [Option.bind_eq_some_iff, Prod.exists] at h
      obtain ⟨others, ls₂, hothers, heq⟩ := h
      cases heq
      obtain ⟨-, hrest, hl₂⟩ := ih hothers hl₁
      exact ⟨by simp, ⟨hwritten, hrest⟩, hl₂⟩

/-! ## Definitions -/

/-- Whether the definition of a variable can be written inside so many open brackets. -/
def VariableDefinition.Written (floats : Binary64 → Bool) (depth : Nat) (v : VariableDefinition) :
    Prop :=
  isName v.name = true ∧ v.type.Written depth ∧
    ∀ value ∈ v.defaultValue, value.Written floats true depth

/-- Whether an operation can be written. -/
def Operation.Written (floats : Binary64 → Bool) (op : Operation) : Prop :=
  (∀ name ∈ op.name, isName name = true) ∧ (∀ v ∈ op.parameters, v.Written floats 1) ∧
    op.selections ≠ [] ∧ SelectionsWritten floats 1 op.selections

/-- Whether a fragment can be written. -/
def Fragment.Written (floats : Binary64 → Bool) (f : Fragment) : Prop :=
  isName f.name = true ∧ isName f.condition = true ∧
    f.selections ≠ [] ∧ SelectionsWritten floats 1 f.selections

/-- Whether a definition can be written. -/
def Definition.Written (floats : Binary64 → Bool) : Definition → Prop
  | .operation op => op.Written floats
  | .fragment f => f.Written floats

theorem parameters?_written {budget : Nat} {parameters : List VariableDefinition}
    (h : parameters? budget ls = some (parameters, rest)) (hl : Legible floats (depth + 1) ls) :
    (∀ v ∈ parameters, v.Written floats (depth + 1)) ∧ Legible floats depth rest := by
  induction budget generalizing ls rest parameters with
  | zero => simp [parameters?] at h
  | succ budget ih =>
    unfold parameters? at h
    split at h
    · next heq =>
      cases heq
      simp only [Option.bind_eq_bind, Option.bind_eq_some_iff, Prod.exists] at h
      obtain ⟨type, ls₁, htype, value, ls₂, hvalue, others, ls₃, hothers, heq⟩ := h
      cases heq
      rw [legible_punct rfl rfl, legible_name, legible_punct rfl rfl] at hl
      obtain ⟨htypeWritten, hl₁⟩ := type?_written htype hl.2
      obtain ⟨hvalueWritten, hl₂⟩ := defaultValue?_written hvalue hl₁
      obtain ⟨hwritten, hl₃⟩ := ih hothers hl₂
      refine ⟨?_, hl₃⟩
      intro v hv
      rcases List.mem_cons.mp hv with rfl | hv
      · exact ⟨hl.1, htypeWritten, hvalueWritten⟩
      · exact hwritten v hv
    · cases h
      exact ⟨by simp, (legible_close rfl).mp hl⟩
    · cases h

theorem variableDefinitions?_written {parameters : List VariableDefinition}
    (h : variableDefinitions? ls = some (parameters, rest)) (hl : Legible floats depth ls) :
    (∀ v ∈ parameters, v.Written floats (depth + 1)) ∧ Legible floats depth rest := by
  unfold variableDefinitions? at h
  split at h
  · simp only [Option.bind_eq_bind, Option.bind_eq_some_iff, Prod.exists] at h
    obtain ⟨others, ls₁, hothers, h⟩ := h
    split_ifs at h
    cases h
    exact parameters?_written hothers ((legible_open rfl).mp hl).2
  · cases h
    exact ⟨by simp, hl⟩

theorem optionalName_written (hl : Legible floats depth ls) :
    (∀ name ∈ (optionalName ls).1, isName name = true) ∧ Legible floats depth (optionalName ls).2 := by
  unfold optionalName
  split
  · rw [legible_name] at hl
    exact ⟨by simpa using hl.1, hl.2⟩
  · exact ⟨by simp, hl⟩

theorem operationTail?_written {kind : OperationKind} {position : Position} {d : Definition}
    (h : operationTail? kind position ls = some (d, rest)) (hl : Legible floats 0 ls) :
    d.Written floats ∧ Legible floats 0 rest := by
  simp only [operationTail?, Option.bind_eq_bind, Option.bind_eq_some_iff, Prod.exists] at h
  obtain ⟨parameters, ls₁, hparameters, directives, ls₂, hdirectives, selections, ls₃, hselections,
    heq⟩ := h
  cases heq
  obtain ⟨hname, hl⟩ := optionalName_written hl
  obtain ⟨hwritten, hl₁⟩ := variableDefinitions?_written hparameters hl
  have hl₂ := directives?_legible hdirectives hl₁
  obtain ⟨⟨hne, -, hset⟩, hl₃⟩ :=
    requiredSelections?_written (selections?_written _) hselections hl₂
  exact ⟨⟨hname, hwritten, hne, hset⟩, hl₃⟩

theorem fragmentTail?_written {position : Position} {d : Definition}
    (h : fragmentTail? position ls = some (d, rest)) (hl : Legible floats 0 ls) :
    d.Written floats ∧ Legible floats 0 rest := by
  unfold fragmentTail? at h
  split at h
  · simp only [Option.bind_eq_bind, Option.bind_eq_some_iff, Prod.exists] at h
    obtain ⟨directives, ls₁, hdirectives, selections, ls₂, hselections, heq⟩ := h
    cases heq
    rw [legible_name, legible_name, legible_name] at hl
    have hl₁ := directives?_legible hdirectives hl.2.2.2
    obtain ⟨⟨hne, -, hset⟩, hl₂⟩ :=
      requiredSelections?_written (selections?_written _) hselections hl₁
    exact ⟨⟨hl.1, hl.2.2.1, hne, hset⟩, hl₂⟩
  · cases h

theorem definition?_written {d : Definition} (h : definition? ls = some (d, rest))
    (hl : Legible floats 0 ls) : d.Written floats ∧ Legible floats 0 rest := by
  unfold definition? at h
  split at h
  · simp only [Option.bind_eq_bind, Option.bind_eq_some_iff, Prod.exists] at h
    obtain ⟨selections, ls₁, hselections, heq⟩ := h
    cases heq
    obtain ⟨hne, hset, hl₁⟩ := selections?_written _ hselections ((legible_open rfl).mp hl).2
    exact ⟨⟨by simp, by simp, hne, hset⟩, hl₁⟩
  · rw [legible_name] at hl
    split_ifs at h
    · exact operationTail?_written h hl.2
    · exact operationTail?_written h hl.2
    · exact operationTail?_written h hl.2
    · exact fragmentTail?_written h hl.2
  · cases h

theorem definitions?_written {budget : Nat} {ds : List Definition}
    (h : definitions? budget ls = some ds) (hl : Legible floats 0 ls) :
    ∀ d ∈ ds, d.Written floats := by
  fun_induction definitions? budget ls generalizing ds with
  | case1 =>
    cases h
    simp
  | case2 => cases h
  | case3 budget ls _ ih =>
    simp only [Option.bind_eq_bind, Option.bind_eq_some_iff, Prod.exists] at h
    obtain ⟨d, ls₁, hd, others, hothers, heq⟩ := h
    cases heq
    obtain ⟨hwritten, hl₁⟩ := definition?_written hd hl
    intro other hother
    rcases List.mem_cons.mp hother with rfl | hother
    · exact hwritten
    · exact ih ls₁ hothers hl₁ other hother

/-- Whatever a document that is read from a text holds can be written. -/
theorem Document.parse_written {text : String} {document : Document}
    (h : Document.parse text = .ok document) (hfloats : ∀ x ∈ floatLiterals text, floats x = true) :
    ∀ d ∈ document.definitions, d.Written floats := by
  unfold Document.parse at h
  split at h
  · next heq =>
    cases h
    simp only [Document.parse?, Option.bind_eq_bind, Option.bind_eq_some_iff] at heq
    obtain ⟨ls, hls, definitions, hdefinitions, heq⟩ := heq
    split_ifs at heq
    cases heq
    refine definitions?_written hdefinitions (lexemesFrom?_legible hls ?_)
    intro l hl x hx
    refine hfloats x ?_
    rw [floatLiterals, hls]
    exact List.mem_filterMap.mpr ⟨l, hl, hx⟩
  · cases h

end

end ElmBindings
