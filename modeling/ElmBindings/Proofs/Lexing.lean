import ElmBindings.Document.Printer
import ElmBindings.Proofs.Numerals
import Mathlib

set_option autoImplicit false

/-! # Tokens of printed documents

The tokens of types, values, selections and definitions, and that their texts are divided into these
tokens (`lexemes?_definitions`). A text stands in front of others, so each statement is about whatever
follows, as long as a token ends there. The one thing that is printed and cannot be read is a float that
is not finite; `HasTokens` says of a text at once what its tokens are if it can be read, and that it
stops the reading if it cannot. -/

namespace ElmBindings

namespace GraphQL

/-! ## Dividing a text -/

/-- Whether reading characters inside so many open brackets gives the given tokens and goes on with
other characters, inside other brackets. -/
def Leads (depth : Nat) (cs : List Char) (us : List Token) (after : Nat) (rest : List Char) : Prop :=
  ∀ position, ∃ position' ls, ls.map Lexeme.token = us ∧
    lexemesFrom? position depth cs = (lexemesFrom? position' after rest).map (ls ++ ·)

/-- Whether characters inside so many open brackets cannot be divided into tokens. -/
def Stuck (depth : Nat) (cs : List Char) : Prop := ∀ position, lexemesFrom? position depth cs = none

/-- Whether no token starts with a character. -/
def isIgnored (c : Char) : Bool := c ∈ ['\n', '\r', '\ufeff', ' ', ',', '\t', '#']

section

variable {depth after last : Nat} {cs ds rest : List Char} {us vs : List Token} {t : Token}
  {c : Char} {p : Punctuator}

namespace Leads

theorem refl : Leads depth cs [] depth cs := fun position => ⟨position, [], rfl, by simp⟩

theorem trans (h : Leads depth cs us after ds) (h' : Leads after ds vs last rest) :
    Leads depth cs (us ++ vs) last rest := by
  intro position
  obtain ⟨position₁, ls, rfl, hls⟩ := h position
  obtain ⟨position₂, ms, rfl, hms⟩ := h' position₁
  refine ⟨position₂, ls ++ ms, by simp, ?_⟩
  rw [hls, hms, Option.map_map]
  congr 1
  funext ns
  simp

theorem stuck (h : Leads depth cs us after rest) (hrest : Stuck after rest) : Stuck depth cs := by
  intro position
  obtain ⟨position', ls, -, hls⟩ := h position
  rw [hls, hrest, Option.map_none]

theorem space : Leads depth (' ' :: cs) [] depth cs := by
  intro position
  rw [lexemesFrom?]
  exact refl _

theorem comma : Leads depth (',' :: cs) [] depth cs := by
  intro position
  rw [lexemesFrom?]
  exact refl _

theorem token (cs : List Char) (hc : isIgnored c = false)
    (ht : token? c (cs ++ rest) = some (t, cs.length)) (hdepth : depthAfter? depth t = some after) :
    Leads depth (c :: (cs ++ rest)) [t] after rest := by
  intro position
  refine ⟨position.past (c :: cs), [⟨t, position⟩], rfl, ?_⟩
  simp only [isIgnored, decide_eq_false_iff_not, List.mem_cons, List.not_mem_nil, or_false,
    not_or] at hc
  rw [lexemesFrom?]
  cases hrest : lexemesFrom? (position.past (c :: cs)) after rest <;>
    simp [hc, ht, hdepth, hrest]

end Leads

theorem Stuck.of_token? (hc : isIgnored c = false) (ht : token? c cs = none) :
    Stuck depth (c :: cs) := by
  intro position
  simp only [isIgnored, decide_eq_false_iff_not, List.mem_cons, List.not_mem_nil, or_false,
    not_or] at hc
  rw [lexemesFrom?]
  simp [hc, ht]

/-! ### Punctuation -/

theorem token?_punct (hp : Punctuator.ofChar? c = some p) :
    token? c rest = some (.punct p, 0) := by
  unfold Punctuator.ofChar? at hp
  split at hp <;> cases hp <;> rfl

theorem not_ignored_of_punct (hp : Punctuator.ofChar? c = some p) : isIgnored c = false := by
  unfold Punctuator.ofChar? at hp
  split at hp <;> cases hp <;> decide

namespace Leads

theorem punct (hp : Punctuator.ofChar? c = some p)
    (hdepth : depthAfter? depth (.punct p) = some after) :
    Leads depth (c :: rest) [.punct p] after rest :=
  Leads.token [] (not_ignored_of_punct hp) (token?_punct hp) hdepth

theorem spread : Leads depth ('.' :: '.' :: '.' :: rest) [.spread] depth rest :=
  Leads.token ['.', '.'] (by decide) rfl rfl

end Leads

theorem Punctuator.depthAfter?_of_opens (hp : p.opens = true) (hdepth : depth < maxDepth) :
    depthAfter? depth (.punct p) = some (depth + 1) := by
  cases p <;> simp_all [Punctuator.opens, depthAfter?]

theorem Punctuator.depthAfter?_of_closes (hp : p.closes = true) :
    depthAfter? (depth + 1) (.punct p) = some depth := by
  cases p <;> simp_all [Punctuator.closes, depthAfter?]

end

/-! ## The tokens of a text -/

/-- Whether a token ends where characters start. -/
def EndsToken (cs : List Char) : Prop := ∀ c ∈ cs.head?, endsNumber c = true

@[simp]
theorem endsToken_nil : EndsToken [] := fun _ h => by cases h

@[simp]
theorem endsToken_cons {c : Char} {cs : List Char} : EndsToken (c :: cs) ↔ endsNumber c = true := by
  simp [EndsToken]

theorem EndsToken.append {cs rest : List Char} (hcs : EndsToken cs) (hrest : EndsToken rest) :
    EndsToken (cs ++ rest) := by
  cases cs with
  | nil => exact hrest
  | cons c cs => exact endsToken_cons.mpr (endsToken_cons.mp hcs)

theorem endsNumber_of_punct {c : Char} {p : Punctuator} (hp : Punctuator.ofChar? c = some p) :
    endsNumber c = true := by
  simp [endsNumber, hp]

/-- Whether characters inside so many open brackets are divided into the given tokens if they are
`legible` and cannot be divided otherwise, whatever follows them, if a token ends there. -/
def HasTokens (depth : Nat) (cs : List Char) (legible : Bool) (us : List Token) : Prop :=
  ∀ rest, EndsToken rest →
    if legible then Leads depth (cs ++ rest) us depth rest else Stuck depth (cs ++ rest)

/-- Tokens between brackets. -/
def bracketed (left right : Punctuator) (ts : List Token) : List Token :=
  .punct left :: (ts ++ [.punct right])

namespace HasTokens

variable {depth : Nat} {cs ds : List Char} {legible legible' : Bool} {us vs : List Token}
  {c d : Char} {p q : Punctuator}

theorem nil : HasTokens depth [] true [] := fun _ _ => Leads.refl

theorem append (h : HasTokens depth cs legible us) (hend : EndsToken ds)
    (h' : HasTokens depth ds legible' vs) :
    HasTokens depth (cs ++ ds) (legible && legible') (us ++ vs) := by
  intro rest hrest
  have hfirst := h (ds ++ rest) (hend.append hrest)
  have hsecond := h' rest hrest
  rw [List.append_assoc]
  cases legible with
  | false => exact hfirst
  | true =>
    cases legible' with
    | false => exact Leads.stuck hfirst hsecond
    | true => exact Leads.trans hfirst hsecond

/-- A text after what can be read in any case. -/
theorem after (us : List Token) (hleads : ∀ rest, Leads depth (ds ++ rest) us depth (cs ++ rest))
    (h : HasTokens depth cs legible vs) : HasTokens depth ds legible (us ++ vs) := by
  intro rest hrest
  have hnext := h rest hrest
  cases legible with
  | false => exact (hleads rest).stuck hnext
  | true => exact (hleads rest).trans hnext

theorem space (h : HasTokens depth cs legible us) : HasTokens depth (' ' :: cs) legible us :=
  h.after [] fun _ => Leads.space

theorem comma (h : HasTokens depth cs legible us) : HasTokens depth (',' :: cs) legible us :=
  h.after [] fun _ => Leads.comma

theorem spread (h : HasTokens depth cs legible us) :
    HasTokens depth ('.' :: '.' :: '.' :: cs) legible (.spread :: us) :=
  h.after [.spread] fun _ => Leads.spread

theorem punct (hp : Punctuator.ofChar? c = some p)
    (hdepth : depthAfter? depth (.punct p) = some depth) (h : HasTokens depth cs legible us) :
    HasTokens depth (c :: cs) legible (.punct p :: us) :=
  h.after [.punct p] fun _ => Leads.punct hp hdepth

theorem brackets (hp : Punctuator.ofChar? c = some p) (hopens : p.opens = true)
    (hq : Punctuator.ofChar? d = some q) (hcloses : q.closes = true) (hdepth : depth < maxDepth)
    (h : HasTokens (depth + 1) cs legible us) :
    HasTokens depth (c :: (cs ++ [d])) legible (bracketed p q us) := by
  intro rest _
  have hopen : Leads depth (c :: (cs ++ d :: rest)) [.punct p] (depth + 1) (cs ++ d :: rest) :=
    .punct hp (Punctuator.depthAfter?_of_opens hopens hdepth)
  have hclose : Leads (depth + 1) (d :: rest) [.punct q] depth rest :=
    .punct hq (Punctuator.depthAfter?_of_closes hcloses)
  have hinner := h (d :: rest) (endsToken_cons.mpr (endsNumber_of_punct hq))
  rw [List.cons_append, List.append_assoc, List.singleton_append]
  cases legible with
  | false => exact hopen.stuck hinner
  | true => exact hopen.trans (Leads.trans hinner hclose)

/-- A text between braces, with a space before the closing one. -/
theorem braces {text : String} (hdepth : depth < maxDepth)
    (h : HasTokens (depth + 1) text.toList legible us) :
    HasTokens depth ("\x7b" ++ text ++ " \x7d").toList legible
      (bracketed .openBrace .closeBrace us) := by
  have hspace := h.append (endsToken_cons.mpr rfl) (.space .nil)
  have hbraces := HasTokens.brackets (c := '{') (d := '}') rfl rfl rfl rfl hdepth hspace
  simpa using hbraces

/-- A text in front of others, with a separator between them that holds no token. -/
theorem joined {sep text : String} {texts : List String}
    (hsep : ∀ cs, EndsToken (sep.toList ++ cs))
    (hskip : HasTokens depth (sep.intercalate texts).toList legible' vs →
      HasTokens depth (sep.toList ++ (sep.intercalate texts).toList) legible' vs)
    (h : HasTokens depth text.toList legible us)
    (hrest : HasTokens depth (sep.intercalate texts).toList legible' vs) :
    HasTokens depth (sep.intercalate (text :: texts)).toList (legible && legible') (us ++ vs) := by
  cases texts with
  | nil => simpa using h.append endsToken_nil hrest
  | cons next texts =>
    rw [String.intercalate_cons_cons, String.toList_append, String.toList_append,
      List.append_assoc]
    exact h.append (hsep _) (hskip hrest)

theorem listed {text : String} {texts : List String} (h : HasTokens depth text.toList legible us)
    (hrest : HasTokens depth (", ".intercalate texts).toList legible' vs) :
    HasTokens depth (", ".intercalate (text :: texts)).toList (legible && legible') (us ++ vs) :=
  joined (fun _ => endsToken_cons.mpr rfl) (fun h => h.space.comma) h hrest

theorem spaced {text : String} {texts : List String} (h : HasTokens depth text.toList legible us)
    (hrest : HasTokens depth (" ".intercalate texts).toList legible' vs) :
    HasTokens depth (" ".intercalate (text :: texts)).toList (legible && legible') (us ++ vs) :=
  joined (fun _ => endsToken_cons.mpr rfl) (fun h => h.space) h hrest

end HasTokens

/-! ### Names -/

theorem not_ignored_of_nameStart {c : Char} (hc : isNameStart c = true) : isIgnored c = false := by
  have hall : ∀ c ∈ ['\n', '\r', '\ufeff', ' ', ',', '\t', '#'], isNameStart c = false := by
    simp [isNameStart]
  by_contra hne
  have hmem := of_decide_eq_true (Bool.eq_true_of_not_eq_false hne)
  rw [hall c hmem] at hc
  cases hc

theorem not_nameChar_of_endsNumber {c : Char} (hc : endsNumber c = true) : isNameChar c = false := by
  have hall : ∀ c ∈ [' ', '\n', '\r', '\t', ',', '#'], isNameChar c = false := by
    simp [isNameChar]
  rcases Bool.or_eq_true_iff.mp hc with hmem | hpunct
  · exact hall c (of_decide_eq_true hmem)
  · obtain ⟨p, hp⟩ := Option.isSome_iff_exists.mp hpunct
    unfold Punctuator.ofChar? at hp
    split at hp <;> cases hp <;> decide

/-- What is taken while a condition holds ends with a token, if a token ends where it fails. -/
theorem EndsToken.takeWhile_append {p : Char → Bool} {cs rest : List Char} (h : EndsToken rest)
    (hp : ∀ c, endsNumber c = true → p c = false) (hcs : ∀ c ∈ cs, p c = true) :
    (cs ++ rest).takeWhile p = cs :=
  Text.takeWhile_run hcs fun c hc => hp c (h c hc)

theorem HasTokens.name {depth : Nat} {name : String} (hname : isName name = true) :
    HasTokens depth name.toList true [.name name] := by
  intro rest hend
  rw [isName] at hname
  split at hname
  · cases hname
  · next c cs hchars =>
    rw [Bool.and_eq_true, List.all_eq_true] at hname
    have htail := hend.takeWhile_append (fun _ => not_nameChar_of_endsNumber) hname.2
    have hofList : String.ofList (c :: cs) = name := by rw [← hchars, String.ofList_toList]
    have htoken : token? c (cs ++ rest) = some (.name name, cs.length) := by
      simp [token?, hname.1, htail, hofList]
    rw [hchars]
    exact Leads.token cs (not_ignored_of_nameStart hname.1) htoken rfl

/-! ### Numbers -/

/-- The characters of numbers that are printed. -/
def isNumberChar (c : Char) : Bool := c == '-' || c == '.' || c.isDigit

theorem not_numberChar_of_endsNumber {c : Char} (hc : endsNumber c = true) :
    isNumberChar c = false := by
  have hall : ∀ c ∈ [' ', '\n', '\r', '\t', ',', '#'], isNumberChar c = false := by
    simp [isNumberChar]
  rcases Bool.or_eq_true_iff.mp hc with hmem | hpunct
  · exact hall c (of_decide_eq_true hmem)
  · obtain ⟨p, hp⟩ := Option.isSome_iff_exists.mp hpunct
    unfold Punctuator.ofChar? at hp
    split at hp <;> cases hp <;> decide

theorem not_endsNumber_of_numberChar {c : Char} (hc : isNumberChar c = true) :
    endsNumber c = false := by
  by_contra hne
  rw [not_numberChar_of_endsNumber (Bool.eq_true_of_not_eq_false hne)] at hc
  cases hc

/-- Whether a number can start with a character. -/
def startsNumber (c : Char) : Prop := c = '-' ∨ c.isDigit = true

theorem not_nameStart_of_startsNumber {c : Char} (hc : startsNumber c) : isNameStart c = false := by
  rcases hc with rfl | hdigit
  · decide
  · simp [isNameStart, Char.isDigit, Char.isAlpha, Char.isUpper, Char.isLower, Char.ext_iff,
      UInt32.le_iff_toNat_le, ← UInt32.toNat_inj] at *
    omega

theorem not_ignored_of_startsNumber {c : Char} (hc : startsNumber c) : isIgnored c = false := by
  have hall : ∀ c ∈ ['\n', '\r', '\ufeff', ' ', ',', '\t', '#'], ¬ startsNumber c := by
    simp [startsNumber]
  by_contra hne
  exact hall c (of_decide_eq_true (Bool.eq_true_of_not_eq_false hne)) hc

/-- A number that is not empty is one token. -/
theorem HasTokens.number {depth : Nat} {cs : List Char} {t : Token}
    (hstart : ∃ c ∈ cs.head?, startsNumber c) (hcs : ∀ c ∈ cs, isNumberChar c = true)
    (ht : numberToken? cs = some t) (hdepth : depthAfter? depth t = some depth) :
    HasTokens depth cs true [t] := by
  intro rest hend
  obtain ⟨c, hhead, hc⟩ := hstart
  obtain ⟨tail, rfl⟩ := List.head?_eq_some_iff.mp hhead
  have htail : (tail ++ rest).takeWhile (fun c => !endsNumber c) = tail := by
    refine hend.takeWhile_append (fun c hc => by simp [hc]) fun c hc => ?_
    simp [not_endsNumber_of_numberChar (hcs c (List.mem_cons_of_mem _ hc))]
  have htoken : token? c (tail ++ rest) = some (t, tail.length) := by
    have hstart : c = '-' ∨ c.isDigit = true := hc
    simp [token?, not_nameStart_of_startsNumber hc, hstart, htail, ht]
  exact Leads.token tail (not_ignored_of_startsNumber hc) htoken hdepth

theorem IsWhole.startsNumber {whole : List Char} (h : IsWhole whole) (negative : Bool) :
    ∀ c ∈ signChars negative ++ whole, startsNumber c := by
  intro c hc
  rcases List.mem_append.mp hc with hsign | hdigit
  · cases negative <;> simp_all [signChars, GraphQL.startsNumber]
  · exact .inr (h.isDigit c hdigit)

theorem IsWhole.exists_head {whole : List Char} (h : IsWhole whole) (negative : Bool)
    (rest : List Char) :
    ∃ c ∈ (signChars negative ++ whole ++ rest).head?, GraphQL.startsNumber c := by
  cases hchars : signChars negative ++ whole with
  | nil =>
    rcases h with rfl | ⟨hne, -⟩
    · simp at hchars
    · exact absurd (List.append_eq_nil_iff.mp hchars).2 hne
  | cons c cs => exact ⟨c, rfl, h.startsNumber negative c (by simp [hchars])⟩

theorem numberChar_of_startsNumber {c : Char} (hc : startsNumber c) : isNumberChar c = true := by
  rcases hc with rfl | hdigit
  · decide
  · simp [isNumberChar, hdigit]

theorem HasTokens.int {floats : Binary64 → Bool} {depth : Nat} {n : Int}
    (hn : Token.Valid floats (.int n)) : HasTokens depth (toString n).toList true [.int n] := by
  have hwhole := isWhole_toDigits n.natAbs
  have hhead := hwhole.exists_head (decide (n < 0)) []
  have hchars := hwhole.startsNumber (decide (n < 0))
  have hmarks := hwhole.not_mark (decide (n < 0))
  rw [List.append_nil] at hhead
  rw [← toList_toString_int] at hhead hchars hmarks
  have htoken : numberToken? (toString n).toList = some (.int n) := by
    have hnone : (toString n).toList.any (fun c => c == '.' || isExponentMark c) = false :=
      List.any_eq_false.mpr fun c hc => Bool.not_eq_true _ ▸ hmarks c hc
    rw [numberToken?, hnone]
    exact intToken?_toString hn
  exact HasTokens.number hhead (fun c hc => numberChar_of_startsNumber (hchars c hc)) htoken rfl

/-- A number that is not finite is printed as a word with a fraction. -/
theorem floatText_of_not_isFinite {x : Binary64} (hx : x.isFinite = false) :
    floatText x ∈ ["NaN.0", "inf.0", "-inf.0"] := by
  have htext : x.text ∈ ["NaN", "inf", "-inf"] := by
    rw [Binary64.text]
    cases x.isNaN <;> cases x.isNegative <;> simp [hx]
  have hall : ∀ text ∈ ["NaN", "inf", "-inf"],
      text.toList.any (fun c => c == '.' || c == 'e' || c == 'E') = false ∧
        text ++ ".0" ∈ ["NaN.0", "inf.0", "-inf.0"] := by
    decide
  obtain ⟨hmark, hmem⟩ := hall _ htext
  simpa only [floatText, hmark, Bool.false_eq_true, if_false] using hmem

/-- No token starts with one point. -/
theorem stuck_point {depth : Nat} {rest : List Char} : Stuck depth ('.' :: '0' :: rest) :=
  Stuck.of_token? (by decide) rfl

/-- The text of a float can be read if it is finite. -/
theorem HasTokens.float {depth : Nat} (x : Binary64) :
    HasTokens depth (floatText x).toList x.isFinite [.float x.reread] := by
  cases hx : x.isFinite with
  | false =>
    intro rest hend
    have hmem := floatText_of_not_isFinite hx
    simp only [List.mem_cons, List.not_mem_nil, or_false] at hmem
    -- the words are read as names and leave a lone point; with a minus sign no number is read
    rcases hmem with htext | htext | htext <;> rw [htext]
    · exact (Leads.token ['a', 'N'] (by decide) rfl rfl).stuck stuck_point
    · exact (Leads.token ['n', 'f'] (by decide) rfl rfl).stuck stuck_point
    · have hchars : ("-inf.0".toList ++ rest) = '-' :: (['i', 'n', 'f', '.', '0'] ++ rest) := rfl
      have htail : (['i', 'n', 'f', '.', '0'] ++ rest).takeWhile (fun c => !endsNumber c) =
          ['i', 'n', 'f', '.', '0'] :=
        hend.takeWhile_append (fun c hc => by simp [hc]) (by simp [endsNumber, Punctuator.ofChar?])
      have hnumber : numberToken? ('-' :: ['i', 'n', 'f', '.', '0']) = none := by decide
      have hstart : isNameStart '-' = false := by decide
      rw [hchars]
      refine Stuck.of_token? (by decide) ?_
      unfold token?
      simp only [hstart, htail, hnumber, Bool.false_eq_true, if_false, true_or, if_true,
        Option.map_none]
  | true =>
    obtain ⟨whole, fraction, htext, hwhole, -, hfraction⟩ := floatText_parts hx
    have hchars : ∀ c ∈ (floatText x).toList, isNumberChar c = true := by
      intro c hc
      rw [htext, List.mem_append, List.mem_cons] at hc
      rcases hc with hc | rfl | hc
      · exact numberChar_of_startsNumber (hwhole.startsNumber _ c hc)
      · decide
      · exact numberChar_of_startsNumber (.inr (hfraction c hc))
    refine HasTokens.number ?_ hchars (numberToken?_floatText hx) rfl
    rw [htext]
    exact hwhole.exists_head _ _

/-! ### Strings -/

/-- A character is read back from how it stands in a string. -/
theorem stringBody?_quotedChar (c : Char) (rest : List Char) :
    stringBody? (quotedChar c ++ rest) =
      (stringBody? rest).map fun (value, taken) => (c :: value, taken + (quotedChar c).length) := by
  cases hbody : stringBody? rest with
  | none =>
    unfold quotedChar
    split <;> rw [stringBody?.eq_def] <;> simp_all [simpleEscape?]
  | some body =>
    unfold quotedChar
    split <;> rw [stringBody?.eq_def] <;> simp_all [simpleEscape?]

theorem stringBody?_quoted (cs rest : List Char) :
    stringBody? (cs.flatMap quotedChar ++ '"' :: rest) =
      some (cs, (cs.flatMap quotedChar).length + 1) := by
  induction cs with
  | nil =>
    rw [stringBody?.eq_def]
    rfl
  | cons c cs ih =>
    rw [List.flatMap_cons, List.append_assoc, stringBody?_quotedChar, ih, List.length_append]
    simp
    omega

/-- No character inside a string starts with a quote. -/
theorem quotedChar_ne_quote (c : Char) (cs rest : List Char) : quotedChar c ++ cs ≠ '"' :: rest := by
  unfold quotedChar
  split <;> simp_all

theorem token?_string {cs value : List Char} {taken : Nat} (hblock : ∀ body, cs ≠ '"' :: '"' :: body)
    (h : stringBody? cs = some (value, taken)) :
    token? '"' cs = some (.string (String.ofList value), taken) := by
  have hstart : isNameStart '"' = false := by decide
  have hnumber : ¬ ('"' = '-' ∨ '"'.isDigit = true) := by decide
  rw [token?.eq_def]
  simp only [hstart, hnumber, Bool.false_eq_true, if_false, if_true]
  rw [h]
  rfl

theorem HasTokens.string {depth : Nat} {value : String} :
    HasTokens depth (quoted value).toList true [.string value] := by
  intro rest hend
  have hblock : ∀ body, value.toList.flatMap quotedChar ++ '"' :: rest ≠ '"' :: '"' :: body := by
    intro body heq
    cases hvalue : value.toList with
    | nil =>
      -- an empty string would have to be followed by a quote
      rw [hvalue] at heq
      have hrest : rest = '"' :: body := by simpa using heq
      have hquote := hend '"' (by rw [hrest]; rfl)
      revert hquote
      decide
    | cons c cs =>
      rw [hvalue, List.flatMap_cons, List.append_assoc] at heq
      exact quotedChar_ne_quote _ _ _ heq
  have htoken := token?_string hblock (stringBody?_quoted value.toList rest)
  rw [String.ofList_toList] at htoken
  have hchars : (quoted value).toList ++ rest =
      '"' :: ((value.toList.flatMap quotedChar ++ ['"']) ++ rest) := by
    simp [quoted]
  rw [hchars]
  refine Leads.token _ (by decide) ?_ rfl
  rw [List.append_assoc, List.singleton_append, htoken]
  simp

end GraphQL

open GraphQL

/-! ## Types -/

/-- The tokens of a type. -/
def TypeRef.tokens : TypeRef → List Token
  | .named name => [.name name]
  | .list item => bracketed .openBracket .closeBracket item.tokens
  | .nonNull inner => inner.tokens ++ [.punct .bang]

theorem TypeRef.hasTokens {t : TypeRef} {depth : Nat} (ht : t.Written depth) :
    HasTokens depth t.text.toList true t.tokens := by
  induction t generalizing depth with
  | named name => exact .name ht
  | list item ih =>
    rw [TypeRef.text, String.toList_append, String.toList_append]
    exact .brackets rfl rfl rfl rfl ht.1 (ih ht.2)
  | nonNull inner ih =>
    rw [TypeRef.text, String.toList_append]
    exact (ih ht.2).append (endsToken_cons.mpr rfl) (.punct rfl rfl .nil)

/-! ## Values -/

namespace GraphQL

mutual

/-- The tokens of a value. -/
def Value.tokens : Value → List Token
  | .variable name => [.punct .dollar, .name name]
  | .int n => [.int n]
  | .float x => [.float x.reread]
  | .string s => [.string s]
  | .boolean true => [.name "true"]
  | .boolean false => [.name "false"]
  | .null => [.name "null"]
  | .enum name => [.name name]
  | .list items => bracketed .openBracket .closeBracket (itemsTokens items)
  | .object entries => bracketed .openBrace .closeBrace (entriesTokens entries)

/-- The tokens of the items of a list. -/
def itemsTokens : List Value → List Token
  | [] => []
  | item :: items => item.tokens ++ itemsTokens items

/-- The tokens of named values. -/
def entriesTokens : List (String × Value) → List Token
  | [] => []
  | (key, value) :: entries =>
    .name key :: .punct .colon :: (value.tokens ++ entriesTokens entries)

end

mutual

/-- Whether every float of a value is finite. -/
def Value.isFinite : Value → Bool
  | .float x => x.isFinite
  | .list items => itemsFinite items
  | .object entries => entriesFinite entries
  | _ => true

/-- Whether every float of the items of a list is finite. -/
def itemsFinite : List Value → Bool
  | [] => true
  | item :: items => item.isFinite && itemsFinite items

/-- Whether every float of named values is finite. -/
def entriesFinite : List (String × Value) → Bool
  | [] => true
  | (_, value) :: entries => value.isFinite && entriesFinite entries

end

section

variable {floats : Binary64 → Bool} {constant : Bool}

mutual

theorem Value.hasTokens {depth : Nat} (v : Value) (hv : v.Written floats constant depth) :
    HasTokens depth v.text.toList v.isFinite v.tokens := by
  match v, hv with
  | .variable name, hv =>
    rw [Value.text, String.toList_append]
    exact .punct rfl rfl (.name hv.2)
  | .int n, hv =>
    have hn : Token.Valid floats (.int n) := hv
    exact .int hn
  | .float x, _ => exact .float x
  | .string s, _ => exact .string
  | .boolean true, _ => exact .name (by decide)
  | .boolean false, _ => exact .name (by decide)
  | .null, _ => exact .name (by decide)
  | .enum name, hv => exact .name hv.1
  | .list items, hv =>
    rw [Value.text, String.toList_append, String.toList_append]
    exact .brackets rfl rfl rfl rfl hv.1 (itemsHaveTokens items hv.2)
  | .object entries, hv =>
    rw [Value.text, String.toList_append, String.toList_append]
    exact .brackets rfl rfl rfl rfl hv.1 (entriesHaveTokens entries hv.2.1)

theorem itemsHaveTokens {depth : Nat} (items : List Value)
    (h : ItemsWritten floats constant depth items) :
    HasTokens depth (", ".intercalate (itemTexts items)).toList (itemsFinite items)
      (itemsTokens items) := by
  match items, h with
  | [], _ => exact .nil
  | item :: items, h =>
    rw [itemTexts, itemsFinite, itemsTokens]
    exact (Value.hasTokens item h.1).listed (itemsHaveTokens items h.2)

theorem entriesHaveTokens {depth : Nat} (entries : List (String × Value))
    (h : EntriesWritten floats constant depth entries) :
    HasTokens depth (", ".intercalate (entryTexts entries)).toList (entriesFinite entries)
      (entriesTokens entries) := by
  match entries, h with
  | [], _ => exact .nil
  | (key, value) :: entries, ⟨hkey, hvalue, hrest⟩ =>
    have hentry : HasTokens depth (key ++ ": " ++ value.text).toList value.isFinite
        ([.name key] ++ .punct .colon :: value.tokens) := by
      rw [String.toList_append, String.toList_append, List.append_assoc]
      exact (HasTokens.name hkey).append (endsToken_cons.mpr rfl)
        (.punct rfl rfl (Value.hasTokens value hvalue).space)
    rw [entryTexts, entriesFinite]
    exact hentry.listed (entriesHaveTokens entries hrest)

end

end

end GraphQL

/-! ## Selections -/

/-- The tokens of the arguments of a field. -/
def argumentsTokens (arguments : List (String × Value)) : List Token :=
  if arguments.isEmpty then [] else bracketed .openParen .closeParen (entriesTokens arguments)

/-- The tokens of a field without its sub-selections. -/
def Field.tokens (f : Field) : List Token :=
  (match f.label with
    | some label => [.name label, .punct .colon]
    | none => []) ++ .name f.name :: argumentsTokens f.arguments

mutual

/-- The tokens of a selection. -/
def Selection.tokens : Selection → List Token
  | .field f selections =>
    f.tokens ++ if selections.isEmpty then []
      else bracketed .openBrace .closeBrace (selectionsTokens selections)
  | .spread name _ => [.spread, .name name]
  | .inline condition selections _ =>
    .spread :: (match condition with
      | some name => [.name "on", .name name]
      | none => []) ++ bracketed .openBrace .closeBrace (selectionsTokens selections)

/-- The tokens of selections. -/
def selectionsTokens : List Selection → List Token
  | [] => []
  | selection :: selections => selection.tokens ++ selectionsTokens selections

end

mutual

/-- Whether every float of a selection is finite. -/
def Selection.isFinite : Selection → Bool
  | .field f selections => entriesFinite f.arguments && selectionsFinite selections
  | .spread _ _ => true
  | .inline _ selections _ => selectionsFinite selections

/-- Whether every float of selections is finite. -/
def selectionsFinite : List Selection → Bool
  | [] => true
  | selection :: selections => selection.isFinite && selectionsFinite selections

end

section

variable {floats : Binary64 → Bool}

theorem argumentsText_hasTokens {depth : Nat} {arguments : List (String × Value)}
    (h : ArgumentsWritten floats depth arguments) :
    EndsToken (argumentsText arguments).toList ∧
      HasTokens depth (argumentsText arguments).toList (entriesFinite arguments)
        (argumentsTokens arguments) := by
  rw [argumentsText, argumentsTokens]
  split
  · next hnil =>
    rw [List.isEmpty_iff.mp hnil]
    exact ⟨endsToken_nil, .nil⟩
  · next hne =>
    obtain rfl | ⟨hdepth, hentries⟩ := h
    · exact absurd rfl hne
    · rw [String.toList_append, String.toList_append]
      exact ⟨endsToken_cons.mpr rfl,
        .brackets rfl rfl rfl rfl hdepth (entriesHaveTokens arguments hentries)⟩

theorem Field.hasTokens {depth : Nat} {f : Field} (hlabel : ∀ label ∈ f.label, isName label = true)
    (hname : isName f.name = true) (harguments : ArgumentsWritten floats depth f.arguments) :
    HasTokens depth f.text.toList (entriesFinite f.arguments) f.tokens := by
  obtain ⟨hend, harguments⟩ := argumentsText_hasTokens harguments
  have htail := (HasTokens.name hname).append hend harguments
  rw [Field.text, Field.tokens]
  cases hlabel' : f.label with
  | none => simpa using htail
  | some label =>
    have hfield := (HasTokens.name (hlabel label hlabel')).append (endsToken_cons.mpr rfl)
      (.punct (c := ':') rfl rfl htail.space)
    simpa using hfield

theorem endsToken_selectionTexts (selections : List Selection) :
    EndsToken (selectionTexts selections).toList := by
  cases selections with
  | nil => exact endsToken_nil
  | cons selection selections =>
    rw [selectionTexts, String.toList_append, String.toList_append]
    exact endsToken_cons.mpr rfl

mutual

theorem Selection.hasTokens {depth : Nat} (selection : Selection)
    (h : selection.Written floats depth) :
    HasTokens depth selection.text.toList selection.isFinite selection.tokens := by
  match selection, h with
  | .field f selections, ⟨hlabel, hname, harguments, hselections⟩ =>
    have hfield := Field.hasTokens hlabel hname harguments
    rw [Selection.text, Selection.isFinite, Selection.tokens]
    split
    · next hnil =>
      rw [List.isEmpty_iff.mp hnil]
      simpa [selectionsFinite] using hfield
    · next hne =>
      obtain rfl | ⟨hdepth, hselections⟩ := hselections
      · exact absurd rfl hne
      · have hbraces := (selectionsHaveTokens selections hselections).braces hdepth
        have happend := hfield.append (endsToken_cons.mpr rfl) hbraces.space
        simpa using happend
  | .spread name _, h =>
    rw [Selection.text, String.toList_append]
    exact (HasTokens.name h.1).spread
  | .inline condition selections _, ⟨hcondition, _, hdepth, hselections⟩ =>
    have hbraces := (selectionsHaveTokens selections hselections).braces hdepth
    cases condition with
    | none =>
      rw [Selection.text, Selection.isFinite, Selection.tokens]
      simpa using hbraces.space.spread
    | some name =>
      have hname := (HasTokens.name (hcondition name rfl)).append (endsToken_cons.mpr rfl)
        hbraces.space
      have hon := (HasTokens.name (show isName "on" = true by decide)).append
        (endsToken_cons.mpr rfl) hname.space
      rw [Selection.text, Selection.isFinite, Selection.tokens]
      simpa using hon.space.spread

theorem selectionsHaveTokens {depth : Nat} (selections : List Selection)
    (h : SelectionsWritten floats depth selections) :
    HasTokens depth (selectionTexts selections).toList (selectionsFinite selections)
      (selectionsTokens selections) := by
  match selections, h with
  | [], _ => exact .nil
  | selection :: selections, ⟨hselection, hselections⟩ =>
    have hfirst := Selection.hasTokens selection hselection
    have hrest := selectionsHaveTokens selections hselections
    have happend := hfirst.append (endsToken_selectionTexts selections) hrest
    rw [selectionTexts, selectionsFinite, selectionsTokens]
    simpa using happend.space

end

/-! ## Definitions -/

/-- The tokens of a default value. -/
def defaultTokens : Option Value → List Token
  | some value => .punct .equals :: value.tokens
  | none => []

/-- The tokens of the definition of a variable. -/
def VariableDefinition.tokens (v : VariableDefinition) : List Token :=
  .punct .dollar :: .name v.name :: .punct .colon :: (v.type.tokens ++ defaultTokens v.defaultValue)

/-- The tokens of variable definitions. -/
def parametersTokens (parameters : List VariableDefinition) : List Token :=
  if parameters.isEmpty then []
  else bracketed .openParen .closeParen (parameters.flatMap VariableDefinition.tokens)

/-- The tokens of an operation. -/
def Operation.tokens (op : Operation) : List Token :=
  .name op.kind.keyword :: (op.name.toList.map .name ++ parametersTokens op.parameters ++
    bracketed .openBrace .closeBrace (selectionsTokens op.selections))

/-- The tokens of a fragment. -/
def Fragment.tokens (f : Fragment) : List Token :=
  .name "fragment" :: .name f.name :: .name "on" :: .name f.condition ::
    bracketed .openBrace .closeBrace (selectionsTokens f.selections)

/-- Whether every float of the definition of a variable is finite. -/
def VariableDefinition.isFinite (v : VariableDefinition) : Bool :=
  v.defaultValue.all Value.isFinite

namespace Definition

/-- The text of a definition on its own. -/
def text : Definition → String
  | operation op => op.text
  | fragment f => f.text

/-- The tokens of a definition. -/
def tokens : Definition → List Token
  | operation op => op.tokens
  | fragment f => f.tokens

/-- Whether every float of a definition is finite. -/
def isFinite : Definition → Bool
  | operation op =>
    op.parameters.all VariableDefinition.isFinite && selectionsFinite op.selections
  | fragment f => selectionsFinite f.selections

end Definition

theorem VariableDefinition.hasTokens {depth : Nat} {v : VariableDefinition}
    (h : v.Written floats depth) : HasTokens depth v.text.toList v.isFinite v.tokens := by
  obtain ⟨hname, htype, hvalue⟩ := h
  have hcolon := (HasTokens.name hname).append (endsToken_cons.mpr rfl)
    (.punct (c := ':') rfl rfl (TypeRef.hasTokens htype).space)
  have hhead := HasTokens.punct (c := '$') rfl rfl hcolon
  rw [VariableDefinition.text, VariableDefinition.isFinite, VariableDefinition.tokens]
  cases hv : v.defaultValue with
  | none => simpa [defaultTokens] using hhead
  | some value =>
    have hequals := HasTokens.punct (c := '=') rfl rfl
      (Value.hasTokens value (hvalue value hv)).space
    simpa [defaultTokens] using hhead.append (endsToken_cons.mpr rfl) hequals.space

theorem parametersHaveTokens {depth : Nat} {parameters : List VariableDefinition}
    (h : ∀ v ∈ parameters, v.Written floats depth) :
    HasTokens depth (", ".intercalate (parameters.map VariableDefinition.text)).toList
      (parameters.all VariableDefinition.isFinite)
      (parameters.flatMap VariableDefinition.tokens) := by
  induction parameters with
  | nil => exact .nil
  | cons v parameters ih =>
    rw [List.map_cons, List.all_cons, List.flatMap_cons]
    exact (VariableDefinition.hasTokens (h v (by simp))).listed
      (ih fun w hw => h w (List.mem_cons_of_mem _ hw))

theorem parametersText_hasTokens {parameters : List VariableDefinition} {text : String}
    (htext : text = if parameters.isEmpty then ""
      else "(" ++ ", ".intercalate (parameters.map VariableDefinition.text) ++ ")")
    (h : ∀ v ∈ parameters, v.Written floats 1) :
    EndsToken text.toList ∧
      HasTokens 0 text.toList (parameters.all VariableDefinition.isFinite)
        (parametersTokens parameters) := by
  rw [htext, parametersTokens]
  split
  · next hnil =>
    rw [List.isEmpty_iff.mp hnil]
    exact ⟨endsToken_nil, .nil⟩
  · rw [String.toList_append, String.toList_append]
    exact ⟨endsToken_cons.mpr rfl,
      .brackets rfl rfl rfl rfl (by decide) (parametersHaveTokens h)⟩

theorem isName_keyword (kind : OperationKind) : isName kind.keyword = true := by
  cases kind <;> decide

theorem Operation.hasTokens {op : Operation} (h : op.Written floats) :
    HasTokens 0 op.text.toList (Definition.operation op).isFinite op.tokens := by
  obtain ⟨hname, hparameters, -, hselections⟩ := h
  have hbraces := (selectionsHaveTokens _ hselections).braces (by decide)
  obtain ⟨hend, hparameters⟩ := parametersText_hasTokens rfl hparameters
  have hends : ∀ cs, EndsToken (' ' :: cs) := fun _ => endsToken_cons.mpr rfl
  have htail := hparameters.append (hends _) hbraces.space
  rw [Operation.text, Operation.tokens, Definition.isFinite, selectionSetText]
  cases hn : op.name with
  | none =>
    have hkeyword := (HasTokens.name (isName_keyword op.kind)).append (hend.append (hends _)) htail
    simpa using hkeyword
  | some name =>
    have hname := (HasTokens.name (hname name hn)).append (hend.append (hends _)) htail
    have hkeyword := (HasTokens.name (isName_keyword op.kind)).append (hends _) hname.space
    simpa using hkeyword

theorem Fragment.hasTokens {f : Fragment} (h : f.Written floats) :
    HasTokens 0 f.text.toList (selectionsFinite f.selections) f.tokens := by
  obtain ⟨hname, hcondition, -, hselections⟩ := h
  have hbraces := (selectionsHaveTokens _ hselections).braces (by decide)
  have hends : ∀ cs, EndsToken (' ' :: cs) := fun _ => endsToken_cons.mpr rfl
  have hcondition := (HasTokens.name hcondition).append (hends _) hbraces.space
  have hon := (HasTokens.name (show isName "on" = true by decide)).append (hends _) hcondition.space
  have hname := (HasTokens.name hname).append (hends _) hon.space
  have hkeyword := (HasTokens.name (show isName "fragment" = true by decide)).append (hends _)
    hname.space
  rw [Fragment.text, Fragment.tokens, selectionSetText]
  simpa using hkeyword

theorem Definition.hasTokens {d : Definition} (h : d.Written floats) :
    HasTokens 0 d.text.toList d.isFinite d.tokens := by
  cases d with
  | operation op => exact Operation.hasTokens h
  | fragment f => exact Fragment.hasTokens h

theorem definitionsHaveTokens {ds : List Definition} (h : ∀ d ∈ ds, d.Written floats) :
    HasTokens 0 (" ".intercalate (ds.map Definition.text)).toList (ds.all Definition.isFinite)
      (ds.flatMap Definition.tokens) := by
  induction ds with
  | nil => exact .nil
  | cons d ds ih =>
    rw [List.map_cons, List.all_cons, List.flatMap_cons]
    exact (Definition.hasTokens (h d (by simp))).spaced
      (ih fun e he => h e (List.mem_cons_of_mem _ he))

/-- The texts of definitions with spaces between them are divided into the tokens of the definitions,
if all their floats are finite. -/
theorem lexemes?_definitions {ds : List Definition} (h : ∀ d ∈ ds, d.Written floats)
    (hfinite : ds.all Definition.isFinite = true) :
    ∃ ls, lexemes? (" ".intercalate (ds.map Definition.text)) = some ls ∧
      ls.map Lexeme.token = ds.flatMap Definition.tokens := by
  have htokens := definitionsHaveTokens h [] endsToken_nil
  rw [if_pos hfinite, List.append_nil] at htokens
  obtain ⟨position, ls, hls, hlexed⟩ := htokens .start
  refine ⟨ls, ?_, hls⟩
  rw [lexemes?, hlexed, lexemesFrom?, Option.map_some, List.append_nil]

/-- The text of a definition with a float that is not finite cannot be divided into tokens. -/
theorem lexemes?_eq_none {d : Definition} (h : d.Written floats) (hfinite : d.isFinite = false) :
    lexemes? d.text = none := by
  have htokens := Definition.hasTokens h [] endsToken_nil
  rw [hfinite, if_neg (by decide), List.append_nil] at htokens
  exact htokens .start

end

end ElmBindings
