import ElmBindings.Elm.Decoder.Code
import ElmBindings.Proofs.ElmGrammar
import Mathlib

set_option autoImplicit false

/-! # The text of a decoder as an expression

`DecoderCode.expr` is the Elm expression that a decoder with its local names stands for, and
`DecoderCode.reads` says that the text of the decoder reads as this expression, at every indentation.
Texts are put together from pieces, so what is shown of a piece (`Reads`) holds in front of anything that
does not go on with a word, and from every column to the right of the indentation. -/

namespace ElmBindings

namespace Elm

/-! ## Dividing a text -/

/-- Whether no word goes on where characters start. -/
def Breaks (cs : List Char) : Prop := ∀ c ∈ cs.head?, isWordChar c = false

@[simp]
theorem breaks_nil : Breaks [] := fun _ h => by cases h

@[simp]
theorem breaks_cons {c : Char} {cs : List Char} : Breaks (c :: cs) ↔ isWordChar c = false := by
  simp [Breaks]

theorem Breaks.append {cs rest : List Char} (hcs : Breaks cs) (hrest : Breaks rest) :
    Breaks (cs ++ rest) := by
  cases cs with
  | nil => exact hrest
  | cons c cs => exact breaks_cons.mpr (breaks_cons.mp hcs)

theorem tokens?_space (c : Nat) (cs : List Char) : tokens? c (' ' :: cs) = tokens? (c + 1) cs := by
  rw [tokens?, if_pos rfl]

theorem tokens?_lineEnd (c : Nat) (cs : List Char) : tokens? c ('\n' :: cs) = tokens? 0 cs := by
  rw [tokens?, if_neg (by decide), if_pos rfl]

/-- Whether characters from column `c` on have the given tokens and end in column `d`, whatever follows
them, if it breaks words. -/
def Lexes (c : Nat) (cs : List Char) (ts : List Token) (d : Nat) : Prop :=
  ∀ rest, Breaks rest → tokens? c (cs ++ rest) = (tokens? d rest).map (ts ++ ·)

namespace Lexes

variable {c d : Nat} {cs : List Char} {ts : List Token}

theorem nil : Lexes c [] [] c := by
  intro rest _
  simp

theorem append {e : Nat} {ds : List Char} {us : List Token} (h : Lexes c cs ts d) (hds : Breaks ds)
    (h' : Lexes d ds us e) : Lexes c (cs ++ ds) (ts ++ us) e := by
  intro rest hrest
  rw [List.append_assoc, h _ (hds.append hrest), h' rest hrest, Option.map_map]
  congr 1
  funext vs
  simp

theorem space (h : Lexes (c + 1) cs ts d) : Lexes c (' ' :: cs) ts d := by
  intro rest hrest
  rw [List.cons_append, tokens?_space]
  exact h rest hrest

theorem spaces {n : Nat} (h : Lexes (c + n) cs ts d) : Lexes c (List.replicate n ' ' ++ cs) ts d := by
  induction n generalizing c with
  | zero => exact h
  | succ n ih =>
    rw [List.replicate_succ, List.cons_append]
    refine space (ih ?_)
    rwa [Nat.add_assoc, Nat.add_comm 1 n]

theorem lineEnd (h : Lexes 0 cs ts d) : Lexes c ('\n' :: cs) ts d := by
  intro rest hrest
  rw [List.cons_append, tokens?_lineEnd]
  exact h rest hrest

theorem newline {n : Nat} (h : Lexes n cs ts d) : Lexes c ((Layout.newline n).toList ++ cs) ts d := by
  rw [Layout.newline, String.toList_ofList, List.cons_append]
  refine lineEnd (spaces ?_)
  rwa [Nat.zero_add]

/-- One lexeme in front of characters. -/
theorem lexeme {first : Char} {more : List Char} {l : Lexeme} (hblank : first ≠ ' ' ∧ first ≠ '\n')
    (hl : ∀ rest, Breaks rest → lexeme? first (more ++ (cs ++ rest)) = some (l, more.length))
    (h : Lexes (c + (more.length + 1)) cs ts d) :
    Lexes c (first :: (more ++ cs)) (⟨c, l⟩ :: ts) d := by
  intro rest hrest
  rw [List.cons_append, List.append_assoc, tokens?, if_neg hblank.1, if_neg hblank.2, hl rest hrest]
  have hnext := h rest hrest
  simp only [Option.bind_eq_bind, Option.bind_some, List.drop_left, hnext]
  cases tokens? d rest <;> simp

end Lexes

theorem isWord_cons {word : String} (h : isWord word = true) :
    ∃ c cs, word.toList = c :: cs ∧ isWordChar c = true ∧ ∀ d ∈ cs, isWordChar d = true := by
  rw [isWord, Bool.and_eq_true, List.all_eq_true] at h
  cases hchars : word.toList with
  | nil =>
    obtain rfl : word = "" := String.toList_inj.mp (by simpa using hchars)
    simp at h
  | cons c cs =>
    rw [hchars] at h
    exact ⟨c, cs, rfl, h.2 c (by simp), fun d hd => h.2 d (by simp [hd])⟩

theorem not_blank_of_isWordChar {c : Char} (h : isWordChar c = true) : c ≠ ' ' ∧ c ≠ '\n' := by
  constructor
  · rintro rfl
    cases h
  · rintro rfl
    cases h

namespace Lexes

variable {c d : Nat} {cs : List Char} {ts : List Token}

theorem word {word : String} (hword : isWord word = true) (hcs : Breaks cs)
    (h : Lexes (c + word.length) cs ts d) :
    Lexes c (word.toList ++ cs) (⟨c, .word word⟩ :: ts) d := by
  obtain ⟨first, more, hchars, hfirst, hmore⟩ := isWord_cons hword
  have hlength : word.length = more.length + 1 := by
    rw [← String.length_toList, hchars, List.length_cons]
  have htext : String.ofList (first :: more) = word := by rw [← hchars, String.ofList_toList]
  rw [hchars, List.cons_append]
  rw [hlength] at h
  refine lexeme (not_blank_of_isWordChar hfirst) (fun rest hrest => ?_) h
  have hall : (more ++ (cs ++ rest)).takeWhile isWordChar = more :=
    Text.takeWhile_run hmore (hcs.append hrest)
  simp only [lexeme?, hfirst, if_true, hall, htext]

theorem string {text : String} (htext : ∀ ch ∈ text.toList, isPlainChar ch = true)
    (h : Lexes (c + (text.length + 2)) cs ts d) :
    Lexes c ('"' :: (text.toList ++ '"' :: cs)) (⟨c, .string text⟩ :: ts) d := by
  rw [List.append_cons]
  refine lexeme (by decide) (fun rest hrest => ?_) ?_
  · have hall : (text.toList ++ '"' :: (cs ++ rest)).takeWhile isPlainChar = text.toList :=
      Text.takeWhile_run htext (by simp [isPlainChar])
    have hquote : isWordChar '"' = false := by decide
    simp [lexeme?, hquote, hall]
  · simpa [String.length_toList] using h

theorem mark {ch : Char} {m : Mark} (hm : Mark.ofChar? ch = some m) (h : Lexes (c + 1) cs ts d) :
    Lexes c (ch :: cs) (⟨c, .mark m⟩ :: ts) d := by
  have hch : ch ≠ ' ' ∧ ch ≠ '\n' ∧ isWordChar ch = false ∧ ch ≠ '"' ∧ ch ≠ '-' ∧ ch ≠ '|' := by
    unfold Mark.ofChar? at hm
    split at hm <;> cases hm <;> decide
  obtain ⟨hspace, hline, hword, hquote, hdash, hbar⟩ := hch
  have hlexeme : ∀ rest, lexeme? ch ([] ++ (cs ++ rest)) = some (.mark m, 0) := by
    simp [lexeme?, hword, hquote, hdash, hbar, hm]
  exact lexeme ⟨hspace, hline⟩ (fun rest _ => hlexeme rest) h

theorem arrow (h : Lexes (c + 2) cs ts d) :
    Lexes c ('-' :: '>' :: cs) (⟨c, .mark .arrow⟩ :: ts) d := by
  have hlexeme : ∀ rest, lexeme? '-' (['>'] ++ (cs ++ rest)) = some (.mark .arrow, 1) := fun _ => rfl
  exact lexeme (by decide) (fun rest _ => hlexeme rest) h

theorem pipe (h : Lexes (c + 2) cs ts d) :
    Lexes c ('|' :: '>' :: cs) (⟨c, .mark .pipe⟩ :: ts) d := by
  have hlexeme : ∀ rest, lexeme? '|' (['>'] ++ (cs ++ rest)) = some (.mark .pipe, 1) := fun _ => rfl
  exact lexeme (by decide) (fun rest _ => hlexeme rest) h

end Lexes

/-! ## Reading a text -/

/-- Whether characters from any column to the right of `i` have tokens that `G` takes, and end to the right
of `i`. -/
def Reads (i : Nat) (G : List Token → List Token → Prop) (cs : List Char) : Prop :=
  ∀ c, i < c → ∃ d ts, i < d ∧ Lexes c cs ts d ∧ ∀ rest, G (ts ++ rest) rest

namespace Reads

variable {i : Nat} {G H : List Token → List Token → Prop} {cs ds : List Char}

theorem mono (h : Reads i G cs) (hGH : ∀ ts rest, G ts rest → H ts rest) : Reads i H cs := by
  intro c hc
  obtain ⟨d, ts, hd, hts, hG⟩ := h c hc
  exact ⟨d, ts, hd, hts, fun rest => hGH _ _ (hG rest)⟩

theorem nil : Reads i Eq [] := fun c hc => ⟨c, [], hc, .nil, fun _ => rfl⟩

theorem append (h : Reads i G cs) (hds : Breaks ds) (h' : Reads i H ds) :
    Reads i (Relation.Comp G H) (cs ++ ds) := by
  intro c hc
  obtain ⟨d, ts, hd, hts, hG⟩ := h c hc
  obtain ⟨e, us, he, hus, hH⟩ := h' d hd
  refine ⟨e, ts ++ us, he, hts.append hds hus, fun rest => ⟨us ++ rest, ?_, hH rest⟩⟩
  rw [List.append_assoc]
  exact hG _

theorem space (h : Reads i G cs) : Reads i G (' ' :: cs) := by
  intro c hc
  obtain ⟨d, ts, hd, hts, hG⟩ := h (c + 1) (by omega)
  exact ⟨d, ts, hd, hts.space, hG⟩

theorem newline {n : Nat} (hn : i < n) (h : Reads i G cs) :
    Reads i G ((Layout.newline n).toList ++ cs) := by
  intro c _
  obtain ⟨d, ts, hd, hts, hG⟩ := h n hn
  exact ⟨d, ts, hd, hts.newline, hG⟩

/-- One lexeme in front of what is read. -/
theorem lexeme {l : Lexeme} {width : Nat}
    (hl : ∀ c d ts, Lexes (c + width) cs ts d → Lexes c ds (⟨c, l⟩ :: ts) d) (h : Reads i G cs) :
    Reads i (Relation.Comp (Takes i l) G) ds := by
  intro c hc
  obtain ⟨d, ts, hd, hts, hG⟩ := h (c + width) (by omega)
  exact ⟨d, _, hd, hl c d ts hts, fun rest => ⟨ts ++ rest, ⟨c, hc, rfl⟩, hG rest⟩⟩

theorem word {w : String} (hword : isWord w = true) (hcs : Breaks cs) (h : Reads i G cs) :
    Reads i (Relation.Comp (Takes i (.word w)) G) (w.toList ++ cs) :=
  h.lexeme fun _ _ _ => .word hword hcs

theorem string {s : String} (htext : ∀ ch ∈ s.toList, isPlainChar ch = true)
    (h : Reads i G cs) :
    Reads i (Relation.Comp (Takes i (.string s)) G) ('"' :: (s.toList ++ '"' :: cs)) :=
  h.lexeme fun _ _ _ => .string htext

theorem mark {ch : Char} {m : Mark} (hm : Mark.ofChar? ch = some m) (h : Reads i G cs) :
    Reads i (Relation.Comp (Takes i (.mark m)) G) (ch :: cs) :=
  h.lexeme fun _ _ _ => .mark hm

theorem arrow (h : Reads i G cs) :
    Reads i (Relation.Comp (Takes i (.mark .arrow)) G) ('-' :: '>' :: cs) :=
  h.lexeme fun _ _ _ => .arrow

theorem pipe (h : Reads i G cs) :
    Reads i (Relation.Comp (Takes i (.mark .pipe)) G) ('|' :: '>' :: cs) :=
  h.lexeme fun _ _ _ => .pipe

end Reads

/-- Whether a text is a word that is not reserved. -/
def IsName (s : String) : Prop := isWord s = true ∧ s ∉ Naming.reservedWords

instance (s : String) : Decidable (IsName s) := inferInstanceAs (Decidable (_ ∧ _))

section

variable {i : Nat} {G : List Token → List Token → Prop} {cs : List Char}

theorem Reads.name {name : String} (hname : IsName name) (hcs : Breaks cs) (h : Reads i G cs) :
    Reads i (Relation.Comp (TakesName i name) G) (name.toList ++ cs) := by
  refine (h.word hname.1 hcs).mono ?_
  rintro ts rest ⟨us, hword, hrest⟩
  exact ⟨us, ⟨hword, hname.2⟩, hrest⟩

/-- A phrase in parentheses is an atom. The closing one may stand on a line of its own. -/
theorem Reads.parens {e : Expr} {closing : List Char} (h : Reads i (Phrase i · e ·) cs)
    (hbreaks : Breaks closing)
    (hclosing : Reads i (Relation.Comp (Takes i (.mark .closeParen)) Eq) closing) :
    Reads i (Atom i · e ·) ('(' :: (cs ++ closing)) := by
  have hopen : Reads i _ ('(' :: (cs ++ closing)) := (h.append hbreaks hclosing).mark rfl
  refine hopen.mono ?_
  rintro ts rest ⟨us, hopen, vs, hphrase, ws, hclose, rfl⟩
  exact .parens hopen hphrase hclose

theorem reads_closeParen : Reads i (Relation.Comp (Takes i (.mark .closeParen)) Eq) [')'] :=
  Reads.nil.mark rfl

theorem Reads.atom {name : String} (hname : IsName name) :
    Reads i (Atom i · (.name name) ·) name.toList := by
  have h : Reads i _ (name.toList ++ []) := Reads.nil.name hname breaks_nil
  rw [List.append_nil] at h
  refine h.mono ?_
  rintro ts rest ⟨us, hname, rfl⟩
  exact .name hname

/-- A function with one argument. -/
theorem Reads.call {f : String} {x : Expr} (hf : IsName f) (h : Reads i (Atom i · x ·) cs) :
    Reads i (Phrase i · (.apply (.name f) x) ·) (f.toList ++ ' ' :: cs) := by
  refine (h.space.name hf (by simp [isWordChar])).mono ?_
  rintro ts rest ⟨us, hname, harg⟩
  exact .pipeline (.name hname) (.more harg .none) .none

/-! ## Lambdas -/

theorem Reads.parameters {names : List String} (hne : names ≠ []) (hnames : ∀ name ∈ names, IsName name)
    (h : Reads i G cs) :
    Reads i (Relation.Comp (Parameters i · names ·) G)
      ((" ".intercalate names).toList ++ ' ' :: '-' :: '>' :: cs) := by
  induction names with
  | nil => exact absurd rfl hne
  | cons name names ih =>
    have hname := hnames name List.mem_cons_self
    cases names with
    | nil =>
      rw [String.intercalate_singleton]
      refine (h.arrow.space.name hname (by simp [isWordChar])).mono ?_
      rintro ts rest ⟨us, hname, vs, harrow, hrest⟩
      exact ⟨vs, .more hname (.none harrow), hrest⟩
    | cons next names =>
      have hmore := ih (by simp) fun name hname => hnames name (List.mem_cons_of_mem _ hname)
      rw [String.intercalate_cons_cons, String.toList_append, String.toList_append, List.append_assoc,
        List.append_assoc]
      refine (hmore.space.name hname (by simp [isWordChar])).mono ?_
      rintro ts rest ⟨us, hname, vs, hparameters, hrest⟩
      exact ⟨vs, .more hname hparameters, hrest⟩

theorem Reads.lambda {names : List String} {e : Expr} (hne : names ≠ [])
    (hnames : ∀ name ∈ names, IsName name) (h : Reads i (Phrase i · e ·) cs) :
    Reads i (Phrase i · (.lambda names e) ·)
      ('\\' :: ((" ".intercalate names).toList ++ ' ' :: '-' :: '>' :: cs)) := by
  refine ((h.parameters hne hnames).mark rfl).mono ?_
  rintro ts rest ⟨us, hmark, vs, hparameters, hbody⟩
  exact .lambda hmark hparameters hne hbody

/-- The text of a field of a record. -/
def fieldText (field : String × String) : String := field.1 ++ " = " ++ field.2

theorem Reads.field {field : String × String} (hname : IsName field.1) (hvalue : IsName field.2)
    (hcs : Breaks cs) (h : Reads i G cs) :
    Reads i (Relation.Comp (TakesField i field) G) ((fieldText field).toList ++ cs) := by
  have hequals : Reads i _ ('=' :: ' ' :: (field.2.toList ++ cs)) := (h.name hvalue hcs).space.mark rfl
  have htext : (fieldText field).toList ++ cs = field.1.toList ++ ' ' :: '=' :: ' ' :: (field.2.toList ++ cs) := by
    simp [fieldText]
  rw [htext]
  refine (hequals.space.name hname (by simp [isWordChar])).mono ?_
  rintro ts rest ⟨us, hname, vs, hequals, ws, hvalue, hrest⟩
  exact ⟨ws, ⟨us, vs, hname, hequals, hvalue⟩, hrest⟩

theorem Reads.fields {field : String × String} {fields : List (String × String)}
    (h : ∀ f ∈ field :: fields, IsName f.1 ∧ IsName f.2) :
    Reads i (Relation.Comp (TakesField i field) (OtherFields i · fields ·))
      ((", ".intercalate ((field :: fields).map fieldText)).toList ++ [' ', '}']) := by
  induction fields generalizing field with
  | nil =>
    obtain ⟨hname, hvalue⟩ := h field List.mem_cons_self
    have hclose : Reads i _ ['}'] := Reads.nil.mark rfl
    rw [List.map_cons, List.map_nil, String.intercalate_singleton]
    refine (hclose.space.field hname hvalue (by simp [isWordChar])).mono ?_
    rintro ts rest ⟨us, hfield, vs, hclose, rfl⟩
    exact ⟨us, hfield, .none hclose⟩
  | cons next fields ih =>
    obtain ⟨hname, hvalue⟩ := h field List.mem_cons_self
    have hmore := ih fun f (hf : f ∈ next :: fields) => h f (List.mem_cons_of_mem _ hf)
    have hcomma : Reads i _ (',' :: ' ' :: _) := hmore.space.mark rfl
    rw [List.map_cons, List.map_cons, String.intercalate_cons_cons, String.toList_append,
      String.toList_append, List.append_assoc, List.append_assoc]
    refine (hcomma.field hname hvalue (by simp [isWordChar])).mono ?_
    rintro ts rest ⟨us, hfield, vs, hcomma, ws, hnext, hmore⟩
    exact ⟨us, hfield, .more hcomma hnext hmore⟩

theorem reads_recordText {fields : List (String × String)}
    (h : ∀ f ∈ fields, IsName f.1 ∧ IsName f.2) :
    Reads i (Atom i · (.record fields) ·) (recordText fields).toList := by
  cases fields with
  | nil =>
    have hclose : Reads i _ ['}'] := Reads.nil.mark rfl
    have hopen : Reads i _ ['{', ' ', ' ', '}'] := hclose.space.space.mark rfl
    refine hopen.mono ?_
    rintro ts rest ⟨us, hopen, vs, hclose, rfl⟩
    exact .record hopen (.none hclose)
  | cons field fields =>
    have hopen : Reads i _ ('{' :: ' ' :: _) := (Reads.fields h).space.mark rfl
    have htext : (recordText (field :: fields)).toList =
        '{' :: ' ' :: ((", ".intercalate ((field :: fields).map fieldText)).toList ++ [' ', '}']) := by
      rw [recordText, String.toList_append, String.toList_append]
      rfl
    rw [htext]
    refine hopen.mono ?_
    rintro ts rest ⟨us, hopen, vs, hfield, hfields⟩
    exact .record hopen (.some hfield hfields)

theorem reads_emptyRecord : Reads i (Atom i · (.record []) ·) ['{', '}'] := by
  have hclose : Reads i _ ['}'] := Reads.nil.mark rfl
  have hopen : Reads i _ ['{', '}'] := hclose.mark rfl
  refine hopen.mono ?_
  rintro ts rest ⟨us, hopen, vs, hclose, rfl⟩
  exact .record hopen (.none hclose)

theorem reads_lambdaText {fields : List (String × String)} {body : String} {e : Expr}
    (hne : fields ≠ []) (hfields : ∀ f ∈ fields, IsName f.2)
    (h : Reads i (Phrase i · e ·) body.toList) :
    Reads i (Atom i · (.lambda (fields.map Prod.snd) e) ·) (lambdaText fields body).toList := by
  have hnames : ∀ name ∈ fields.map Prod.snd, IsName name := by
    intro name hname
    obtain ⟨f, hf, rfl⟩ := List.mem_map.mp hname
    exact hfields f hf
  have hlambda := h.space.lambda (by simpa using hne) hnames
  simpa [lambdaText] using hlambda.parens (by simp [isWordChar]) reads_closeParen

end

end Elm

/-! ## Decoders -/

open Elm Layout

namespace Builder

/-- The expression for a function that `map` applies. -/
def expr : Builder → Expr
  | label name => .name name
  | record fields => .lambda (fields.map Prod.snd) (.record fields)
  | variant tag fields => .lambda (fields.map Prod.snd) (.apply (.name tag) (.record fields))

/-- Whether the names of a function can be read. -/
def Readable : Builder → Prop
  | label name => IsName name
  | record fields => fields ≠ [] ∧ ∀ f ∈ fields, IsName f.1 ∧ IsName f.2
  | variant tag fields => IsName tag ∧ fields ≠ [] ∧ ∀ f ∈ fields, IsName f.1 ∧ IsName f.2

theorem reads {i : Nat} {build : Builder} (h : build.Readable) :
    Reads i (Atom i · build.expr ·) build.text.toList := by
  cases build with
  | label name => exact .atom h
  | record fields =>
    obtain ⟨hne, hfields⟩ := h
    refine reads_lambdaText hne (fun f hf => (hfields f hf).2) ?_
    refine (reads_recordText hfields).mono ?_
    intro ts rest hrecord
    exact .pipeline hrecord .none .none
  | variant tag fields =>
    obtain ⟨htag, hne, hfields⟩ := h
    refine reads_lambdaText hne (fun f hf => (hfields f hf).2) ?_
    simpa using (reads_recordText hfields).call htag

end Builder

namespace DecoderCode

mutual

/-- The expression for a decoder. -/
def expr : DecoderCode → Expr
  | name text => .name text
  | field key value => .apply (.apply (.name "field") (.string key)) value.expr
  | maybe inner => .apply (.name "maybe") inner.expr
  | list item => .apply (.name "list") item.expr
  | map build [] => .apply (.name "map") build.expr
  | map build (value :: values) =>
    pipes (.apply (.apply (.name "map") build.expr) value.expr) values
  | dispatch subject cases =>
    .pipe (.apply (.apply (.name "field") (.string "__typename")) (.name "string"))
      (.apply (.name "andThen")
        (.lambda [subject]
          (.choose subject (caseExprs cases) (.apply (.name "fail") (.string unexpectedType)))))
  | succeed none => .apply (.name "succeed") (.record [])
  | succeed (some tag) => .apply (.name "succeed") (.apply (.name tag) (.record []))

/-- An expression with the values that are fed to it one after the other. -/
def pipes (e : Expr) : List DecoderCode → Expr
  | [] => e
  | value :: values => pipes (.pipe e (.apply (.name "apply") value.expr)) values

/-- The expressions for the cases of a dispatch. -/
def caseExprs : List (String × DecoderCode) → List (String × Expr)
  | [] => []
  | (type, value) :: cases => (type, value.expr) :: caseExprs cases

end

mutual

/-- Whether the names of a decoder can be read. -/
def Readable : DecoderCode → Prop
  | name text => IsName text
  | field key value => isWord key = true ∧ value.Readable
  | maybe inner => inner.Readable
  | list item => item.Readable
  | map build values => build.Readable ∧ ReadableAll values
  | dispatch subject cases => IsName subject ∧ ReadableCases cases
  | succeed tag => ∀ name ∈ tag, IsName name

/-- Whether the names of the decoders of a record can be read. -/
def ReadableAll : List DecoderCode → Prop
  | [] => True
  | value :: values => value.Readable ∧ ReadableAll values

/-- Whether the names of the cases of a dispatch can be read. -/
def ReadableCases : List (String × DecoderCode) → Prop
  | [] => True
  | (type, value) :: cases => isWord type = true ∧ value.Readable ∧ ReadableCases cases

end

theorem isPlainChar_of_isWordChar {c : Char} (h : isWordChar c = true) : isPlainChar c = true := by
  by_contra hne
  simp only [isPlainChar, Bool.and_eq_true, bne_iff_ne, not_and_or, not_not] at hne
  rcases hne with (rfl | rfl) | rfl <;> cases h

theorem isPlain_of_isWord {word : String} (h : isWord word = true) :
    ∀ c ∈ word.toList, isPlainChar c = true := by
  rw [isWord, Bool.and_eq_true, List.all_eq_true] at h
  exact fun c hc => isPlainChar_of_isWordChar (h.2 c hc)

section

variable {i : Nat}

/-- A function with a string and one more argument. -/
theorem reads_stringCall {f key : String} {x : Expr} {cs : List Char} (hf : IsName f)
    (hkey : isWord key = true) (h : Reads i (Atom i · x ·) cs) :
    Reads i (Phrase i · (.apply (.apply (.name f) (.string key)) x) ·)
      (f.toList ++ ' ' :: '"' :: (key.toList ++ '"' :: ' ' :: cs)) := by
  refine ((h.space.string (isPlain_of_isWord hkey)).space.name hf (by simp [isWordChar])).mono ?_
  rintro ts rest ⟨us, hname, vs, hstring, harg⟩
  exact .pipeline (.name hname) (.more (.string hstring) (.more harg .none)) .none

theorem reads_argument {indent : Nat} {code : DecoderCode} (hcode : code.Readable)
    (h : Reads i (Phrase i · code.expr ·) (code.text indent).toList) :
    Reads i (Atom i · code.expr ·)
      (parenthesized code.isCompound (code.text indent)).toList := by
  have hparens : Reads i (Atom i · code.expr ·) ("(" ++ code.text indent ++ ")").toList := by
    simpa using h.parens (by simp [isWordChar]) reads_closeParen
  cases code with
  | name word => exact Reads.atom hcode
  | _ => exact hparens

end

/-! ### Cases of a dispatch -/

section

variable {i p : Nat} {G : List Token → List Token → Prop} {cs ds : List Char}

theorem breaks_of_lineEnd (hcs : cs.head? = some '\n') : Breaks cs := by
  simp [Breaks, hcs, isWordChar]

/-- What starts on a line of its own can be read at an indentation further to the left too. -/
theorem reads_outdent (hcs : cs.head? = some '\n') (hp : i < p) (h : Reads p G cs) :
    Reads i G cs := by
  obtain ⟨line, rfl⟩ := List.head?_eq_some_iff.mp hcs
  intro c _
  obtain ⟨d, ts, hd, hts, hG⟩ := h (p + 1) (by omega)
  refine ⟨d, ts, by omega, fun rest hrest => ?_, hG⟩
  rw [← hts rest hrest, List.cons_append, tokens?_lineEnd, tokens?_lineEnd]

theorem reads_blankLine (hcs : cs.head? = some '\n') (h : Reads p G cs) : Reads p G ('\n' :: cs) := by
  obtain ⟨line, rfl⟩ := List.head?_eq_some_iff.mp hcs
  intro c hc
  obtain ⟨d, ts, hd, hts, hG⟩ := h c hc
  refine ⟨d, ts, hd, fun rest hrest => ?_, hG⟩
  rw [← hts rest hrest, List.cons_append, List.cons_append, tokens?_lineEnd, tokens?_lineEnd,
    tokens?_lineEnd]

/-- A pattern stands in the column of the indentation itself. -/
theorem reads_pattern {l : Lexeme} {width : Nat} (hwidth : 0 < width)
    (hl : ∀ c d ts, Lexes (c + width) cs ts d → Lexes c ds (⟨c, l⟩ :: ts) d) (h : Reads p G cs) :
    Reads p (Relation.Comp (fun ts us => ts = ⟨p, l⟩ :: us) G) ((newline p).toList ++ ds) := by
  intro c _
  obtain ⟨d, ts, hd, hts, hG⟩ := h (p + width) (by omega)
  exact ⟨d, _, hd, (hl p d ts hts).newline, fun rest => ⟨ts ++ rest, rfl, hG rest⟩⟩

end

theorem breaks_newline (n : Nat) (cs : List Char) : Breaks ((newline n).toList ++ cs) := by
  simp [newline, isWordChar]

/-- The values of a record after the first one, as they are written. -/
def stepsText (indent : Nat) (values : List DecoderCode) : String :=
  String.join ((argumentTexts (indent + 8) values).map (newline (indent + 4) ++ "|> apply " ++ ·))

theorem breaks_stepsText (indent : Nat) (values : List DecoderCode) :
    Breaks (stepsText indent values).toList := by
  cases values with
  | nil => simp [stepsText, argumentTexts]
  | cons value values => simp [stepsText, argumentTexts, newline, isWordChar]

/-- The branch of a dispatch for any other type, as it is written. -/
def otherwiseText (indent : Nat) : String :=
  newline (indent + 16) ++ "_ ->" ++ newline (indent + 20) ++ "fail \"" ++ unexpectedType ++ "\""

/-- The expression for any other type. -/
def otherwiseExpr : Expr := .apply (.name "fail") (.string unexpectedType)

theorem reads_otherwise (indent : Nat) :
    Reads (indent + 16) (Branches (indent + 16) · [] otherwiseExpr ·) (otherwiseText indent).toList := by
  have hstring : Reads (indent + 16) _ ('"' :: (unexpectedType.toList ++ ['"'])) :=
    Reads.nil.string (by simp [unexpectedType, isPlainChar])
  have hatom : Reads (indent + 16) (Atom (indent + 16) · (.string unexpectedType) ·)
      ('"' :: (unexpectedType.toList ++ ['"'])) := by
    refine hstring.mono ?_
    rintro ts rest ⟨us, hstring, rfl⟩
    exact .string hstring
  have hfail := hatom.call (f := "fail") (by decide)
  have harrow := (hfail.newline (n := indent + 20) (by omega)).arrow.space
  have hpattern := reads_pattern (l := .word "_") (by decide)
    (fun _ _ _ => Lexes.word (by decide) (by simp [isWordChar])) harrow
  have htext : (otherwiseText indent).toList = (newline (indent + 16)).toList ++ ("_".toList ++
      ' ' :: '-' :: '>' :: ((newline (indent + 20)).toList ++ ("fail".toList ++
        ' ' :: '"' :: (unexpectedType.toList ++ ['"'])))) := by
    simp [otherwiseText]
  rw [htext]
  refine hpattern.mono ?_
  rintro ts rest ⟨us, rfl, vs, harrow, hphrase⟩
  exact .otherwise harrow hphrase

theorem head?_branches (indent : Nat) (cases : List (String × DecoderCode)) :
    ((caseTexts indent cases).toList ++ (otherwiseText indent).toList).head? = some '\n' := by
  cases cases with
  | nil => simp [caseTexts, otherwiseText, newline]
  | cons head rest => simp [caseTexts, caseText, newline]

/-- A dispatch whose branches are read. -/
theorem reads_dispatchText {i indent : Nat} {subject cases : String} {branches : List (String × Expr)}
    (hi : i ≤ indent) (hsubject : IsName subject)
    (hline : (cases.toList ++ (otherwiseText indent).toList).head? = some '\n')
    (h : Reads (indent + 16) (Branches (indent + 16) · branches otherwiseExpr ·)
      (cases.toList ++ (otherwiseText indent).toList)) :
    Reads i
      (Phrase i ·
        (.pipe (.apply (.apply (.name "field") (.string "__typename")) (.name "string"))
          (.apply (.name "andThen") (.lambda [subject] (.choose subject branches otherwiseExpr)))) ·)
      (dispatchText indent subject cases).toList := by
  have hchoose : Reads i (Phrase i · (.choose subject branches otherwiseExpr) ·)
      ("case".toList ++ ' ' :: (subject.toList ++ ' ' :: ("of".toList ++
        (cases.toList ++ (otherwiseText indent).toList)))) := by
    have hbranches := reads_outdent hline (by omega : i < indent + 16) h
    have hof := hbranches.word (w := "of") (by decide) (breaks_of_lineEnd hline)
    have hname := hof.space.name hsubject (by simp [isWordChar])
    refine (hname.space.word (w := "case") (by decide) (by simp [isWordChar])).mono ?_
    rintro ts rest ⟨us, hcase, vs, hsubject, ws, hof, hbranches⟩
    exact .choose hcase hsubject hof (by omega) hbranches
  have hlambda := (hchoose.newline (n := indent + 12) (by omega)).lambda
    (List.cons_ne_nil subject []) (by simpa using hsubject)
  have hparens := hlambda.parens (breaks_newline _ _)
    (reads_closeParen.newline (n := indent + 8) (by omega))
  have hstep := ((hparens.newline (n := indent + 8) (by omega)).word (w := "andThen") (by decide)
    (breaks_newline _ _)).space.pipe.newline (n := indent + 4) (by omega)
  have hstring := (hstep.word (w := "string") (by decide) (breaks_newline _ _)).space.string
    (s := "__typename") (by simp [isPlainChar])
  have hfield := hstring.space.word (w := "field") (by decide) (by simp [isWordChar])
  have htext : (dispatchText indent subject cases).toList = "field".toList ++ ' ' :: '"' ::
      ("__typename".toList ++ '"' :: ' ' :: ("string".toList ++ ((newline (indent + 4)).toList ++
        '|' :: '>' :: ' ' :: ("andThen".toList ++ ((newline (indent + 8)).toList ++
          '(' :: (('\\' :: ((" ".intercalate [subject]).toList ++ ' ' :: '-' :: '>' ::
            ((newline (indent + 12)).toList ++ ("case".toList ++ ' ' :: (subject.toList ++ ' ' ::
              ("of".toList ++ (cases.toList ++ (otherwiseText indent).toList))))))) ++
                ((newline (indent + 8)).toList ++ [')']))))))) := by
    unfold dispatchText otherwiseText
    simp
  rw [htext]
  refine hfield.mono ?_
  rintro ts rest ⟨us, hfield, vs, hkey, ws, hstring, xs, hpipe, ys, hthen, hlambda⟩
  exact .pipeline (.name ⟨hfield, by decide⟩)
    (.more (.string hkey) (.more (.name ⟨hstring, by decide⟩) .none))
    (.more hpipe (.name ⟨hthen, by decide⟩) (.more hlambda .none) .none)

mutual

theorem reads {i indent : Nat} (hi : i ≤ indent) :
    ∀ code : DecoderCode, code.Readable → Reads i (Phrase i · code.expr ·) (code.text indent).toList
  | name word, h => by
    rw [Readable] at h
    rw [expr, text]
    refine (Reads.atom h).mono ?_
    intro ts rest hname
    exact .pipeline hname .none .none
  | field key value, h => by
    rw [Readable] at h
    have hvalue := reads_argument h.2 (reads hi value h.2)
    simpa [expr, text] using reads_stringCall (f := "field") (by decide) h.1 hvalue
  | maybe inner, h => by
    rw [Readable] at h
    have hinner := reads_argument h (reads hi inner h)
    simpa [expr, text] using hinner.call (f := "maybe") (by decide)
  | list item, h => by
    rw [Readable] at h
    have hitem := reads_argument h (reads hi item h)
    simpa [expr, text] using hitem.call (f := "list") (by decide)
  | map build [], h => by
    rw [Readable] at h
    have hbuild := Builder.reads (i := i) h.1
    simpa [expr, text, argumentTexts, listed] using hbuild.call (f := "map") (by decide)
  | map build (value :: values), h => by
    rw [Readable, ReadableAll] at h
    obtain ⟨hbuild, hvalue, hvalues⟩ := h
    have hdeep : i ≤ indent + 8 := by omega
    have hfirst := reads_argument hvalue (reads hdeep value hvalue)
    have hsteps := readsSteps hi values hvalues (.apply (.apply (.name "map") build.expr) value.expr)
    have hall := (hfirst.append (breaks_stepsText indent values) hsteps).newline
      (n := indent + 4) (by omega)
    have hmap := ((Builder.reads hbuild).append (breaks_newline _ _) hall).space.word
      (w := "map") (by decide) (by simp [isWordChar])
    have htext : ((map build (value :: values)).text indent).toList = "map".toList ++ ' ' ::
        (build.text.toList ++ ((newline (indent + 4)).toList ++
          ((parenthesized value.isCompound (value.text (indent + 8))).toList ++
            (stepsText indent values).toList))) := by
      simp [text, argumentTexts, listed, stepsText]
    rw [htext, expr]
    refine hmap.mono ?_
    rintro ts rest ⟨us, hname, vs, hbuild, ws, hvalue, hsteps⟩
    exact .pipeline (.name ⟨hname, by decide⟩) (.more hbuild (.more hvalue .none)) hsteps
  | dispatch subject cases, h => by
    rw [Readable] at h
    rw [expr, text]
    exact reads_dispatchText hi h.1 (head?_branches indent cases) (readsCases indent cases h.2)
  | succeed none, _ => by
    simpa [expr, text] using reads_emptyRecord.call (f := "succeed") (by decide)
  | succeed (some tag), h => by
    rw [Readable] at h
    have htag := (reads_emptyRecord (i := i)).call (h tag rfl)
    have hparens := htag.parens (by simp [isWordChar]) reads_closeParen
    simpa [expr, text] using hparens.call (f := "succeed") (by decide)

theorem readsSteps {i indent : Nat} (hi : i ≤ indent) :
    ∀ values : List DecoderCode, ReadableAll values → ∀ e : Expr,
      Reads i (Steps i e · (pipes e values) ·) (stepsText indent values).toList
  | [], _, e => by
    have htext : (stepsText indent []).toList = [] := by simp [stepsText, argumentTexts]
    rw [htext, pipes]
    refine Reads.nil.mono ?_
    rintro ts rest rfl
    exact .none
  | value :: values, h, e => by
    rw [ReadableAll] at h
    have hdeep : i ≤ indent + 8 := by omega
    have hvalue := reads_argument h.1 (reads hdeep value h.1)
    have hsteps := readsSteps hi values h.2 (.pipe e (.apply (.name "apply") value.expr))
    have happly := (hvalue.append (breaks_stepsText indent values) hsteps).space.word
      (w := "apply") (by decide) (by simp [isWordChar])
    have hpipe := happly.space.pipe.newline (n := indent + 4) (by omega)
    have htext : (stepsText indent (value :: values)).toList = (newline (indent + 4)).toList ++
        '|' :: '>' :: ' ' :: ("apply".toList ++ ' ' ::
          ((parenthesized value.isCompound (value.text (indent + 8))).toList ++
            (stepsText indent values).toList)) := by
      simp [stepsText, argumentTexts]
    rw [htext, pipes]
    refine hpipe.mono ?_
    rintro ts rest ⟨us, hpipe, vs, hname, ws, hvalue, hsteps⟩
    exact .more hpipe (.name ⟨hname, by decide⟩) (.more hvalue .none) hsteps

theorem readsCases (indent : Nat) :
    ∀ cases : List (String × DecoderCode), ReadableCases cases →
      Reads (indent + 16) (Branches (indent + 16) · (caseExprs cases) otherwiseExpr ·)
        ((caseTexts indent cases).toList ++ (otherwiseText indent).toList)
  | [], _ => by
    simpa [caseExprs, caseTexts] using reads_otherwise indent
  | (type, value) :: cases, h => by
    rw [ReadableCases] at h
    obtain ⟨htype, hvalue, hcases⟩ := h
    have hdeep : indent + 16 ≤ indent + 20 := by omega
    have hmore := reads_blankLine (head?_branches indent cases) (readsCases indent cases hcases)
    have hbody := (reads hdeep value hvalue).append (by simp [isWordChar]) hmore
    have harrow := (hbody.newline (n := indent + 20) (by omega)).arrow.space
    have hpattern := reads_pattern (l := .string type) (by omega)
      (fun _ _ _ => Lexes.string (isPlain_of_isWord htype)) harrow
    have htext : (caseTexts indent ((type, value) :: cases)).toList ++ (otherwiseText indent).toList =
        (newline (indent + 16)).toList ++ '"' :: (type.toList ++ '"' :: ' ' :: '-' :: '>' ::
          ((newline (indent + 20)).toList ++ ((value.text (indent + 20)).toList ++ '\n' ::
            ((caseTexts indent cases).toList ++ (otherwiseText indent).toList)))) := by
      simp [caseTexts, caseText]
    rw [htext, caseExprs]
    refine hpattern.mono ?_
    rintro ts rest ⟨us, rfl, vs, harrow, ws, hbody, hmore⟩
    exact .more harrow hbody hmore

end

end DecoderCode

end ElmBindings
