import ElmBindings.Naming
import Mathlib

set_option autoImplicit false

/-! # Elm expressions

The part of Elm's expression grammar that decoders are written in: names, string literals, records,
application to atoms, the left-associative pipe, lambdas, and the choice by a string with a default
branch. Text is divided into tokens that know their column, since a line that is indented no more than
the construct it might continue does not belong to it. The grammar is a relation, and it reads a text in
at most one way (`Phrase.unique`).

Every word that is not reserved counts as a name. The grammar does not ask how a name starts, so it also takes
words that Elm refuses: Elm wants a lower-case letter first in a variable or a field, and an upper-case one in
a constructor. -/

namespace ElmBindings.Elm

/-! ## Tokens -/

/-- The marks between words. -/
inductive Mark
  | openParen
  | closeParen
  | openBrace
  | closeBrace
  | equals
  | comma
  | backslash
  | arrow
  | pipe
  deriving DecidableEq

/-- What a token is made of. -/
inductive Lexeme
  | word (text : String)
  /-- A string literal without escapes. -/
  | string (text : String)
  | mark (mark : Mark)
  deriving DecidableEq

/-- A lexeme with the number of characters before it on its line. -/
structure Token where
  column : Nat
  lexeme : Lexeme
  deriving DecidableEq

/-- Whether a character can stand in a word. -/
def isWordChar (c : Char) : Bool := c.isAlphanum || c == '_'

/-- Whether a text is a word of letters, digits and underscores. -/
def isWord (s : String) : Bool := !s.isEmpty && s.toList.all isWordChar

/-- Whether a character can stand in a string literal for itself. -/
def isPlainChar (c : Char) : Bool := c != '"' && c != '\\' && c != '\n'

/-- The marks of one character. -/
def Mark.ofChar? : Char → Option Mark
  | '(' => some .openParen
  | ')' => some .closeParen
  | '{' => some .openBrace
  | '}' => some .closeBrace
  | '=' => some .equals
  | ',' => some .comma
  | '\\' => some .backslash
  | _ => none

/-- The lexeme that starts with a character, and the number of further characters it takes. -/
def lexeme? (c : Char) (rest : List Char) : Option (Lexeme × Nat) :=
  if isWordChar c then
    let more := rest.takeWhile isWordChar
    some (.word (String.ofList (c :: more)), more.length)
  else if c = '"' then
    let text := rest.takeWhile isPlainChar
    if rest[text.length]? = some '"' then some (.string (String.ofList text), text.length + 1)
    else none
  else if c = '-' ∧ rest.head? = some '>' then some (.mark .arrow, 1)
  else if c = '|' ∧ rest.head? = some '>' then some (.mark .pipe, 1)
  else (Mark.ofChar? c).map fun mark => (.mark mark, 0)

/-- The tokens of characters that start in a column. -/
def tokens? (column : Nat) : List Char → Option (List Token)
  | [] => some []
  | c :: rest =>
    if c = ' ' then tokens? (column + 1) rest
    else if c = '\n' then tokens? 0 rest
    else do
      let (lexeme, more) ← lexeme? c rest
      let others ← tokens? (column + (more + 1)) (rest.drop more)
      some (⟨column, lexeme⟩ :: others)
termination_by cs => cs.length
decreasing_by all_goals simp only [List.length_drop, List.length_cons]; omega

/-! ## Expressions -/

inductive Expr
  | name (text : String)
  | string (text : String)
  /-- A record whose fields have variables as their values. -/
  | record (fields : List (String × String))
  | apply (function argument : Expr)
  /-- The value of the first expression is what the second one is applied to. -/
  | pipe (value function : Expr)
  | lambda (parameters : List String) (body : Expr)
  /-- The choice of an expression by the string that a variable holds. -/
  | choose (subject : String) (cases : List (String × Expr)) (otherwise : Expr)

/-! ## The grammar

Each relation says that tokens start with an expression and go on with `rest`. What is indented no more
than `i` is no part of it. -/

/-- Whether the next token is the given one. -/
def Takes (i : Nat) (lexeme : Lexeme) (ts rest : List Token) : Prop :=
  ∃ column, i < column ∧ ts = ⟨column, lexeme⟩ :: rest

/-- Whether the next token is a name: any word that is not reserved, whatever it starts with. -/
def TakesName (i : Nat) (name : String) (ts rest : List Token) : Prop :=
  Takes i (.word name) ts rest ∧ name ∉ Naming.reservedWords

/-- The parameters of a lambda, up to the arrow. -/
inductive Parameters (i : Nat) : List Token → List String → List Token → Prop
  | none {ts rest : List Token} : Takes i (.mark .arrow) ts rest → Parameters i ts [] rest
  | more {ts us rest : List Token} {name : String} {names : List String} :
    TakesName i name ts us → Parameters i us names rest → Parameters i ts (name :: names) rest

/-- A field of a record with its value. -/
def TakesField (i : Nat) (field : String × String) (ts rest : List Token) : Prop :=
  ∃ us vs, TakesName i field.1 ts us ∧ Takes i (.mark .equals) us vs ∧ TakesName i field.2 vs rest

/-- The fields after the first one, up to the brace. -/
inductive OtherFields (i : Nat) : List Token → List (String × String) → List Token → Prop
  | none {ts rest : List Token} : Takes i (.mark .closeBrace) ts rest → OtherFields i ts [] rest
  | more {ts us vs rest : List Token} {field : String × String} {fields : List (String × String)} :
    Takes i (.mark .comma) ts us → TakesField i field us vs → OtherFields i vs fields rest →
      OtherFields i ts (field :: fields) rest

/-- The fields of a record, up to the brace. -/
inductive Fields (i : Nat) : List Token → List (String × String) → List Token → Prop
  | none {ts rest : List Token} : Takes i (.mark .closeBrace) ts rest → Fields i ts [] rest
  | some {ts us rest : List Token} {field : String × String} {fields : List (String × String)} :
    TakesField i field ts us → OtherFields i us fields rest → Fields i ts (field :: fields) rest

mutual

/-- An expression that can be an argument. -/
inductive Atom : Nat → List Token → Expr → List Token → Prop
  | name {i : Nat} {ts rest : List Token} {text : String} :
    TakesName i text ts rest → Atom i ts (.name text) rest
  | string {i : Nat} {ts rest : List Token} {text : String} :
    Takes i (.string text) ts rest → Atom i ts (.string text) rest
  | record {i : Nat} {ts us rest : List Token} {fields : List (String × String)} :
    Takes i (.mark .openBrace) ts us → Fields i us fields rest → Atom i ts (.record fields) rest
  | parens {i : Nat} {ts us vs rest : List Token} {e : Expr} :
    Takes i (.mark .openParen) ts us → Phrase i us e vs → Takes i (.mark .closeParen) vs rest →
      Atom i ts e rest

/-- The arguments after a function `f`. -/
inductive Arguments : Nat → Expr → List Token → Expr → List Token → Prop
  | none {i : Nat} {f : Expr} {ts : List Token} : Arguments i f ts f ts
  | more {i : Nat} {f x e : Expr} {ts us rest : List Token} :
    Atom i ts x us → Arguments i (.apply f x) us e rest → Arguments i f ts e rest

/-- The functions after a value `x` that it is piped through, from left to right. -/
inductive Steps : Nat → Expr → List Token → Expr → List Token → Prop
  | none {i : Nat} {x : Expr} {ts : List Token} : Steps i x ts x ts
  | more {i : Nat} {x f g e : Expr} {ts us vs ws rest : List Token} :
    Takes i (.mark .pipe) ts us → Atom i us f vs → Arguments i f vs g ws →
      Steps i (.pipe x g) ws e rest → Steps i x ts e rest

/-- A whole expression. -/
inductive Phrase : Nat → List Token → Expr → List Token → Prop
  | pipeline {i : Nat} {f x e : Expr} {ts us vs rest : List Token} :
    Atom i ts f us → Arguments i f us x vs → Steps i x vs e rest → Phrase i ts e rest
  | lambda {i : Nat} {ts us vs rest : List Token} {parameters : List String} {body : Expr} :
    Takes i (.mark .backslash) ts us → Parameters i us parameters vs → parameters ≠ [] →
      Phrase i vs body rest → Phrase i ts (.lambda parameters body) rest
  | choose {i p : Nat} {ts us vs ws rest : List Token} {subject : String}
      {cases : List (String × Expr)} {otherwise : Expr} :
    Takes i (.word "case") ts us → TakesName i subject us vs → Takes i (.word "of") vs ws → i < p →
      Branches p ws cases otherwise rest → Phrase i ts (.choose subject cases otherwise) rest

/-- The branches of a choice, whose patterns all start in column `p`. -/
inductive Branches : Nat → List Token → List (String × Expr) → Expr → List Token → Prop
  | otherwise {p : Nat} {ts us rest : List Token} {e : Expr} :
    Takes p (.mark .arrow) ts us → Phrase p us e rest →
      Branches p (⟨p, .word "_"⟩ :: ts) [] e rest
  | more {p : Nat} {ts us vs rest : List Token} {text : String} {e otherwise : Expr}
      {cases : List (String × Expr)} :
    Takes p (.mark .arrow) ts us → Phrase p us e vs → Branches p vs cases otherwise rest →
      Branches p (⟨p, .string text⟩ :: ts) ((text, e) :: cases) otherwise rest

end

/-! ## At most one reading -/

section

variable {i : Nat} {l l' : Lexeme} {ts us us' rest rest' : List Token}

theorem Takes.unique (h : Takes i l ts us) (h' : Takes i l' ts us') : l = l' ∧ us = us' := by
  obtain ⟨column, -, rfl⟩ := h
  obtain ⟨column', -, heq⟩ := h'
  cases heq
  exact ⟨rfl, rfl⟩

theorem TakesName.unique {name name' : String} (h : TakesName i name ts us)
    (h' : TakesName i name' ts us') : name = name' ∧ us = us' := by
  obtain ⟨hword, rfl⟩ := h.1.unique h'.1
  cases hword
  exact ⟨rfl, rfl⟩

theorem TakesField.unique {field field' : String × String} (h : TakesField i field ts us)
    (h' : TakesField i field' ts us') : field = field' ∧ us = us' := by
  obtain ⟨vs, ws, hname, hequals, hvalue⟩ := h
  obtain ⟨vs', ws', hname', hequals', hvalue'⟩ := h'
  obtain ⟨hfirst, rfl⟩ := hname.unique hname'
  obtain ⟨-, rfl⟩ := hequals.unique hequals'
  obtain ⟨hsecond, rfl⟩ := hvalue.unique hvalue'
  exact ⟨Prod.ext hfirst hsecond, rfl⟩

theorem Parameters.unique {names names' : List String} (h : Parameters i ts names rest)
    (h' : Parameters i ts names' rest') : names = names' ∧ rest = rest' := by
  induction h generalizing names' rest' with
  | none harrow =>
    cases h' with
    | none harrow' => exact ⟨rfl, (harrow.unique harrow').2⟩
    | more hname' _ => cases (harrow.unique hname'.1).1
  | more hname _ ih =>
    cases h' with
    | none harrow' => cases (harrow'.unique hname.1).1
    | more hname' hmore' =>
      obtain ⟨rfl, rfl⟩ := hname.unique hname'
      obtain ⟨rfl, rfl⟩ := ih hmore'
      exact ⟨rfl, rfl⟩

theorem OtherFields.unique {fields fields' : List (String × String)} (h : OtherFields i ts fields rest)
    (h' : OtherFields i ts fields' rest') : fields = fields' ∧ rest = rest' := by
  induction h generalizing fields' rest' with
  | none hbrace =>
    cases h' with
    | none hbrace' => exact ⟨rfl, (hbrace.unique hbrace').2⟩
    | more hcomma' _ _ => cases (hbrace.unique hcomma').1
  | more hcomma hfield _ ih =>
    cases h' with
    | none hbrace' => cases (hcomma.unique hbrace').1
    | more hcomma' hfield' hmore' =>
      obtain ⟨-, rfl⟩ := hcomma.unique hcomma'
      obtain ⟨rfl, rfl⟩ := hfield.unique hfield'
      obtain ⟨rfl, rfl⟩ := ih hmore'
      exact ⟨rfl, rfl⟩

theorem Fields.unique {fields fields' : List (String × String)} (h : Fields i ts fields rest)
    (h' : Fields i ts fields' rest') : fields = fields' ∧ rest = rest' := by
  cases h with
  | none hbrace =>
    cases h' with
    | none hbrace' => exact ⟨rfl, (hbrace.unique hbrace').2⟩
    | some hfield' _ =>
      obtain ⟨_, _, hname', -⟩ := hfield'
      cases (hbrace.unique hname'.1).1
  | some hfield hmore =>
    cases h' with
    | none hbrace' =>
      obtain ⟨_, _, hname, -⟩ := hfield
      cases (hbrace'.unique hname.1).1
    | some hfield' hmore' =>
      obtain ⟨rfl, rfl⟩ := hfield.unique hfield'
      obtain ⟨rfl, rfl⟩ := hmore.unique hmore'
      exact ⟨rfl, rfl⟩

end

/-- Whether an expression ends where tokens start: they are indented no more than it, or a parenthesis
closes. -/
def Ends (i : Nat) (ts : List Token) : Prop :=
  ∀ t ∈ ts.head?, t.column ≤ i ∨ t.lexeme = .mark .closeParen

/-- Whether the arguments of a function end where tokens start. -/
def EndsCall (i : Nat) (ts : List Token) : Prop :=
  ∀ t ∈ ts.head?, t.column ≤ i ∨ t.lexeme = .mark .closeParen ∨ t.lexeme = .mark .pipe

section

variable {i : Nat} {l : Lexeme} {ts rest : List Token}

theorem Ends.endsCall (h : Ends i ts) : EndsCall i ts := by
  intro t ht
  rcases h t ht with hcolumn | hclose
  · exact .inl hcolumn
  · exact .inr (.inl hclose)

theorem Takes.ends (h : Takes i (.mark .closeParen) ts rest) : Ends i ts := by
  obtain ⟨column, -, rfl⟩ := h
  simp [Ends]

theorem Takes.endsCall (h : Takes i (.mark .pipe) ts rest) : EndsCall i ts := by
  obtain ⟨column, -, rfl⟩ := h
  simp [EndsCall]

theorem EndsCall.takes (h : EndsCall i ts) (htakes : Takes i l ts rest) :
    l = .mark .closeParen ∨ l = .mark .pipe := by
  obtain ⟨column, hcolumn, rfl⟩ := htakes
  rcases h ⟨column, l⟩ (by simp) with hle | hmark
  · exact absurd hcolumn (Nat.not_lt.mpr hle)
  · exact hmark

theorem Ends.takes (h : Ends i ts) (htakes : Takes i l ts rest) : l = .mark .closeParen := by
  obtain ⟨column, hcolumn, rfl⟩ := htakes
  rcases h ⟨column, l⟩ (by simp) with hle | hmark
  · exact absurd hcolumn (Nat.not_lt.mpr hle)
  · exact hmark

/-- No argument starts where a call ends. -/
theorem Atom.not_endsCall {e : Expr} (h : Atom i ts e rest) : ¬ EndsCall i ts := by
  intro hends
  cases h with
  | name hname => rcases hends.takes hname.1 with h | h <;> cases h
  | string hstring => rcases hends.takes hstring with h | h <;> cases h
  | record hopen _ => rcases hends.takes hopen with h | h <;> cases h
  | parens hopen _ _ => rcases hends.takes hopen with h | h <;> cases h

theorem Steps.endsCall {x e : Expr} (h : Steps i x ts e rest) (hends : Ends i rest) :
    EndsCall i ts := by
  cases h with
  | none => exact hends.endsCall
  | more hpipe _ _ _ => exact hpipe.endsCall

theorem Atom.not_backslash {e : Expr} {us : List Token} (h : Atom i ts e rest) :
    ¬ Takes i (.mark .backslash) ts us := by
  intro hmark
  cases h with
  | name hname => cases (hmark.unique hname.1).1
  | string hstring => cases (hmark.unique hstring).1
  | record hopen _ => cases (hmark.unique hopen).1
  | parens hopen _ _ => cases (hmark.unique hopen).1

theorem Atom.not_case {e : Expr} {us : List Token} (h : Atom i ts e rest) :
    ¬ Takes i (.word "case") ts us := by
  intro hcase
  cases h with
  | name hname =>
    obtain ⟨hword, -⟩ := hcase.unique hname.1
    cases hword
    exact hname.2 (by decide)
  | string hstring => cases (hcase.unique hstring).1
  | record hopen _ => cases (hcase.unique hopen).1
  | parens hopen _ _ => cases (hcase.unique hopen).1

theorem Ends.mono {j : Nat} (h : Ends i ts) (hij : i < j) : Ends j ts := by
  intro t ht
  rcases h t ht with hcolumn | hclose
  · exact .inl (by omega)
  · exact .inr hclose

theorem Branches.column_eq {j : Nat} {rest' : List Token} {cases cases' : List (String × Expr)}
    {e e' : Expr} (h : Branches i ts cases e rest) (h' : Branches j ts cases' e' rest') : i = j := by
  cases h with
  | otherwise _ _ => cases h'; rfl
  | more _ _ _ => cases h'; rfl

/-- The branches of a choice end an expression that is indented more than their patterns. -/
theorem Branches.ends {cases : List (String × Expr)} {otherwise : Expr}
    (h : Branches i ts cases otherwise rest) : Ends i ts := by
  cases h with
  | otherwise _ _ => simp [Ends]
  | more _ _ _ => simp [Ends]

end

mutual

theorem Atom.unique {i : Nat} {ts rest rest' : List Token} {e e' : Expr} :
    Atom i ts e rest → Atom i ts e' rest' → e = e' ∧ rest = rest'
  | .name hname, h' => by
    cases h' with
    | name hname' =>
      obtain ⟨rfl, rfl⟩ := hname.unique hname'
      exact ⟨rfl, rfl⟩
    | string hstring' => cases (hname.1.unique hstring').1
    | record hopen' _ => cases (hname.1.unique hopen').1
    | parens hopen' _ _ => cases (hname.1.unique hopen').1
  | .string hstring, h' => by
    cases h' with
    | name hname' => cases (hstring.unique hname'.1).1
    | string hstring' =>
      obtain ⟨htext, rfl⟩ := hstring.unique hstring'
      cases htext
      exact ⟨rfl, rfl⟩
    | record hopen' _ => cases (hstring.unique hopen').1
    | parens hopen' _ _ => cases (hstring.unique hopen').1
  | .record hopen hfields, h' => by
    cases h' with
    | name hname' => cases (hopen.unique hname'.1).1
    | string hstring' => cases (hopen.unique hstring').1
    | record hopen' hfields' =>
      obtain ⟨-, rfl⟩ := hopen.unique hopen'
      obtain ⟨rfl, rfl⟩ := hfields.unique hfields'
      exact ⟨rfl, rfl⟩
    | parens hopen' _ _ => cases (hopen.unique hopen').1
  | .parens hopen hphrase hclose, h' => by
    cases h' with
    | name hname' => cases (hopen.unique hname'.1).1
    | string hstring' => cases (hopen.unique hstring').1
    | record hopen' _ => cases (hopen.unique hopen').1
    | parens hopen' hphrase' hclose' =>
      obtain ⟨-, rfl⟩ := hopen.unique hopen'
      obtain ⟨rfl, rfl⟩ := hphrase.unique hphrase' hclose.ends hclose'.ends
      exact ⟨rfl, (hclose.unique hclose').2⟩
termination_by structural h => h

theorem Arguments.unique {i : Nat} {ts rest rest' : List Token} {f e e' : Expr} :
    Arguments i f ts e rest → Arguments i f ts e' rest' → EndsCall i rest → EndsCall i rest' →
      e = e' ∧ rest = rest'
  | .none, h', hends, _ => by
    cases h' with
    | none => exact ⟨rfl, rfl⟩
    | more hatom' _ => exact absurd hends hatom'.not_endsCall
  | .more hatom hmore, h', hends, hends' => by
    cases h' with
    | none => exact absurd hends' hatom.not_endsCall
    | more hatom' hmore' =>
      obtain ⟨rfl, rfl⟩ := hatom.unique hatom'
      exact hmore.unique hmore' hends hends'
termination_by structural h => h

theorem Steps.unique {i : Nat} {ts rest rest' : List Token} {x e e' : Expr} :
    Steps i x ts e rest → Steps i x ts e' rest' → Ends i rest → Ends i rest' →
      e = e' ∧ rest = rest'
  | .none, h', hends, _ => by
    cases h' with
    | none => exact ⟨rfl, rfl⟩
    | more hpipe' _ _ _ => cases hends.takes hpipe'
  | .more hpipe hatom harguments hmore, h', hends, hends' => by
    cases h' with
    | none => cases hends'.takes hpipe
    | more hpipe' hatom' harguments' hmore' =>
      obtain ⟨-, rfl⟩ := hpipe.unique hpipe'
      obtain ⟨rfl, rfl⟩ := hatom.unique hatom'
      obtain ⟨rfl, rfl⟩ :=
        harguments.unique harguments' (hmore.endsCall hends) (hmore'.endsCall hends')
      exact hmore.unique hmore' hends hends'
termination_by structural h => h

theorem Phrase.unique {i : Nat} {ts rest rest' : List Token} {e e' : Expr} :
    Phrase i ts e rest → Phrase i ts e' rest' → Ends i rest → Ends i rest' → e = e' ∧ rest = rest'
  | .pipeline hatom harguments hsteps, h', hends, hends' => by
    cases h' with
    | pipeline hatom' harguments' hsteps' =>
      obtain ⟨rfl, rfl⟩ := hatom.unique hatom'
      obtain ⟨rfl, rfl⟩ :=
        harguments.unique harguments' (hsteps.endsCall hends) (hsteps'.endsCall hends')
      exact hsteps.unique hsteps' hends hends'
    | lambda hmark' _ _ _ => exact absurd hmark' hatom.not_backslash
    | choose hcase' _ _ _ _ => exact absurd hcase' hatom.not_case
  | .lambda hmark hparameters _ hbody, h', hends, hends' => by
    cases h' with
    | pipeline hatom' _ _ => exact absurd hmark hatom'.not_backslash
    | lambda hmark' hparameters' _ hbody' =>
      obtain ⟨-, rfl⟩ := hmark.unique hmark'
      obtain ⟨rfl, rfl⟩ := hparameters.unique hparameters'
      obtain ⟨rfl, rfl⟩ := hbody.unique hbody' hends hends'
      exact ⟨rfl, rfl⟩
    | choose hcase' _ _ _ _ => cases (hmark.unique hcase').1
  | .choose hcase hsubject hof hindent hbranches, h', hends, hends' => by
    cases h' with
    | pipeline hatom' _ _ => exact absurd hcase hatom'.not_case
    | lambda hmark' _ _ _ => cases (hcase.unique hmark').1
    | choose hcase' hsubject' hof' hindent' hbranches' =>
      obtain ⟨-, rfl⟩ := hcase.unique hcase'
      obtain ⟨rfl, rfl⟩ := hsubject.unique hsubject'
      obtain ⟨-, rfl⟩ := hof.unique hof'
      obtain rfl := hbranches.column_eq hbranches'
      obtain ⟨rfl, rfl, rfl⟩ := hbranches.unique hbranches' (hends.mono hindent) (hends'.mono hindent)
      exact ⟨rfl, rfl⟩
termination_by structural h => h

theorem Branches.unique {p : Nat} {ts rest rest' : List Token} {cases cases' : List (String × Expr)}
    {e e' : Expr} :
    Branches p ts cases e rest → Branches p ts cases' e' rest' → Ends p rest → Ends p rest' →
      cases = cases' ∧ e = e' ∧ rest = rest'
  | .otherwise harrow hphrase, h', hends, hends' => by
    cases h' with
    | otherwise harrow' hphrase' =>
      obtain ⟨-, rfl⟩ := harrow.unique harrow'
      obtain ⟨rfl, rfl⟩ := hphrase.unique hphrase' hends hends'
      exact ⟨rfl, rfl, rfl⟩
  | .more harrow hphrase hmore, h', hends, hends' => by
    cases h' with
    | more harrow' hphrase' hmore' =>
      obtain ⟨-, rfl⟩ := harrow.unique harrow'
      obtain ⟨rfl, rfl⟩ := hphrase.unique hphrase' hmore.ends hmore'.ends
      obtain ⟨rfl, rfl, rfl⟩ := hmore.unique hmore' hends hends'
      exact ⟨rfl, rfl, rfl⟩
termination_by structural h => h

end

end ElmBindings.Elm
