import ElmBindings.Elm.Type
import ElmBindings.Proofs.DecoderReading

set_option autoImplicit false

/-! # The text of a type

The part of Elm's type grammar that types are written in: a name, the application of a name to atoms, types
in parentheses, and records. It is a relation on tokens that reads a text in at most one way
(`TypePhrase.unique`), and the text of a type reads as the type itself, where every constant counts by its
name alone (`ElmType.reads`). So a text tells a type but for what its constants stand for
(`ElmType.text_unambiguous`): an enum and a union of one name are written alike, and so are `Int` and an enum
of that name. -/

namespace ElmBindings

namespace Elm

/-! ## Tokens -/

/-- What the text of a type is made of. -/
inductive TypeToken
  | word (text : String)
  | openParen
  | closeParen
  | openBrace
  | closeBrace
  | colon
  | comma
  deriving DecidableEq

/-- The tokens of one character. -/
def TypeToken.mark? : Char → Option TypeToken
  | '(' => some .openParen
  | ')' => some .closeParen
  | '{' => some .openBrace
  | '}' => some .closeBrace
  | ':' => some .colon
  | ',' => some .comma
  | _ => none

/-- The tokens of a text on one line. A word is as long as it can be. -/
def typeTokens? : List Char → Option (List TypeToken)
  | [] => some []
  | c :: rest =>
    if c = ' ' then typeTokens? rest
    else if isWordChar c then
      let more := rest.takeWhile isWordChar
      (typeTokens? (rest.drop more.length)).map (.word (String.ofList (c :: more)) :: ·)
    else do
      let mark ← TypeToken.mark? c
      (typeTokens? rest).map (mark :: ·)
termination_by cs => cs.length
decreasing_by all_goals simp only [List.length_drop, List.length_cons]; omega

/-! ## The grammar -/

/-- A type as Elm reads it. A constant is a name without arguments. -/
inductive TypeExpr
  | named (name : String) (arguments : List TypeExpr)
  | record (fields : List (String × TypeExpr))

mutual

/-- A type that can be an argument. -/
inductive TypeAtom : List TypeToken → TypeExpr → List TypeToken → Prop
  | name {rest : List TypeToken} {name : String} : TypeAtom (.word name :: rest) (.named name []) rest
  | parens {ts rest : List TypeToken} {e : TypeExpr} :
    TypePhrase ts e (.closeParen :: rest) → TypeAtom (.openParen :: ts) e rest
  | emptyRecord {rest : List TypeToken} : TypeAtom (.openBrace :: .closeBrace :: rest) (.record []) rest
  | record {ts rest : List TypeToken} {fields : List (String × TypeExpr)} :
    TypeFields ts fields rest → TypeAtom (.openBrace :: ts) (.record fields) rest

/-- The arguments of a name. -/
inductive TypeArguments : List TypeToken → List TypeExpr → List TypeToken → Prop
  | none {ts : List TypeToken} : TypeArguments ts [] ts
  | more {ts us rest : List TypeToken} {e : TypeExpr} {arguments : List TypeExpr} :
    TypeAtom ts e us → TypeArguments us arguments rest → TypeArguments ts (e :: arguments) rest

/-- A whole type. -/
inductive TypePhrase : List TypeToken → TypeExpr → List TypeToken → Prop
  | atom {ts rest : List TypeToken} {e : TypeExpr} : TypeAtom ts e rest → TypePhrase ts e rest
  | application {ts us rest : List TypeToken} {name : String} {e : TypeExpr}
      {arguments : List TypeExpr} :
    TypeAtom ts e us → TypeArguments us arguments rest →
      TypePhrase (.word name :: ts) (.named name (e :: arguments)) rest

/-- The fields of a record, up to the brace. -/
inductive TypeFields : List TypeToken → List (String × TypeExpr) → List TypeToken → Prop
  | last {ts rest : List TypeToken} {name : String} {e : TypeExpr} :
    TypePhrase ts e (.closeBrace :: rest) → TypeFields (.word name :: .colon :: ts) [(name, e)] rest
  | more {ts us rest : List TypeToken} {name : String} {e : TypeExpr}
      {fields : List (String × TypeExpr)} :
    TypePhrase ts e (.comma :: us) → TypeFields us fields rest →
      TypeFields (.word name :: .colon :: ts) ((name, e) :: fields) rest

end

/-- Whether a text reads as a type. -/
def ReadsType (text : String) (e : TypeExpr) : Prop :=
  ∃ ts, typeTokens? text.toList = some ts ∧ TypePhrase ts e []

/-! ## At most one reading -/

/-- Whether no argument starts where tokens start. -/
def TypeEnds (ts : List TypeToken) : Prop :=
  ∀ t ∈ ts.head?, t = .closeParen ∨ t = .closeBrace ∨ t = .comma

theorem TypeAtom.not_ends {ts rest : List TypeToken} {e : TypeExpr} (h : TypeAtom ts e rest) :
    ¬ TypeEnds ts := by
  intro hends
  cases h <;> simpa using hends _ (List.head?_cons ..)

mutual

theorem TypeAtom.unique {ts rest rest' : List TypeToken} {e e' : TypeExpr} :
    TypeAtom ts e rest → TypeAtom ts e' rest' → e = e' ∧ rest = rest'
  | .name, h' => by
    cases h'
    exact ⟨rfl, rfl⟩
  | .parens h, h' => by
    cases h' with
    | parens h' =>
      obtain ⟨rfl, hrest⟩ := h.unique h' (by simp [TypeEnds]) (by simp [TypeEnds])
      exact ⟨rfl, (List.cons.inj hrest).2⟩
  | .emptyRecord, h' => by
    cases h' with
    | emptyRecord => exact ⟨rfl, rfl⟩
    | record h' => cases h'
  | .record h, h' => by
    cases h' with
    | emptyRecord => cases h
    | record h' =>
      obtain ⟨rfl, rfl⟩ := h.unique h'
      exact ⟨rfl, rfl⟩
termination_by structural h => h

theorem TypeArguments.unique {ts rest rest' : List TypeToken} {es es' : List TypeExpr} :
    TypeArguments ts es rest → TypeArguments ts es' rest' → TypeEnds rest → TypeEnds rest' →
      es = es' ∧ rest = rest'
  | .none, h', hends, _ => by
    cases h' with
    | none => exact ⟨rfl, rfl⟩
    | more hatom' _ => exact absurd hends hatom'.not_ends
  | .more hatom hmore, h', hends, hends' => by
    cases h' with
    | none => exact absurd hends' hatom.not_ends
    | more hatom' hmore' =>
      obtain ⟨rfl, rfl⟩ := hatom.unique hatom'
      obtain ⟨rfl, rfl⟩ := hmore.unique hmore' hends hends'
      exact ⟨rfl, rfl⟩
termination_by structural h => h

theorem TypePhrase.unique {ts rest rest' : List TypeToken} {e e' : TypeExpr} :
    TypePhrase ts e rest → TypePhrase ts e' rest' → TypeEnds rest → TypeEnds rest' →
      e = e' ∧ rest = rest'
  | .atom hatom, h', hends, _ => by
    cases h' with
    | atom hatom' => exact hatom.unique hatom'
    | application hfirst' _ =>
      -- the name alone would leave its first argument over
      cases hatom
      exact absurd hends hfirst'.not_ends
  | .application hfirst harguments, h', hends, hends' => by
    cases h' with
    | atom hatom' =>
      cases hatom'
      exact absurd hends' hfirst.not_ends
    | application hfirst' harguments' =>
      obtain ⟨rfl, rfl⟩ := hfirst.unique hfirst'
      obtain ⟨rfl, rfl⟩ := harguments.unique harguments' hends hends'
      exact ⟨rfl, rfl⟩
termination_by structural h => h

theorem TypeFields.unique {ts rest rest' : List TypeToken} {fields fields' : List (String × TypeExpr)} :
    TypeFields ts fields rest → TypeFields ts fields' rest' → fields = fields' ∧ rest = rest'
  | .last h, h' => by
    cases h' with
    | last h' =>
      obtain ⟨rfl, hrest⟩ := h.unique h' (by simp [TypeEnds]) (by simp [TypeEnds])
      exact ⟨rfl, (List.cons.inj hrest).2⟩
    | more h' _ => cases (h.unique h' (by simp [TypeEnds]) (by simp [TypeEnds])).2
  | .more h hmore, h' => by
    cases h' with
    | last h' => cases (h.unique h' (by simp [TypeEnds]) (by simp [TypeEnds])).2
    | more h' hmore' =>
      obtain ⟨rfl, hrest⟩ := h.unique h' (by simp [TypeEnds]) (by simp [TypeEnds])
      cases hrest
      obtain ⟨rfl, rfl⟩ := hmore.unique hmore'
      exact ⟨rfl, rfl⟩
termination_by structural h => h

end

/-- A text reads as one type at most. -/
theorem ReadsType.unique {text : String} {e e' : TypeExpr} (h : ReadsType text e)
    (h' : ReadsType text e') : e = e' := by
  obtain ⟨ts, hts, hphrase⟩ := h
  obtain ⟨ts', hts', hphrase'⟩ := h'
  cases hts.symm.trans hts'
  exact (hphrase.unique hphrase' (by simp [TypeEnds]) (by simp [TypeEnds])).1

/-! ## Dividing a text -/

/-- Whether characters have the given tokens, whatever follows them, if it breaks words. -/
def TypeLexes (cs : List Char) (ts : List TypeToken) : Prop :=
  ∀ rest, Breaks rest → typeTokens? (cs ++ rest) = (typeTokens? rest).map (ts ++ ·)

namespace TypeLexes

variable {cs ds : List Char} {ts us : List TypeToken}

theorem nil : TypeLexes [] [] := by
  intro rest _
  simp

theorem append (h : TypeLexes cs ts) (hds : Breaks ds) (h' : TypeLexes ds us) :
    TypeLexes (cs ++ ds) (ts ++ us) := by
  intro rest hrest
  rw [List.append_assoc, h _ (hds.append hrest), h' rest hrest, Option.map_map]
  congr 1
  funext vs
  simp

theorem space (h : TypeLexes cs ts) : TypeLexes (' ' :: cs) ts := by
  intro rest hrest
  rw [List.cons_append, typeTokens?, if_pos rfl]
  exact h rest hrest

theorem word {name : String} (hname : isWord name = true) (hcs : Breaks cs) (h : TypeLexes cs ts) :
    TypeLexes (name.toList ++ cs) (.word name :: ts) := by
  intro rest hrest
  obtain ⟨first, more, hchars, hfirst, hmore⟩ := isWord_cons hname
  have hrun : (more ++ (cs ++ rest)).takeWhile isWordChar = more :=
    Text.takeWhile_run hmore (hcs.append hrest)
  have htext : String.ofList (first :: more) = name := by rw [← hchars, String.ofList_toList]
  rw [List.append_assoc, hchars, List.cons_append, typeTokens?,
    if_neg (not_blank_of_isWordChar hfirst).1, if_pos hfirst]
  simp only [hrun, htext, List.drop_left, h rest hrest, Option.map_map]
  rfl

theorem mark {c : Char} {t : TypeToken} (hmark : TypeToken.mark? c = some t) (h : TypeLexes cs ts) :
    TypeLexes (c :: cs) (t :: ts) := by
  intro rest hrest
  have hc : c ≠ ' ' ∧ isWordChar c = false := by
    unfold TypeToken.mark? at hmark
    split at hmark <;> cases hmark <;> decide
  rw [List.cons_append, typeTokens?, if_neg hc.1, if_neg (by simp [hc.2]), hmark]
  simp only [Option.bind_eq_bind, Option.bind_some, h rest hrest, Option.map_map]
  rfl

end TypeLexes

end Elm

namespace ElmType

open Elm Layout

/-! ## Types as they are read -/

mutual

/-- A type as Elm reads it: enums and unions are constants under their names. -/
def expr : ElmType → TypeExpr
  | int => .named "Int" []
  | float => .named "Float" []
  | bool => .named "Bool" []
  | string => .named "String" []
  | enum name => .named (enumName name) []
  | union name _ => .named name []
  | maybe inner => .named "Maybe" [inner.expr]
  | list item => .named "List" [item.expr]
  | record fields => .record (fieldExprs fields)

/-- The fields of a record as Elm reads them. -/
def fieldExprs : List (String × ElmType) → List (String × TypeExpr)
  | [] => []
  | (name, type) :: fields => (name, type.expr) :: fieldExprs fields

end

mutual

/-- Whether the names that a type is written with are words. -/
def isLegible : ElmType → Bool
  | enum name => isWord name
  | union name _ => isWord name
  | maybe inner => inner.isLegible
  | list item => item.isLegible
  | record fields => areLegible fields
  | _ => true

/-- Whether the names that fields are written with are words. -/
def areLegible : List (String × ElmType) → Bool
  | [] => true
  | (name, type) :: fields => isWord name && type.isLegible && areLegible fields

end

/-! ## Reading a type -/

/-- Whether characters have tokens that `G` takes. -/
def Reads (G : List TypeToken → List TypeToken → Prop) (cs : List Char) : Prop :=
  ∃ ts, TypeLexes cs ts ∧ ∀ rest, G (ts ++ rest) rest

section

variable {cs : List Char} {e : TypeExpr}

theorem reads_name {name : String} (h : isWord name = true) :
    Reads (TypeAtom · (.named name []) ·) name.toList := by
  have hlexes := TypeLexes.nil.word h breaks_nil
  rw [List.append_nil] at hlexes
  exact ⟨_, hlexes, fun _ => .name⟩

theorem Reads.parens (h : Reads (TypePhrase · e ·) cs) :
    Reads (TypeAtom · e ·) ('(' :: (cs ++ [')'])) := by
  obtain ⟨ts, hlexes, hphrase⟩ := h
  have hclose : TypeLexes [')'] [.closeParen] := TypeLexes.nil.mark rfl
  refine ⟨_, (hlexes.append (by simp [isWordChar]) hclose).mark rfl, fun rest => ?_⟩
  rw [List.cons_append, List.append_assoc]
  exact .parens (hphrase _)

theorem Reads.apply {name : String} (hname : isWord name = true) (h : Reads (TypeAtom · e ·) cs) :
    Reads (TypePhrase · (.named name [e]) ·) (name.toList ++ ' ' :: cs) := by
  obtain ⟨ts, hlexes, hatom⟩ := h
  exact ⟨_, hlexes.space.word hname (by simp [isWordChar]), fun rest => .application (hatom rest) .none⟩

/-- A field with what separates it from the next one, or from the end of the record. -/
theorem lexes_field {name : String} {ts us : List TypeToken} {ds : List Char}
    (hname : isWord name = true) (h : TypeLexes cs ts) (hds : Breaks ds) (hmore : TypeLexes ds us) :
    TypeLexes (name.toList ++ ' ' :: ':' :: ' ' :: (cs ++ ds)) (.word name :: .colon :: (ts ++ us)) := by
  have hcolon : TypeLexes (':' :: ' ' :: (cs ++ ds)) (.colon :: (ts ++ us)) :=
    (h.append hds hmore).space.mark rfl
  exact hcolon.space.word hname (by simp [isWordChar])

end

/-- What a type reads as, on its own and as an argument. -/
def ReadsAs (t : ElmType) : Prop :=
  Reads (TypePhrase · t.expr ·) t.text.toList ∧
    Reads (TypeAtom · t.expr ·) (parenthesized t.isApplied t.text).toList

/-- A type that needs no parentheses is an atom. -/
theorem readsAs_of_atom {t : ElmType} (hatom : Reads (TypeAtom · t.expr ·) t.text.toList)
    (happlied : t.isApplied = false) : t.ReadsAs := by
  refine ⟨?_, by rwa [happlied]⟩
  obtain ⟨ts, hlexes, hatom⟩ := hatom
  exact ⟨ts, hlexes, fun rest => .atom (hatom rest)⟩

/-- A name that is applied to a type needs parentheses as an argument. -/
theorem readsAs_of_application {t inner : ElmType} (name : String) (hname : isWord name = true)
    (htext : t.text.toList = name.toList ++ ' ' :: (parenthesized inner.isApplied inner.text).toList)
    (hexpr : t.expr = .named name [inner.expr]) (happlied : t.isApplied = true) (h : inner.ReadsAs) :
    t.ReadsAs := by
  have hphrase : Reads (TypePhrase · t.expr ·) t.text.toList := by
    rw [htext, hexpr]
    exact h.2.apply hname
  have hparens : (parenthesized true t.text).toList = '(' :: (t.text.toList ++ [')']) := by
    simp [parenthesized]
  refine ⟨hphrase, ?_⟩
  rw [happlied, hparens]
  exact hphrase.parens

-- by recursion on the type and its fields; an argument position asks for the second reading of `ReadsAs`
mutual

theorem readsAs : (t : ElmType) → t.isLegible = true → t.ReadsAs
  | int, _ | float, _ | bool, _ | string, _ => readsAs_of_atom (reads_name (by decide)) rfl
  | enum name, h => by
    rw [isLegible] at h
    exact readsAs_of_atom (reads_name (Naming.isName_capitalize h).1) rfl
  | union name variants, h => by
    rw [isLegible] at h
    exact readsAs_of_atom (reads_name h) rfl
  | maybe inner, h => by
    rw [isLegible] at h
    exact readsAs_of_application "Maybe" (by decide) (by simp [text]) (by rw [expr]) rfl
      (readsAs inner h)
  | list item, h => by
    rw [isLegible] at h
    exact readsAs_of_application "List" (by decide) (by simp [text]) (by rw [expr]) rfl
      (readsAs item h)
  | record [], _ => by
    have hbraces : TypeLexes ['{', '}'] [.openBrace, .closeBrace] :=
      (TypeLexes.nil.mark rfl).mark rfl
    exact readsAs_of_atom ⟨_, hbraces, fun _ => .emptyRecord⟩ rfl
  | record (field :: fields), h => by
    rw [isLegible] at h
    have htext : (record (field :: fields)).text.toList =
        '{' :: ' ' :: ((", ".intercalate (fieldTexts (field :: fields))).toList ++ [' ', '}']) := by
      obtain ⟨name, type⟩ := field
      simp [text, fieldTexts, braced]
    obtain ⟨ts, hlexes, hfields⟩ := readsFields (field :: fields) (by simp) h
    refine readsAs_of_atom ?_ rfl
    rw [htext]
    exact ⟨_, hlexes.space.mark rfl, fun rest => .record (hfields rest)⟩

theorem readsFields : (fields : List (String × ElmType)) → fields ≠ [] → areLegible fields = true →
    Reads (TypeFields · (fieldExprs fields) ·)
      ((", ".intercalate (fieldTexts fields)).toList ++ [' ', '}'])
  | [], hne, _ => absurd rfl hne
  | [(name, type)], _, h => by
    simp only [areLegible, Bool.and_eq_true] at h
    obtain ⟨ts, hlexes, hphrase⟩ := (readsAs type h.1.2).1
    have hclose : TypeLexes [' ', '}'] [.closeBrace] := (TypeLexes.nil.mark rfl).space
    have htext : (", ".intercalate (fieldTexts [(name, type)])).toList ++ [' ', '}'] =
        name.toList ++ ' ' :: ':' :: ' ' :: (type.text.toList ++ [' ', '}']) := by
      simp [fieldTexts]
    rw [htext]
    refine ⟨_, lexes_field h.1.1 hlexes (by simp [isWordChar]) hclose, fun rest => ?_⟩
    rw [List.cons_append, List.cons_append, List.append_assoc]
    exact .last (hphrase _)
  | (name, type) :: next :: fields, _, h => by
    rw [areLegible, Bool.and_eq_true, Bool.and_eq_true] at h
    obtain ⟨ts, hlexes, hphrase⟩ := (readsAs type h.1.2).1
    obtain ⟨us, hmore, hfields⟩ := readsFields (next :: fields) (by simp) h.2
    have hcomma : TypeLexes (',' :: ' ' :: ((", ".intercalate (fieldTexts (next :: fields))).toList ++
        [' ', '}'])) (.comma :: us) := hmore.space.mark rfl
    have htext : (", ".intercalate (fieldTexts ((name, type) :: next :: fields))).toList ++ [' ', '}'] =
        name.toList ++ ' ' :: ':' :: ' ' :: (type.text.toList ++
          ',' :: ' ' :: ((", ".intercalate (fieldTexts (next :: fields))).toList ++ [' ', '}'])) := by
      obtain ⟨other, inner⟩ := next
      simp [fieldTexts, String.intercalate_cons_cons]
    rw [htext]
    refine ⟨_, lexes_field h.1.1 hlexes (by simp [isWordChar]) hcomma, fun rest => ?_⟩
    rw [List.cons_append, List.cons_append, List.append_assoc, List.cons_append]
    exact .more (hphrase _) (hfields rest)

end

/-- The text of a type reads as the type. -/
theorem reads {t : ElmType} (h : t.isLegible = true) : ReadsType t.text t.expr := by
  obtain ⟨ts, hlexes, hphrase⟩ := (readsAs t h).1
  have htokens := hlexes [] breaks_nil
  have hphrase := hphrase []
  rw [List.append_nil] at htokens hphrase
  exact ⟨ts, by rw [htokens]; simp [typeTokens?], hphrase⟩

/-! ## Types that are written alike -/

/-- The name of a type that is a constant. -/
def constant? : ElmType → Option String
  | int => some "Int"
  | float => some "Float"
  | bool => some "Bool"
  | string => some "String"
  | enum name => some (enumName name)
  | union name _ => some name
  | _ => none

mutual

/-- Whether two types are built alike from constants of the same names. -/
inductive Alike : ElmType → ElmType → Prop
  | constant {s t : ElmType} {name : String} (hs : s.constant? = some name)
    (ht : t.constant? = some name) : Alike s t
  | maybe {s t : ElmType} (h : Alike s t) : Alike (.maybe s) (.maybe t)
  | list {s t : ElmType} (h : Alike s t) : Alike (.list s) (.list t)
  | record {fs gs : List (String × ElmType)} (h : FieldsAlike fs gs) : Alike (.record fs) (.record gs)

/-- Whether fields have the same names and types that are built alike. -/
inductive FieldsAlike : List (String × ElmType) → List (String × ElmType) → Prop
  | nil : FieldsAlike [] []
  | cons {name : String} {s t : ElmType} {fs gs : List (String × ElmType)} (h : Alike s t)
    (hmore : FieldsAlike fs gs) : FieldsAlike ((name, s) :: fs) ((name, t) :: gs)

end

/-- A constant is written by its name. -/
theorem of_constant? {t : ElmType} {name : String} (h : t.constant? = some name) :
    t.text = name ∧ t.isApplied = false ∧ t.expr = .named name [] := by
  cases t <;> cases h <;> simp [text, isApplied, expr]

mutual

/-- Types that are built alike have one text. -/
theorem Alike.text_eq {s t : ElmType} : Alike s t → s.text = t.text ∧ s.isApplied = t.isApplied
  | .constant hs ht => by
    obtain ⟨hs, hs', -⟩ := of_constant? hs
    obtain ⟨ht, ht', -⟩ := of_constant? ht
    exact ⟨hs.trans ht.symm, hs'.trans ht'.symm⟩
  | .maybe h => by
    obtain ⟨htext, happlied⟩ := h.text_eq
    exact ⟨by rw [text, text, htext, happlied], rfl⟩
  | .list h => by
    obtain ⟨htext, happlied⟩ := h.text_eq
    exact ⟨by rw [text, text, htext, happlied], rfl⟩
  | .record h => ⟨by rw [text, text, h.texts_eq], rfl⟩
termination_by structural h => h

theorem FieldsAlike.texts_eq {fs gs : List (String × ElmType)} :
    FieldsAlike fs gs → fieldTexts fs = fieldTexts gs
  | .nil => rfl
  | .cons h hmore => by rw [fieldTexts, fieldTexts, h.text_eq.1, hmore.texts_eq]
termination_by structural h => h

end

/-- What reads as a constant is one. -/
theorem constant?_of_expr_eq {t : ElmType} {name : String} (h : t.expr = .named name []) :
    t.constant? = some name := by
  cases t <;> simp_all [expr, constant?]

mutual

/-- Types that read alike are built alike. -/
theorem alike_of_expr_eq : (s t : ElmType) → s.expr = t.expr → Alike s t
  | int, _, h | float, _, h | bool, _, h | string, _, h | enum _, _, h | union _ _, _, h =>
    .constant rfl (constant?_of_expr_eq h.symm)
  | maybe s, t, h => by
    cases t with
    | maybe t => exact .maybe (alike_of_expr_eq s t (by simpa [expr] using h))
    | _ => simp [expr] at h
  | list s, t, h => by
    cases t with
    | list t => exact .list (alike_of_expr_eq s t (by simpa [expr] using h))
    | _ => simp [expr] at h
  | record fs, t, h => by
    cases t with
    | record gs => exact .record (fieldsAlike_of_expr_eq fs gs (by simpa [expr] using h))
    | _ => simp [expr] at h

theorem fieldsAlike_of_expr_eq : (fs gs : List (String × ElmType)) → fieldExprs fs = fieldExprs gs →
    FieldsAlike fs gs
  | [], [], _ => .nil
  | [], (_, _) :: _, h | (_, _) :: _, [], h => by simp [fieldExprs] at h
  | (name, s) :: fs, (other, t) :: gs, h => by
    rw [fieldExprs, fieldExprs, List.cons.injEq, Prod.mk.injEq] at h
    obtain ⟨⟨rfl, htype⟩, hmore⟩ := h
    exact .cons (alike_of_expr_eq s t htype) (fieldsAlike_of_expr_eq fs gs hmore)

end

/-- The text of a type whose names are words reads as the type and in no other way, with enums and unions as
constants under their names. So another such type has this text exactly if it is built alike from constants
of the same names. -/
theorem text_unambiguous {t : ElmType} (h : t.isLegible = true) :
    (∀ e, ReadsType t.text e ↔ e = t.expr) ∧
      ∀ u : ElmType, u.isLegible = true → (u.text = t.text ↔ Alike u t) := by
  have hreads : ReadsType t.text t.expr := reads h
  refine ⟨fun e => ⟨fun he => he.unique hreads, ?_⟩, fun u hu => ⟨?_, fun halike => halike.text_eq.1⟩⟩
  · rintro rfl
    exact hreads
  · intro htext
    have hother : ReadsType t.text u.expr := htext ▸ reads hu
    exact alike_of_expr_eq u t (hother.unique hreads)

/-- Where a union is written, an enum of that name would be written in the same way. -/
theorem text_unambiguous_shape :
    (∀ e, ReadsType "List (Maybe \x7b s : Shape, ids : List Int \x7d)" e ↔
      e = .named "List" [.named "Maybe"
        [.record [("s", .named "Shape" []), ("ids", .named "List" [.named "Int" []])]]]) ∧
    Alike (.list (.maybe (.record [("s", .enum "shape"), ("ids", .list .int)])))
      (.list (.maybe (.record [("s", .union "Shape" []), ("ids", .list .int)]))) := by
  obtain ⟨hreads, hsame⟩ := text_unambiguous
    (t := .list (.maybe (.record [("s", .union "Shape" []), ("ids", .list .int)]))) (by decide)
  exact ⟨hreads, (hsame _ (by decide)).mp (by rfl)⟩

end ElmType

end ElmBindings
