import ElmBindings.Proofs.DecoderReading

set_option autoImplicit false

/-! # Names that a text binds

The names of a decoder or an encoder are chosen in a tree, and the tree is laid out as text afterwards. The
layout adds no name and loses none. For decoders this is said of the reading of the text: the one expression
that the text can be read as binds the names of the tree (`Decoder.Plain.binders_text`). Encoders and objects
have lambdas of one parameter, so there the names are those that follow the backslashes
(`Encoder.Plain.lambdaNames_text`, `Encoder.lambdaNames_objectText`). -/

namespace ElmBindings

open Elm

/-! ## Decoders -/

namespace Elm.Expr

mutual

/-- The names that the lambdas of an expression bind, in the order of the text. -/
def binders : Expr → List String
  | lambda parameters body => parameters ++ body.binders
  | apply function argument => function.binders ++ argument.binders
  | pipe value function => value.binders ++ function.binders
  | choose _ cases otherwise => caseBinders cases ++ otherwise.binders
  | _ => []

/-- The names that are bound in the cases of a choice. -/
def caseBinders : List (String × Expr) → List String
  | [] => []
  | (_, e) :: cases => e.binders ++ caseBinders cases

end

end Elm.Expr

/-- The parameters of a function that `map` applies. -/
def Builder.binders : Builder → List String
  | label _ => []
  | record fields => fields.map Prod.snd
  | variant _ fields => fields.map Prod.snd

namespace DecoderCode

mutual

/-- The local names in a tree, in the order of the text. -/
def binders : DecoderCode → List String
  | name _ => []
  | field _ value => value.binders
  | maybe inner => inner.binders
  | list item => item.binders
  | map build values => build.binders ++ valueBinders values
  | dispatch subject cases => subject :: caseBinders cases
  | succeed _ => []

/-- The local names in the decoders of a record. -/
def valueBinders : List DecoderCode → List String
  | [] => []
  | value :: values => value.binders ++ valueBinders values

/-- The local names in the cases of a dispatch. -/
def caseBinders : List (String × DecoderCode) → List String
  | [] => []
  | (_, value) :: cases => value.binders ++ caseBinders cases

end

theorem binders_builder (build : Builder) : build.expr.binders = build.binders := by
  cases build <;> simp [Builder.expr, Expr.binders, Builder.binders]

mutual

theorem binders_expr : ∀ code : DecoderCode, code.expr.binders = code.binders
  | name _ => by simp [expr, Expr.binders, binders]
  | field _ value => by simp [expr, Expr.binders, binders, binders_expr value]
  | maybe inner => by simp [expr, Expr.binders, binders, binders_expr inner]
  | list item => by simp [expr, Expr.binders, binders, binders_expr item]
  | map build [] => by simp [expr, Expr.binders, binders, binders_builder, valueBinders]
  | map build (value :: values) => by
    rw [expr, binders_pipes]
    simp [Expr.binders, binders, binders_builder, binders_expr value, valueBinders]
  | dispatch subject cases => by simp [expr, Expr.binders, binders, binders_caseExprs cases]
  | succeed none => by simp [expr, Expr.binders, binders]
  | succeed (some _) => by simp [expr, Expr.binders, binders]

theorem binders_pipes (e : Expr) :
    ∀ values : List DecoderCode, (pipes e values).binders = e.binders ++ valueBinders values
  | [] => by simp [pipes, valueBinders]
  | value :: values => by
    rw [pipes, binders_pipes _ values]
    simp [Expr.binders, binders_expr value, valueBinders]

theorem binders_caseExprs :
    ∀ cases : List (String × DecoderCode), Expr.caseBinders (caseExprs cases) = caseBinders cases
  | [] => by simp [caseExprs, Expr.caseBinders, caseBinders]
  | (_, value) :: cases => by
    simp [caseExprs, Expr.caseBinders, caseBinders, binders_expr value, binders_caseExprs cases]

end

end DecoderCode

/-- The text of a plain decoder binds the local names of a tree that was chosen for the decoder, and no other
names: so does every expression that the text can be read as, and there is one. -/
theorem Decoder.Plain.binders_text {decoder : Decoder} (h : decoder.Plain) (scope : Scope)
    {indent context column : Nat} (hindent : context ≤ indent) (hcolumn : context < column) :
    ∃ code tokens, decoder.Named scope code ∧ decoder.text scope indent = code.text indent ∧
      Elm.tokens? column (decoder.text scope indent).toList = some tokens ∧
      (∃ e, Phrase context tokens e []) ∧
      ∀ e, Phrase context tokens e [] → e.binders = code.binders := by
  obtain ⟨code, tokens, hnamed, htext, htokens, hphrase, hunique⟩ := h.read_code scope hindent hcolumn
  refine ⟨code, tokens, hnamed, htext, htokens, ⟨code.expr, hphrase⟩, fun e he => ?_⟩
  rw [hunique e he, code.binders_expr]

/-! ## Lambdas in a text -/

namespace Elm

/-- The words that follow the backslashes of a text. -/
def lambdaNames : List Char → List String
  | [] => []
  | c :: cs =>
    if c = '\\' then String.ofList (cs.takeWhile isWordChar) :: lambdaNames cs else lambdaNames cs

theorem takeWhile_append_of_breaks (cs : List Char) {ds : List Char} (h : Breaks ds) :
    (cs ++ ds).takeWhile isWordChar = cs.takeWhile isWordChar := by
  induction cs with
  | nil =>
    cases ds with
    | nil => rfl
    | cons d ds => simp [breaks_cons.mp h]
  | cons c cs ih => simp [List.takeWhile_cons, ih]

/-- A text that starts with no word character has its lambdas apart from those before it. -/
theorem lambdaNames_append (cs : List Char) {ds : List Char} (h : Breaks ds) :
    lambdaNames (cs ++ ds) = lambdaNames cs ++ lambdaNames ds := by
  induction cs with
  | nil => rfl
  | cons c cs ih =>
    rw [List.cons_append, lambdaNames, lambdaNames, takeWhile_append_of_breaks cs h, ih]
    split <;> rfl

theorem lambdaNames_append_of_not_mem {cs : List Char} (h : '\\' ∉ cs) (ds : List Char) :
    lambdaNames (cs ++ ds) = lambdaNames ds := by
  induction cs with
  | nil => rfl
  | cons c cs ih =>
    rw [List.mem_cons, not_or] at h
    rw [List.cons_append, lambdaNames, if_neg (Ne.symm h.1), ih h.2]

theorem lambdaNames_of_not_mem {cs : List Char} (h : '\\' ∉ cs) : lambdaNames cs = [] := by
  simpa [lambdaNames] using lambdaNames_append_of_not_mem h []

theorem not_mem_of_isWord {word : String} (h : isWord word = true) : '\\' ∉ word.toList := by
  rw [isWord, Bool.and_eq_true, List.all_eq_true] at h
  intro hmem
  cases h.2 _ hmem

theorem lambdaNames_lambda {name : String} (hname : isWord name = true) {cs : List Char}
    (hcs : Breaks cs) : lambdaNames ('\\' :: (name.toList ++ cs)) = name :: lambdaNames cs := by
  rw [lambdaNames, if_pos rfl, takeWhile_isWordChar hname hcs, String.ofList_toList,
    lambdaNames_append_of_not_mem (not_mem_of_isWord hname)]

/-- What stands around a text adds no lambdas if it has no backslash. -/
theorem lambdaNames_enclosed {before after : String} (text : String) (hbefore : '\\' ∉ before.toList)
    (hafter : '\\' ∉ after.toList) (hbreaks : Breaks after.toList) :
    lambdaNames (before ++ text ++ after).toList = lambdaNames text.toList := by
  rw [String.toList_append, String.toList_append, lambdaNames_append _ hbreaks,
    lambdaNames_append_of_not_mem hbefore, lambdaNames_of_not_mem hafter, List.append_nil]

theorem lambdaNames_intercalate (texts : List String) :
    lambdaNames (", ".intercalate texts).toList = texts.flatMap fun text => lambdaNames text.toList := by
  induction texts with
  | nil => rfl
  | cons first texts ih =>
    cases texts with
    | nil => simp
    | cons next texts =>
      have hcomma : Breaks (", ".toList ++ (", ".intercalate (next :: texts)).toList) :=
        breaks_cons.mpr (by decide)
      rw [String.intercalate_cons_cons, String.append_assoc, String.toList_append,
        String.toList_append, lambdaNames_append _ hcomma, lambdaNames_append_of_not_mem (by decide), ih]
      rfl

end Elm

/-! ## Encoders -/

namespace EncoderCode

mutual

/-- The local names in a tree, in the order of the text. -/
def binders : EncoderCode → List String
  | name _ => []
  | maybe inner => inner.binders
  | list item => item.binders
  | lambda parameter entries => parameter :: entryBinders entries

/-- The local names in the entries of an object. -/
def entryBinders : List (ObjectEntry EncoderCode) → List String
  | [] => []
  | ⟨_, _, value⟩ :: entries => value.binders ++ entryBinders entries

end

theorem text_name (name : String) : (EncoderCode.name name).text = name := rfl

theorem text_maybe (inner : EncoderCode) : (maybe inner).text =
    "(Maybe.map " ++ inner.text ++ " >> Maybe.withDefault Json.Encode.null)" := rfl

theorem text_list (item : EncoderCode) :
    (list item).text = "(Json.Encode.list " ++ item.text ++ ")" := rfl

theorem text_lambda (parameter : String) (entries : List (ObjectEntry EncoderCode)) :
    (lambda parameter entries).text =
      "(\\" ++ parameter ++ " -> " ++ objectCall (entryTexts parameter entries) ++ ")" := rfl

theorem entryTexts_cons (record key field : String) (value : EncoderCode)
    (entries : List (ObjectEntry EncoderCode)) :
    entryTexts record (⟨key, field, value⟩ :: entries) =
      ("( \"" ++ key ++ "\", " ++ value.text ++ " " ++ record ++ "." ++ field ++ " )")
        :: entryTexts record entries := rfl

end EncoderCode

namespace Encoder

mutual

/-- Whether no name in an encoder has a backslash. -/
def Plain : Encoder → Prop
  | enum name => '\\' ∉ (enumName name).toList
  | maybe inner => inner.Plain
  | list item => item.Plain
  | object entries => PlainEntries entries
  | _ => True

/-- Whether no name in the entries of an object has a backslash. -/
def PlainEntries : List (ObjectEntry Encoder) → Prop
  | [] => True
  | ⟨key, field, value⟩ :: entries =>
    '\\' ∉ key.toList ∧ '\\' ∉ field.toList ∧ value.Plain ∧ PlainEntries entries

end

theorem lambdaNames_objectCall (texts : List String) :
    lambdaNames (objectCall texts).toList = texts.flatMap fun text => lambdaNames text.toList := by
  cases texts with
  | nil => exact lambdaNames_of_not_mem (by decide)
  | cons text texts =>
    have hclose : Breaks " ]".toList := breaks_cons.mpr (by decide)
    rw [objectCall, lambdaNames_enclosed _ (by decide) (by decide) hclose, lambdaNames_intercalate]
    simp

/-- An entry has the lambdas of its value. -/
theorem lambdaNames_entry {key field record : String} (hkey : '\\' ∉ key.toList)
    (hfield : '\\' ∉ field.toList) (hrecord : '\\' ∉ record.toList) (value : String) :
    lambdaNames ("( \"" ++ key ++ "\", " ++ value ++ " " ++ record ++ "." ++ field ++ " )").toList =
      lambdaNames value.toList := by
  have hsplit : "( \"" ++ key ++ "\", " ++ value ++ " " ++ record ++ "." ++ field ++ " )" =
      ("( \"" ++ key ++ "\", ") ++ value ++ (" " ++ record ++ "." ++ field ++ " )") := by
    simp [String.append_assoc]
  rw [hsplit]
  refine lambdaNames_enclosed value ?_ ?_ ?_
  · simpa using hkey
  · simpa using ⟨hrecord, hfield⟩
  · simp only [String.append_assoc, String.toList_append]
    exact breaks_cons.mpr (by decide)

/-- A lambda binds its parameter, and what its entries bind. -/
theorem lambdaNames_lambdaText {parameter : String} (hparameter : isWord parameter = true)
    (body : String) :
    lambdaNames ("(\\" ++ parameter ++ " -> " ++ body ++ ")").toList =
      parameter :: lambdaNames body.toList := by
  have harrow : Breaks (" -> " ++ body ++ ")").toList := by
    simp only [String.append_assoc, String.toList_append]
    exact breaks_cons.mpr (by decide)
  have hsplit : ("(\\" ++ parameter ++ " -> " ++ body ++ ")").toList =
      ['('] ++ '\\' :: (parameter.toList ++ (" -> " ++ body ++ ")").toList) := by
    simp
  have hclose : Breaks ")".toList := breaks_cons.mpr (by decide)
  rw [hsplit, lambdaNames_append_of_not_mem (by decide), lambdaNames_lambda hparameter harrow,
    lambdaNames_enclosed _ (by decide) (by decide) hclose]

theorem lambdaNames_name {name : String} (h : '\\' ∉ name.toList) :
    lambdaNames (EncoderCode.name name).text.toList = (EncoderCode.name name).binders := by
  rw [EncoderCode.text_name, EncoderCode.binders, lambdaNames_of_not_mem h]

mutual

/-- The text of a tree binds the names of the tree. -/
theorem Named.lambdaNames_text {scope : Scope} : ∀ {encoder : Encoder} {code : EncoderCode},
    encoder.Named scope code → encoder.Plain → lambdaNames code.text.toList = code.binders
  | .int, _, .int, _ => lambdaNames_name (by decide)
  | .float, _, .float, _ => lambdaNames_name (by decide)
  | .bool, _, .bool, _ => lambdaNames_name (by decide)
  | .string, _, .string, _ => lambdaNames_name (by decide)
  | .enum name, _, .enum _, h => lambdaNames_name (by rwa [Plain] at h)
  | .maybe inner, _, .maybe hinner, h => by
    rw [Plain] at h
    rw [EncoderCode.text_maybe, EncoderCode.binders, ← hinner.lambdaNames_text h]
    exact lambdaNames_enclosed _ (by decide) (by decide) (breaks_cons.mpr (by decide))
  | .list item, _, .list hitem, h => by
    rw [Plain] at h
    rw [EncoderCode.text_list, EncoderCode.binders, ← hitem.lambdaNames_text h]
    exact lambdaNames_enclosed _ (by decide) (by decide) (breaks_cons.mpr (by decide))
  | .object entries, _, .object hparameter hentries, h => by
    rw [Plain] at h
    obtain ⟨n, rfl⟩ := hparameter.numbered
    have hinput : IsName "input" := by decide
    have hword := (hinput.candidate n).1
    rw [EncoderCode.text_lambda, EncoderCode.binders, lambdaNames_lambdaText hword, lambdaNames_objectCall,
      hentries.lambdaNames_texts (not_mem_of_isWord hword) h]

theorem NamedEntries.lambdaNames_texts {scope : Scope} {record : String}
    (hrecord : '\\' ∉ record.toList) :
    ∀ {entries : List (ObjectEntry Encoder)} {codes : List (ObjectEntry EncoderCode)},
      NamedEntries scope entries codes → PlainEntries entries →
        ((EncoderCode.entryTexts record codes).flatMap fun text => lambdaNames text.toList) =
          EncoderCode.entryBinders codes
  | [], _, .nil, _ => rfl
  | ⟨key, field, value⟩ :: entries, _, .cons hvalue hentries, h => by
    rw [PlainEntries] at h
    obtain ⟨hkey, hfield, hplain, hrest⟩ := h
    rw [EncoderCode.entryTexts_cons, EncoderCode.entryBinders, List.flatMap_cons,
      lambdaNames_entry hkey hfield hrecord, hvalue.lambdaNames_text hplain,
      hentries.lambdaNames_texts hrecord hrest]

end

/-- The text of an encoder binds the local names of a tree that was chosen for it, and no other names. -/
theorem Plain.lambdaNames_text {encoder : Encoder} (h : encoder.Plain) (scope : Scope) :
    ∃ code, encoder.Named scope code ∧ encoder.text scope = code.text ∧
      lambdaNames (encoder.text scope).toList = code.binders := by
  have hnamed := (encoder.writes_code scope).output
  exact ⟨_, hnamed, rfl, hnamed.lambdaNames_text h⟩

/-- The text of an object that is made from a record binds the local names of its entries. -/
theorem lambdaNames_objectText {entries : List (ObjectEntry Encoder)} (h : PlainEntries entries)
    {record : String} (hrecord : '\\' ∉ record.toList) (scope : Scope) :
    ∃ codes, NamedEntries scope entries codes ∧
      objectText entries record scope = objectCall (EncoderCode.entryTexts record codes) ∧
      lambdaNames (objectText entries record scope).toList = EncoderCode.entryBinders codes := by
  have hnamed := (writes_entryCodes scope entries).output
  refine ⟨_, hnamed, rfl, ?_⟩
  rw [← hnamed.lambdaNames_texts hrecord h]
  exact lambdaNames_objectCall _

end Encoder

end ElmBindings
