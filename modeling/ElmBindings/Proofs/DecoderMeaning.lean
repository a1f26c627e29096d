import ElmBindings.Proofs.DecoderText
import ElmBindings.Proofs.Hygiene
import ElmBindings.Proofs.Numerals

set_option autoImplicit false

/-! # What expressions mean

An expression of a generated module stands for a decoder, or for a function that waits for the
decoders of its arguments; `Expr.decoder?` reads that off. A text does not show all of a decoder:
`Decoder.shown` is what is left. `Decoder.Named.decoder?` says that an expression with fresh local
names stands for the decoder that it was chosen for, as far as a text shows it. -/

namespace ElmBindings

/-- The leaf decoder of a name. The text does not say which enum a decoder is for. -/
def Primitive.ofText : String → Primitive
  | "int" => .int
  | "float" => .float
  | "bool" => .bool
  | "string" => .string
  | text => .enum "" text

namespace Elm

/-- What an expression among decoders stands for: a decoder, or a function with the decoders of its first
arguments, which waits for more of them. -/
inductive Meaning
  | decoder (decoder : Decoder)
  | waiting (build : Expr) (values : List Decoder)

/-- The record fields that the parameters of a lambda end up in, in the order of the parameters. -/
def fieldsOf? (parameters : List String) (fields : List (String × String)) : Option (List String) :=
  if parameters.Nodup ∧ fields.length = parameters.length then
    parameters.mapM fun parameter => (fields.find? fun f => f.2 == parameter).map Prod.fst
  else none

namespace Expr

/-- What a function of `count` arguments builds. -/
def constructor? (count : Nat) : Expr → Option Constructor
  | name label => some (.record (some label) (List.replicate count ""))
  | lambda parameters (record fields) =>
    if parameters.length = count then (fieldsOf? parameters fields).map (.record none) else none
  | lambda parameters (apply (name tag) (record fields)) =>
    if parameters.length = count then (fieldsOf? parameters fields).map (.variant tag) else none
  | _ => none

/-- What an expression without fields builds. -/
def empty? : Expr → Option Constructor
  | record [] => some (.record none [])
  | apply (name tag) (record []) => some (.variant tag [])
  | _ => none

end Expr

/-- The decoder that an expression stands for. A function that waits for arguments is applied to all of
those that it has. -/
def Meaning.decoder? : Meaning → Option Decoder
  | decoder d => some d
  | waiting build values => (build.constructor? values.length).map (.map · values)

@[simp]
theorem Meaning.decoder?_decoder (d : Decoder) : (decoder d).decoder? = some d := rfl

namespace Expr

mutual

/-- What an expression stands for. The functions of decoders are meant only where no local variable hides
them. -/
def meaning? (locals : List String) : Expr → Option Meaning
  | name text => if text ∈ locals then none else some (.decoder (.primitive (.ofText text)))
  | apply (name f) x =>
    if f ∈ locals then none
    else
      match f with
      | "maybe" => do return .decoder (.maybe (← (← x.meaning? locals).decoder?))
      | "list" => do return .decoder (.list (← (← x.meaning? locals).decoder?))
      | "succeed" => do return .decoder (.succeed (← x.empty?))
      | _ => none
  | apply (apply (name f) x) y =>
    if f ∈ locals then none
    else
      match f, x with
      | "field", string key => do return .decoder (.field key (← (← y.meaning? locals).decoder?))
      | "map", build => do return .waiting build [← (← y.meaning? locals).decoder?]
      | _, _ => none
  | pipe m (apply (name f) x) =>
    if f ∈ locals then none
    else
      match f, x with
      | "apply", x => do
        match ← m.meaning? locals with
        | .waiting build values => return .waiting build (values ++ [← (← x.meaning? locals).decoder?])
        | .decoder _ => none
      | "andThen", lambda [subject] (choose chosen cases (apply (name "fail") (string _))) => do
        match ← m.meaning? locals with
        | .decoder (.field "__typename" (.primitive .string)) =>
          if chosen = subject ∧ "fail" ∉ subject :: locals then
            return .decoder (.dispatch (← caseDecoders? (subject :: locals) cases))
          else none
        | _ => none
      | _, _ => none
  | _ => none

/-- The decoders of the cases of a choice. -/
def caseDecoders? (locals : List String) : List (String × Expr) → Option (List (String × Decoder))
  | [] => some []
  | (type, e) :: cases => do
    return (type, ← (← e.meaning? locals).decoder?) :: (← caseDecoders? locals cases)

end

/-- The decoder that an expression stands for. -/
def decoder? (locals : List String) (e : Expr) : Option Decoder :=
  (e.meaning? locals).bind Meaning.decoder?

end Expr

end Elm

/-! ## What a text shows of a decoder -/

/-- A leaf decoder without the GraphQL name of its enum. -/
def Primitive.shown : Primitive → Primitive
  | enum _ decoder => enum "" decoder
  | leaf => leaf

/-- A constructor without the names of the fields behind an alias. -/
def Constructor.shown : Constructor → Constructor
  | record (some label) fields => record (some label) (List.replicate fields.length "")
  | build => build

namespace Decoder

mutual

/-- A decoder without what its text leaves out. -/
def shown : Decoder → Decoder
  | primitive leaf => primitive leaf.shown
  | field key value => field key value.shown
  | maybe inner => maybe inner.shown
  | list item => list item.shown
  | map build values => map build.shown (shownAll values)
  | dispatch cases => dispatch (shownCases cases)
  | succeed build => succeed build

/-- The decoders of a record without what their text leaves out. -/
def shownAll : List Decoder → List Decoder
  | [] => []
  | value :: values => value.shown :: shownAll values

/-- The cases of a dispatch without what their text leaves out. -/
def shownCases : List (String × Decoder) → List (String × Decoder)
  | [] => []
  | (type, value) :: cases => (type, value.shown) :: shownCases cases

end

@[simp]
theorem length_shownAll (values : List Decoder) : (shownAll values).length = values.length := by
  induction values with
  | nil => rfl
  | cons value values ih => rw [shownAll, List.length_cons, List.length_cons, ih]

end Decoder

/-! ## Decoders with plain names -/

open Elm

/-- Whether the name of a leaf decoder is one that modules declare. -/
def Primitive.Plain : Primitive → Prop
  | enum _ decoder => IsName decoder ∧ ∃ base, decoder = base ++ "Decoder"
  | _ => True

/-- Whether the names of a constructor are names. -/
def Constructor.Plain : Constructor → Prop
  | record label fields => (∀ name ∈ label, IsName name) ∧ ∀ field ∈ fields, IsName field
  | variant tag fields => IsName tag ∧ ∀ field ∈ fields, IsName field

/-- Whether a constructor without fields is one that a text shows. -/
def Constructor.PlainEmpty : Constructor → Prop
  | record label fields => label = none ∧ fields = []
  | variant tag fields => IsName tag ∧ fields = []

namespace Decoder

mutual

/-- Whether all names in a decoder are plain, and its constructors have one value for each field. -/
def Plain : Decoder → Prop
  | primitive leaf => leaf.Plain
  | field key value => isWord key = true ∧ value.Plain
  | maybe inner => inner.Plain
  | list item => item.Plain
  | map build values =>
    build.Plain ∧ values ≠ [] ∧ build.fields.length = values.length ∧ PlainAll values
  | dispatch cases => PlainCases cases
  | succeed build => build.PlainEmpty

/-- Whether all names in the decoders of a record are plain. -/
def PlainAll : List Decoder → Prop
  | [] => True
  | value :: values => value.Plain ∧ PlainAll values

/-- Whether all names in the cases of a dispatch are plain. -/
def PlainCases : List (String × Decoder) → Prop
  | [] => True
  | (type, value) :: cases => isWord type = true ∧ value.Plain ∧ PlainCases cases

end

end Decoder

/-! ### Numbered names -/

namespace Elm

theorem isWordChar_of_isDigit {c : Char} (h : c.isDigit = true) : isWordChar c = true := by
  simp [isWordChar, Char.isAlphanum, h]

theorem isWord_append {s t : String} (hs : isWord s = true) (ht : t.toList.all isWordChar = true) :
    isWord (s ++ t) = true := by
  simp only [isWord, Bool.and_eq_true, String.toList_append, List.all_append] at hs ⊢
  refine ⟨?_, hs.2, ht⟩
  have hne : s ≠ "" := by
    rintro rfl
    simp at hs
  simpa using fun h => absurd h hne

theorem isLower_of_mem_reservedWords :
    ∀ word ∈ Naming.reservedWords, ∀ c ∈ word.toList, c.isLower = true := by
  have hall : (Naming.reservedWords.all fun word => word.toList.all Char.isLower) = true := by
    decide +kernel
  intro word hword c hc
  exact List.all_eq_true.mp (List.all_eq_true.mp hall word hword) c hc

theorem not_reserved {s : String} {c : Char} (hmem : c ∈ s.toList) (hc : c.isLower = false) :
    s ∉ Naming.reservedWords := by
  intro hreserved
  rw [isLower_of_mem_reservedWords s hreserved c hmem] at hc
  cases hc

theorem not_isLower_of_isDigit {c : Char} (h : c.isDigit = true) : c.isLower = false := by
  simp only [Char.isDigit, Char.isLower, Bool.and_eq_true, decide_eq_true_eq, Bool.and_eq_false_iff,
    decide_eq_false_iff_not] at h ⊢
  exact .inl fun hle => by
    have := UInt32.le_trans hle h.2
    exact absurd this (by decide)

theorem toList_candidate_succ (base : String) (n : Nat) :
    (Scope.candidate base (n + 1)).toList = base.toList ++ Nat.toDigits 10 (n + 1) := by
  simp [Scope.candidate]

theorem IsName.candidate {base : String} (h : IsName base) (n : Nat) :
    IsName (Scope.candidate base n) := by
  cases n with
  | zero => exact h
  | succ n =>
    obtain ⟨digit, hdigit⟩ := List.exists_mem_of_ne_nil _ (Nat.toDigits_ne_nil (n := n + 1) (b := 10))
    have hlower := not_isLower_of_isDigit (GraphQL.isDigit_of_mem_toDigits hdigit)
    refine ⟨isWord_append h.1 ?_, not_reserved ?_ hlower⟩
    · rw [Nat.toString_eq_repr, Nat.toList_repr, List.all_eq_true]
      exact fun c hc => isWordChar_of_isDigit (GraphQL.isDigit_of_mem_toDigits hc)
    · rw [toList_candidate_succ]
      exact List.mem_append_right _ hdigit

/-- The names of the subjects of dispatches. -/
def IsSubject (name : String) : Prop := ∃ n, name = Scope.candidate "typename" n

theorem IsSubject.isPrefix {name : String} (h : IsSubject name) :
    "typename".toList <+: name.toList := by
  obtain ⟨n, rfl⟩ := h
  cases n with
  | zero => exact List.prefix_refl _
  | succ n =>
    rw [toList_candidate_succ]
    exact List.prefix_append _ _

theorem IsSubject.isLower_or_isDigit {name : String} (h : IsSubject name) :
    ∀ c ∈ name.toList, c.isLower = true ∨ c.isDigit = true := by
  have hbase : ∀ c ∈ "typename".toList, c.isLower = true := by simp [Char.isLower]
  obtain ⟨n, rfl⟩ := h
  intro c hc
  cases n with
  | zero => exact .inl (hbase c hc)
  | succ n =>
    rw [toList_candidate_succ] at hc
    rcases List.mem_append.mp hc with hc | hc
    · exact .inl (hbase c hc)
    · exact .inr (GraphQL.isDigit_of_mem_toDigits hc)

theorem not_mem_locals {locals : List String} (hlocals : ∀ name ∈ locals, IsSubject name)
    {name : String} (hname : ¬ "typename".toList <+: name.toList) : name ∉ locals :=
  fun hmem => hname (hlocals name hmem).isPrefix

end Elm

/-! ## Trees with local names can be read -/

namespace Primitive

variable {leaf : Primitive}

theorem Plain.isName (h : leaf.Plain) : IsName leaf.text := by
  cases leaf with
  | enum name decoder => exact h.1
  | _ => decide

/-- The name of the decoder of an enum has a capital in it. -/
theorem Plain.capital {name decoder : String} (h : (enum name decoder).Plain) :
    'D' ∈ decoder.toList := by
  obtain ⟨-, base, rfl⟩ := h
  simp

theorem Plain.ofText (h : leaf.Plain) : ofText leaf.text = leaf.shown := by
  cases leaf with
  | enum name decoder =>
    have hcapital := h.capital
    rw [text, Primitive.ofText]
    · rfl
    all_goals
      rintro rfl
      simp at hcapital
  | _ => rfl

theorem Plain.not_mem_locals (h : leaf.Plain) {locals : List String}
    (hlocals : ∀ name ∈ locals, IsSubject name) : leaf.text ∉ locals := by
  cases leaf with
  | enum name decoder =>
    intro hmem
    rcases (hlocals _ hmem).isLower_or_isDigit 'D' h.capital with hc | hc <;> cases hc
  | _ => exact Elm.not_mem_locals hlocals (by decide)

end Primitive

namespace Scope

variable {scope : Scope}

theorem Suits.isName {base name : String} (h : scope.Suits base name) (hbase : IsName base) :
    IsName name := by
  obtain ⟨n, rfl⟩ := h.numbered
  exact hbase.candidate n

theorem Suits.forall_isSubject {subject : String} {locals : List String}
    (h : scope.Suits "typename" subject) (hlocals : ∀ name ∈ locals, IsSubject name) :
    ∀ name ∈ subject :: locals, IsSubject name :=
  List.forall_mem_cons.mpr ⟨h.numbered, hlocals⟩

theorem SuitsAll.length_eq {bases names : List String} (h : scope.SuitsAll bases names) :
    names.length = bases.length :=
  h.numbered.length_eq.symm

theorem SuitsAll.isName {bases names : List String} (h : scope.SuitsAll bases names)
    (hbases : ∀ base ∈ bases, IsName base) : ∀ pair ∈ bases.zip names, IsName pair.1 ∧ IsName pair.2 := by
  intro pair hpair
  obtain ⟨n, hn⟩ := List.forall₂_iff_zip.mp h.numbered |>.2 hpair
  have hbase := hbases _ (List.of_mem_zip hpair).1
  rw [hn]
  exact ⟨hbase, hbase.candidate n⟩

end Scope

theorem Constructor.Named.readable {scope : Scope} {build : Constructor} {builder : Builder}
    (h : build.Named scope builder) (hplain : build.Plain) (hne : build.fields ≠ []) :
    builder.Readable := by
  have hzip {names : List String} (hnames : scope.SuitsAll build.fields names) :
      build.fields.zip names ≠ [] := by
    have := hnames.length_eq
    cases hfields : build.fields with
    | nil => exact absurd hfields hne
    | cons field fields =>
      cases names with
      | nil => simp [hfields] at this
      | cons name names => simp
  cases h with
  | label label fields => exact hplain.1 label rfl
  | record hnames => exact ⟨hzip hnames, hnames.isName hplain.2⟩
  | variant hnames => exact ⟨hplain.1, hzip hnames, hnames.isName hplain.2⟩

namespace Decoder

theorem Plain.fields_ne {build : Constructor} {values : List Decoder} (h : (map build values).Plain) :
    build.fields ≠ [] := by
  rw [Plain] at h
  obtain ⟨-, hne, hlength, -⟩ := h
  intro hnil
  rw [hnil] at hlength
  exact hne (List.length_eq_zero_iff.mp hlength.symm)

mutual

theorem Named.readable {scope : Scope} {decoder : Decoder} {code : DecoderCode} :
    decoder.Named scope code → decoder.Plain → code.Readable
  | .primitive leaf, hplain => by
    rw [Plain] at hplain
    rw [DecoderCode.Readable]
    exact hplain.isName
  | .field hvalue, hplain => by
    rw [Plain] at hplain
    rw [DecoderCode.Readable]
    exact ⟨hplain.1, hvalue.readable hplain.2⟩
  | .maybe hinner, hplain => by
    rw [Plain] at hplain
    rw [DecoderCode.Readable]
    exact hinner.readable hplain
  | .list hitem, hplain => by
    rw [Plain] at hplain
    rw [DecoderCode.Readable]
    exact hitem.readable hplain
  | .map hbuild hvalues, hplain => by
    have hne := hplain.fields_ne
    rw [Plain] at hplain
    rw [DecoderCode.Readable]
    exact ⟨hbuild.readable hplain.1 hne, hvalues.readable hplain.2.2.2⟩
  | .dispatch hsubject hcases, hplain => by
    rw [Plain] at hplain
    rw [DecoderCode.Readable]
    exact ⟨hsubject.isName (by decide), hcases.readable hplain⟩
  | .succeed build, hplain => by
    rw [Plain] at hplain
    rw [DecoderCode.Readable]
    cases build with
    | record label fields => simp [Constructor.tag?]
    | variant tag fields => simpa [Constructor.tag?] using hplain.1
termination_by structural h => h

theorem NamedAll.readable {scope : Scope} {values : List Decoder} {codes : List DecoderCode} :
    NamedAll scope values codes → PlainAll values → DecoderCode.ReadableAll codes
  | .nil, _ => by
    rw [DecoderCode.ReadableAll]
    trivial
  | .cons hvalue hvalues, hplain => by
    rw [PlainAll] at hplain
    rw [DecoderCode.ReadableAll]
    exact ⟨hvalue.readable hplain.1, hvalues.readable hplain.2⟩
termination_by structural h => h

theorem NamedCases.readable {scope : Scope} {cases : List (String × Decoder)}
    {codes : List (String × DecoderCode)} :
    NamedCases scope cases codes → PlainCases cases → DecoderCode.ReadableCases codes
  | .nil, _ => by
    rw [DecoderCode.ReadableCases]
    trivial
  | .cons hvalue hcases, hplain => by
    rw [PlainCases] at hplain
    rw [DecoderCode.ReadableCases]
    exact ⟨hplain.1, hvalue.readable hplain.2.1, hcases.readable hplain.2.2⟩
termination_by structural h => h

end

end Decoder

/-! ## Trees with local names mean their decoders -/

namespace Elm

theorem find?_of_mem {pairs : List (String × String)} (hnodup : (pairs.map Prod.snd).Nodup)
    {pair : String × String} (hmem : pair ∈ pairs) :
    (pairs.find? fun f => f.2 == pair.2) = some pair := by
  induction pairs with
  | nil => cases hmem
  | cons first pairs ih =>
    obtain ⟨hfirst, hnodup⟩ := List.nodup_cons.mp hnodup
    rcases List.mem_cons.mp hmem with rfl | hmem
    · simp
    · have hne : first.2 ≠ pair.2 := fun heq => hfirst (heq ▸ List.mem_map_of_mem hmem)
      simp [hne, ih hnodup hmem]

/-- A lambda that gives each field its own parameter tells which field each argument ends up in. -/
theorem fieldsOf?_zip {fields names : List String} (hlength : names.length = fields.length)
    (hnodup : names.Nodup) : fieldsOf? names (fields.zip names) = some fields := by
  have hsnd : (fields.zip names).map Prod.snd = names := List.map_snd_zip hlength.le
  have hfst : (fields.zip names).map Prod.fst = fields := List.map_fst_zip hlength.ge
  -- a parameter is looked up among all fields, so the induction is on a part of them
  have hfound : ∀ pairs ⊆ fields.zip names,
      (pairs.map Prod.snd).mapM
        (fun parameter => ((fields.zip names).find? fun f => f.2 == parameter).map Prod.fst) =
      some (pairs.map Prod.fst) := by
    intro pairs hpairs
    induction pairs with
    | nil => rfl
    | cons pair pairs ih =>
      obtain ⟨hpair, hpairs⟩ := List.cons_subset.mp hpairs
      rw [← hsnd] at hnodup
      simp [find?_of_mem hnodup hpair, ih hpairs]
  have hall := hfound _ (List.Subset.refl _)
  rw [hsnd, hfst] at hall
  rw [fieldsOf?, if_pos ⟨hnodup, by simp [hlength]⟩, hall]

namespace Expr

attribute [local simp] meaning?

variable {locals : List String} {x y m : Expr} {d : Decoder}

theorem decoder?_name {text : String} (h : text ∉ locals) :
    (name text).decoder? locals = some (.primitive (.ofText text)) := by
  simp [decoder?, h]

theorem decoder?_maybe (h : "maybe" ∉ locals) (hx : x.decoder? locals = some d) :
    (apply (name "maybe") x).decoder? locals = some (.maybe d) := by
  obtain ⟨meaning, hmeaning, hd⟩ := Option.bind_eq_some_iff.mp hx
  simp [decoder?, h, hmeaning, hd]

theorem decoder?_list (h : "list" ∉ locals) (hx : x.decoder? locals = some d) :
    (apply (name "list") x).decoder? locals = some (.list d) := by
  obtain ⟨meaning, hmeaning, hd⟩ := Option.bind_eq_some_iff.mp hx
  simp [decoder?, h, hmeaning, hd]

theorem decoder?_succeed {build : Constructor} (h : "succeed" ∉ locals) (hx : x.empty? = some build) :
    (apply (name "succeed") x).decoder? locals = some (.succeed build) := by
  simp [decoder?, h, hx]

theorem decoder?_field {key : String} (h : "field" ∉ locals) (hx : x.decoder? locals = some d) :
    (apply (apply (name "field") (string key)) x).decoder? locals = some (.field key d) := by
  obtain ⟨meaning, hmeaning, hd⟩ := Option.bind_eq_some_iff.mp hx
  simp [decoder?, h, hmeaning, hd]

theorem meaning?_map (h : "map" ∉ locals) (hx : x.decoder? locals = some d) :
    (apply (apply (name "map") y) x).meaning? locals = some (.waiting y [d]) := by
  obtain ⟨meaning, hmeaning, hd⟩ := Option.bind_eq_some_iff.mp hx
  simp [h, hmeaning, hd]

theorem meaning?_apply {values : List Decoder} (h : "apply" ∉ locals)
    (hm : m.meaning? locals = some (.waiting y values)) (hx : x.decoder? locals = some d) :
    (pipe m (apply (name "apply") x)).meaning? locals = some (.waiting y (values ++ [d])) := by
  obtain ⟨meaning, hmeaning, hd⟩ := Option.bind_eq_some_iff.mp hx
  simp [h, hm, hmeaning, hd]

/-- A function that has as many arguments as it builds fields from is a decoder. -/
theorem decoder?_waiting {build : Constructor} {values : List Decoder}
    (hm : m.meaning? locals = some (.waiting y values))
    (hy : y.constructor? values.length = some build) :
    m.decoder? locals = some (.map build values) := by
  simp [decoder?, hm, Meaning.decoder?, hy]

theorem decoder?_dispatch {subject message : String} {cases : List (String × Expr)}
    {decoders : List (String × Decoder)} (hlocals : ∀ name ∈ subject :: locals, IsSubject name)
    (hcases : caseDecoders? (subject :: locals) cases = some decoders) :
    (pipe (apply (apply (name "field") (string "__typename")) (name "string"))
      (apply (name "andThen")
        (lambda [subject]
          (choose subject cases (apply (name "fail") (string message)))))).decoder? locals =
      some (.dispatch decoders) := by
  have hfail : "fail" ∉ subject :: locals := not_mem_locals hlocals (by decide)
  have houter : ∀ name ∈ locals, IsSubject name := fun name hname =>
    hlocals name (List.mem_cons_of_mem _ hname)
  have hfield : "field" ∉ locals := not_mem_locals houter (by decide)
  have hstring : "string" ∉ locals := not_mem_locals houter (by decide)
  have handThen : "andThen" ∉ locals := not_mem_locals houter (by decide)
  simp [decoder?, hfield, hstring, handThen, Primitive.ofText, hcases, hfail]

end Expr

end Elm

/-- The function for a constructor takes its arguments in the order of the fields. -/
theorem Constructor.Named.constructor? {scope : Scope} {build : Constructor} {builder : Builder}
    (h : build.Named scope builder) :
    builder.expr.constructor? build.fields.length = some build.shown := by
  cases h with
  | label label fields => rfl
  | record hnames =>
    have hlength := hnames.length_eq
    simp [Builder.expr, Expr.constructor?, Constructor.fields, Constructor.shown, hlength,
      List.map_snd_zip hlength.le, fieldsOf?_zip hlength hnames.distinct]
  | variant hnames =>
    have hlength := hnames.length_eq
    simp [Builder.expr, Expr.constructor?, Constructor.fields, Constructor.shown, hlength,
      List.map_snd_zip hlength.le, fieldsOf?_zip hlength hnames.distinct]

namespace Decoder

mutual

theorem Named.decoder? {scope : Scope} {decoder : Decoder} {code : DecoderCode} {locals : List String}
    (hlocals : ∀ name ∈ locals, IsSubject name) :
    decoder.Named scope code → decoder.Plain → code.expr.decoder? locals = some decoder.shown
  | .primitive leaf, hplain => by
    rw [Plain] at hplain
    rw [DecoderCode.expr, shown, ← hplain.ofText]
    exact Expr.decoder?_name (hplain.not_mem_locals hlocals)
  | .field hvalue, hplain => by
    rw [Plain] at hplain
    rw [DecoderCode.expr, shown]
    exact Expr.decoder?_field (not_mem_locals hlocals (by decide)) (hvalue.decoder? hlocals hplain.2)
  | .maybe hinner, hplain => by
    rw [Plain] at hplain
    rw [DecoderCode.expr, shown]
    exact Expr.decoder?_maybe (not_mem_locals hlocals (by decide)) (hinner.decoder? hlocals hplain)
  | .list hitem, hplain => by
    rw [Plain] at hplain
    rw [DecoderCode.expr, shown]
    exact Expr.decoder?_list (not_mem_locals hlocals (by decide)) (hitem.decoder? hlocals hplain)
  | .map hbuild .nil, hplain => by
    rw [Plain] at hplain
    exact absurd rfl hplain.2.1
  | .map hbuild (.cons hvalue hvalues), hplain => by
    rw [Plain, PlainAll] at hplain
    obtain ⟨-, -, hlength, hfirst, hothers⟩ := hplain
    rw [DecoderCode.expr, shown, shownAll]
    -- the first value stands right after the function, the others are fed in by pipes
    refine Expr.decoder?_waiting (hvalues.meaning? hlocals hothers
      (Expr.meaning?_map (not_mem_locals hlocals (by decide)) (hvalue.decoder? hlocals hfirst))) ?_
    rw [List.length_cons, length_shownAll, ← List.length_cons, ← hlength]
    exact hbuild.constructor?
  | .dispatch hsubject hcases, hplain => by
    rw [Plain] at hplain
    rw [DecoderCode.expr, shown]
    -- the subject is in sight in the cases, and hides no function of decoders there
    have hinner := hsubject.forall_isSubject hlocals
    exact Expr.decoder?_dispatch hinner (hcases.caseDecoders? hinner hplain)
  | .succeed build, hplain => by
    have hsucceed : "succeed" ∉ locals := not_mem_locals hlocals (by decide)
    rw [Plain] at hplain
    rw [shown]
    cases build with
    | record label fields =>
      obtain ⟨rfl, rfl⟩ := hplain
      rw [Constructor.tag?, DecoderCode.expr]
      exact Expr.decoder?_succeed hsucceed rfl
    | variant tag fields =>
      obtain ⟨-, rfl⟩ := hplain
      rw [Constructor.tag?, DecoderCode.expr]
      exact Expr.decoder?_succeed hsucceed rfl
termination_by structural h => h

theorem NamedAll.meaning? {scope : Scope} {values : List Decoder} {codes : List DecoderCode}
    {locals : List String} (hlocals : ∀ name ∈ locals, IsSubject name) {e build : Expr}
    {before : List Decoder} :
    NamedAll scope values codes → PlainAll values →
      e.meaning? locals = some (.waiting build before) →
        (DecoderCode.pipes e codes).meaning? locals =
          some (.waiting build (before ++ shownAll values))
  | .nil, _, he => by
    simpa [DecoderCode.pipes, shownAll] using he
  | .cons hvalue hvalues, hplain, he => by
    rw [PlainAll] at hplain
    have hstep := Expr.meaning?_apply (not_mem_locals hlocals (by decide)) he
      (hvalue.decoder? hlocals hplain.1)
    rw [DecoderCode.pipes, hvalues.meaning? hlocals hplain.2 hstep, shownAll, List.append_assoc,
      List.singleton_append]
termination_by structural h => h

theorem NamedCases.caseDecoders? {scope : Scope} {cases : List (String × Decoder)}
    {codes : List (String × DecoderCode)} {locals : List String}
    (hlocals : ∀ name ∈ locals, IsSubject name) :
    NamedCases scope cases codes → PlainCases cases →
      Expr.caseDecoders? locals (DecoderCode.caseExprs codes) = some (shownCases cases)
  | .nil, _ => by
    rw [DecoderCode.caseExprs, Expr.caseDecoders?, shownCases]
  | .cons hvalue hcases, hplain => by
    rw [PlainCases] at hplain
    have hfirst := hvalue.decoder? hlocals hplain.2.1
    have hothers := hcases.caseDecoders? hlocals hplain.2.2
    obtain ⟨meaning, hmeaning, hd⟩ := Option.bind_eq_some_iff.mp hfirst
    simp [DecoderCode.caseExprs, Expr.caseDecoders?, shownCases, hmeaning, hd, hothers]
termination_by structural h => h

end

end Decoder

end ElmBindings
