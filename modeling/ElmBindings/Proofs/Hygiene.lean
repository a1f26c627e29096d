import ElmBindings.Elm.Decoder.Code
import ElmBindings.Elm.Encoder.Code
import ElmBindings.Elm.Enum
import Mathlib

set_option autoImplicit false

/-! # Hygiene of local names

Elm refuses a local name that shadows another one, so a name that is bound must not be a top-level value
and must not be in sight already. The relations `Decoder.Named` and `Encoder.Named` say which trees with
local names are right for a decoder or an encoder: they follow what is in sight on the way into the tree,
and leave open which of the free names is chosen. What is written is laid out from such a tree, and the
scope is the same afterwards (`written_hygienic`). Read as Elm, the text binds the names of its tree and no
others (`Decoder.Plain.binders_text`, `Encoder.Plain.lambdaNames_text`). -/

namespace ElmBindings

/-! ## Fresh names -/

namespace Scope

variable (scope : Scope)

/-- A name that may be bound in a scope. -/
def Free (name : String) : Prop :=
  name ∉ scope.reserved ∧ name ∉ scope.bound

/-- A name that is right for `base` in a scope. -/
structure Suits (base name : String) : Prop where
  numbered : ∃ n, name = candidate base n
  free : scope.Free name

/-- Names that are right for bases where all of them are in sight together. -/
structure SuitsAll (bases names : List String) : Prop where
  numbered : List.Forall₂ (fun base name => ∃ n, name = candidate base n) bases names
  distinct : names.Nodup
  free : ∀ name ∈ names, scope.Free name

theorem isTaken_eq_false {name : String} : scope.isTaken name = false ↔ scope.Free name := by
  simp [isTaken, Free]

theorem candidate_injective (base : String) : Function.Injective (candidate base) := by
  intro m n h
  have hlength (k : Nat) : 0 < (toString (k + 1)).length := by
    rw [Nat.toString_eq_repr]
    exact Nat.length_repr_pos
  cases m with
  | zero =>
    cases n with
    | zero => rfl
    | succ n =>
      have hsame := congrArg String.length h
      simp only [candidate, String.length_append] at hsame
      have := hlength n
      omega
  | succ m =>
    cases n with
    | zero =>
      have hsame := congrArg String.length h
      simp only [candidate, String.length_append] at hsame
      have := hlength m
      omega
    | succ n =>
      have hdigits : toString (m + 1) = toString (n + 1) := by
        simpa [candidate, String.append_right_inj] using h
      have := Nat.repr_inj.mp hdigits
      omega

/-- One more candidate than there are names is enough, since the candidates are distinct. -/
theorem exists_free_candidate (base : String) :
    ∃ n < scope.reserved.length + scope.bound.length + 1, scope.Free (candidate base n) := by
  by_contra hnone
  simp only [not_exists, not_and] at hnone
  let candidates := (List.range (scope.reserved.length + scope.bound.length + 1)).map (candidate base)
  have hdistinct : candidates.Nodup := List.nodup_range.map (candidate_injective base)
  have htaken : candidates ⊆ scope.reserved ++ scope.bound := by
    intro name hname
    obtain ⟨n, hn, rfl⟩ := List.mem_map.mp hname
    have hfree := hnone n (List.mem_range.mp hn)
    simp only [Free, not_and_or, not_not] at hfree
    exact List.mem_append.mpr hfree
  have := (hdistinct.subperm htaken).length_le
  simp [candidates] at this

theorem suits_fresh (base : String) : scope.Suits base (scope.fresh base) := by
  refine ⟨⟨_, rfl⟩, ?_⟩
  obtain ⟨n, hn, hfree⟩ := scope.exists_free_candidate base
  rw [fresh]
  cases hfound : List.find? (fun n => !scope.isTaken (candidate base n))
      (List.range (scope.reserved.length + scope.bound.length + 1)) with
  | none =>
    have htaken := List.find?_eq_none.mp hfound n (List.mem_range.mpr hn)
    simp [(scope.isTaken_eq_false).mpr hfree] at htaken
  | some m =>
    have hm := List.find?_some hfound
    rw [Bool.not_eq_true'] at hm
    exact (scope.isTaken_eq_false).mp hm

theorem suitsAll_bindAll (bases : List String) : scope.SuitsAll bases (scope.bindAll bases).1 := by
  induction bases generalizing scope with
  | nil => exact ⟨.nil, List.nodup_nil, by simp [bindAll]⟩
  | cons base bases ih =>
    obtain ⟨hnumbered, hdistinct, hfree⟩ := ih (scope.push (scope.fresh base))
    have hfresh := scope.suits_fresh base
    refine ⟨.cons hfresh.numbered hnumbered, List.nodup_cons.mpr ⟨fun hmem => ?_, hdistinct⟩,
      fun name hname => ?_⟩
    · -- the name is bound when the later ones are chosen
      exact (hfree _ hmem).2 (by simp)
    · rcases List.mem_cons.mp hname with rfl | hmem
      · exact hfresh.free
      · obtain ⟨hreserved, hbound⟩ := hfree _ hmem
        exact ⟨hreserved, fun h => hbound (by simp [h])⟩

theorem release_bindAll (bases : List String) :
    (scope.bindAll bases).2.release (scope.bindAll bases).1.length = scope := by
  suffices hbound : (scope.bindAll bases).2 =
      { scope with bound := (scope.bindAll bases).1.reverse ++ scope.bound } by
    rw [hbound, release, List.drop_left' (List.length_reverse)]
  induction bases generalizing scope with
  | nil => rfl
  | cons base bases ih => simp [bindAll, bind, ih, push]

end Scope

/-! ## Writing that restores the scope -/

namespace Scoped

variable {α β : Type} {scope : Scope}

/-- What is written in a scope satisfies `p`, and the scope is the same afterwards. -/
def Writes (written : Scoped α) (scope : Scope) (p : α → Prop) : Prop :=
  ∃ a, written.run scope = (a, scope) ∧ p a

theorem writes_pure {p : α → Prop} {a : α} (h : p a) : (pure a : Scoped α).Writes scope p :=
  ⟨a, rfl, h⟩

theorem Writes.bind {m : Scoped α} {f : α → Scoped β} {p : α → Prop} {q : β → Prop}
    (hm : m.Writes scope p) (hf : ∀ a, p a → (f a).Writes scope q) : (m >>= f).Writes scope q := by
  obtain ⟨a, hrun, ha⟩ := hm
  obtain ⟨b, hb, hq⟩ := hf a ha
  refine ⟨b, ?_, hq⟩
  rw [StateT.run_bind, hrun]
  exact hb

theorem Writes.output {m : Scoped α} {p : α → Prop} (h : m.Writes scope p) : p (m.output scope) := by
  obtain ⟨a, hrun, ha⟩ := h
  rwa [Scoped.output, hrun]

theorem writes_under {base : String} {body : String → Scoped α} {p : α → Prop}
    (h : ∀ name, scope.Suits base name → (body name).Writes (scope.push name) p) :
    (under base body).Writes scope p := by
  obtain ⟨a, hrun, ha⟩ := h _ (scope.suits_fresh base)
  refine ⟨a, ?_, ha⟩
  have htake : (take base).run scope = (scope.fresh base, scope.push (scope.fresh base)) := rfl
  rw [under, StateT.run_bind, htake]
  show ((body _ >>= _).run _) = _
  rw [StateT.run_bind, hrun]
  show (a, Scope.release _ _) = _
  rw [scope.release_push]

theorem writes_underAll {bases : List String} {body : List String → Scoped α} {p : α → Prop}
    (h : ∀ names inner, scope.SuitsAll bases names → (body names).Writes inner p) :
    (underAll bases body).Writes scope p := by
  obtain ⟨a, hrun, ha⟩ := h _ _ (scope.suitsAll_bindAll bases)
  refine ⟨a, ?_, ha⟩
  have htake : (takeAll bases).run scope = scope.bindAll bases := rfl
  rw [underAll, StateT.run_bind, htake]
  show ((body _ >>= _).run _) = _
  rw [StateT.run_bind, hrun]
  show (a, Scope.release _ _) = _
  rw [scope.release_bindAll]

end Scoped

/-! ## Decoders -/

/-- The functions for a constructor. The parameters of a lambda suit its fields. -/
inductive Constructor.Named (scope : Scope) : Constructor → Builder → Prop
  | label (label : String) (fields : List String) :
    Named scope (.record (some label) fields) (.label label)
  | record {fields names : List String} :
    scope.SuitsAll fields names → Named scope (.record none fields) (.record (fields.zip names))
  | variant {tag : String} {fields names : List String} :
    scope.SuitsAll fields names →
      Named scope (.variant tag fields) (.variant tag (fields.zip names))

namespace Decoder

mutual

/-- The expressions for a decoder. The subject of a dispatch is in sight in the cases. -/
inductive Named : Scope → Decoder → DecoderCode → Prop
  | primitive {scope : Scope} (leaf : Primitive) : Named scope (.primitive leaf) (.name leaf.text)
  | field {scope : Scope} {key : String} {value : Decoder} {code : DecoderCode} :
    Named scope value code → Named scope (.field key value) (.field key code)
  | maybe {scope : Scope} {inner : Decoder} {code : DecoderCode} :
    Named scope inner code → Named scope (.maybe inner) (.maybe code)
  | list {scope : Scope} {item : Decoder} {code : DecoderCode} :
    Named scope item code → Named scope (.list item) (.list code)
  | map {scope : Scope} {build : Constructor} {builder : Builder} {values : List Decoder}
      {codes : List DecoderCode} :
    build.Named scope builder → NamedAll scope values codes →
      Named scope (.map build values) (.map builder codes)
  | dispatch {scope : Scope} {subject : String} {cases : List (String × Decoder)}
      {codes : List (String × DecoderCode)} :
    scope.Suits "typename" subject → NamedCases (scope.push subject) cases codes →
      Named scope (.dispatch cases) (.dispatch subject codes)
  | succeed {scope : Scope} (build : Constructor) :
    Named scope (.succeed build) (.succeed build.tag?)

/-- The expressions for the decoders of a record. -/
inductive NamedAll : Scope → List Decoder → List DecoderCode → Prop
  | nil {scope : Scope} : NamedAll scope [] []
  | cons {scope : Scope} {value : Decoder} {code : DecoderCode} {values : List Decoder}
      {codes : List DecoderCode} :
    Named scope value code → NamedAll scope values codes →
      NamedAll scope (value :: values) (code :: codes)

/-- The expressions for the cases of a dispatch. -/
inductive NamedCases : Scope → List (String × Decoder) → List (String × DecoderCode) → Prop
  | nil {scope : Scope} : NamedCases scope [] []
  | cons {scope : Scope} {type : String} {value : Decoder} {code : DecoderCode}
      {cases : List (String × Decoder)} {codes : List (String × DecoderCode)} :
    Named scope value code → NamedCases scope cases codes →
      NamedCases scope ((type, value) :: cases) ((type, code) :: codes)

end

end Decoder

section

open Scoped

variable {scope : Scope}

theorem writes_parameters (fields : List String) :
    (Scoped.parameters fields).Writes scope fun pairs =>
      ∃ names, scope.SuitsAll fields names ∧ pairs = fields.zip names :=
  writes_underAll fun names _ hnames => writes_pure ⟨names, hnames, rfl⟩

theorem Constructor.writes_builder (build : Constructor) :
    build.builder.Writes scope (build.Named scope) := by
  cases build with
  | record label fields =>
    cases label with
    | some label => exact writes_pure (.label label fields)
    | none =>
      refine (writes_parameters fields).bind fun pairs hpairs => ?_
      obtain ⟨names, hnames, rfl⟩ := hpairs
      exact writes_pure (.record hnames)
  | variant tag fields =>
    refine (writes_parameters fields).bind fun pairs hpairs => ?_
    obtain ⟨names, hnames, rfl⟩ := hpairs
    exact writes_pure (.variant hnames)

namespace Decoder

mutual

theorem writes_code (scope : Scope) : ∀ decoder : Decoder, decoder.code.Writes scope (decoder.Named scope)
  | primitive leaf => writes_pure (.primitive leaf)
  | field _ value => (writes_code scope value).bind fun _ h => writes_pure (.field h)
  | maybe inner => (writes_code scope inner).bind fun _ h => writes_pure (.maybe h)
  | list item => (writes_code scope item).bind fun _ h => writes_pure (.list h)
  | map build values =>
    build.writes_builder.bind fun _ hbuild =>
      (writes_codes scope values).bind fun _ hvalues => writes_pure (.map hbuild hvalues)
  | dispatch cases =>
    writes_under fun subject hsubject =>
      (writes_caseCodes (scope.push subject) cases).bind fun _ hcases =>
        writes_pure (.dispatch hsubject hcases)
  | succeed build => writes_pure (.succeed build)

theorem writes_codes (scope : Scope) :
    ∀ values : List Decoder, (codes values).Writes scope (NamedAll scope values)
  | [] => writes_pure .nil
  | value :: values =>
    (writes_code scope value).bind fun _ hvalue =>
      (writes_codes scope values).bind fun _ hvalues => writes_pure (.cons hvalue hvalues)

theorem writes_caseCodes (scope : Scope) :
    ∀ cases : List (String × Decoder), (caseCodes cases).Writes scope (NamedCases scope cases)
  | [] => writes_pure .nil
  | (_, value) :: cases =>
    (writes_code scope value).bind fun _ hvalue =>
      (writes_caseCodes scope cases).bind fun _ hcases => writes_pure (.cons hvalue hcases)

end

end Decoder

end

/-! ## Encoders -/

namespace Encoder

mutual

/-- The expressions for an encoder. The parameter of a lambda is in sight in the entries. -/
inductive Named : Scope → Encoder → EncoderCode → Prop
  | int {scope : Scope} : Named scope .int (.name "Json.Encode.int")
  | float {scope : Scope} : Named scope .float (.name "Json.Encode.float")
  | bool {scope : Scope} : Named scope .bool (.name "Json.Encode.bool")
  | string {scope : Scope} : Named scope .string (.name "Json.Encode.string")
  | enum {scope : Scope} (name : String) : Named scope (.enum name) (.name (enumName name))
  | maybe {scope : Scope} {inner : Encoder} {code : EncoderCode} :
    Named scope inner code → Named scope (.maybe inner) (.maybe code)
  | list {scope : Scope} {item : Encoder} {code : EncoderCode} :
    Named scope item code → Named scope (.list item) (.list code)
  | object {scope : Scope} {parameter : String} {entries : List (ObjectEntry Encoder)}
      {codes : List (ObjectEntry EncoderCode)} :
    scope.Suits "input" parameter → NamedEntries (scope.push parameter) entries codes →
      Named scope (.object entries) (.lambda parameter codes)

/-- The expressions for the entries of an object. -/
inductive NamedEntries :
    Scope → List (ObjectEntry Encoder) → List (ObjectEntry EncoderCode) → Prop
  | nil {scope : Scope} : NamedEntries scope [] []
  | cons {scope : Scope} {key field : String} {value : Encoder} {code : EncoderCode}
      {entries : List (ObjectEntry Encoder)} {codes : List (ObjectEntry EncoderCode)} :
    Named scope value code → NamedEntries scope entries codes →
      NamedEntries scope (⟨key, field, value⟩ :: entries) (⟨key, field, code⟩ :: codes)

end

open Scoped

mutual

theorem writes_code (scope : Scope) : ∀ encoder : Encoder, encoder.code.Writes scope (encoder.Named scope)
  | int => writes_pure .int
  | float => writes_pure .float
  | bool => writes_pure .bool
  | string => writes_pure .string
  | enum name => writes_pure (.enum name)
  | maybe inner => (writes_code scope inner).bind fun _ h => writes_pure (.maybe h)
  | list item => (writes_code scope item).bind fun _ h => writes_pure (.list h)
  | object entries =>
    writes_under fun parameter hparameter =>
      (writes_entryCodes (scope.push parameter) entries).bind fun _ hentries =>
        writes_pure (.object hparameter hentries)

theorem writes_entryCodes (scope : Scope) :
    ∀ entries : List (ObjectEntry Encoder), (entryCodes entries).Writes scope (NamedEntries scope entries)
  | [] => writes_pure .nil
  | ⟨_, _, value⟩ :: entries =>
    (writes_code scope value).bind fun _ hvalue =>
      (writes_entryCodes scope entries).bind fun _ hentries => writes_pure (.cons hvalue hentries)

end

end Encoder

/-! ## What is written -/

theorem Decoder.writes_written (scope : Scope) (decoder : Decoder) (indent : Nat) :
    (decoder.written indent).Writes scope fun text =>
      ∃ code, decoder.Named scope code ∧ text = code.text indent :=
  (decoder.writes_code scope).bind fun code hcode => Scoped.writes_pure ⟨code, hcode, rfl⟩

/-- In every scope, decoders, encoders, objects and the declarations of enums are written with local names
that are neither top-level values nor in sight where they are bound, and the names in sight are the same
afterwards. -/
theorem written_hygienic (scope : Scope) :
    (∀ (decoder : Decoder) (indent : Nat), (decoder.written indent).Writes scope fun text =>
      ∃ code, decoder.Named scope code ∧ text = code.text indent) ∧
    (∀ encoder : Encoder, encoder.written.Writes scope fun text =>
      ∃ code, encoder.Named scope code ∧ text = code.text) ∧
    (∀ (entries : List (ObjectEntry Encoder)) (record : String),
      (writtenObject entries record).Writes scope fun text =>
        ∃ codes, Encoder.NamedEntries scope entries codes ∧
          text = objectCall (EncoderCode.entryTexts record codes)) ∧
    ∀ enum : EnumNaming, enum.written.Writes scope fun text =>
      ∃ raw item, scope.Suits "raw" raw ∧ scope.Suits "item" item ∧
        text = Layout.linesText (enum.typeDeclaration ++ ["", ""] ++ enum.decoderDeclaration raw
          ++ ["", ""] ++ enum.encoderDeclaration item) := by
  refine ⟨Decoder.writes_written scope, fun encoder => ?_, fun entries record => ?_, fun enum => ?_⟩
  · refine (encoder.writes_code scope).bind fun code hcode => ?_
    exact Scoped.writes_pure ⟨code, hcode, rfl⟩
  · refine (Encoder.writes_entryCodes scope entries).bind fun codes hcodes => ?_
    exact Scoped.writes_pure ⟨codes, hcodes, rfl⟩
  · have hdecoder : (Scoped.under "raw" fun raw => return enum.decoderDeclaration raw).Writes scope
        fun lines => ∃ raw, scope.Suits "raw" raw ∧ lines = enum.decoderDeclaration raw :=
      Scoped.writes_under fun raw hraw => Scoped.writes_pure ⟨raw, hraw, rfl⟩
    have hencoder : (Scoped.under "item" fun item => return enum.encoderDeclaration item).Writes scope
        fun lines => ∃ item, scope.Suits "item" item ∧ lines = enum.encoderDeclaration item :=
      Scoped.writes_under fun item hitem => Scoped.writes_pure ⟨item, hitem, rfl⟩
    refine hdecoder.bind ?_
    rintro _ ⟨raw, hraw, rfl⟩
    refine hencoder.bind ?_
    rintro _ ⟨item, hitem, rfl⟩
    exact Scoped.writes_pure ⟨raw, item, hraw, hitem, rfl⟩

end ElmBindings
