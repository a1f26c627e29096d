import ElmBindings.Proofs.Decoding

set_option autoImplicit false

/-! # Where decoders fail

The error of a decoder names a path and a fault. The path is made while the error travels outwards, one step
at each field and each array, and an error below a `maybe` is forgotten. What arrives outside is always the
truth (`Decoder.decode_error_located`): the steps lead from the decoded value to a value inside of it, and
that value has the fault, which some part of the decoder asked about. -/

namespace ElmBindings

/-! ## Values inside a value -/

/-- The value that steps lead to. -/
def Json.at? : List Step → Json → Option Json
  | [], json => some json
  | .key key :: path, json => (json.get? key).bind (at? path)
  | .index position :: path, json =>
    json.array?.bind fun items => items[position]?.bind (at? path)

/-- Whether a value is of a kind. A whole number is an integer if it is one of 64 bits, or a double below
`2 ^ 53`. -/
def Json.isOf : JsonKind → Json → Bool
  | .int, .int n => isWord n
  | .int, .float x => x.toInt?.any fun n => n.natAbs < twoPow 53
  | .float, .int _ => true
  | .float, .float _ => true
  | .bool, .bool _ => true
  | .string, .string _ => true
  | .list, .array _ => true
  | _, _ => false

/-- What the kind of integers is, said without the decoder: all numbers of 64 bits that are written without a
fraction, and the finite doubles of whole magnitude below `2 ^ 53`. The magnitude of a finite double is
`significand * 2 ^ scale` in units of `2 ^ (-1074)`, so no double with a fraction is of the kind. -/
theorem Json.isOf_int_iff {json : Json} :
    json.isOf .int = true ↔
      (∃ n, json = .int n ∧ -(twoPow 63 : Int) ≤ n ∧ n < twoPow 63) ∨
      ∃ x n, json = .float x ∧ x.isFinite = true ∧ n < twoPow 53 ∧
        x.significand * twoPow x.scale = n * twoPow 1074 := by
  cases json with
  | int n => simp [isOf, isWord]
  | float x =>
    have hpos (k : Nat) : 0 < twoPow k := Nat.pow_pos (by decide)
    have hsign (k : Nat) : (if x.isNegative then -(k : Int) else k).natAbs = k := by
      split <;> simp
    simp only [isOf, Binary64.toInt?, reduceCtorEq, false_and, exists_false, false_or]
    constructor
    · intro h
      split at h
      · next hwhole =>
        obtain ⟨hfinite, hmod⟩ := Bool.and_eq_true_iff.mp hwhole
        rw [Option.any_some, decide_eq_true_eq, hsign] at h
        have hdvd := Nat.dvd_of_mod_eq_zero (eq_of_beq hmod)
        exact ⟨x, _, rfl, hfinite, h, (Nat.div_mul_cancel hdvd).symm⟩
      · cases h
    · rintro ⟨_, n, ⟨⟩, hfinite, hn, heq⟩
      rw [heq, Nat.mul_mod_left, Nat.mul_div_cancel n (hpos _), hfinite]
      simpa [hsign] using hn
  | _ => simp [isOf]

theorem Json.isOf_int (json : Json) : json.isOf .int = json.integer?.isSome := by
  cases json with
  | int n => by_cases h : isWord n = true <;> simp [isOf, integer?, h]
  | float x => simp [isOf, integer?, Option.isSome_filter]
  | _ => rfl

theorem Json.isOf_float (json : Json) : json.isOf .float = json.double?.isSome := by
  cases json <;> rfl

theorem Json.isOf_bool (json : Json) : json.isOf .bool = json.bool?.isSome := by
  cases json <;> rfl

theorem Json.isOf_string (json : Json) : json.isOf .string = json.string?.isSome := by
  cases json <;> rfl

theorem Json.isOf_list (json : Json) : json.isOf .list = json.array?.isSome := by
  cases json <;> rfl

theorem Json.get?_eq_none {json : Json} {key : String} :
    json.get? key = none ↔ ∀ entries, json = .object entries → ∀ entry ∈ entries, entry.1 ≠ key := by
  cases json <;> simp [get?]

/-! ## Parts of a decoder -/

/-- Whether a decoder stands somewhere in another one. -/
inductive Decoder.PartOf (part : Decoder) : Decoder → Prop
  | self : PartOf part part
  | field {key : String} {d : Decoder} (h : PartOf part d) : PartOf part (.field key d)
  | maybe {d : Decoder} (h : PartOf part d) : PartOf part (.maybe d)
  | list {d : Decoder} (h : PartOf part d) : PartOf part (.list d)
  | map {build : Constructor} {ds : List Decoder} {d : Decoder} (hd : d ∈ ds) (h : PartOf part d) :
    PartOf part (.map build ds)
  | dispatch {cases : List (String × Decoder)} {name : String} {d : Decoder}
    (hd : (name, d) ∈ cases) (h : PartOf part d) : PartOf part (.dispatch cases)

/-- The kind of value that a leaf decoder reads. -/
def Primitive.kind : Primitive → JsonKind
  | int => .int
  | float => .float
  | bool => .bool
  | string => .string
  | enum _ _ => .string

/-- The faults that a decoder finds itself, without the decoders inside of it. -/
def Decoder.ownFaults : Decoder → List Fault
  | primitive leaf => [.expecting leaf.kind]
  | field key _ => [.missingField key]
  | list _ => [.expecting .list]
  | dispatch _ => [.missingField typeNameField, .expecting .string, .unexpectedType]
  | maybe _ | map _ _ | succeed _ => []

/-- Whether a value has a fault that a decoder finds. -/
def Fault.IsOf (d : Decoder) (json : Json) : Fault → Prop
  | expecting kind => json.isOf kind = false
  | missingField key => ∀ entries, json = .object entries → ∀ entry ∈ entries, entry.1 ≠ key
  | unexpectedType => ∃ entries type cases, json = .object entries ∧
      json.get? typeNameField = some (.string type) ∧
      d = .dispatch cases ∧ ∀ case ∈ cases, case.1 ≠ type

/-! ## Errors that are true -/

/-- Whether an error leads to a value inside of the decoded one that has its fault, which is one that a part
of the decoder finds. -/
def DecodeError.IsTrue (d : Decoder) (json : Json) (e : DecodeError) : Prop :=
  ∃ inner part, json.at? e.path = some inner ∧ part.PartOf d ∧ e.fault ∈ part.ownFaults ∧
    e.fault.IsOf part inner

namespace DecodeError.IsTrue

variable {d outer : Decoder} {json inner : Json} {e : DecodeError}

theorem here {fault : Fault} (hfault : fault ∈ d.ownFaults) (h : fault.IsOf d json) :
    IsTrue d json ⟨fault, []⟩ :=
  ⟨json, d, rfl, .self, hfault, h⟩

theorem mono (h : IsTrue d json e) (hpart : ∀ {part : Decoder}, part.PartOf d → part.PartOf outer) :
    IsTrue outer json e := by
  obtain ⟨w, part, hw, hin, hfault⟩ := h
  exact ⟨w, part, hw, hpart hin, hfault⟩

theorem under_key {key : String} (h : IsTrue d inner e) (hinner : json.get? key = some inner) :
    IsTrue d json (e.under (.key key)) := by
  obtain ⟨w, part, hw, hin, hfault⟩ := h
  refine ⟨w, part, ?_, hin, hfault⟩
  rw [under, Json.at?, hinner]
  exact hw

theorem under_index {items : List Json} {position : Nat} (h : IsTrue d inner e)
    (hinner : items[position]? = some inner) :
    IsTrue d (.array items) (e.under (.index position)) := by
  obtain ⟨w, part, hw, hin, hfault⟩ := h
  refine ⟨w, part, ?_, hin, hfault⟩
  rw [under, Json.at?, Json.array?, Option.bind_some, hinner]
  exact hw

end DecodeError.IsTrue

/-! ## Failures of the parts of a run -/

theorem orFault_eq_error {α : Type} {fault : Fault} {x : Option α} {e : DecodeError} :
    orFault fault x = .error e ↔ x = none ∧ e = ⟨fault, []⟩ := by
  cases x <;> simp [orFault, eq_comm]

theorem through_eq_error {α : Type} {step : Step} {outcome : Except DecodeError α}
    {e : DecodeError} :
    through step outcome = .error e ↔ ∃ inner, outcome = .error inner ∧ e = inner.under step := by
  cases outcome <;> simp [through, Except.mapError, eq_comm]

/-- A leaf decoder fails exactly on the values that are not of its kind. -/
theorem Primitive.decode_eq_error {leaf : Primitive} {json : Json} {e : DecodeError} :
    leaf.decode json = .error e ↔ json.isOf leaf.kind = false ∧ e = ⟨.expecting leaf.kind, []⟩ := by
  cases leaf <;>
    simp [decode, orFault_eq_error, kind, Json.isOf_int, Json.isOf_float, Json.isOf_bool,
      Json.isOf_string]

/-- Items fail at the first one that does. -/
theorem decodeItems_eq_error {item : Json → Except DecodeError Decoded} {start : Nat}
    {items : List Json} {e : DecodeError} (h : decodeItems item start items = .error e) :
    ∃ i json inner, items[i]? = some json ∧ item json = .error inner ∧
      e = inner.under (.index (start + i)) := by
  induction items generalizing start with
  | nil => cases h
  | cons json items ih =>
    rcases bind_eq_error.mp h with hfirst | ⟨value, -, h⟩
    · obtain ⟨inner, hinner, rfl⟩ := through_eq_error.mp hfirst
      exact ⟨0, json, inner, rfl, hinner, rfl⟩
    · rcases bind_eq_error.mp h with hrest | ⟨values, -, h⟩
      · obtain ⟨i, json', inner, hi, hinner, rfl⟩ := ih hrest
        refine ⟨i + 1, json', inner, hi, hinner, ?_⟩
        rw [Nat.add_assoc, Nat.add_comm 1 i]
      · cases h

namespace Decoder

mutual

theorem isTrue_of_decode :
    (d : Decoder) → {json : Json} → {e : DecodeError} → d.decode json = .error e →
      e.IsTrue d json
  | primitive leaf, json, e, h => by
    obtain ⟨hkind, rfl⟩ := Primitive.decode_eq_error.mp h
    exact .here List.mem_cons_self hkind
  | field key value, json, e, h => by
    rcases bind_eq_error.mp h with hmissing | ⟨inner, hinner, h⟩
    · obtain ⟨hnone, rfl⟩ := orFault_eq_error.mp hmissing
      exact .here List.mem_cons_self (Json.get?_eq_none.mp hnone)
    · obtain ⟨e, hvalue, rfl⟩ := through_eq_error.mp h
      exact ((isTrue_of_decode value hvalue).mono .field).under_key (orFault_eq_ok.mp hinner)
  | maybe inner, json, e, h => by
    rw [decode] at h
    split at h <;> cases h
  | list item, json, e, h => by
    rcases bind_eq_error.mp h with hkind | ⟨items, hitems, hrun⟩
    · obtain ⟨hnone, rfl⟩ := orFault_eq_error.mp hkind
      refine .here List.mem_cons_self ?_
      rw [Fault.IsOf, Json.isOf_list, hnone]
      rfl
    · rcases bind_eq_error.mp hrun with hitem | ⟨values, -, hdone⟩
      · obtain rfl := Json.array?_eq_some.mp (orFault_eq_ok.mp hitems)
        obtain ⟨i, json, inner, hi, hinner, rfl⟩ := decodeItems_eq_error hitem
        rw [Nat.zero_add]
        exact ((isTrue_of_decode item hinner).mono .list).under_index hi
      · cases hdone
  | map build values, json, e, h => by
    rcases bind_eq_error.mp h with hvalue | ⟨decoded, -, h⟩
    · obtain ⟨d, hd, htrue⟩ := isTrue_of_decodeAll values hvalue
      exact htrue.mono (.map hd)
    · cases h
  | dispatch cases, json, e, h => by
    rcases bind_eq_error.mp h with hmissing | ⟨value, hvalue, h⟩
    · obtain ⟨hnone, rfl⟩ := orFault_eq_error.mp hmissing
      exact .here List.mem_cons_self (Json.get?_eq_none.mp hnone)
    have hvalue := orFault_eq_ok.mp hvalue
    rcases bind_eq_error.mp h with hkind | ⟨type, htype, h⟩
    · obtain ⟨e, he, rfl⟩ := through_eq_error.mp hkind
      obtain ⟨hnone, rfl⟩ := orFault_eq_error.mp he
      refine .under_key (.here (by simp [ownFaults]) ?_) hvalue
      rw [Fault.IsOf, Json.isOf_string, hnone]
      rfl
    · obtain rfl := Json.string?_eq_some.mp (orFault_eq_ok.mp (through_eq_ok.mp htype))
      rcases isTrue_of_decodeCase cases h with ⟨rfl, hcases⟩ | ⟨name, d, hd, htrue⟩
      · -- only an object has a value under a key
        obtain ⟨entries, rfl⟩ : ∃ entries, json = .object entries := by
          cases json with
          | object entries => exact ⟨entries, rfl⟩
          | _ => cases hvalue
        exact .here (by simp [ownFaults]) ⟨entries, type, cases, rfl, hvalue, rfl, hcases⟩
      · exact htrue.mono (.dispatch hd)
  | succeed build, json, e, h => by cases h

theorem isTrue_of_decodeAll {json : Json} {e : DecodeError} :
    (ds : List Decoder) → decodeAll json ds = .error e → ∃ d ∈ ds, e.IsTrue d json
  | [], h => by cases h
  | d :: ds, h => by
    rcases bind_eq_error.mp h with hfirst | ⟨decoded, -, h⟩
    · exact ⟨d, List.mem_cons_self, isTrue_of_decode d hfirst⟩
    · rcases bind_eq_error.mp h with hrest | ⟨rest, -, h⟩
      · obtain ⟨d', hd', htrue⟩ := isTrue_of_decodeAll ds hrest
        exact ⟨d', List.mem_cons_of_mem d hd', htrue⟩
      · cases h

/-- Cases fail because there is none for the type, or the one that there is fails. -/
theorem isTrue_of_decodeCase {type : String} {json : Json} {e : DecodeError} :
    (cases : List (String × Decoder)) → decodeCase type json cases = .error e →
      (e = ⟨.unexpectedType, []⟩ ∧ ∀ case ∈ cases, case.1 ≠ type) ∨
        ∃ name d, (name, d) ∈ cases ∧ e.IsTrue d json
  | [], h => by
    cases h
    exact .inl ⟨rfl, by simp⟩
  | (name, d) :: cases, h => by
    rw [decodeCase] at h
    split at h
    · exact .inr ⟨name, d, List.mem_cons_self, isTrue_of_decode d h⟩
    · next hname =>
      rcases isTrue_of_decodeCase cases h with ⟨he, hcases⟩ | ⟨name', d', hd', htrue⟩
      · refine .inl ⟨he, fun case hcase => ?_⟩
        rcases List.mem_cons.mp hcase with rfl | hcase
        · exact hname
        · exact hcases case hcase
      · exact .inr ⟨name', d', List.mem_cons_of_mem _ hd', htrue⟩

end

/-- An error of a decoder tells the truth. Its text ends in the steps that lead to a value inside of the
decoded one: keys of objects and positions in arrays, all of which are there. That value has the fault: it
is not of the kind that is expected, or no object with the key that is missing, or an object whose type is
none of those that the decoder tells apart. -/
theorem decode_error_located {d : Decoder} {json : Json} {e : DecodeError}
    (h : d.decode json = .error e) :
    e.message = e.fault.text ++ " at $" ++ String.join (e.path.map Step.text) ∧
    ∃ inner part, json.at? e.path = some inner ∧ part.PartOf d ∧ e.fault ∈ part.ownFaults ∧
      e.fault.IsOf part inner :=
  ⟨rfl, isTrue_of_decode d h⟩

end Decoder

namespace Sample

/-- A decoder of users, whose names may be missing, and of bots. -/
def results : Decoder :=
  .field "search" (.list (.dispatch
    [("User", .map (.variant "User" ["name"]) [.maybe (.field "name" (.primitive .string))]),
      ("Bot", .succeed (.variant "Bot" []))]))

/-- A user whose name is no text, which is forgiven, and then a cat. -/
def strayResult : Json :=
  .object [("search", .array
    [.object [("__typename", .string "User"), ("name", .int 3)],
      .object [("__typename", .string "Cat")]])]

/-- The error for the cat. -/
def strayError : DecodeError := ⟨.unexpectedType, [.key "search", .index 1]⟩

end Sample

theorem Decoder.decode_error_located_stray :
    Sample.results.decode Sample.strayResult = .error Sample.strayError ∧
    Sample.strayError.message = "Unexpected union type at $.search[1]" ∧
    ∃ inner part, Sample.strayResult.at? Sample.strayError.path = some inner ∧
      part.PartOf Sample.results ∧ Sample.strayError.fault ∈ part.ownFaults ∧
      Sample.strayError.fault.IsOf part inner :=
  have hfails : Sample.results.decode Sample.strayResult = .error Sample.strayError := by rfl
  ⟨hfails, by rfl, (decode_error_located hfails).2⟩

end ElmBindings
