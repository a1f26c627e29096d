import ElmBindings.Proofs.DecodeFaults

set_option autoImplicit false

/-! # Data that no decoder asked for

A decoder looks at an object only through the keys of its fields and `__typename`. So two values that agree
under these keys, however deep in arrays and objects (`Json.Alike`), are the same to it: it gives one value
for both, or one error (`Decoder.decode_eq_of_alike`). In particular a `maybe` forgets an error for both or
for none, and a dispatch takes the same case. -/

namespace ElmBindings

/-! ## Values that agree under some keys -/

namespace Json

/-- Whether two values are the same but for what their objects have under other keys than some known ones. -/
inductive Alike (known : String → Prop) : Json → Json → Prop
  | null : Alike known .null .null
  | bool (value : Bool) : Alike known (.bool value) (.bool value)
  | int (value : Int) : Alike known (.int value) (.int value)
  | float (value : Binary64) : Alike known (.float value) (.float value)
  | string (value : String) : Alike known (.string value) (.string value)
  | array {items others : List Json} (h : List.Forall₂ (Alike known) items others) :
    Alike known (.array items) (.array others)
  | object {entries others : List (String × Json)}
    (h : ∀ key, known key →
      Option.Rel (Alike known) (get? key (.object entries)) (get? key (.object others))) :
    Alike known (.object entries) (.object others)

namespace Alike

variable {known : String → Prop} {json other : Json}

theorem get? (h : Alike known json other) {key : String} (hkey : known key) :
    Option.Rel (Alike known) (json.get? key) (other.get? key) := by
  cases h with
  | object h => exact h key hkey
  | _ => exact .none

theorem array? (h : Alike known json other) :
    Option.Rel (List.Forall₂ (Alike known)) json.array? other.array? := by
  cases h with
  | array h => exact .some h
  | _ => exact .none

theorem string?_eq (h : Alike known json other) : json.string? = other.string? := by
  cases h <;> rfl

theorem primitive_decode (h : Alike known json other) (leaf : Primitive) :
    leaf.decode json = leaf.decode other := by
  cases h <;> cases leaf <;> rfl

end Alike

theorem find?_reverse_filter {known : String → Bool} {key : String} (hkey : known key = true)
    (entries : List (String × Json)) :
    (entries.filter fun entry => known entry.1).reverse.find? (·.1 == key) =
      entries.reverse.find? (·.1 == key) := by
  rw [← List.filter_reverse, List.find?_filter]
  congr 1
  funext entry
  by_cases h : entry.1 = key
  · simp [h, hkey]
  · simp [h]

/-- Objects are alike if their entries under known keys are, one by one. Any other entries may be left out
of an object, put into it or changed. -/
theorem Alike.of_entries {known : String → Prop} {isKnown : String → Bool}
    (hknown : ∀ key, known key → isKnown key = true) {entries others : List (String × Json)}
    (h : List.Forall₂ (fun entry other => entry.1 = other.1 ∧ Alike known entry.2 other.2)
      (entries.filter fun entry => isKnown entry.1) (others.filter fun entry => isKnown entry.1)) :
    Alike known (.object entries) (.object others) := by
  refine .object fun key hkey => ?_
  rw [Json.get?, Json.get?, ← find?_reverse_filter (hknown key hkey) entries,
    ← find?_reverse_filter (hknown key hkey) others]
  have hreverse := List.rel_reverse h
  generalize (entries.filter fun entry => isKnown entry.1).reverse = front at hreverse
  generalize (others.filter fun entry => isKnown entry.1).reverse = back at hreverse
  induction hreverse with
  | nil => exact .none
  | @cons entry other front back hentry _ ih =>
    rw [List.find?_cons, List.find?_cons, ← hentry.1]
    cases entry.1 == key with
    | true => exact .some hentry.2
    | false => exact ih

end Json

/-! ## What a decoder looks at -/

/-- Whether a decoder looks at a key of some object: that of one of its fields, or the one that tells types
apart. -/
def Decoder.Knows (d : Decoder) (key : String) : Prop :=
  key = typeNameField ∨ ∃ value, (field key value).PartOf d

theorem Decoder.Knows.mono {d outer : Decoder} {key : String} (h : d.Knows key)
    (hpart : ∀ {part : Decoder}, part.PartOf d → part.PartOf outer) : outer.Knows key :=
  h.imp_right fun ⟨value, hvalue⟩ => ⟨value, hpart hvalue⟩

/-- Two runs that go on alike from parts that correspond have the same outcome. -/
theorem orFault_bind_congr {α β : Type} {fault : Fault} {R : α → α → Prop} {x y : Option α}
    {f g : α → Except DecodeError β} (h : Option.Rel R x y) (hfg : ∀ {a b}, R a b → f a = g b) :
    (orFault fault x >>= f) = (orFault fault y >>= g) := by
  cases h with
  | none => rfl
  | some hab => exact hfg hab

theorem decodeItems_congr {item : Json → Except DecodeError Decoded} {known : String → Prop}
    (hitem : ∀ {json other}, Json.Alike known json other → item json = item other)
    {items others : List Json} (h : List.Forall₂ (Json.Alike known) items others) (start : Nat) :
    decodeItems item start items = decodeItems item start others := by
  induction h generalizing start with
  | nil => rfl
  | cons hfirst _ ih => rw [decodeItems, decodeItems, hitem hfirst, ih]

namespace Decoder

mutual

/-- A decoder whose keys are known sees no difference between values that are alike. -/
theorem decode_congr {known : String → Prop} :
    (d : Decoder) → (∀ key, d.Knows key → known key) → {json other : Json} →
      json.Alike known other → d.decode json = d.decode other
  | primitive leaf, _, json, other, h => by
    rw [decode, decode, h.primitive_decode]
  | field key value, hknown, json, other, h => by
    rw [decode, decode]
    refine orFault_bind_congr (h.get? (hknown key (.inr ⟨value, .self⟩))) fun hinner => ?_
    rw [decode_congr value (fun key hkey => hknown key (hkey.mono .field)) hinner]
  | maybe inner, hknown, json, other, h => by
    rw [decode, decode, decode_congr inner (fun key hkey => hknown key (hkey.mono .maybe)) h]
  | list item, hknown, json, other, h => by
    rw [decode, decode]
    refine orFault_bind_congr h.array? fun hitems => ?_
    rw [decodeItems_congr (decode_congr item fun key hkey => hknown key (hkey.mono .list)) hitems]
  | map build values, hknown, json, other, h => by
    rw [decode, decode, decodeAll_congr values
      (fun d hd key hkey => hknown key (hkey.mono (.map hd))) h]
  | dispatch cases, hknown, json, other, h => by
    rw [decode, decode]
    refine orFault_bind_congr (h.get? (hknown _ (.inl rfl))) fun htype => ?_
    rw [htype.string?_eq]
    congr 1
    funext type
    exact decodeCase_congr cases
      (fun name d hd key hkey => hknown key (hkey.mono (.dispatch hd))) type h
  | succeed build, _, json, other, h => rfl

theorem decodeAll_congr {known : String → Prop} {json other : Json} :
    (ds : List Decoder) → (∀ d ∈ ds, ∀ key, d.Knows key → known key) → json.Alike known other →
      decodeAll json ds = decodeAll other ds
  | [], _, _ => rfl
  | d :: ds, hknown, h => by
    rw [decodeAll, decodeAll, decode_congr d (hknown d List.mem_cons_self) h,
      decodeAll_congr ds (fun d' hd' => hknown d' (List.mem_cons_of_mem d hd')) h]

theorem decodeCase_congr {known : String → Prop} {json other : Json} :
    (cases : List (String × Decoder)) →
      (∀ name d, (name, d) ∈ cases → ∀ key, d.Knows key → known key) → (type : String) →
      json.Alike known other → decodeCase type json cases = decodeCase type other cases
  | [], _, _, _ => rfl
  | (name, d) :: cases, hknown, type, h => by
    rw [decodeCase, decodeCase, decode_congr d (hknown name d List.mem_cons_self) h,
      decodeCase_congr cases (fun name' d' hd' => hknown name' d' (List.mem_cons_of_mem _ hd')) type h]

end

/-- A decoder gives the same value, or the same error, for values that differ only in what their objects have
under keys that are neither those of its fields nor `__typename`. -/
theorem decode_eq_of_alike (d : Decoder) {json other : Json} (h : json.Alike d.Knows other) :
    d.decode json = d.decode other :=
  decode_congr d (fun _ hkey => hkey) h

end Decoder

namespace Sample

/-- What a server may say beside the results that were asked for. -/
def chattyResult : Json :=
  .object [("total", .int 2), ("search", .array
    [.object [("__typename", .string "User"), ("age", .null), ("name", .int 3)],
      .object [("__typename", .string "Cat"), ("owner", .object [("name", .string "Ada")])]])]

theorem mem_of_knows_results {key : String} (h : results.Knows key) :
    ["__typename", "search", "name"].contains key = true := by
  rcases h with rfl | ⟨value, h⟩
  · decide
  · cases h with
    | self => decide
    | field h =>
      cases h with | list h =>
      cases h with | dispatch hcase h =>
      rcases List.mem_cons.mp hcase with heq | hcase
      · cases heq
        cases h with | map hd h =>
        obtain rfl := List.mem_singleton.mp hd
        cases h with | maybe h =>
        cases h with
        | self => decide
        | field h => cases h
      · cases List.mem_singleton.mp hcase
        cases h

theorem alike_chattyResult : strayResult.Alike results.Knows chattyResult := by
  have hknown := fun key (h : results.Knows key) => mem_of_knows_results h
  refine .of_entries hknown (.cons ⟨rfl, .array (.cons ?_ (.cons ?_ .nil))⟩ .nil)
  · exact .of_entries hknown (.cons ⟨rfl, .string "User"⟩ (.cons ⟨rfl, .int 3⟩ .nil))
  · exact .of_entries hknown (.cons ⟨rfl, .string "Cat"⟩ .nil)

end Sample

theorem Decoder.decode_eq_of_alike_chatty :
    Sample.strayResult.Alike Sample.results.Knows Sample.chattyResult ∧
    Sample.results.decode Sample.strayResult = Sample.results.decode Sample.chattyResult :=
  ⟨Sample.alike_chattyResult, decode_eq_of_alike Sample.results Sample.alike_chattyResult⟩

end ElmBindings
