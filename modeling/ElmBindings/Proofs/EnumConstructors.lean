import ElmBindings.Proofs.EnumCode
import ElmBindings.Proofs.ReadingOrder

set_option autoImplicit false

/-! # Constructors of the enums of a module

An enum of a list gets the name of its type before its constructors exactly if it shares a plain constructor
with another enum of the list (`Schema.Clashes`). That is a matter of the set of names alone, so neither
their order nor repetitions change the names of an enum (`EnumIndex.ofNames_constructors`).

A type name before a constructor makes a new name, and nothing compares it with the other ones: after `A` was
put before `B`, an enum that did not clash can still have a constructor `AB`. `Schema.Overlaps` says when that
happens. It is the only way in which two constructors can be the same, and a module with such enums is not
emitted (`EnumIndex.ofNames_distinct_iff`). -/

namespace ElmBindings

/-! ## Clashes -/

namespace Schema

/-- Whether an enum of the schema has a value with the given plain constructor. -/
def HasPlain (schema : Schema) (name c : String) : Prop :=
  ∃ d, schema.get? name = some (.enum d) ∧ ∃ value ∈ d.values, Naming.pascalCase value.name = c

/-- Whether an enum shares a plain constructor with another enum of a list. -/
def Clashes (schema : Schema) (names : List String) (name : String) : Prop :=
  ∃ other ∈ names, other ≠ name ∧ ∃ c, schema.HasPlain name c ∧ schema.HasPlain other c

/-- Whether a text is what an enum of a list has before its plain constructors: the name of its type if it
clashes with another enum, and nothing otherwise. -/
def IsStart (schema : Schema) (names : List String) (name start : String) : Prop :=
  schema.Clashes names name ∧ start = ElmType.enumName name ∨
    ¬ schema.Clashes names name ∧ start = ""

variable {schema : Schema} {names others : List String} {name : String}

/-- Neither the order of a list nor its repetitions matter for clashes. -/
theorem clashes_congr (h : ∀ name, name ∈ others ↔ name ∈ names) :
    schema.Clashes others name ↔ schema.Clashes names name := by
  simp only [Clashes, h]

theorem IsStart.unique {start start' : String} (h : schema.IsStart names name start)
    (h' : schema.IsStart names name start') : start = start' := by
  rcases h with ⟨hc, rfl⟩ | ⟨hc, rfl⟩ <;> rcases h' with ⟨hc', rfl⟩ | ⟨hc', rfl⟩
  · rfl
  · exact absurd hc hc'
  · exact absurd hc' hc
  · rfl

end Schema

/-! ## Names in an index -/

namespace EnumIndex

variable {schema : Schema} {names : List String} {name : String} {index : EnumIndex}

theorem plainNaming_eq_ok {enum : EnumNaming} :
    plainNaming schema name = .ok enum ↔
      ∃ d, schema.get? name = some (.enum d) ∧
        enum = .plain name (d.values.map EnumValue.name) := by
  unfold plainNaming Schema.enumValues?
  constructor
  · intro h
    split at h
    · next hvalues =>
      split at hvalues
      · next d hd =>
        cases hvalues
        cases h
        exact ⟨d, hd, rfl⟩
      · cases hvalues
    · cases h
  · rintro ⟨d, hd, rfl⟩
    rw [hd]

/-- Enums clash if they share a plain constructor. -/
theorem clashes_iff {other : String} {enum enum' : EnumNaming}
    (h : plainNaming schema name = .ok enum) (h' : plainNaming schema other = .ok enum') :
    enum.clashes enum' = true ↔ ∃ c, schema.HasPlain name c ∧ schema.HasPlain other c := by
  obtain ⟨d, hd, rfl⟩ := plainNaming_eq_ok.mp h
  obtain ⟨d', hd', rfl⟩ := plainNaming_eq_ok.mp h'
  simp only [EnumNaming.clashes, EnumNaming.plain, List.any_map, List.any_eq_true,
    Function.comp_apply, beq_iff_eq, Schema.HasPlain, hd, hd', Option.some.injEq,
    TypeDef.enum.injEq, exists_eq_left']
  constructor
  · rintro ⟨value, hvalue, value', hvalue', heq⟩
    exact ⟨_, ⟨value, hvalue, rfl⟩, value', hvalue', heq.symm⟩
  · rintro ⟨c, ⟨value, hvalue, rfl⟩, value', hvalue', heq⟩
    exact ⟨value, hvalue, value', hvalue', heq.symm⟩

theorem any_clashes_iff {plains : List EnumNaming} {enum : EnumNaming}
    (hplains : names.eraseDups.mapM (plainNaming schema) = .ok plains)
    (henum : plainNaming schema name = .ok enum) :
    (plains.any fun other => other.name != enum.name && enum.clashes other) = true ↔
      schema.Clashes names name := by
  have hall := forall₂_of_mapM_eq_ok hplains
  have hnamed {name : String} {enum : EnumNaming} (h : plainNaming schema name = .ok enum) :
      enum.name = name := by
    obtain ⟨d, -, rfl⟩ := plainNaming_eq_ok.mp h
    rfl
  simp only [List.any_eq_true, Bool.and_eq_true, bne_iff_ne, ne_eq]
  constructor
  · rintro ⟨other, hother, hne, hclash⟩
    obtain ⟨otherName, hmem, hplain⟩ := exists_of_mem_right hall hother
    rw [hnamed hplain, hnamed henum] at hne
    exact ⟨otherName, List.mem_eraseDups.mp hmem, hne, (clashes_iff henum hplain).mp hclash⟩
  · rintro ⟨otherName, hmem, hne, hshared⟩
    obtain ⟨other, hother, hplain⟩ :=
      exists_of_mem_right hall.flip (List.mem_eraseDups.mpr hmem)
    refine ⟨other, hother, ?_, (clashes_iff henum hplain).mpr hshared⟩
    rwa [hnamed hplain, hnamed henum]

/-- Settling changes no name, so an enum is found where its plain names are. -/
theorem find?_settle (enums : List EnumNaming) (name : String) :
    (settle enums).find? (·.name == name) =
      (enums.find? (·.name == name)).map fun enum =>
        if enums.any fun other => other.name != enum.name && enum.clashes other then enum.qualified
        else enum := by
  rw [settle, List.find?_map]
  congr 2
  funext enum
  rw [Function.comp_apply]
  split <;> rfl

/-- What an index has for a name of its list. -/
theorem get?_of_mem (h : ofNames schema names = .ok index) (hname : name ∈ names) :
    ∃ d start, schema.get? name = some (.enum d) ∧ schema.IsStart names name start ∧
      index.get? name = some ⟨name, d.values.map fun value =>
        (value.name, start ++ Naming.pascalCase value.name)⟩ := by
  obtain ⟨plains, hplains, h⟩ := bind_eq_ok.mp h
  cases h
  obtain ⟨enum, henum, hplain⟩ :=
    exists_of_mem_right (forall₂_of_mapM_eq_ok hplains).flip (List.mem_eraseDups.mpr hname)
  have hclash := any_clashes_iff hplains hplain
  obtain ⟨d, hd, rfl⟩ := plainNaming_eq_ok.mp hplain
  have hnodup : (plains.map EnumNaming.name).Nodup := by
    rw [map_name_of_mapM hplains]
    exact nodup_eraseDups names
  have hfind : plains.find? (·.name == name) = some (.plain name (d.values.map EnumValue.name)) :=
    find?_of_nodup_map hnodup henum
  by_cases hc : schema.Clashes names name
  · refine ⟨d, _, hd, .inl ⟨hc, rfl⟩, ?_⟩
    rw [get?, find?_settle, hfind, Option.map_some, if_pos (hclash.mpr hc)]
    simp [EnumNaming.qualified, EnumNaming.plain, EnumNaming.typeName]
  · refine ⟨d, _, hd, .inr ⟨hc, rfl⟩, ?_⟩
    rw [get?, find?_settle, hfind, Option.map_some, if_neg (mt hclash.mp hc)]
    simp [EnumNaming.plain]

theorem get?_of_not_mem (h : ofNames schema names = .ok index) (hname : name ∉ names) :
    index.get? name = none := by
  rw [get?, List.find?_eq_none]
  intro enum henum hfound
  have hmem : enum.name ∈ index.enums.map EnumNaming.name := List.mem_map_of_mem henum
  rw [map_name_of_ofNames h, List.mem_eraseDups, eq_of_beq hfound] at hmem
  exact hname hmem

/-- What an index has for a name depends neither on the order of the list nor on its repetitions. -/
theorem get?_congr {others : List String} {index' : EnumIndex}
    (h : ofNames schema names = .ok index) (h' : ofNames schema others = .ok index')
    (hsame : ∀ name, name ∈ others ↔ name ∈ names) (name : String) :
    index'.get? name = index.get? name := by
  by_cases hname : name ∈ names
  · obtain ⟨d, start, hd, hstart, hget⟩ := get?_of_mem h hname
    obtain ⟨d', start', hd', hstart', hget'⟩ := get?_of_mem h' ((hsame name).mpr hname)
    rw [Schema.IsStart, Schema.clashes_congr hsame] at hstart'
    cases hd.symm.trans hd'
    cases hstart.unique hstart'
    rw [hget, hget']
  · rw [get?_of_not_mem h hname, get?_of_not_mem h' (mt (hsame name).mp hname)]

theorem exists_of_enums (h : ∀ name ∈ names, ∃ d, schema.get? name = some (.enum d)) :
    ∃ index, ofNames schema names = .ok index := by
  refine exists_ofNames fun name hname => ?_
  obtain ⟨d, hd⟩ := h name hname
  exact ⟨d.values.map EnumValue.name, by rw [Schema.enumValues?, hd]⟩

/-- The enums of a list have their type names before all of their constructors or before none: an enum has it
if one of its plain constructors is that of another enum of the list. The enums stand in the order of their
first occurrence, and a list of the same names in another order or with other repetitions gives each enum
the same constructors. -/
theorem ofNames_constructors (h : ∀ name ∈ names, ∃ d, schema.get? name = some (.enum d)) :
    ∃ index, ofNames schema names = .ok index ∧
      IsFirsts names (index.enums.map EnumNaming.name) ∧
      (∀ name ∈ names, ∃ enum d, index.get? name = some enum ∧ enum.name = name ∧
        schema.get? name = some (.enum d) ∧
        (schema.Clashes names name → enum.constructors = d.values.map fun value =>
          (value.name, ElmType.enumName name ++ Naming.pascalCase value.name)) ∧
        (¬ schema.Clashes names name → enum.constructors = d.values.map fun value =>
          (value.name, Naming.pascalCase value.name))) ∧
      ∀ others, (∀ name, name ∈ others ↔ name ∈ names) →
        ∃ index', ofNames schema others = .ok index' ∧
          ∀ name, index'.get? name = index.get? name := by
  obtain ⟨index, hindex⟩ := exists_of_enums h
  refine ⟨index, hindex, ?_, ?_, ?_⟩
  · rw [map_name_of_ofNames hindex]
    exact isFirsts_eraseDups names
  · intro name hname
    obtain ⟨d, start, hd, hstart, hget⟩ := get?_of_mem hindex hname
    refine ⟨_, d, hget, rfl, hd, fun hc => ?_, fun hc => ?_⟩
    · rw [hstart.unique (.inl ⟨hc, rfl⟩)]
    · rw [hstart.unique (.inr ⟨hc, rfl⟩)]
      simp
  · intro others hsame
    obtain ⟨index', hindex'⟩ := exists_of_enums fun name hname => h name ((hsame name).mp hname)
    exact ⟨index', hindex', get?_congr hindex hindex' hsame⟩

end EnumIndex

namespace Sample

/-- An enum with the given values. -/
def enumDef (name : String) (values : List String) : EnumDef :=
  ⟨name, none, values.map fun value => ⟨value, none, none⟩⟩

/-- Two enums that share a value, and one with the value that names the first one and its value. -/
def letters : Schema :=
  [TypeDef.enum (enumDef "A" ["B"]), .enum (enumDef "C" ["B"]),
    .enum (enumDef "D" ["A_B"])].foldl Schema.add (.ofQuery "Query")

theorem names_letters : Naming.pascalCase "B" = "B" ∧ Naming.pascalCase "A_B" = "AB" ∧
    ElmType.enumName "A" = "A" ∧ ElmType.enumName "C" = "C" ∧ ElmType.enumName "D" = "D" := by
  decide +kernel

theorem get?_letters : letters.get? "A" = some (.enum (enumDef "A" ["B"])) ∧
    letters.get? "C" = some (.enum (enumDef "C" ["B"])) ∧
      letters.get? "D" = some (.enum (enumDef "D" ["A_B"])) := by
  decide

/-- What holds of the three enums holds of every name in a list of them. -/
theorem forall_letters {P : String → Prop} (hA : P "A") (hC : P "C") (hD : P "D")
    {names : List String} (h : names ⊆ ["A", "C", "D"]) : ∀ name ∈ names, P name := by
  have hall : ∀ name ∈ ["A", "C", "D"], P name := by simp [hA, hC, hD]
  exact fun name hname => hall name (h hname)

theorem enum_letters {names : List String} (h : names ⊆ ["A", "C", "D"]) :
    ∀ name ∈ names, ∃ d, letters.get? name = some (.enum d) := by
  obtain ⟨hA, hC, hD⟩ := get?_letters
  exact forall_letters ⟨_, hA⟩ ⟨_, hC⟩ ⟨_, hD⟩ h

theorem hasPlain_letters (c : String) : (letters.HasPlain "A" c ↔ c = "B") ∧
    (letters.HasPlain "C" c ↔ c = "B") ∧ (letters.HasPlain "D" c ↔ c = "AB") := by
  obtain ⟨hA, hC, hD⟩ := get?_letters
  obtain ⟨hB, hAB, -⟩ := names_letters
  simp [Schema.HasPlain, hA, hC, hD, enumDef, hB, hAB, eq_comm]

theorem clashes_A {names : List String} (h : "C" ∈ names) : letters.Clashes names "A" :=
  ⟨"C", h, by decide, "B", (hasPlain_letters "B").1.mpr rfl, (hasPlain_letters "B").2.1.mpr rfl⟩

theorem clashes_C {names : List String} (h : "A" ∈ names) : letters.Clashes names "C" :=
  ⟨"A", h, by decide, "B", (hasPlain_letters "B").2.1.mpr rfl, (hasPlain_letters "B").1.mpr rfl⟩

theorem not_clashes_D {names : List String} (h : names ⊆ ["A", "C", "D"]) :
    ¬ letters.Clashes names "D" := by
  rintro ⟨other, hother, hne, c, hD, hplain⟩
  obtain ⟨hA, hC, hD'⟩ := hasPlain_letters c
  obtain rfl := hD'.mp hD
  have honly : other = "D" := by
    refine forall_letters (P := fun other => letters.HasPlain other "AB" → other = "D") ?_ ?_ ?_ h
      other hother hplain
    · exact fun hplain => absurd (hA.mp hplain) (by decide)
    · exact fun hplain => absurd (hC.mp hplain) (by decide)
    · exact fun _ => rfl
  exact hne honly

end Sample

/-- Of three enums two clash; the third one comes between them, and one of them comes again. -/
theorem EnumIndex.ofNames_constructors_letters :
    ∃ index index' clashing plain,
      ofNames Sample.letters ["C", "D", "A", "C"] = .ok index ∧
      IsFirsts ["C", "D", "A", "C"] (index.enums.map EnumNaming.name) ∧
      index.get? "C" = some clashing ∧ clashing.constructors = [("B", "CB")] ∧
      index.get? "D" = some plain ∧ plain.constructors = [("A_B", "AB")] ∧
      ofNames Sample.letters ["A", "C", "D"] = .ok index' ∧
      ∀ name, index'.get? name = index.get? name := by
  have hletters : ["C", "D", "A", "C"] ⊆ ["A", "C", "D"] := by decide
  obtain ⟨index, hindex, hfirsts, hnames, hothers⟩ :=
    ofNames_constructors (Sample.enum_letters hletters)
  obtain ⟨index', hindex', hsame⟩ := hothers ["A", "C", "D"] (by simp [or_comm, or_left_comm])
  obtain ⟨clashing, d, hclashing, -, hd, hqualified, -⟩ := hnames "C" (by simp)
  obtain ⟨plain, d', hplain, -, hd', -, hbare⟩ := hnames "D" (by simp)
  obtain ⟨-, hC, hD⟩ := Sample.get?_letters
  obtain ⟨hB, hAB, -, htype, -⟩ := Sample.names_letters
  cases hd.symm.trans hC
  cases hd'.symm.trans hD
  refine ⟨index, index', clashing, plain, hindex, hfirsts, hclashing, ?_, hplain, ?_, hindex', hsame⟩
  · rw [hqualified (Sample.clashes_C (by simp)), htype]
    simp [Sample.enumDef, hB]
  · rw [hbare (Sample.not_clashes_D hletters)]
    simp [Sample.enumDef, hAB]

/-! ## Constructors that are the same -/

/-- The constructors of all enums of an index. -/
def EnumIndex.constructors (index : EnumIndex) : List String :=
  index.enums.flatMap fun enum => enum.constructors.map Prod.snd

/-- Where two texts are divided in two ways, one of the first parts goes on where the other one ends. -/
theorem append_eq_append {s t a b : String} (h : s ++ a = t ++ b) :
    (∃ rest, t = s ++ rest ∧ a = rest ++ b) ∨ ∃ rest, s = t ++ rest ∧ b = rest ++ a := by
  have hlists : s.toList ++ a.toList = t.toList ++ b.toList := by
    rw [← String.toList_append, h, String.toList_append]
  rcases List.append_eq_append_iff.mp hlists with ⟨rest, ht, ha⟩ | ⟨rest, hs, hb⟩
  · refine .inl ⟨String.ofList rest, String.toList_inj.mp ?_, String.toList_inj.mp ?_⟩ <;> simpa
  · refine .inr ⟨String.ofList rest, String.toList_inj.mp ?_, String.toList_inj.mp ?_⟩ <;> simpa

namespace Schema

/-- Whether an enum has a constructor when it is one of a list. -/
def HasConstructor (schema : Schema) (names : List String) (name c : String) : Prop :=
  ∃ start plain, schema.IsStart names name start ∧ schema.HasPlain name plain ∧ c = start ++ plain

/-- Whether the type name of an enum that clashes, put before a plain constructor, makes a constructor of
another enum. That one is either an enum that does not clash, or its type name is longer by a part with which
the plain constructor begins. -/
inductive Overlaps (schema : Schema) (names : List String) : Prop
  | plain {name other c : String} (hname : name ∈ names) (hother : other ∈ names)
    (hclash : schema.Clashes names name) (hplain : ¬ schema.Clashes names other)
    (hc : schema.HasPlain name c) (hsame : schema.HasPlain other (ElmType.enumName name ++ c))
  | qualified {name other rest c : String} (hname : name ∈ names) (hother : other ∈ names)
    (hclash : schema.Clashes names name) (hclash' : schema.Clashes names other) (hrest : rest ≠ "")
    (htype : ElmType.enumName other = ElmType.enumName name ++ rest)
    (hc : schema.HasPlain name (rest ++ c)) (hsame : schema.HasPlain other c)

variable {schema : Schema} {names : List String}

theorem Overlaps.congr {others : List String} (h : schema.Overlaps names)
    (hsame : ∀ name, name ∈ others ↔ name ∈ names) : schema.Overlaps others := by
  cases h with
  | plain hname hother hclash hplain hc hc' =>
    exact .plain ((hsame _).mpr hname) ((hsame _).mpr hother) ((clashes_congr hsame).mpr hclash)
      (mt (clashes_congr hsame).mp hplain) hc hc'
  | qualified hname hother hclash hclash' hrest htype hc hc' =>
    exact .qualified ((hsame _).mpr hname) ((hsame _).mpr hother)
      ((clashes_congr hsame).mpr hclash) ((clashes_congr hsame).mpr hclash') hrest htype hc hc'

theorem exists_shared_of_overlaps (h : schema.Overlaps names) :
    ∃ name ∈ names, ∃ other ∈ names, name ≠ other ∧
      ∃ c, schema.HasConstructor names name c ∧ schema.HasConstructor names other c := by
  cases h with
  | plain hname hother hclash hplain hc hsame =>
    refine ⟨_, hname, _, hother, ?_, _, ⟨_, _, .inl ⟨hclash, rfl⟩, hc, rfl⟩,
      ⟨_, _, .inr ⟨hplain, rfl⟩, hsame, by simp⟩⟩
    rintro rfl
    exact hplain hclash
  | qualified hname hother hclash hclash' hrest htype hc hsame =>
    refine ⟨_, hname, _, hother, ?_, _, ⟨_, _, .inl ⟨hclash, rfl⟩, hc, rfl⟩,
      ⟨_, _, .inl ⟨hclash', rfl⟩, hsame, by rw [htype, String.append_assoc]⟩⟩
    rintro rfl
    exact hrest ((String.append_right_inj _).mp (htype.symm.trans String.append_empty.symm))

theorem overlaps_of_shared (htypes : ∀ name ∈ names, ∀ other ∈ names,
      ElmType.enumName name = ElmType.enumName other → name = other)
    {name other c : String} (hname : name ∈ names) (hother : other ∈ names) (hne : name ≠ other)
    (hc : schema.HasConstructor names name c) (hc' : schema.HasConstructor names other c) :
    schema.Overlaps names := by
  obtain ⟨start, p, hstart, hp, rfl⟩ := hc
  obtain ⟨start', p', hstart', hp', heq⟩ := hc'
  rcases hstart with ⟨hclash, rfl⟩ | ⟨hclash, rfl⟩ <;>
    rcases hstart' with ⟨hclash', rfl⟩ | ⟨hclash', rfl⟩
  · have hlonger {n m rest : String} (hn : n ∈ names) (hm : m ∈ names) (hnm : n ≠ m)
        (h : ElmType.enumName m = ElmType.enumName n ++ rest) : rest ≠ "" := by
      rintro rfl
      rw [String.append_empty] at h
      exact hnm (htypes n hn m hm h.symm)
    rcases append_eq_append heq with ⟨rest, htype, rfl⟩ | ⟨rest, htype, rfl⟩
    · exact .qualified hname hother hclash hclash' (hlonger hname hother hne htype) htype hp hp'
    · exact .qualified hother hname hclash' hclash (hlonger hother hname hne.symm htype) htype hp'
        hp
  · rw [String.empty_append] at heq
    exact .plain hname hother hclash hclash' hp (heq ▸ hp')
  · rw [String.empty_append] at heq
    exact .plain hother hname hclash' hclash hp' (heq ▸ hp)
  · -- plain constructors that are the same are a clash
    rw [String.empty_append, String.empty_append] at heq
    exact absurd ⟨other, hother, hne.symm, p, hp, heq ▸ hp'⟩ hclash

end Schema

namespace EnumIndex

variable {schema : Schema} {names : List String} {index : EnumIndex}

theorem nodup_names (h : ofNames schema names = .ok index) :
    (index.enums.map EnumNaming.name).Nodup := by
  rw [map_name_of_ofNames h]
  exact nodup_eraseDups names

theorem exists_of_mem_enums (h : ofNames schema names = .ok index) {enum : EnumNaming}
    (henum : enum ∈ index.enums) : enum.name ∈ names ∧
      ∃ d start, schema.get? enum.name = some (.enum d) ∧
        schema.IsStart names enum.name start ∧
        enum.constructors = d.values.map fun value =>
          (value.name, start ++ Naming.pascalCase value.name) := by
  have hname : enum.name ∈ names := by
    rw [← List.mem_eraseDups, ← map_name_of_ofNames h]
    exact List.mem_map_of_mem henum
  obtain ⟨d, start, hd, hstart, hget⟩ := get?_of_mem h hname
  have hfind : index.get? enum.name = some enum := find?_of_nodup_map (nodup_names h) henum
  rw [hfind, Option.some.injEq] at hget
  exact ⟨hname, d, start, hd, hstart, congrArg EnumNaming.constructors hget⟩

theorem mem_constructors_iff (h : ofNames schema names = .ok index) {enum : EnumNaming}
    (henum : enum ∈ index.enums) (c : String) :
    c ∈ enum.constructors.map Prod.snd ↔ schema.HasConstructor names enum.name c := by
  obtain ⟨-, d, start, hd, hstart, hconstructors⟩ := exists_of_mem_enums h henum
  rw [hconstructors, List.map_map, List.mem_map]
  constructor
  · rintro ⟨value, hvalue, rfl⟩
    exact ⟨start, _, hstart, ⟨d, hd, value, hvalue, rfl⟩, rfl⟩
  · rintro ⟨start', p, hstart', ⟨d', hd', value, hvalue, rfl⟩, rfl⟩
    cases hd.symm.trans hd'
    exact ⟨value, hvalue, by rw [Function.comp_apply, hstart.unique hstart']⟩

/-- Constructors are told apart if no two enums share one, since those of one enum differ. -/
theorem nodup_constructors_iff (h : ofNames schema names = .ok index)
    (hvalues : ∀ name ∈ names, ∀ d, schema.get? name = some (.enum d) →
      (d.values.map fun value => Naming.pascalCase value.name).Nodup) :
    index.constructors.Nodup ↔ ∀ name ∈ names, ∀ other ∈ names, name ≠ other →
      ∀ c, schema.HasConstructor names name c → ¬ schema.HasConstructor names other c := by
  have hone : ∀ enum ∈ index.enums, (enum.constructors.map Prod.snd).Nodup := by
    intro enum henum
    obtain ⟨hname, d, start, hd, -, hconstructors⟩ := exists_of_mem_enums h henum
    have hplain := (hvalues enum.name hname d hd).map fun a b : String =>
      (String.append_right_inj start).mp
    rw [List.map_map] at hplain
    rwa [hconstructors, List.map_map]
  have hfound : ∀ name ∈ names, ∃ enum ∈ index.enums, enum.name = name := by
    intro name hname
    rw [← List.mem_eraseDups, ← map_name_of_ofNames h] at hname
    exact List.mem_map.mp hname
  rw [constructors, List.nodup_flatMap, and_iff_right hone]
  constructor
  · intro hpairwise name hname other hother hne c hc hc'
    obtain ⟨enum, henum, rfl⟩ := hfound name hname
    obtain ⟨enum', henum', rfl⟩ := hfound other hother
    have hsymm : Std.Symm (Function.onFun List.Disjoint fun enum : EnumNaming =>
        enum.constructors.map Prod.snd) := ⟨fun _ _ hdisjoint => List.Disjoint.symm hdisjoint⟩
    have hdiffer : enum ≠ enum' := fun heq => hne (congrArg EnumNaming.name heq)
    exact hpairwise.forall henum henum' hdiffer ((mem_constructors_iff h henum c).mpr hc)
      ((mem_constructors_iff h henum' c).mpr hc')
  · intro hshared
    refine (List.pairwise_map.mp (nodup_names h)).imp_of_mem ?_
    intro enum enum' henum henum' hne c hc hc'
    exact hshared _ (exists_of_mem_enums h henum).1 _ (exists_of_mem_enums h henum').1 hne c
      ((mem_constructors_iff h henum c).mp hc) ((mem_constructors_iff h henum' c).mp hc')

theorem nodup_iff_not_overlaps (h : ofNames schema names = .ok index)
    (htypes : ∀ name ∈ names, ∀ other ∈ names,
      ElmType.enumName name = ElmType.enumName other → name = other)
    (hvalues : ∀ name ∈ names, ∀ d, schema.get? name = some (.enum d) →
      (d.values.map fun value => Naming.pascalCase value.name).Nodup) :
    index.constructors.Nodup ↔ ¬ schema.Overlaps names := by
  rw [nodup_constructors_iff h hvalues]
  constructor
  · intro hshared hoverlaps
    obtain ⟨name, hname, other, hother, hne, c, hc, hc'⟩ :=
      Schema.exists_shared_of_overlaps hoverlaps
    exact hshared name hname other hother hne c hc hc'
  · intro hnot name hname other hother hne c hc hc'
    exact hnot (Schema.overlaps_of_shared htypes hname hother hne hc hc')

end EnumIndex

/-- A module declares the constructors of its enums, so they all differ. -/
theorem ModulePlan.nodup_allConstructors {schema : Schema} {bindings : List Binding}
    {plan : ModulePlan} (h : ofBindings schema bindings = .ok plan) :
    plan.enums.constructors.Nodup := by
  obtain ⟨-, -, hvalues, -⟩ := ofBindings_eq_ok h
  have hmodule : (moduleValues bindings plan.unions plan.enums).Nodup := hvalues.of_append_left
  rw [moduleValues] at hmodule
  have henums := hmodule.of_append_left.of_append_right
  exact henums.sublist
    (List.Sublist.flatMap_right _ fun enum _ => List.sublist_append_right _ _)

/-- Where the types of enums have different names and the plain constructors of each enum differ, the
constructors of all enums are different exactly if none of them overlap. A module that uses enums which do
is refused, with a name that it would declare twice. -/
theorem EnumIndex.ofNames_distinct_iff {schema : Schema} {names : List String}
    (hnames : ∀ name ∈ names, ∃ d, schema.get? name = some (.enum d))
    (htypes : ∀ name ∈ names, ∀ other ∈ names,
      ElmType.enumName name = ElmType.enumName other → name = other)
    (hvalues : ∀ name ∈ names, ∀ d, schema.get? name = some (.enum d) →
      (d.values.map fun value => Naming.pascalCase value.name).Nodup) :
    ∃ index, ofNames schema names = .ok index ∧
      (index.constructors.Nodup ↔ ¬ schema.Overlaps names) ∧
      ∀ options bindings, (∀ name, Uses bindings (.enum name) ↔ name ∈ names) →
        schema.Overlaps names →
          ∃ c, emitModule schema options bindings = .error (.duplicateDeclaration c) := by
  obtain ⟨index, hindex⟩ := exists_of_enums hnames
  refine ⟨index, hindex, nodup_iff_not_overlaps hindex htypes hvalues, ?_⟩
  intro options bindings huses hoverlaps
  have hsame : ∀ name, name ∈ enumsUsed bindings ↔ name ∈ names :=
    fun name => mem_enumsUsed_iff.trans (huses name)
  obtain ⟨used, hused⟩ := exists_of_enums fun name hname => hnames name ((hsame name).mp hname)
  cases hplan : ModulePlan.ofBindings schema bindings with
  | ok plan =>
    obtain ⟨-, henums, -, -⟩ := ModulePlan.ofBindings_eq_ok hplan
    cases hused.symm.trans henums
    have hnot := (nodup_iff_not_overlaps hused
      (fun name hname other hother =>
        htypes name ((hsame name).mp hname) other ((hsame other).mp hother))
      (fun name hname => hvalues name ((hsame name).mp hname))).mp
        (ModulePlan.nodup_allConstructors hplan)
    exact absurd (hoverlaps.congr hsame) hnot
  | error e =>
    obtain ⟨unions, -, hunions⟩ := exists_unions bindings
    obtain ⟨c, rfl, -⟩ := ModulePlan.ofBindings_eq_error hunions hused hplan
    exact ⟨c, bind_eq_error.mpr (.inl hplan)⟩

namespace Sample

theorem enumName_letters {names : List String} (h : names ⊆ ["A", "C", "D"]) :
    ∀ name ∈ names, ElmType.enumName name = name := by
  obtain ⟨-, -, hA, hC, hD⟩ := names_letters
  exact forall_letters (P := fun name => ElmType.enumName name = name) hA hC hD h

theorem enumName_inj_letters {names : List String} (h : names ⊆ ["A", "C", "D"]) :
    ∀ name ∈ names, ∀ other ∈ names,
      ElmType.enumName name = ElmType.enumName other → name = other := by
  intro name hname other hother heq
  rwa [enumName_letters h name hname, enumName_letters h other hother] at heq

theorem nodup_letters {names : List String} (h : names ⊆ ["A", "C", "D"]) :
    ∀ name ∈ names, ∀ d, letters.get? name = some (.enum d) →
      (d.values.map fun value => Naming.pascalCase value.name).Nodup := by
  obtain ⟨hA, hC, hD⟩ := get?_letters
  refine forall_letters ?_ ?_ ?_ h
  · rintro d hd
    cases hd.symm.trans hA
    exact List.nodup_singleton _
  · rintro d hd
    cases hd.symm.trans hC
    exact List.nodup_singleton _
  · rintro d hd
    cases hd.symm.trans hD
    exact List.nodup_singleton _

theorem overlaps_letters : letters.Overlaps ["A", "C", "D"] := by
  obtain ⟨-, -, hA, -, -⟩ := names_letters
  refine .plain (by simp) (by simp) (clashes_A (by simp)) (not_clashes_D fun _ hname => hname)
    ((hasPlain_letters "B").1.mpr rfl) ?_
  rw [hA]
  exact (hasPlain_letters _).2.2.mpr rfl

theorem not_overlaps_letters : ¬ letters.Overlaps ["A", "C"] := by
  have hclashes : ∀ name ∈ ["A", "C"], letters.Clashes ["A", "C"] name := by
    simp [clashes_A, clashes_C]
  have hshort : ∀ name ∈ ["A", "C"], (ElmType.enumName name).length = 1 := by
    intro name hname
    rw [enumName_letters (by decide) name hname]
    revert name
    decide
  rintro (⟨-, hother, -, hplain, -, -⟩ | ⟨hname, hother, -, -, hrest, htype, -, -⟩)
  · exact hplain (hclashes _ hother)
  · -- both type names have one letter, so neither goes on after the other one
    have hlength := congrArg String.length htype
    rw [String.length_append, hshort _ hname, hshort _ hother] at hlength
    exact hrest (String.length_eq_zero_iff.mp (by omega))

end Sample

/-- After `A` is put before `B`, it is a constructor of the third enum too; without that one all differ. -/
theorem EnumIndex.ofNames_distinct_iff_letters :
    (∃ index, ofNames Sample.letters ["A", "C"] = .ok index ∧ index.constructors.Nodup) ∧
      ∃ index, ofNames Sample.letters ["A", "C", "D"] = .ok index ∧
        ¬ index.constructors.Nodup := by
  have hall : ["A", "C", "D"] ⊆ ["A", "C", "D"] := fun _ hname => hname
  have htwo : ["A", "C"] ⊆ ["A", "C", "D"] := by decide
  obtain ⟨index, hindex, hiff, -⟩ := ofNames_distinct_iff (Sample.enum_letters htwo)
    (Sample.enumName_inj_letters htwo) (Sample.nodup_letters htwo)
  obtain ⟨index', hindex', hiff', -⟩ := ofNames_distinct_iff (Sample.enum_letters hall)
    (Sample.enumName_inj_letters hall) (Sample.nodup_letters hall)
  exact ⟨⟨index, hindex, hiff.mpr Sample.not_overlaps_letters⟩,
    index', hindex', fun hnodup => hiff'.mp hnodup Sample.overlaps_letters⟩

/-- A type name before a constructor can make a constructor that is there already. -/
theorem EnumIndex.not_ofNames_distinct :
    ¬ ∀ (schema : Schema) (names : List String) (index : EnumIndex),
      (∀ name ∈ names, ∃ d, schema.get? name = some (.enum d)) →
      (∀ name ∈ names, ∀ other ∈ names,
        ElmType.enumName name = ElmType.enumName other → name = other) →
      (∀ name ∈ names, ∀ d, schema.get? name = some (.enum d) →
        (d.values.map fun value => Naming.pascalCase value.name).Nodup) →
      ofNames schema names = .ok index → index.constructors.Nodup := by
  intro hdistinct
  have hall : ["A", "C", "D"] ⊆ ["A", "C", "D"] := fun _ hname => hname
  have hconstructors : (ofNames Sample.letters ["A", "C", "D"]).toOption.map constructors =
      some ["AB", "CB", "AB"] := by
    decide +kernel
  obtain ⟨index, hindex⟩ := exists_of_enums (Sample.enum_letters hall)
  have hnodup := hdistinct Sample.letters ["A", "C", "D"] index (Sample.enum_letters hall)
    (Sample.enumName_inj_letters hall) (Sample.nodup_letters hall) hindex
  rw [hindex] at hconstructors
  rw [Option.some.inj hconstructors] at hnodup
  exact absurd hnodup (by decide)

end ElmBindings
