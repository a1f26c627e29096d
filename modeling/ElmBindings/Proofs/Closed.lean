import ElmBindings.Proofs.Requests

set_option autoImplicit false

/-! # Spreads that have no fragment

A binding is made by going through the selections of a definition, and a spread of a fragment that is
not defined stops it. But not all that is printed is gone through: the sub-selections of a field are
passed over if an earlier field has its Elm name, if it is a leaf, or if it is the `__typename` of a
union (`Definition.Skips`). What is sent for an operation is closed, in that every spread in it names a
fragment that is sent along, exactly if the spreads that are passed over have a fragment
(`Binding.isClosed_iff`). -/

namespace ElmBindings

open FragmentIndex

/-! ## What is gone through -/

namespace Definition

section

variable (schema : Schema) (index : FragmentIndex) (d : Definition)

/-- Whether a field with sub-selections is among selections, and the first there of its Elm name. -/
def IsFirst (parent : ObjectDef) (selections : List Selection) (f : Field)
    (inner : List Selection) : Prop :=
  .field f inner ∈ selections ∧
    ⟨parent, f, inner, d.chain⟩ ∈ ElmBindings.selected schema index d.chain parent selections

/-- The selections of a definition that are gone through when its binding is made, with the type that
they are on. -/
inductive Visits : ObjectDef → List Selection → Prop
  | root {parent : ObjectDef} (h : d.target? schema = some parent) : Visits parent d.selections
  | object {parent object : ObjectDef} {selections inner : List Selection} {f : Field}
    {type : TypeRef} {base : TypeDef} (h : Visits parent selections)
    (hfirst : d.IsFirst schema index parent selections f inner)
    (htype : Selected.type? schema ⟨parent, f, inner, d.chain⟩ = some (type, base))
    (hbase : base.selectable? = some object) : Visits object inner
  | member {parent object : ObjectDef} {selections inner : List Selection} {f : Field}
    {type : TypeRef} {union : UnionDef} {member : String} (h : Visits parent selections)
    (hfirst : d.IsFirst schema index parent selections f inner)
    (htype : Selected.type? schema ⟨parent, f, inner, d.chain⟩ = some (type, .union union))
    (hobject : schema.selectable? member = some object) : Visits object (onMember member inner)

/-- The sub-selections of a definition that are passed over when its binding is made. -/
inductive Skips : List Selection → Prop
  | repeated {parent : ObjectDef} {selections inner : List Selection} {f : Field}
    (h : d.Visits schema index parent selections) (hmem : .field f inner ∈ selections)
    (hlater : ⟨parent, f, inner, d.chain⟩ ∉
      ElmBindings.selected schema index d.chain parent selections) : Skips inner
  | leaf {parent : ObjectDef} {selections inner : List Selection} {f : Field} {type : TypeRef}
    {base : TypeDef} (h : d.Visits schema index parent selections)
    (hfirst : d.IsFirst schema index parent selections f inner)
    (htype : Selected.type? schema ⟨parent, f, inner, d.chain⟩ = some (type, base))
    (hbase : base.isLeaf = true) : Skips inner
  | typeName {parent : ObjectDef} {selections inner below : List Selection} {f g : Field}
    {type : TypeRef} {union : UnionDef} (h : d.Visits schema index parent selections)
    (hfirst : d.IsFirst schema index parent selections f inner)
    (htype : Selected.type? schema ⟨parent, f, inner, d.chain⟩ = some (type, .union union))
    (hmem : .field g below ∈ inner) : Skips below

end

variable {schema : Schema} {index : FragmentIndex} {d : Definition}

theorem mem_spreadsOf_inner {f : Field} {inner selections : List Selection} {name : String}
    (hmem : .field f inner ∈ selections) (h : name ∈ spreadsOf inner) :
    name ∈ spreadsOf selections :=
  mem_spreadsOf (x := .field f inner) h hmem

theorem mem_spreadsOf_onMember {member name : String} {selections : List Selection}
    (h : name ∈ spreadsOf (onMember member selections)) : name ∈ spreadsOf selections := by
  fun_induction onMember member selections with
  | case1 => exact h
  | case2 inner position rest ih =>
    rw [spreadsOf_append, List.mem_append] at h
    rw [spreadsOf, List.mem_append]
    exact h.imp_right ih
  | case3 condition inner position rest _ ih =>
    rw [spreadsOf, List.mem_append]
    exact .inr (ih h)
  | case4 x rest _ ih =>
    rw [spreadsOf, List.mem_append]
    exact .inr (ih h)

/-- Spreads that are gone through are spreads of the definition. -/
theorem Visits.mem_spreadsOf {parent : ObjectDef} {selections : List Selection} {name : String}
    (h : d.Visits schema index parent selections) (hname : name ∈ spreadsOf selections) :
    name ∈ spreadsOf d.selections := by
  induction h with
  | root => exact hname
  | object _ hfirst _ _ ih => exact ih (mem_spreadsOf_inner hfirst.1 hname)
  | member _ hfirst _ _ ih => exact ih (mem_spreadsOf_inner hfirst.1 (mem_spreadsOf_onMember hname))

/-- Spreads that are passed over are spreads of the definition. -/
theorem Skips.mem_spreadsOf {inner : List Selection} {name : String}
    (h : d.Skips schema index inner) (hname : name ∈ spreadsOf inner) :
    name ∈ spreadsOf d.selections := by
  cases h with
  | repeated h hmem _ => exact h.mem_spreadsOf (mem_spreadsOf_inner hmem hname)
  | leaf h hfirst _ _ => exact h.mem_spreadsOf (mem_spreadsOf_inner hfirst.1 hname)
  | typeName h hfirst _ hmem =>
    exact h.mem_spreadsOf (mem_spreadsOf_inner hfirst.1 (mem_spreadsOf_inner hmem hname))

end Definition

/-! ## What a successful expansion has gone through -/

/-- Selections on an object that can be expanded spread only fragments that are defined, and hold no
inline fragments. -/
theorem expand_forall_mem {schema : Schema} {index : FragmentIndex} {chain : List String}
    {parent : ObjectDef} {shape result : Shape} {selections : List Selection}
    (h : expand schema index chain parent shape selections = .ok result) :
    ∀ x ∈ selections, (∃ f inner, x = .field f inner) ∨
      ∃ name position fragment, x = .spread name position ∧ index.get? name = some fragment := by
  induction selections generalizing shape with
  | nil => simp
  | cons x rest ih =>
    rw [List.forall_mem_cons]
    cases x with
    | field f inner =>
      refine ⟨.inl ⟨f, inner, rfl⟩, ?_⟩
      rw [expand] at h
      split at h
      · exact ih h
      · obtain ⟨plan, -, h⟩ := bind_eq_ok.mp h
        obtain ⟨entry, -, h⟩ := bind_eq_ok.mp h
        exact ih h
    | spread name position =>
      rw [expand] at h
      split at h
      · cases h
      · split at h
        · cases h
        · next fragment hfound =>
          obtain ⟨object, -, h⟩ := bind_eq_ok.mp h
          obtain ⟨middle, -, h⟩ := bind_eq_ok.mp h
          exact ⟨.inr ⟨name, position, fragment, rfl, hfound⟩, ih h⟩
    | inline condition inner position =>
      rw [expand] at h
      cases h

/-- Selections on a union that can be expanded are fields and inline fragments on members. -/
theorem expandUnion_forall_mem {schema : Schema} {index : FragmentIndex} {chain : List String}
    {union : String} {variants result : Variants} {selections : List Selection}
    (h : expandUnion schema index chain union variants selections = .ok result) :
    ∀ x ∈ selections, (∃ f inner, x = .field f inner) ∨
      ∃ member inner position, x = .inline (some member) inner position := by
  induction selections generalizing variants with
  | nil => simp
  | cons x rest ih =>
    rw [List.forall_mem_cons]
    cases x with
    | field f inner =>
      rw [expandUnion] at h
      split at h
      · exact ⟨.inl ⟨f, inner, rfl⟩, ih h⟩
      · cases h
    | spread name position =>
      rw [expandUnion] at h
      cases h
    | inline condition inner position =>
      rw [expandUnion] at h
      obtain ⟨member, hmember, hrest⟩ := bind_eq_ok.mp h
      obtain ⟨object, -, hrest⟩ := bind_eq_ok.mp hrest
      obtain ⟨shape, -, hrest⟩ := bind_eq_ok.mp hrest
      obtain ⟨rfl, -⟩ := Schema.member_eq_ok hmember
      exact ⟨.inr ⟨member, inner, position, rfl⟩, ih hrest⟩

theorem exists_mem_of_mem_spreadsOf {name : String} {selections : List Selection}
    (h : name ∈ spreadsOf selections) : ∃ x ∈ selections, name ∈ selectionSpreads x := by
  induction selections with
  | nil => cases h
  | cons x rest ih =>
    rw [spreadsOf, List.mem_append] at h
    rcases h with hx | hrest
    · exact ⟨x, by simp, hx⟩
    · obtain ⟨y, hy, hname⟩ := ih hrest
      exact ⟨y, List.mem_cons_of_mem _ hy, hname⟩

theorem mem_onMember {member : String} {inner selections : List Selection}
    {position : GraphQL.Position} {name : String}
    (hmem : .inline (some member) inner position ∈ selections) (h : name ∈ spreadsOf inner) :
    name ∈ spreadsOf (onMember member selections) := by
  obtain ⟨before, after, rfl⟩ := List.append_of_mem hmem
  simp [onMember_append, onMember, spreadsOf_append, h]

namespace Definition

variable {schema : Schema} {index : FragmentIndex} {d : Definition}

/-- A spread in selections that are gone through has a fragment, or is passed over. -/
theorem Visits.defined_or_skipped {parent : ObjectDef} {selections : List Selection} {shape : Shape}
    (hvisits : d.Visits schema index parent selections)
    (h : expand schema index d.chain parent {} selections = .ok shape) {name : String}
    (hname : name ∈ spreadsOf selections) :
    (∃ fragment, index.get? name = some fragment) ∨
      ∃ inner, d.Skips schema index inner ∧ name ∈ spreadsOf inner := by
  -- the sub-selections that are gone through are smaller
  induction hsize : selectionsSize selections using Nat.strongRecOn
    generalizing parent selections shape with
  | ind size ih =>
    subst hsize
    obtain ⟨x, hx, hname⟩ := exists_mem_of_mem_spreadsOf hname
    rcases expand_forall_mem h x hx with ⟨f, inner, rfl⟩ | ⟨other, position, fragment, rfl, hget⟩
    · by_cases hselected : ⟨parent, f, inner, d.chain⟩ ∈
          ElmBindings.selected schema index d.chain parent selections
      · have hfirst : d.IsFirst schema index parent selections f inner := ⟨hx, hselected⟩
        obtain ⟨entry, -, type, base, elm, decoder, htype, hreading, -⟩ :=
          exists_of_mem_right (expand_selected h).flip hselected
        have hless : selectionsSize inner < selectionsSize selections := by
          rcases later_of_mem_selected hselected with hless | ⟨-, hless⟩
          · exact absurd hless (lt_irrefl _)
          · exact hless
        cases hreading with
        | scalar | enum => exact .inr ⟨inner, .leaf hvisits hfirst htype rfl, hname⟩
        | object hbase hinner =>
          exact ih _ hless (.object hvisits hfirst htype hbase) hinner hname rfl
        | @union union variants hinner =>
          obtain ⟨y, hy, hname⟩ := exists_mem_of_mem_spreadsOf hname
          rcases expandUnion_forall_mem hinner y hy with
            ⟨g, below, rfl⟩ | ⟨member, below, position, rfl⟩
          · exact .inr ⟨below, .typeName hvisits hfirst htype hy, hname⟩
          · have hmembers := expandUnion_members hinner
            have hcondition : member ∈ conditions inner :=
              List.mem_filterMap.mpr ⟨_, hy, rfl⟩
            obtain ⟨⟨key, shape⟩, hvariant, hkey⟩ :=
              List.mem_map.mp ((hmembers.mem_keys member).mpr hcondition)
            obtain rfl : key = member := hkey
            obtain ⟨-, object, hobject, hshape⟩ := hmembers.shapes key shape hvariant
            have hle := selectionsSize_onMember_le key inner
            exact ih _ (hle.trans_lt hless) (.member hvisits hfirst htype hobject) hshape
              (mem_onMember hy hname) rfl
      · exact .inr ⟨inner, .repeated hvisits hx hselected, hname⟩
    · obtain rfl : name = other := by simpa [selectionSpreads] using hname
      exact .inl ⟨fragment, hget⟩

end Definition

/-! ## What is sent -/

namespace Sent

/-- The definitions that are sent. -/
def definitions (sent : Sent) : List Definition :=
  .operation sent.operation :: sent.fragments.map .fragment

/-- Whether every spread in what is sent names a fragment that is sent along. -/
def IsClosed (sent : Sent) : Prop :=
  ∀ d ∈ sent.definitions, ∀ name ∈ spreadsOf d.selections, ∃ f ∈ sent.fragments, f.name = name

end Sent

/-- A fragment that is spread in what is sent is sent along if it is defined. -/
theorem Operation.exists_sent_iff {op : Operation} {index : FragmentIndex} {d : Definition}
    (hd : d ∈ (op.sent index).definitions) {name : String} (hname : name ∈ spreadsOf d.selections) :
    (∃ f ∈ (op.sent index).fragments, f.name = name) ↔ (index.get? name).isSome = true := by
  constructor
  · rintro ⟨f, hf, rfl⟩
    rw [get?_of_mem_reachable hf, Option.isSome_some]
  · intro hsome
    obtain ⟨f, hget⟩ := Option.isSome_iff_exists.mp hsome
    have hfound : name ∈ spreadsFrom index [] op.selections := by
      rcases List.mem_cons.mp hd with rfl | hmem
      · exact mem_spreadsFrom_of_spread hget hname
      · obtain ⟨g, hg, rfl⟩ := List.mem_map.mp hmem
        obtain ⟨outer, houter, hcontainer⟩ := List.mem_filterMap.mp hg
        exact mem_spreadsFrom_of_found houter (by simp) hcontainer hget hname
    exact ⟨f, List.mem_filterMap.mpr ⟨name, hfound, hget⟩, (get?_eq_some hget).2⟩

/-- What is sent for an operation is closed exactly if every spread has a fragment in the sub-selections
that are passed over. -/
theorem Binding.isClosed_iff {schema : Schema} {document : Document} {bindings : List Binding}
    {i : Nat} {binding : Binding} {op : Operation}
    (h : Binding.ofDocument schema document = .ok bindings)
    (hbinding : bindings[i]? = some binding)
    (hop : document.definitions[i]? = some (.operation op)) :
    ∃ index, FragmentIndex.ofDocument document = .ok index ∧
      binding.document = (op.sent index).text ∧
      ((op.sent index).IsClosed ↔
        ∀ d ∈ (op.sent index).definitions, ∀ inner, d.Skips schema index inner →
          ∀ name ∈ spreadsOf inner, (index.get? name).isSome = true) := by
  obtain ⟨index, hindex, hall⟩ := Binding.ofDocument_eq_ok h
  obtain ⟨d, hd, hof⟩ := exists_of_getElem?_right hall hbinding
  cases hop.symm.trans hd
  obtain ⟨-, -, -, -, -, -, htext⟩ := Binding.ofOperation_eq_ok hof
  refine ⟨index, hindex, htext, ?_, ?_⟩
  · intro hclosed d hd inner hskips name hname
    have hspread := hskips.mem_spreadsOf hname
    exact (Operation.exists_sent_iff hd hspread).mp (hclosed d hd name hspread)
  · intro hskipped d hd name hname
    rw [Operation.exists_sent_iff hd hname]
    have hdefinition : d ∈ document.definitions := by
      rcases List.mem_cons.mp hd with rfl | hmem
      · exact List.mem_of_getElem? hop
      · obtain ⟨f, hf, rfl⟩ := List.mem_map.mp hmem
        exact Document.mem_definitions_of_reachable hindex hf
    -- the binding of the definition itself was made too
    obtain ⟨other, -, hof⟩ := exists_of_mem_right hall.flip hdefinition
    obtain ⟨parent, shape, label, htarget, hshape, -, -⟩ := Binding.ofDefinition_eq_ok hof
    rcases (Definition.Visits.root htarget).defined_or_skipped hshape hname with
      ⟨f, hget⟩ | ⟨inner, hskips, hinner⟩
    · rw [hget, Option.isSome_some]
    · exact hskipped d hd inner hskips name hinner

namespace Sample

/-- A query that selects a field twice, the second time with a spread of a fragment that is not
defined. -/
def repeatedOperation : Operation :=
  ⟨.query, none, [], [select "user" [select "id" []], select "user" [spread "Missing"]], .start⟩

def repeated : Document := ⟨[.operation repeatedOperation]⟩

-- names are evaluated, not unfolded
attribute [local irreducible] Naming.valueName

theorem ofDocument_repeated : Binding.ofDocument schema repeated = .ok (bindings repeated) := by
  cbv

theorem fragments_repeated :
    FragmentIndex.ofDocument repeated = .ok ⟨[], List.nodup_nil⟩ := by
  cbv

/-- The second of the two fields is passed over. -/
theorem skips_repeated :
    (Definition.operation repeatedOperation).Skips schema ⟨[], List.nodup_nil⟩
      [spread "Missing"] := by
  have hvisits : (Definition.operation repeatedOperation).Visits schema ⟨[], List.nodup_nil⟩
      queryType repeatedOperation.selections :=
    .root (by cbv)
  have hselected : ElmBindings.selected schema ⟨[], List.nodup_nil⟩ [] queryType
      repeatedOperation.selections =
        [⟨queryType, ⟨none, "user", [], false, .start⟩, [select "id" []], []⟩] := by
    cbv
  refine .repeated hvisits (List.mem_cons_of_mem _ List.mem_cons_self) ?_
  rw [Definition.chain, hselected]
  simp [select, spread]

end Sample

theorem Binding.isClosed_iff_repeated :
    ∃ binding index, (Sample.bindings Sample.repeated)[0]? = some binding ∧
      FragmentIndex.ofDocument Sample.repeated = .ok index ∧
      binding.document = (Sample.repeatedOperation.sent index).text ∧
      ¬ (Sample.repeatedOperation.sent index).IsClosed := by
  have hsome : ((Sample.bindings Sample.repeated)[0]?).isSome = true := by cbv
  obtain ⟨binding, hbinding⟩ := Option.isSome_iff_exists.mp hsome
  obtain ⟨index, hindex, htext, hiff⟩ :=
    Binding.isClosed_iff Sample.ofDocument_repeated hbinding rfl
  refine ⟨binding, index, hbinding, hindex, htext, fun hclosed => ?_⟩
  cases hindex.symm.trans Sample.fragments_repeated
  have hdefined := hiff.mp hclosed _ List.mem_cons_self _ Sample.skips_repeated "Missing"
    (by simp [Sample.spread, spreadsOf, selectionSpreads])
  cases hdefined

/-- What is sent need not be closed: the spread in a field that was selected before is sent, and its
fragment is not. -/
theorem Binding.not_isClosed :
    ¬ ∀ (schema : Schema) (document : Document) (bindings : List Binding) (i : Nat)
        (binding : Binding) (index : FragmentIndex) (op : Operation),
      Binding.ofDocument schema document = .ok bindings → bindings[i]? = some binding →
      FragmentIndex.ofDocument document = .ok index →
      document.definitions[i]? = some (.operation op) → (op.sent index).IsClosed := by
  intro hall
  have hsome : ((Sample.bindings Sample.repeated)[0]?).isSome = true := by cbv
  obtain ⟨binding, hbinding⟩ := Option.isSome_iff_exists.mp hsome
  have hclosed := hall _ _ _ 0 binding _ _ Sample.ofDocument_repeated hbinding
    Sample.fragments_repeated rfl
  have hmem : "Missing" ∈ spreadsOf Sample.repeatedOperation.selections := by
    simp [Sample.repeatedOperation, Sample.select, Sample.spread, spreadsOf, selectionSpreads]
  have hreachable : (Sample.repeatedOperation.sent ⟨[], List.nodup_nil⟩).fragments = [] := by cbv
  obtain ⟨f, hf, -⟩ := hclosed _ List.mem_cons_self "Missing" hmem
  rw [hreachable] at hf
  cases hf

end ElmBindings
