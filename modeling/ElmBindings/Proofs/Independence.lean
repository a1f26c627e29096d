import ElmBindings.Proofs.Expansion
import ElmBindings.Proofs.Reachable

set_option autoImplicit false

/-! # Definitions that do not interfere

What is generated for a definition depends on the other definitions of its document only through the
fragments that it reaches. `Agree` says that two indexes have the same fragments for all names that
are spread in a selection that is met, or have none for them. Both walks over the selections look up
no other name: the expansion (`expand_eq`), also where it fails, and the reading that orders the
fragments for printing (`spreadsFrom_eq`). So the order of the definitions does not matter, nor do
fragments and operations that the definition does not reach. -/

namespace ElmBindings

open FragmentIndex

namespace FragmentIndex

/-! ## Indexes that agree -/

/-- Whether two indexes have the same fragment, or both none, for every name that is spread in a
selection that is met. -/
def Agree (index index' : FragmentIndex) (root : List Selection) : Prop :=
  ∀ name position, Reaches index root (.spread name position) → index.get? name = index'.get? name

namespace Agree

variable {index index' : FragmentIndex}

/-- Indexes that agree on selections agree on all that is met from them. -/
theorem mono {root inner : List Selection} (h : Agree index index' root)
    (hinner : ∀ x ∈ inner, Reaches index root x) : Agree index index' inner := by
  intro name position hmet
  exact h name position (hmet.trans hinner)

variable {x : Selection} {rest : List Selection}

theorem tail (h : Agree index index' (x :: rest)) : Agree index index' rest :=
  h.mono fun _ hy => .root (List.mem_cons_of_mem x hy)

/-- Indexes that agree agree as well where a selection gives way to selections that are met from it. -/
theorem replaced {inner : List Selection} (h : Agree index index' (x :: rest))
    (hinner : ∀ y ∈ inner, Reaches index (x :: rest) y) : Agree index index' (inner ++ rest) := by
  refine h.mono fun y hy => ?_
  rcases List.mem_append.mp hy with hy | hy
  · exact hinner y hy
  · exact .root (List.mem_cons_of_mem x hy)

theorem get?_eq {name : String} {position : GraphQL.Position}
    (h : Agree index index' (.spread name position :: rest)) : index.get? name = index'.get? name :=
  h name position (.root List.mem_cons_self)

end Agree

/-! ## The order of printing -/

variable {index index' : FragmentIndex}

theorem spreadsFrom_spread (index : FragmentIndex) (seen : List String) (name : String)
    (position : GraphQL.Position) (rest : List Selection) :
    spreadsFrom index seen (.spread name position :: rest) =
      match index.get? name with
      | none => spreadsFrom index seen rest
      | some f =>
        if name ∈ seen then spreadsFrom index seen rest
        else spreadsFrom index (name :: seen) (f.selections ++ rest) := by
  rw [spreadsFrom]
  split <;> simp_all

/-- Indexes that agree give the same names in the same order. -/
theorem spreadsFrom_eq {seen : List String} {selections : List Selection}
    (h : Agree index index' selections) :
    spreadsFrom index seen selections = spreadsFrom index' seen selections := by
  fun_induction spreadsFrom index seen selections with
  | case1 seen => rw [spreadsFrom]
  | case2 seen field inner rest ih =>
    rw [spreadsFrom]
    exact ih (h.replaced fun y hy => .field (.root List.mem_cons_self) hy)
  | case3 seen condition inner position rest ih =>
    rw [spreadsFrom]
    exact ih (h.replaced fun y hy => .inline (.root List.mem_cons_self) hy)
  | case4 seen name position rest hfound ih =>
    rw [spreadsFrom_spread, ← h.get?_eq, hfound]
    exact ih h.tail
  | case5 seen name position rest f hfound hseen ih =>
    rw [spreadsFrom_spread, ← h.get?_eq, hfound]
    simpa [hseen] using ih h.tail
  | case6 seen name position rest f hfound hnew ih =>
    rw [spreadsFrom_spread, ← h.get?_eq, hfound]
    simpa [hnew] using
      ih (h.replaced fun y hy => .spread (.root List.mem_cons_self) hfound hy)

/-- Indexes that agree give the same fragments in the same order. -/
theorem reachable_eq {selections : List Selection} (h : Agree index index' selections) :
    index.reachable selections = index'.reachable selections := by
  rw [reachable, reachable, ← spreadsFrom_eq h]
  refine List.filterMap_congr fun name hname => ?_
  rcases reaches_of_mem_spreadsFrom hname with hnone | ⟨position, hmet⟩
  · cases hnone
  · exact h name position hmet

end FragmentIndex

theorem Operation.documentText_eq {op : Operation} {index index' : FragmentIndex}
    (h : Agree index index' op.selections) : op.documentText index = op.documentText index' := by
  rw [documentText, documentText, reachable_eq h]

/-! ## Expansion -/

section Expansion

variable {schema : Schema} {index index' : FragmentIndex}

theorem expand_spread (schema : Schema) (index : FragmentIndex) (chain : List String)
    (parent : ObjectDef) (shape : Shape) (name : String) (position : GraphQL.Position)
    (rest : List Selection) :
    expand schema index chain parent shape (.spread name position :: rest) =
      if name ∈ chain then .error (.fragmentCycle (cyclePath chain name))
      else
        match index.get? name with
        | none => .error (.unknownFragment name)
        | some fragment =>
          schema.selectable fragment.condition >>= fun object =>
            expand schema index (name :: chain) object shape fragment.selections >>= fun shape =>
              expand schema index chain parent shape rest := by
  rw [expand]
  split
  · rfl
  · split <;> simp_all

-- The recursion is that of the expansion itself, over the fragments of the first index.
mutual

theorem expand_eq {chain : List String} {parent : ObjectDef} {shape : Shape} :
    (selections : List Selection) → Agree index index' selections →
      expand schema index chain parent shape selections =
        expand schema index' chain parent shape selections
  | [], _ => by rw [expand, expand]
  | .field field inner :: rest, h => by
    have hinner : Agree index index' inner :=
      h.mono fun y hy => .field (.root List.mem_cons_self) hy
    rw [expand, expand]
    split
    · exact expand_eq rest h.tail
    · congr 1
      funext plan
      rw [expandField_eq hinner]
      congr 1
      funext entry
      exact expand_eq rest h.tail
  | .spread name position :: rest, h => by
    rw [expand_spread, expand_spread, ← h.get?_eq]
    split
    · rfl
    · next hnew =>
      split
      · rfl
      · next fragment hfound =>
        have _hless := unused_cons_lt (mem_names_of_get? hfound) hnew
        have hfragment : Agree index index' fragment.selections :=
          h.mono fun y hy => .spread (.root List.mem_cons_self) hfound hy
        congr 1
        funext object
        rw [expand_eq fragment.selections hfragment]
        congr 1
        funext shape
        exact expand_eq rest h.tail
  | .inline condition inner position :: rest, _ => by rw [expand, expand]
termination_by selections => (index.unused chain, 2 * selectionsSize selections)
decreasing_by
  · exact Prod.Lex.right _ (by simp [selectionsSize, selectionSize]; omega)
  · exact Prod.Lex.right _ (by simp [selectionsSize, selectionSize])
  · exact Prod.Lex.right _ (by simp [selectionsSize, selectionSize])
  · exact Prod.Lex.left _ _ _hless
  · exact Prod.Lex.right _ (by simp [selectionsSize, selectionSize])

theorem expandField_eq {chain : List String} {field : Field} {plan : FieldPlan}
    {inner : List Selection} (h : Agree index index' inner) :
    expandField schema index chain field plan inner =
      expandField schema index' chain field plan inner := by
  rw [expandField, expandField]
  split
  · rfl
  · rw [expand_eq inner h]
  · rw [expandUnion_eq inner h]
termination_by (index.unused chain, 2 * selectionsSize inner + 1)
decreasing_by
  · exact Prod.Lex.right _ (by simp)
  · exact Prod.Lex.right _ (by simp)

theorem expandUnion_eq {chain : List String} {union : String} {variants : Variants} :
    (selections : List Selection) → Agree index index' selections →
      expandUnion schema index chain union variants selections =
        expandUnion schema index' chain union variants selections
  | [], _ => by rw [expandUnion, expandUnion]
  | .field field inner :: rest, h => by
    rw [expandUnion, expandUnion]
    split
    · exact expandUnion_eq rest h.tail
    · rfl
  | .spread name position :: rest, _ => by rw [expandUnion, expandUnion]
  | .inline condition inner position :: rest, h => by
    have hinner : Agree index index' inner :=
      h.mono fun y hy => .inline (.root List.mem_cons_self) hy
    rw [expandUnion, expandUnion]
    congr 1
    funext member
    congr 1
    funext object
    rw [expand_eq inner hinner]
    congr 1
    funext shape
    exact expandUnion_eq rest h.tail
termination_by selections => (index.unused chain, 2 * selectionsSize selections)
decreasing_by
  · exact Prod.Lex.right _ (by simp [selectionsSize, selectionSize])
  · exact Prod.Lex.right _ (by simp [selectionsSize, selectionSize]; omega)
  · exact Prod.Lex.right _ (by simp [selectionsSize, selectionSize])

end

end Expansion

/-! ## Bindings -/

namespace Binding

variable {schema : Schema}

/-- Indexes that agree on the selections of a definition give the same binding or the same error. -/
theorem ofDefinition_eq {index index' : FragmentIndex} {d : Definition}
    (h : Agree index index' d.selections) :
    ofDefinition schema index d = ofDefinition schema index' d := by
  cases d with
  | operation op =>
    have htext : op.documentText index = op.documentText index' := Operation.documentText_eq h
    simp only [ofDefinition, ofOperation, htext, expand_eq op.selections h]
  | fragment fragment =>
    simp only [ofDefinition, ofFragment, expand_eq fragment.selections h]

end Binding

/-! ## Documents -/

namespace FragmentIndex

theorem get?_eq_some_iff {index : FragmentIndex} {name : String} {f : Fragment} :
    index.get? name = some f ↔ f ∈ index.fragments ∧ f.name = name := by
  refine ⟨get?_eq_some, ?_⟩
  rintro ⟨hmem, rfl⟩
  cases hfound : index.get? f.name with
  | none =>
    have := List.find?_eq_none.mp hfound f hmem
    simp at this
  | some g =>
    -- names of fragments differ
    obtain ⟨hg, hname⟩ := get?_eq_some hfound
    rw [List.inj_on_of_nodup_map index.nodup hg hmem hname]

theorem firstRepeated_eq_none {seen names : List String} (hnodup : names.Nodup)
    (hnew : ∀ name ∈ names, name ∉ seen) : firstRepeated seen names = none := by
  induction names generalizing seen with
  | nil => rfl
  | cons name names ih =>
    rw [List.nodup_cons] at hnodup
    rw [firstRepeated, if_neg (hnew name List.mem_cons_self)]
    refine ih hnodup.2 fun other hother hseen => ?_
    rcases List.mem_cons.mp hseen with rfl | hseen
    · exact hnodup.1 hother
    · exact hnew other (List.mem_cons_of_mem _ hother) hseen

/-- A document whose fragments have different names has an index. -/
theorem exists_ofDocument {document : Document}
    (h : (document.fragments.map Fragment.name).Nodup) :
    ∃ index, ofDocument document = .ok index := by
  have hnone : firstRepeated [] (document.fragments.map Fragment.name) = none :=
    firstRepeated_eq_none h (by simp)
  unfold ofDocument
  split
  · next hsome => cases hnone.symm.trans hsome
  · exact ⟨_, rfl⟩

/-- Documents with the same fragments of all names that selections reach have indexes that agree. -/
theorem agree_of_mem_iff {document document' : Document} {index index' : FragmentIndex}
    (hindex : ofDocument document = .ok index) (hindex' : ofDocument document' = .ok index')
    {root : List Selection}
    (h : ∀ fragment position, Reaches index root (.spread fragment.name position) →
      (fragment ∈ document.fragments ↔ fragment ∈ document'.fragments)) :
    Agree index index' root := by
  intro name position hmet
  refine Option.ext fun f => ?_
  rw [get?_eq_some_iff, get?_eq_some_iff, fragments_of_ofDocument hindex,
    fragments_of_ofDocument hindex']
  constructor
  · rintro ⟨hf, rfl⟩
    exact ⟨(h f position hmet).mp hf, rfl⟩
  · rintro ⟨hf, rfl⟩
    exact ⟨(h f position hmet).mpr hf, rfl⟩

end FragmentIndex

/-- Whether a definition spreads a name, itself or through fragments of the index. -/
def Definition.Spreads (index : FragmentIndex) (d : Definition) (name : String) : Prop :=
  ∃ position, Reaches index d.selections (.spread name position)

namespace Binding

/-- A definition at a place of a document has its binding at the same place of the output. -/
theorem getElem?_of_ofDocument {schema : Schema} {document : Document} {index : FragmentIndex}
    {bindings : List Binding} (hindex : FragmentIndex.ofDocument document = .ok index)
    (h : ofDocument schema document = .ok bindings) {i : Nat} {d : Definition}
    (hd : document.definitions[i]? = some d) :
    ∃ binding, bindings[i]? = some binding ∧ ofDefinition schema index d = .ok binding := by
  obtain ⟨other, hother, hall⟩ := ofDocument_eq_ok h
  cases hindex.symm.trans hother
  exact exists_of_getElem?_left hall hd

/-- What is generated for a definition, be it a binding or an error, is a matter of the fragments that
it spreads, itself or through other fragments. The same is generated with any two indexes that agree on
these, so also if the definitions of the document are put in another order, or if fragments that are
not spread, or operations, come and go. -/
theorem ofDefinition_independent (schema : Schema) (d : Definition) :
    (∀ index index' : FragmentIndex,
      (∀ name, d.Spreads index name → index.get? name = index'.get? name) →
      ofDefinition schema index d = ofDefinition schema index' d) ∧
    ∀ document index, FragmentIndex.ofDocument document = .ok index →
      (∀ document', document.definitions.Perm document'.definitions →
        ∃ index', FragmentIndex.ofDocument document' = .ok index' ∧
          ofDefinition schema index d = ofDefinition schema index' d) ∧
      ∀ document' index', FragmentIndex.ofDocument document' = .ok index' →
        (∀ fragment, d.Spreads index fragment.name →
          (fragment ∈ document.fragments ↔ fragment ∈ document'.fragments)) →
        ofDefinition schema index d = ofDefinition schema index' d ∧
        ∀ bindings bindings', ofDocument schema document = .ok bindings →
          ofDocument schema document' = .ok bindings' → ∀ i j : Nat,
          document.definitions[i]? = some d → document'.definitions[j]? = some d →
          bindings[i]? = bindings'[j]? := by
  have hagree : ∀ index index' : FragmentIndex,
      (∀ name, d.Spreads index name → index.get? name = index'.get? name) →
      Agree index index' d.selections :=
    fun index index' h name position hmet => h name ⟨position, hmet⟩
  refine ⟨fun index index' h => ofDefinition_eq (hagree index index' h), ?_⟩
  intro document index hindex
  constructor
  · intro document' hperm
    have hfragments : document.fragments.Perm document'.fragments := hperm.filterMap _
    have hnodup : (document'.fragments.map Fragment.name).Nodup := by
      rw [← (hfragments.map Fragment.name).nodup_iff, ← fragments_of_ofDocument hindex]
      exact index.nodup
    obtain ⟨index', hindex'⟩ := exists_ofDocument hnodup
    exact ⟨index', hindex', ofDefinition_eq
      (agree_of_mem_iff hindex hindex' fun f _ _ => hfragments.mem_iff)⟩
  · intro document' index' hindex' h
    have heq : ofDefinition schema index d = ofDefinition schema index' d :=
      ofDefinition_eq (agree_of_mem_iff hindex hindex' fun f position hmet => h f ⟨position, hmet⟩)
    refine ⟨heq, ?_⟩
    intro bindings bindings' hbindings hbindings' i j hi hj
    obtain ⟨binding, hbinding, hof⟩ := getElem?_of_ofDocument hindex hbindings hi
    obtain ⟨binding', hbinding', hof'⟩ := getElem?_of_ofDocument hindex' hbindings' hj
    rw [heq, hof'] at hof
    cases hof
    rw [hbinding, hbinding']

end Binding

namespace Sample

/-- A fragment that `search` does not spread. -/
def titles : Fragment := ⟨"Titles", "Bot", [select "active" [], spread "Names"], .start⟩

/-- The document with one more fragment and one more query, in another order. -/
def longer : Document :=
  ⟨[.fragment titles, query [select "user" [spread "Names"]], .fragment names, search]⟩

-- names are evaluated, not unfolded
attribute [local irreducible] Naming.valueName

theorem fragments_longer : FragmentIndex.ofDocument longer = .ok (fragments longer) := by cbv

theorem fragments_document : FragmentIndex.ofDocument document = .ok (fragments document) := by cbv

theorem spreadsFrom_longer : spreadsFrom (fragments longer) [] search.selections = ["Names"] := by cbv

theorem not_spreads_titles : ¬ search.Spreads (fragments longer) titles.name := by
  rintro ⟨position, hmet⟩
  have hfound : (fragments longer).get? titles.name = some titles := by rfl
  have hmem := hmet.mem_spreadsFrom hfound (by simp [selectionSpreads])
  rw [spreadsFrom_longer] at hmem
  simp [titles] at hmem

end Sample

/-- The fragment that is not spread and the other query make no difference to `search`. -/
theorem Binding.ofDefinition_independent_search :
    ¬ Sample.search.Spreads (Sample.fragments Sample.longer) Sample.titles.name ∧
      ofDefinition Sample.schema (Sample.fragments Sample.longer) Sample.search =
        ofDefinition Sample.schema (Sample.fragments Sample.document) Sample.search := by
  refine ⟨Sample.not_spreads_titles, ?_⟩
  refine (((ofDefinition_independent Sample.schema Sample.search).2 Sample.longer _
    Sample.fragments_longer).2 Sample.document _ Sample.fragments_document ?_).1
  intro fragment hspreads
  have hlonger : Sample.longer.fragments = [Sample.titles, Sample.names] := rfl
  have hshorter : Sample.document.fragments = [Sample.names] := rfl
  rw [hlonger, hshorter, List.mem_cons, or_iff_right]
  rintro rfl
  exact Sample.not_spreads_titles hspreads

end ElmBindings
