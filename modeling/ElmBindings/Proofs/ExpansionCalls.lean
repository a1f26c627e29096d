import ElmBindings.Proofs.Independence
import ElmBindings.Proofs.Validated

set_option autoImplicit false

/-! # Calls of an expansion

`expand`, `expandField` and `expandUnion` call each other, and a spread sends them to another definition,
so that their recursion does not follow the syntax. `Call.Makes` lists the calls that a call makes.
`Makes.spec` says all that later proofs need of them: either the chain of fragments stays and the
selections become smaller, or one more fragment is on the chain. Hence calls end (`wellFounded_makes`),
and what the chain says of the fragments on it holds at every call (`Call.IsTraced`).

A cycle is reported by a call that meets a spread of a fragment on its own chain, so the path of the
report is a cycle of fragments indeed (`IsTraced.isCycle`). -/

namespace ElmBindings

open FragmentIndex Relation

/-! ## Calls -/

/-- A call of one of the functions that go through selections, with its arguments. -/
inductive Call
  | object (chain : List String) (parent : ObjectDef) (shape : Shape) (selections : List Selection)
  | field (chain : List String) (field : Field) (plan : FieldPlan) (inner : List Selection)
  | union (chain : List String) (union : String) (variants : Variants) (selections : List Selection)

namespace Call

/-- The fragments that are being expanded, innermost first. -/
def chain : Call → List String
  | object chain .. | field chain .. | union chain .. => chain

/-- The selections that are still to be gone through. -/
def selections : Call → List Selection
  | object _ _ _ selections | field _ _ _ selections | union _ _ _ selections => selections

/-- Whether a call ends with an error. -/
def Fails (schema : Schema) (index : FragmentIndex) (e : GenerateError) : Call → Prop
  | object chain parent shape selections =>
    expand schema index chain parent shape selections = .error e
  | field chain f plan inner => expandField schema index chain f plan inner = .error e
  | union chain name variants selections =>
    expandUnion schema index chain name variants selections = .error e

/-- The calls that a call makes. The calls for the rest of the selections come after those before them
have given their results. -/
inductive Makes (schema : Schema) (index : FragmentIndex) : Call → Call → Prop
  | skip {chain : List String} {parent : ObjectDef} {shape : Shape} {f : Field}
    {inner rest : List Selection}
    (hold : shape.contains (Naming.valueName f.responseKey) = true) :
    Makes schema index (object chain parent shape (.field f inner :: rest))
      (object chain parent shape rest)
  | enter {chain : List String} {parent : ObjectDef} {shape : Shape} {f : Field} {plan : FieldPlan}
    {inner rest : List Selection}
    (hnew : ¬ shape.contains (Naming.valueName f.responseKey) = true)
    (hplan : schema.fieldPlan parent f (!inner.isEmpty) = .ok plan) :
    Makes schema index (object chain parent shape (.field f inner :: rest)) (field chain f plan inner)
  | push {chain : List String} {parent : ObjectDef} {shape : Shape} {f : Field} {plan : FieldPlan}
    {entry : ShapeEntry} {inner rest : List Selection}
    (hnew : ¬ shape.contains (Naming.valueName f.responseKey) = true)
    (hplan : schema.fieldPlan parent f (!inner.isEmpty) = .ok plan)
    (hentry : expandField schema index chain f plan inner = .ok entry) :
    Makes schema index (object chain parent shape (.field f inner :: rest))
      (object chain parent (shape.push entry) rest)
  | spread {chain : List String} {parent other : ObjectDef} {shape : Shape} {name : String}
    {position : GraphQL.Position} {fragment : Fragment} {rest : List Selection} (hnew : name ∉ chain)
    (hfound : index.get? name = some fragment)
    (hobject : schema.selectable fragment.condition = .ok other) :
    Makes schema index (object chain parent shape (.spread name position :: rest))
      (object (name :: chain) other shape fragment.selections)
  | resume {chain : List String} {parent other : ObjectDef} {shape middle : Shape} {name : String}
    {position : GraphQL.Position} {fragment : Fragment} {rest : List Selection} (hnew : name ∉ chain)
    (hfound : index.get? name = some fragment)
    (hobject : schema.selectable fragment.condition = .ok other)
    (hmiddle : expand schema index (name :: chain) other shape fragment.selections = .ok middle) :
    Makes schema index (object chain parent shape (.spread name position :: rest))
      (object chain parent middle rest)
  | record {chain : List String} {f : Field} {plan : FieldPlan} {inner : List Selection}
    {other : ObjectDef} (hbase : plan.base = .object other) :
    Makes schema index (field chain f plan inner) (object chain other {} inner)
  | variants {chain : List String} {f : Field} {plan : FieldPlan} {inner : List Selection}
    {d : UnionDef} (hbase : plan.base = .union d) :
    Makes schema index (field chain f plan inner) (union chain d.name [] inner)
  | typeName {chain : List String} {name : String} {variants : Variants} {f : Field}
    {inner rest : List Selection} (hname : f.name = typeNameField) :
    Makes schema index (union chain name variants (.field f inner :: rest))
      (union chain name variants rest)
  | member {chain : List String} {name member : String} {variants : Variants}
    {condition : Option String} {position : GraphQL.Position} {other : ObjectDef}
    {inner rest : List Selection} (hmember : schema.member name condition = .ok member)
    (hobject : schema.selectable member = .ok other) :
    Makes schema index (union chain name variants (.inline condition inner position :: rest))
      (object chain other (memberShape variants member) inner)
  | put {chain : List String} {name member : String} {variants : Variants}
    {condition : Option String} {position : GraphQL.Position} {other : ObjectDef} {shape : Shape}
    {inner rest : List Selection} (hmember : schema.member name condition = .ok member)
    (hobject : schema.selectable member = .ok other)
    (hshape : expand schema index chain other (memberShape variants member) inner = .ok shape) :
    Makes schema index (union chain name variants (.inline condition inner position :: rest))
      (union chain name (putShape member shape variants) rest)

section

variable {schema : Schema} {index : FragmentIndex} {outer inner : Call}

/-- A call that is made and fails makes the caller fail. -/
theorem Makes.fails (h : Makes schema index outer inner) {e : GenerateError}
    (hfails : inner.Fails schema index e) : outer.Fails schema index e := by
  cases h with
  | skip hold =>
    rw [Fails, expand, if_pos hold]
    exact hfails
  | enter hnew hplan =>
    rw [Fails, expand, if_neg hnew, hplan]
    exact bind_eq_error.mpr (.inr ⟨_, rfl, bind_eq_error.mpr (.inl hfails)⟩)
  | push hnew hplan hentry =>
    rw [Fails, expand, if_neg hnew, hplan]
    exact bind_eq_error.mpr (.inr ⟨_, rfl, bind_eq_error.mpr (.inr ⟨_, hentry, hfails⟩)⟩)
  | spread hnew hfound hobject =>
    rw [Fails, expand_spread, if_neg hnew, hfound]
    exact bind_eq_error.mpr (.inr ⟨_, hobject, bind_eq_error.mpr (.inl hfails)⟩)
  | resume hnew hfound hobject hmiddle =>
    rw [Fails, expand_spread, if_neg hnew, hfound]
    exact bind_eq_error.mpr (.inr ⟨_, hobject, bind_eq_error.mpr (.inr ⟨_, hmiddle, hfails⟩)⟩)
  | record hbase =>
    rw [Fails, expandField, hbase]
    exact bind_eq_error.mpr (.inl hfails)
  | variants hbase =>
    rw [Fails, expandField, hbase]
    exact bind_eq_error.mpr (.inl hfails)
  | typeName hname =>
    rw [Fails, expandUnion, if_pos hname]
    exact hfails
  | member hmember hobject =>
    rw [Fails, expandUnion, hmember]
    exact bind_eq_error.mpr (.inr ⟨_, rfl, bind_eq_error.mpr (.inr ⟨_, hobject,
      bind_eq_error.mpr (.inl hfails)⟩)⟩)
  | put hmember hobject hshape =>
    rw [Fails, expandUnion, hmember]
    exact bind_eq_error.mpr (.inr ⟨_, rfl, bind_eq_error.mpr (.inr ⟨_, hobject,
      bind_eq_error.mpr (.inr ⟨_, hshape, hfails⟩)⟩)⟩)

/-! ## What a call hands on -/

/-- How much there is to go through. -/
def weight : Call → Nat
  | object _ _ _ selections | union _ _ _ selections => 2 * selectionsSize selections
  | field _ _ _ inner => 2 * selectionsSize inner + 1

/-- A call hands on its chain and smaller selections that spread no more, or it goes into a fragment that
is not on the chain and that its selections spread. -/
theorem Makes.spec (h : Makes schema index outer inner) :
    (inner.chain = outer.chain ∧ inner.weight < outer.weight ∧
      ∀ name ∈ spreadsOf inner.selections, name ∈ spreadsOf outer.selections) ∨
    ∃ name fragment, name ∉ outer.chain ∧ index.get? name = some fragment ∧
      name ∈ spreadsOf outer.selections ∧ inner.chain = name :: outer.chain ∧
      inner.selections = fragment.selections := by
  cases h with
  | spread hnew hfound hobject =>
    exact .inr ⟨_, _, hnew, hfound, by simp [selections, spreadsOf, selectionSpreads], rfl, rfl⟩
  | _ =>
    refine .inl ⟨rfl, ?_, ?_⟩
    · simp only [weight, selectionsSize, selectionSize]
      omega
    · intro name hname
      simp only [selections, spreadsOf, selectionSpreads, List.mem_append] at hname ⊢
      tauto

end

/-- Calls end: there is no endless sequence of calls that each make the next. -/
theorem wellFounded_makes (schema : Schema) (index : FragmentIndex) :
    WellFounded fun inner outer => Makes schema index outer inner := by
  have hlex : WellFounded (Prod.Lex (· < · : Nat → Nat → Prop) (· < · : Nat → Nat → Prop)) :=
    WellFounded.prod_lex Nat.lt_wfRel.wf Nat.lt_wfRel.wf
  refine Subrelation.wf ?_ (InvImage.wf (fun call : Call => (index.unused call.chain, call.weight)) hlex)
  intro inner outer h
  rcases h.spec with ⟨hchain, hweight, -⟩ | ⟨name, fragment, hnew, hfound, -, hchain, -⟩
  · rw [InvImage, hchain]
    exact Prod.Lex.right _ hweight
  · rw [InvImage, hchain]
    exact Prod.Lex.left _ _ (unused_cons_lt (mem_names_of_get? hfound) hnew)

end Call

/-! ## The chain of fragments -/

/-- Whether the fragment of one name spreads the other, at any depth of its own selections. -/
def FragmentIndex.SpreadsDirectly (index : FragmentIndex) (outer inner : String) : Prop :=
  ∃ fragment, index.get? outer = some fragment ∧ inner ∈ spreadsOf fragment.selections

/-- Whether the chain of a call is a trace of how it was reached: its fragments differ, each one is
spread by the one outside of it, and what the call still spreads is spread by the innermost one. -/
structure Call.IsTraced (index : FragmentIndex) (call : Call) : Prop where
  nodup : call.chain.Nodup
  defined : ∀ name ∈ call.chain, index.contains name = true
  linked : call.chain.IsChain fun inner outer => index.SpreadsDirectly outer inner
  innermost : ∀ outer ∈ call.chain.head?, ∀ name ∈ spreadsOf call.selections,
    index.SpreadsDirectly outer name

namespace Call

variable {schema : Schema} {index : FragmentIndex}

/-- A traced call makes traced calls. -/
theorem IsTraced.makes {outer inner : Call} (houter : outer.IsTraced index)
    (h : Makes schema index outer inner) : inner.IsTraced index := by
  rcases h.spec with ⟨hchain, -, hspreads⟩ | ⟨name, fragment, hnew, hfound, hname, hchain, hselections⟩
  · constructor
    · rw [hchain]
      exact houter.nodup
    · rw [hchain]
      exact houter.defined
    · rw [hchain]
      exact houter.linked
    · rw [hchain]
      exact fun outermost hhead name hname => houter.innermost outermost hhead name (hspreads name hname)
  · constructor
    · rw [hchain, List.nodup_cons]
      exact ⟨hnew, houter.nodup⟩
    · rw [hchain, List.forall_mem_cons, contains, hfound]
      exact ⟨rfl, houter.defined⟩
    · rw [hchain, List.isChain_cons]
      exact ⟨fun outermost hhead => houter.innermost outermost hhead name hname, houter.linked⟩
    · rw [hchain, hselections]
      rintro _ ⟨⟩ other hother
      exact ⟨fragment, hfound, hother⟩

theorem IsTraced.reached {outer inner : Call} (houter : outer.IsTraced index)
    (h : ReflTransGen (Makes schema index) outer inner) : inner.IsTraced index := by
  induction h with
  | refl => exact houter
  | tail _ hmakes ih => exact ih.makes hmakes

/-- There are no more fragments on the chain than in the index. -/
theorem IsTraced.length_le {call : Call} (h : call.IsTraced index) :
    call.chain.length ≤ index.fragments.length := by
  have hsubset : call.chain ⊆ index.names := by
    intro name hname
    obtain ⟨fragment, hfound⟩ := Option.isSome_iff_exists.mp (h.defined name hname)
    exact mem_names_of_get? hfound
  calc call.chain.length
      ≤ index.names.length := (h.nodup.subperm hsubset).length_le
    _ = index.fragments.length := by rw [names, List.length_map]

end Call

/-! ## Cycles that are reported -/

theorem Schema.fieldPlan_ne_cycle {schema : Schema} {parent : ObjectDef} {field : Field}
    {selects : Bool} {path : List String} :
    schema.fieldPlan parent field selects ≠ .error (.fragmentCycle path) := by
  intro h
  rw [fieldPlan] at h
  split at h
  · cases h
  · split at h
    · cases h
    · rcases bind_eq_error.mp h with hfail | ⟨type, -, h⟩
      · obtain ⟨cause, -, hcause⟩ := mapError_eq_error.mp hfail
        cases hcause
      · rcases bind_eq_error.mp h with hfail | ⟨base, -, h⟩
        · obtain ⟨name, hname⟩ := ResolvedType.fieldBase_eq_error hfail
          cases hname
        · cases h

theorem Schema.selectable_ne_cycle {schema : Schema} {name : String} {path : List String} :
    schema.selectable name ≠ .error (.fragmentCycle path) := by
  intro h
  cases (selectable_eq_error h).1

namespace Call

variable {schema : Schema} {index : FragmentIndex} {path : List String}

/-- Whether a call meets a spread of a fragment on its chain, which closes a cycle. -/
inductive Closes : Call → List String → Prop
  | spread {chain : List String} {parent : ObjectDef} {shape : Shape} {name : String}
    {position : GraphQL.Position} {rest : List Selection} (h : name ∈ chain) :
    Closes (object chain parent shape (.spread name position :: rest)) (cyclePath chain name)

theorem Closes.fails {call : Call} (h : call.Closes path) :
    call.Fails schema index (.fragmentCycle path) := by
  cases h with
  | spread hmem => rw [Fails, expand_spread, if_pos hmem]

/-- A call reports a cycle that it closes itself, or that a call reports which it makes. -/
theorem closes_or_makes {call : Call} (h : call.Fails schema index (.fragmentCycle path)) :
    call.Closes path ∨
      ∃ inner, Makes schema index call inner ∧ inner.Fails schema index (.fragmentCycle path) := by
  cases call with
  | object chain parent shape selections =>
    rw [Fails] at h
    cases selections with
    | nil =>
      rw [expand] at h
      cases h
    | cons x rest =>
      cases x with
      | field f inner =>
        rw [expand] at h
        split at h
        · next hold => exact .inr ⟨_, .skip hold, h⟩
        · next hnew =>
          rcases bind_eq_error.mp h with hplan | ⟨plan, hplan, h⟩
          · exact absurd hplan Schema.fieldPlan_ne_cycle
          · rcases bind_eq_error.mp h with hentry | ⟨entry, hentry, h⟩
            · exact .inr ⟨_, .enter hnew hplan, hentry⟩
            · exact .inr ⟨_, .push hnew hplan hentry, h⟩
      | spread name position =>
        rw [expand_spread] at h
        split at h
        · next hmem =>
          cases h
          exact .inl (.spread hmem)
        · next hnew =>
          split at h
          · cases h
          · next fragment hfound =>
            rcases bind_eq_error.mp h with hobject | ⟨object, hobject, h⟩
            · exact absurd hobject Schema.selectable_ne_cycle
            · rcases bind_eq_error.mp h with hown | ⟨middle, hmiddle, h⟩
              · exact .inr ⟨_, .spread hnew hfound hobject, hown⟩
              · exact .inr ⟨_, .resume hnew hfound hobject hmiddle, h⟩
      | inline condition inner position =>
        rw [expand] at h
        cases h
  | field chain f plan inner =>
    rw [Fails, expandField] at h
    split at h
    · cases h
    · next object hbase =>
      rcases bind_eq_error.mp h with hrecord | ⟨record, -, h⟩
      · exact .inr ⟨_, .record hbase, hrecord⟩
      · cases h
    · next union hbase =>
      rcases bind_eq_error.mp h with hvariants | ⟨variants, -, h⟩
      · exact .inr ⟨_, .variants hbase, hvariants⟩
      · cases h
  | union chain name variants selections =>
    rw [Fails] at h
    cases selections with
    | nil =>
      rw [expandUnion] at h
      cases h
    | cons x rest =>
      cases x with
      | field f inner =>
        rw [expandUnion] at h
        split at h
        · next hname => exact .inr ⟨_, .typeName hname, h⟩
        · cases h
      | spread name position =>
        rw [expandUnion] at h
        cases h
      | inline condition inner position =>
        rw [expandUnion] at h
        rcases bind_eq_error.mp h with hmember | ⟨member, hmember, h⟩
        · obtain ⟨other, hother⟩ := Schema.member_eq_error hmember
          cases hother
        · rcases bind_eq_error.mp h with hobject | ⟨object, hobject, h⟩
          · exact absurd hobject Schema.selectable_ne_cycle
          · rcases bind_eq_error.mp h with hshape | ⟨shape, hshape, h⟩
            · exact .inr ⟨_, .member hmember hobject, hshape⟩
            · exact .inr ⟨_, .put hmember hobject hshape, h⟩

/-- A call reports a cycle exactly if one of the calls that it leads to closes it. -/
theorem fails_iff_closes {call : Call} :
    call.Fails schema index (.fragmentCycle path) ↔
      ∃ inner, ReflTransGen (Makes schema index) call inner ∧ inner.Closes path := by
  constructor
  · intro h
    induction call using (wellFounded_makes schema index).induction with
    | _ call ih =>
      rcases closes_or_makes h with hcloses | ⟨next, hmakes, hfails⟩
      · exact ⟨call, .refl, hcloses⟩
      · obtain ⟨inner, hreached, hcloses⟩ := ih next hmakes hfails
        exact ⟨inner, .head hmakes hreached, hcloses⟩
  · rintro ⟨inner, hreached, hcloses⟩
    induction hreached using ReflTransGen.head_induction_on with
    | refl => exact hcloses.fails
    | head hmakes _ ih => exact hmakes.fails ih

end Call

/-- Whether a path is a cycle of fragments: from one fragment round to itself, no other one twice, each
followed by one that it spreads. -/
structure FragmentIndex.IsCycle (index : FragmentIndex) (path : List String) : Prop where
  two_le : 2 ≤ path.length
  closed : path.head? = path.getLast?
  nodup : path.dropLast.Nodup
  defined : ∀ name ∈ path.dropLast, index.contains name = true
  linked : path.IsChain index.SpreadsDirectly

/-- A cycle is the part of the chain from a fragment inwards, read from outside, and the fragment once
more. -/
theorem cyclePath_eq {chain : List String} {name : String} (hnodup : chain.Nodup) (h : name ∈ chain) :
    ∃ inner outer, chain = inner ++ [name] ++ outer ∧
      cyclePath chain name = (inner ++ [name]).reverse ++ [name] := by
  obtain ⟨inner, outer, rfl⟩ := List.append_of_mem h
  refine ⟨inner, outer, by simp, ?_⟩
  have houter : ∀ other ∈ outer.reverse, decide (other ≠ name) = true := by
    intro other hother
    rw [List.nodup_append, List.nodup_cons] at hnodup
    have hne : other ≠ name := fun heq => hnodup.2.1.1 (heq ▸ List.mem_reverse.mp hother)
    simpa using hne
  rw [cyclePath, List.reverse_append, List.reverse_cons, List.append_assoc,
    List.dropWhile_append_of_pos houter]
  simp

/-- A chain of fragments that each spread the one inside of it closes a cycle where the innermost one
spreads a fragment of the chain. -/
theorem FragmentIndex.isCycle_cyclePath {index : FragmentIndex} {chain : List String} {name : String}
    (hnodup : chain.Nodup) (hdefined : ∀ other ∈ chain, index.contains other = true)
    (hlinked : chain.IsChain fun inner outer => index.SpreadsDirectly outer inner)
    (hmem : name ∈ chain) (hcloses : ∀ innermost ∈ chain.head?, index.SpreadsDirectly innermost name) :
    index.IsCycle (cyclePath chain name) := by
  obtain ⟨inner, outer, rfl, hpath⟩ := cyclePath_eq hnodup hmem
  rw [hpath]
  constructor
  · simp
  · rw [List.getLast?_concat]
    simp
  · rw [List.dropLast_concat, List.nodup_reverse]
    exact hnodup.of_append_left
  · rw [List.dropLast_concat]
    intro other hother
    exact hdefined other (List.mem_append_left _ (List.mem_reverse.mp hother))
  · rw [List.isChain_append, List.isChain_reverse]
    refine ⟨hlinked.left_of_append, .singleton _, ?_⟩
    intro innermost hinnermost closing hclosing
    obtain rfl : name = closing := by simpa using hclosing
    refine hcloses innermost ?_
    rw [List.head?_append_of_ne_nil _ (by simp), ← List.getLast?_reverse]
    exact hinnermost

/-- A cycle that a traced call closes is one. -/
theorem Call.IsTraced.isCycle {index : FragmentIndex} {call : Call} {path : List String}
    (h : call.IsTraced index) (hcloses : call.Closes path) : index.IsCycle path := by
  cases hcloses with
  | spread hmem =>
    refine isCycle_cyclePath h.nodup h.defined h.linked hmem fun innermost hinnermost => ?_
    exact h.innermost innermost hinnermost _ (by simp [selections, spreadsOf, selectionSpreads])

/-- A cycle leads from one of its fragments back to it. -/
theorem FragmentIndex.IsCycle.transGen {index : FragmentIndex} {path : List String}
    (h : index.IsCycle path) : ∃ name, TransGen index.SpreadsDirectly name name := by
  match path, h with
  | [], h => exact absurd h.two_le (by simp)
  | [_], h => exact absurd h.two_le (by simp)
  | first :: second :: rest, h =>
    obtain ⟨hfirst, hrest⟩ := List.isChain_cons_cons.mp h.linked
    refine ⟨first, .head' hfirst ?_⟩
    have hlast : (second :: rest).getLast (by simp) = first := by
      have hclosed := h.closed
      rw [List.head?_cons, List.getLast?_cons_cons, List.getLast?_eq_getLast_of_ne_nil (by simp)] at hclosed
      exact (Option.some.inj hclosed).symm
    exact List.relationReflTransGen_of_exists_isChain_cons _ hrest hlast

/-! ## Variables -/

-- The recursion is that of the inputs themselves.
mutual

theorem Schema.namedInput_ne_cycle {schema : Schema} {visited : List String} {name : String}
    {path : List String} : schema.namedInput visited name ≠ .error (.fragmentCycle path) := by
  intro h
  rw [namedInput] at h
  split at h
  · cases h
  · cases h
  · cases h
  · next object hobject =>
    split at h
    · cases h
    · next hnew =>
      have _hless : schema.unvisited (object.name :: visited) < schema.unvisited visited :=
        unvisited_cons_lt (mem_of_get? hobject) hnew
      exact fieldInputs_ne_cycle object.fields (map_eq_error.mp h)
  · cases h
  · cases h
  · cases h
termination_by (schema.unvisited visited, 0)
decreasing_by
  exact Prod.Lex.left _ _ _hless

theorem Schema.fieldInputs_ne_cycle {schema : Schema} {visited : List String} {object : String}
    {path : List String} :
    (fields : List InputValue) →
      schema.fieldInputs visited object fields ≠ .error (.fragmentCycle path)
  | [], h => by
    rw [fieldInputs] at h
    cases h
  | field :: fields, h => by
    rw [fieldInputs] at h
    rcases bind_eq_error.mp h with hfail | ⟨_, -, h⟩
    · obtain ⟨cause, -, hcause⟩ := mapError_eq_error.mp hfail
      cases hcause
    · rcases bind_eq_error.mp h with hbase | ⟨_, -, h⟩
      · exact namedInput_ne_cycle hbase
      · rcases bind_eq_error.mp h with hrest | ⟨_, -, h⟩
        · exact fieldInputs_ne_cycle fields hrest
        · cases h
termination_by fields => (schema.unvisited visited, fields.length + 1)
decreasing_by
  · exact Prod.Lex.right _ (by simp)
  · exact Prod.Lex.right _ (by simp)

end

theorem Binding.operationVariable_ne_cycle {schema : Schema} {v : VariableDefinition}
    {path : List String} : operationVariable schema v ≠ .error (.fragmentCycle path) := by
  intro h
  rcases bind_eq_error.mp h with hinput | ⟨_, -, h⟩
  · rcases bind_eq_error.mp hinput with hfail | ⟨_, -, hinput⟩
    · obtain ⟨cause, -, hcause⟩ := mapError_eq_error.mp hfail
      cases hcause
    · rcases bind_eq_error.mp hinput with hbase | ⟨_, -, hinput⟩
      · exact Schema.namedInput_ne_cycle hbase
      · cases hinput
  · cases h

/-! ## Documents -/

/-- The calls that are made for a definition: the one for its selections, and those that it leads to. -/
def Definition.Runs (schema : Schema) (index : FragmentIndex) (d : Definition) (call : Call) : Prop :=
  ∃ parent, d.target? schema = some parent ∧
    ReflTransGen (Call.Makes schema index) (.object d.chain parent {} d.selections) call

/-- The calls for a definition of a document are traced. -/
theorem Definition.Runs.isTraced {schema : Schema} {document : Document} {index : FragmentIndex}
    (hindex : FragmentIndex.ofDocument document = .ok index) {d : Definition}
    (hd : d ∈ document.definitions) {call : Call} (h : d.Runs schema index call) :
    call.IsTraced index := by
  obtain ⟨parent, -, hreached⟩ := h
  refine Call.IsTraced.reached ?_ hreached
  cases d with
  | operation op => exact ⟨List.nodup_nil, by simp [Call.chain, chain], .nil, by simp [Call.chain, chain]⟩
  | fragment f =>
    -- the expansion of a fragment starts inside of it
    have hf : f ∈ index.fragments := by
      rw [fragments_of_ofDocument hindex]
      exact Document.mem_fragments.mpr hd
    have hget : index.get? f.name = some f := get?_eq_some_iff.mpr ⟨hf, rfl⟩
    refine ⟨List.nodup_singleton _, ?_, .singleton _, ?_⟩
    · simp [Call.chain, chain, contains, hget]
    · rintro _ ⟨⟩ name hname
      exact ⟨f, hget, hname⟩

theorem Binding.ofDefinition_cycle {schema : Schema} {index : FragmentIndex} {d : Definition}
    {path : List String} (h : ofDefinition schema index d = .error (.fragmentCycle path)) :
    ∃ call, d.Runs schema index call ∧ call.Closes path := by
  have hfails : ∃ parent, d.target? schema = some parent ∧
      (Call.object d.chain parent {} d.selections).Fails schema index (.fragmentCycle path) := by
    cases d with
    | operation op =>
      rcases bind_eq_error.mp h with hroot | ⟨⟨kind, type⟩, hroot, h⟩
      · rcases root_eq_error hroot with ⟨_, he⟩ | ⟨_, he⟩ <;> cases he
      · rcases bind_eq_error.mp h with hparent | ⟨parent, hparent, h⟩
        · exact absurd hparent Schema.selectable_ne_cycle
        · rcases bind_eq_error.mp h with hshape | ⟨shape, -, h⟩
          · refine ⟨parent, ?_, hshape⟩
            have hparent := Schema.selectable_eq_ok.mp hparent
            rcases root_eq_ok hroot with ⟨hkind, rfl⟩ | ⟨hkind, htype⟩
            · simp [Definition.target?, hkind, hparent]
            · simp [Definition.target?, hkind, htype, hparent]
          · rcases bind_eq_error.mp h with hinputs | ⟨inputs, -, h⟩
            · obtain ⟨v, -, hfail⟩ := exists_of_mapM_eq_error hinputs
              exact absurd hfail operationVariable_ne_cycle
            · cases h
    | fragment f =>
      rcases bind_eq_error.mp h with hparent | ⟨parent, hparent, h⟩
      · exact absurd hparent Schema.selectable_ne_cycle
      · rcases bind_eq_error.mp h with hshape | ⟨shape, -, h⟩
        · exact ⟨parent, Schema.selectable_eq_ok.mp hparent, hshape⟩
        · cases h
  obtain ⟨parent, htarget, hfails⟩ := hfails
  obtain ⟨call, hreached, hcloses⟩ := Call.fails_iff_closes.mp hfails
  exact ⟨call, ⟨parent, htarget, hreached⟩, hcloses⟩

/-- A document that is refused for a cycle has one in its index, which a call closes. -/
theorem Binding.ofDocument_cycle {schema : Schema} {document : Document} {path : List String}
    (h : ofDocument schema document = .error (.fragmentCycle path)) :
    ∃ index, FragmentIndex.ofDocument document = .ok index ∧ index.IsCycle path ∧
      ∃ d ∈ document.definitions, ∃ call, d.Runs schema index call ∧ call.Closes path := by
  rcases bind_eq_error.mp h with hindex | ⟨index, hindex, h⟩
  · obtain ⟨cause, -, hcause⟩ := mapError_eq_error.mp hindex
    cases hcause
  · obtain ⟨d, hd, hfail⟩ := exists_of_mapM_eq_error h
    obtain ⟨call, hruns, hcloses⟩ := ofDefinition_cycle hfail
    have hindex := mapError_eq_ok.mp hindex
    exact ⟨index, hindex, (hruns.isTraced hindex hd).isCycle hcloses, d, hd, call, hruns, hcloses⟩

/-- The expansions of a document end, however its fragments spread each other: calls cannot go on for
ever, and at each of them the fragments that are being expanded differ and are defined, so that they are
no more than the document has. A cycle that is reported is a cycle of fragments, closed by a call that
meets a spread of a fragment that it is inside of, and without a cycle in the document none is
reported. -/
theorem Binding.ofDocument_expansions (schema : Schema) (document : Document) :
    (∀ index, FragmentIndex.ofDocument document = .ok index →
      (WellFounded fun inner outer => Call.Makes schema index outer inner) ∧
      (∀ d ∈ document.definitions, ∀ call, d.Runs schema index call →
        call.chain.Nodup ∧ (∀ name ∈ call.chain, index.contains name = true) ∧
          call.chain.length ≤ index.fragments.length) ∧
      ((∀ name, ¬ TransGen index.SpreadsDirectly name name) →
        ∀ path, ofDocument schema document ≠ .error (.fragmentCycle path))) ∧
    ∀ path, ofDocument schema document = .error (.fragmentCycle path) →
      ∃ index, FragmentIndex.ofDocument document = .ok index ∧ index.IsCycle path ∧
        ∃ d ∈ document.definitions, ∃ call, d.Runs schema index call ∧ call.Closes path := by
  refine ⟨fun index hindex => ⟨Call.wellFounded_makes schema index, ?_, ?_⟩,
    fun path => ofDocument_cycle⟩
  · intro d hd call hruns
    have htraced := hruns.isTraced hindex hd
    exact ⟨htraced.nodup, htraced.defined, htraced.length_le⟩
  · intro hacyclic path hfail
    obtain ⟨other, hother, hcycle, -⟩ := ofDocument_cycle hfail
    cases hindex.symm.trans hother
    obtain ⟨name, hname⟩ := hcycle.transGen
    exact hacyclic name hname

namespace Sample

/-- Two fragments that spread each other inside of fields. -/
def knows : Fragment := ⟨"Knows", "User", [select "friends" [spread "Meets"]], .start⟩

def meets : Fragment :=
  ⟨"Meets", "User", [select "id" [], select "friends" [select "name" [], spread "Knows"]], .start⟩

/-- A query that enters the cycle through a member of a union. -/
def circular : Document :=
  ⟨[query [select "search" [inline "User" [spread "Meets"]]], .fragment knows, .fragment meets]⟩

-- names are evaluated, not unfolded
attribute [local irreducible] Naming.valueName

theorem ofDocument_circular :
    Binding.ofDocument schema circular = .error (.fragmentCycle ["Meets", "Knows", "Meets"]) := by
  cbv

end Sample

theorem Binding.ofDocument_expansions_circular :
    ofDocument Sample.schema Sample.circular = .error (.fragmentCycle ["Meets", "Knows", "Meets"]) ∧
      ∃ index, FragmentIndex.ofDocument Sample.circular = .ok index ∧
        index.IsCycle ["Meets", "Knows", "Meets"] := by
  obtain ⟨index, hindex, hcycle, -⟩ :=
    (ofDocument_expansions Sample.schema Sample.circular).2 _ Sample.ofDocument_circular
  exact ⟨Sample.ofDocument_circular, index, hindex, hcycle⟩

end ElmBindings
