import ElmBindings.Document.Fragments

set_option autoImplicit false

/-! # Fragments that selections reach

`Reaches` says which selections are met from a selection set, at any depth and through any number of
spreads. The fragments that are printed with an operation are found by one reading from left to right
(`spreadsFrom`), which goes into each fragment only once. Every fragment that is spread in a selection
that is met is among them (`mem_reachable`): the names that are found are closed under spreading. -/

namespace ElmBindings

namespace FragmentIndex

/-! ## Spreads at all depths -/

mutual

/-- The names that a selection spreads, at all depths. -/
def selectionSpreads : Selection → List String
  | .field _ selections => spreadsOf selections
  | .spread name _ => [name]
  | .inline _ selections _ => spreadsOf selections

/-- The names that selections spread, at all depths. -/
def spreadsOf : List Selection → List String
  | [] => []
  | selection :: selections => selectionSpreads selection ++ spreadsOf selections

end

theorem spreadsOf_append (xs ys : List Selection) :
    spreadsOf (xs ++ ys) = spreadsOf xs ++ spreadsOf ys := by
  induction xs with
  | nil => simp [spreadsOf]
  | cons x xs ih => simp [spreadsOf, ih]

theorem mem_spreadsOf {name : String} {x : Selection} {selections : List Selection}
    (hname : name ∈ selectionSpreads x) (hx : x ∈ selections) : name ∈ spreadsOf selections := by
  obtain ⟨before, after, rfl⟩ := List.append_of_mem hx
  simp [spreadsOf_append, spreadsOf, hname]

/-! ## The names that are found -/

variable {index : FragmentIndex}

theorem mem_spreadsFrom_of_seen {seen : List String} {selections : List Selection} {name : String}
    (h : name ∈ seen) : name ∈ spreadsFrom index seen selections := by
  fun_induction spreadsFrom index seen selections with
  | case1 => simpa using h
  | case2 seen field inner rest ih => exact ih h
  | case3 seen condition inner position rest ih => exact ih h
  | case4 seen other position rest hfound ih => exact ih h
  | case5 seen other position rest f hfound hseen ih => exact ih h
  | case6 seen other position rest f hfound hnew ih => exact ih (List.mem_cons_of_mem _ h)

/-- The spreads of the selections are found. -/
theorem mem_spreadsFrom_of_spread {seen : List String} {selections : List Selection} {name : String}
    {fragment : Fragment} (hget : index.get? name = some fragment)
    (h : name ∈ spreadsOf selections) : name ∈ spreadsFrom index seen selections := by
  fun_induction spreadsFrom index seen selections with
  | case1 => cases h
  | case2 seen field inner rest ih =>
    exact ih (by simpa [spreadsOf, selectionSpreads, spreadsOf_append] using h)
  | case3 seen condition inner position rest ih =>
    exact ih (by simpa [spreadsOf, selectionSpreads, spreadsOf_append] using h)
  | case4 seen other position rest hfound ih =>
    rcases List.mem_append.mp h with hother | hrest
    · rw [selectionSpreads, List.mem_singleton] at hother
      rw [hother, hfound] at hget
      cases hget
    · exact ih hrest
  | case5 seen other position rest f hfound hseen ih =>
    rcases List.mem_append.mp h with hother | hrest
    · rw [selectionSpreads, List.mem_singleton] at hother
      exact mem_spreadsFrom_of_seen (hother ▸ hseen)
    · exact ih hrest
  | case6 seen other position rest f hfound hnew ih =>
    rcases List.mem_append.mp h with hother | hrest
    · rw [selectionSpreads, List.mem_singleton] at hother
      exact mem_spreadsFrom_of_seen (by simp [hother])
    · exact ih (by simp [spreadsOf_append, hrest])

/-- So are the spreads of every fragment that is found on the way. -/
theorem mem_spreadsFrom_of_found {seen : List String} {selections : List Selection}
    {outer name : String} {container fragment : Fragment}
    (houter : outer ∈ spreadsFrom index seen selections) (hnew : outer ∉ seen)
    (hcontainer : index.get? outer = some container) (hget : index.get? name = some fragment)
    (h : name ∈ spreadsOf container.selections) : name ∈ spreadsFrom index seen selections := by
  fun_induction spreadsFrom index seen selections with
  | case1 => exact absurd (List.mem_reverse.mp houter) hnew
  | case2 seen field inner rest ih => exact ih houter hnew
  | case3 seen condition inner position rest ih => exact ih houter hnew
  | case4 seen other position rest hfound ih => exact ih houter hnew
  | case5 seen other position rest f hfound hseen ih => exact ih houter hnew
  | case6 seen other position rest f hfound hother ih =>
    by_cases heq : outer = other
    · -- here the selections of the fragment are put in front of the rest
      rw [← heq, hcontainer] at hfound
      cases hfound
      exact mem_spreadsFrom_of_spread hget (by simp [spreadsOf_append, h])
    · exact ih houter (by simp [heq, hnew])

/-! ## Selections that are met -/

/-- Whether a selection is met from the given ones: among them, inside a field or an inline fragment,
or inside a fragment that is spread. -/
inductive Reaches (index : FragmentIndex) (root : List Selection) : Selection → Prop
  | root {x : Selection} (hx : x ∈ root) : Reaches index root x
  | field {f : Field} {inner : List Selection} {x : Selection}
    (h : Reaches index root (.field f inner)) (hx : x ∈ inner) : Reaches index root x
  | inline {condition : Option String} {inner : List Selection} {position : GraphQL.Position}
    {x : Selection} (h : Reaches index root (.inline condition inner position)) (hx : x ∈ inner) :
    Reaches index root x
  | spread {name : String} {position : GraphQL.Position} {fragment : Fragment} {x : Selection}
    (h : Reaches index root (.spread name position)) (hget : index.get? name = some fragment)
    (hx : x ∈ fragment.selections) : Reaches index root x

/-- What is met from selections that are met themselves is met. -/
theorem Reaches.trans {root inner : List Selection} {x : Selection}
    (hinner : ∀ y ∈ inner, Reaches index root y) (h : Reaches index inner x) :
    Reaches index root x := by
  induction h with
  | root hx => exact hinner _ hx
  | field _ hx ih => exact .field ih hx
  | inline _ hx ih => exact .inline ih hx
  | spread _ hget hx ih => exact .spread ih hget hx

/-- Only spreads that are met are found. -/
theorem reaches_of_mem_spreadsFrom {seen : List String} {selections : List Selection} {name : String}
    (h : name ∈ spreadsFrom index seen selections) :
    name ∈ seen ∨ ∃ position, Reaches index selections (.spread name position) := by
  fun_induction spreadsFrom index seen selections with
  | case1 => exact .inl (List.mem_reverse.mp h)
  | case2 seen field inner rest ih =>
    refine (ih h).imp_right fun ⟨position, hmet⟩ => ⟨position, hmet.trans fun y hy => ?_⟩
    rcases List.mem_append.mp hy with hy | hy
    · exact .field (.root List.mem_cons_self) hy
    · exact .root (List.mem_cons_of_mem _ hy)
  | case3 seen condition inner position rest ih =>
    refine (ih h).imp_right fun ⟨place, hmet⟩ => ⟨place, hmet.trans fun y hy => ?_⟩
    rcases List.mem_append.mp hy with hy | hy
    · exact .inline (.root List.mem_cons_self) hy
    · exact .root (List.mem_cons_of_mem _ hy)
  | case4 seen other position rest hfound ih =>
    refine (ih h).imp_right fun ⟨place, hmet⟩ => ⟨place, hmet.trans fun y hy => ?_⟩
    exact .root (List.mem_cons_of_mem _ hy)
  | case5 seen other position rest f hfound hseen ih =>
    refine (ih h).imp_right fun ⟨place, hmet⟩ => ⟨place, hmet.trans fun y hy => ?_⟩
    exact .root (List.mem_cons_of_mem _ hy)
  | case6 seen other position rest f hfound hother ih =>
    rcases ih h with hseen | ⟨place, hmet⟩
    · rcases List.mem_cons.mp hseen with rfl | hseen
      · exact .inr ⟨position, .root List.mem_cons_self⟩
      · exact .inl hseen
    · refine .inr ⟨place, hmet.trans fun y hy => ?_⟩
      rcases List.mem_append.mp hy with hy | hy
      · exact .spread (.root List.mem_cons_self) hfound hy
      · exact .root (List.mem_cons_of_mem _ hy)

theorem Reaches.mem_spreadsFrom {root : List Selection} {x : Selection} (h : Reaches index root x)
    {name : String} {fragment : Fragment} (hget : index.get? name = some fragment)
    (hname : name ∈ selectionSpreads x) : name ∈ spreadsFrom index [] root := by
  induction h generalizing name fragment with
  | root hx => exact mem_spreadsFrom_of_spread hget (mem_spreadsOf hname hx)
  | field _ hx ih => exact ih hget (mem_spreadsOf hname hx)
  | inline _ hx ih => exact ih hget (mem_spreadsOf hname hx)
  | @spread outer position container x _ hcontainer hx ih =>
    have houter : outer ∈ spreadsFrom index [] root := ih hcontainer (by simp [selectionSpreads])
    exact mem_spreadsFrom_of_found houter (by simp) hcontainer hget (mem_spreadsOf hname hx)

/-- A fragment that is spread in a selection that is met is one of the reachable fragments. -/
theorem Reaches.mem_reachable {root : List Selection} {name : String} {position : GraphQL.Position}
    (h : Reaches index root (.spread name position)) {fragment : Fragment}
    (hget : index.get? name = some fragment) : fragment ∈ index.reachable root := by
  rw [reachable, List.mem_filterMap]
  exact ⟨name, h.mem_spreadsFrom hget (by simp [selectionSpreads]), hget⟩

/-- A reachable fragment is the one of its name. -/
theorem get?_of_mem_reachable {root : List Selection} {fragment : Fragment}
    (h : fragment ∈ index.reachable root) : index.get? fragment.name = some fragment := by
  rw [reachable, List.mem_filterMap] at h
  obtain ⟨name, -, hget⟩ := h
  rw [(get?_eq_some hget).2]
  exact hget

theorem fragments_of_ofDocument {document : Document} {index : FragmentIndex}
    (h : FragmentIndex.ofDocument document = .ok index) : index.fragments = document.fragments := by
  unfold FragmentIndex.ofDocument at h
  split at h
  · cases h
  · cases h
    rfl

end FragmentIndex

namespace Document

theorem mem_definitions_of_operations {document : Document} {op : Operation}
    (h : op ∈ document.operations) : .operation op ∈ document.definitions := by
  obtain ⟨d, hd, heq⟩ := List.mem_filterMap.mp h
  cases d with
  | operation =>
    cases heq
    exact hd
  | fragment => cases heq

theorem mem_definitions_of_reachable {document : Document} {index : FragmentIndex}
    (hindex : FragmentIndex.ofDocument document = .ok index) {selections : List Selection}
    {f : Fragment} (h : f ∈ index.reachable selections) : .fragment f ∈ document.definitions := by
  have hget := FragmentIndex.get?_of_mem_reachable h
  have hmem := (FragmentIndex.get?_eq_some hget).1
  rw [FragmentIndex.fragments_of_ofDocument hindex] at hmem
  obtain ⟨d, hd, heq⟩ := List.mem_filterMap.mp hmem
  cases d with
  | operation => cases heq
  | fragment =>
    cases heq
    exact hd

end Document

end ElmBindings
