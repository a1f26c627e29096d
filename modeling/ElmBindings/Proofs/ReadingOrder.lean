import ElmBindings.Proofs.Independence

set_option autoImplicit false

/-! # The order of reachable fragments

`spreadsFrom` reads selections from left to right and goes into a fragment only where it is met for the
first time in the whole reading. `reading` has no such memory: it goes into a fragment wherever it is
spread, and stops only at a fragment that it is inside of, without which it would never end. Both meet
the same fragments in the same order (`spreadsFrom_eq_eraseDups`). The reason is that a fragment which was
met and left behind is finished: whatever it spreads was met as well (`IsFinished`), so going into it
once more meets nothing new. -/

namespace ElmBindings

/-! ## First occurrences -/

section FirstOccurrences

variable {α : Type} [DecidableEq α]

theorem nodup_eraseDups (xs : List α) : xs.eraseDups.Nodup := by
  match xs with
  | [] => simp
  | x :: xs =>
    rw [List.eraseDups_cons, List.nodup_cons]
    exact ⟨by simp, nodup_eraseDups _⟩
termination_by xs.length
decreasing_by
  have := List.length_filter_le (fun y => !y == x) xs
  rw [List.length_cons]
  omega

theorem eraseDups_of_nodup {xs : List α} (h : xs.Nodup) : xs.eraseDups = xs := by
  induction xs with
  | nil => rfl
  | cons x xs ih =>
    rw [List.nodup_cons] at h
    have hfilter : xs.filter (fun y => !y == x) = xs := by
      rw [List.filter_eq_self]
      intro y hy
      have hne : y ≠ x := fun heq => h.1 (heq ▸ hy)
      simpa using hne
    rw [List.eraseDups_cons, hfilter, ih h.2]

/-- What stands in a list already adds nothing behind it. -/
theorem eraseDups_append_of_subset {xs ys zs : List α} (h : ∀ y ∈ ys, y ∈ xs) :
    (xs ++ (ys ++ zs)).eraseDups = (xs ++ zs).eraseDups := by
  have hnone : ys.removeAll xs = [] := by
    rw [List.removeAll, List.filter_eq_nil_iff]
    intro y hy
    simpa using h y hy
  have hrest : zs.removeAll (xs ++ ys) = zs.removeAll xs := by
    refine List.filter_congr fun z _ => ?_
    simp only [List.elem_eq_mem, List.mem_append, or_iff_left_of_imp (h z)]
  rw [← List.append_assoc, List.eraseDups_append, List.eraseDups_append, hnone, hrest,
    List.eraseDups_append]
  simp

/-- Repetitions can be left out of a list before another one follows. -/
theorem eraseDups_append_eraseDups (xs ys : List α) :
    (xs.eraseDups ++ ys).eraseDups = (xs ++ ys).eraseDups := by
  have hrest : ys.removeAll xs.eraseDups = ys.removeAll xs := by
    refine List.filter_congr fun y _ => ?_
    simp only [List.elem_eq_mem, List.mem_eraseDups]
  rw [List.eraseDups_append, List.eraseDups_append, eraseDups_of_nodup (nodup_eraseDups xs), hrest]

/-- Whether a list has the members of another one, each once, in the order of their first occurrence. -/
structure IsFirsts (xs firsts : List α) : Prop where
  mem_iff : ∀ x, x ∈ firsts ↔ x ∈ xs
  ordered : firsts.Pairwise fun x y => xs.idxOf x < xs.idxOf y

/-- Members that stay when others are left out stay in order. -/
theorem idxOf_lt_of_filter {p : α → Bool} {xs : List α} {x y : α} (hx : p x = true)
    (hy : p y = true) (h : (xs.filter p).idxOf x < (xs.filter p).idxOf y) :
    xs.idxOf x < xs.idxOf y := by
  induction xs with
  | nil => simp at h
  | cons z xs ih =>
    by_cases hzx : z = x
    · subst hzx
      rw [List.filter_cons_of_pos hx, List.idxOf_cons_self] at h
      have hne : z ≠ y := by
        rintro rfl
        simp at h
      simp [hne]
    · have hzy : z ≠ y := by
        rintro rfl
        rw [List.filter_cons_of_pos hy] at h
        simp at h
      rw [List.idxOf_cons_ne _ hzx, List.idxOf_cons_ne _ hzy]
      refine Nat.succ_lt_succ (ih ?_)
      by_cases hz : p z = true
      · rwa [List.filter_cons_of_pos hz, List.idxOf_cons_ne _ hzx, List.idxOf_cons_ne _ hzy,
          Nat.succ_lt_succ_iff] at h
      · rwa [List.filter_cons_of_neg hz] at h

theorem isFirsts_eraseDups (xs : List α) : IsFirsts xs xs.eraseDups := by
  refine ⟨fun x => List.mem_eraseDups, ?_⟩
  match xs with
  | [] => simp
  | x :: xs =>
    have hne : ∀ y ∈ (xs.filter fun y => !y == x).eraseDups, y ≠ x := by
      intro y hy
      simpa using (List.mem_filter.mp (List.mem_eraseDups.mp hy)).2
    rw [List.eraseDups_cons, List.pairwise_cons]
    constructor
    · intro y hy
      simp [(hne y hy).symm]
    · refine (isFirsts_eraseDups (xs.filter fun y => !y == x)).ordered.imp_of_mem ?_
      intro y z hy hz hlt
      have hrest : xs.idxOf y < xs.idxOf z :=
        idxOf_lt_of_filter (by simpa using hne y hy) (by simpa using hne z hz) hlt
      rw [List.idxOf_cons_ne _ (hne y hy).symm, List.idxOf_cons_ne _ (hne z hz).symm]
      exact Nat.succ_lt_succ hrest
termination_by xs.length
decreasing_by
  have := List.length_filter_le (fun y => !y == x) xs
  rw [List.length_cons]
  omega

end FirstOccurrences

namespace FragmentIndex

/-! ## Reading without memory -/

/-- The names of fragments in the order in which they are met when selections are read from left to
right, each fragment being read wherever it is spread. `within` holds the fragments that are being read:
inside of itself a fragment is met, but not read again. -/
def reading (index : FragmentIndex) (within : List String) : List Selection → List String
  | [] => []
  | .field _ inner :: rest => reading index within inner ++ reading index within rest
  | .inline _ inner _ :: rest => reading index within inner ++ reading index within rest
  | .spread name _ :: rest =>
    match _found : index.get? name with
    | none => reading index within rest
    | some f =>
      if name ∈ within then name :: reading index within rest
      else name :: (reading index (name :: within) f.selections ++ reading index within rest)
termination_by selections => (index.unused within, selectionsSize selections)
decreasing_by
  · exact Prod.Lex.right _ (by simp [selectionsSize, selectionSize]; omega)
  · exact Prod.Lex.right _ (by simp [selectionsSize, selectionSize])
  · exact Prod.Lex.right _ (by simp [selectionsSize, selectionSize]; omega)
  · exact Prod.Lex.right _ (by simp [selectionsSize, selectionSize])
  · exact Prod.Lex.right _ (by simp [selectionsSize, selectionSize])
  · exact Prod.Lex.right _ (by simp [selectionsSize, selectionSize])
  · exact Prod.Lex.left _ _ (unused_cons_lt (mem_names_of_get? ‹_›) ‹_›)
  · exact Prod.Lex.right _ (by simp [selectionsSize, selectionSize])

variable {index : FragmentIndex}

/-! ## Fragments that are finished -/

/-- Whether all that is spread by the fragments that were met was met as well, apart from the fragments
that are still being read. -/
def IsFinished (index : FragmentIndex) (within met : List String) : Prop :=
  ∀ name ∈ met, name ∉ within → ∀ f, index.get? name = some f →
    ∀ other ∈ spreadsOf f.selections, index.contains other = true → other ∈ met

/-- While one more fragment is being read, less has to be finished. -/
theorem IsFinished.push {within met : List String} (h : IsFinished index within met) (name : String) :
    IsFinished index (name :: within) met := by
  intro other hother hnew
  exact h other hother fun hmem => hnew (List.mem_cons_of_mem name hmem)

/-- A fragment that begins to be read need not be finished. -/
theorem IsFinished.start {within met : List String} (h : IsFinished index within met) (name : String) :
    IsFinished index (name :: within) (name :: met) := by
  intro other hother hnew f hf inner hinner hdefined
  rw [List.mem_cons, not_or] at hnew
  have hmet : other ∈ met := (List.mem_cons.mp hother).resolve_left hnew.1
  exact List.mem_cons_of_mem name (h other hmet hnew.2 f hf inner hinner hdefined)

theorem IsFinished.reverse {within met : List String} (h : IsFinished index within met) :
    IsFinished index within met.reverse := by
  simpa only [IsFinished, List.mem_reverse] using h

/-- What a reading with memory meets is finished, apart from what was not before. -/
theorem IsFinished.spreadsFrom {within seen : List String} (h : IsFinished index within seen)
    (selections : List Selection) :
    IsFinished index within (index.spreadsFrom seen selections) := by
  intro name hname hnew f hf other hother hdefined
  by_cases hseen : name ∈ seen
  · exact mem_spreadsFrom_of_seen (h name hseen hnew f hf other hother hdefined)
  · obtain ⟨g, hg⟩ := Option.isSome_iff_exists.mp hdefined
    exact mem_spreadsFrom_of_found hname hseen hf hg hother

/-- A fragment is finished when its selections have been read. -/
theorem IsFinished.leave {within seen : List String} {name : String} {f : Fragment}
    (h : IsFinished index (name :: within) seen) (hfound : index.get? name = some f) :
    IsFinished index within (index.spreadsFrom seen f.selections) := by
  intro other hother hnew g hg inner hinner hdefined
  by_cases heq : other = name
  · obtain rfl : f = g := Option.some.inj (hfound.symm.trans (heq ▸ hg))
    obtain ⟨target, htarget⟩ := Option.isSome_iff_exists.mp hdefined
    exact mem_spreadsFrom_of_spread htarget hinner
  · exact h.spreadsFrom f.selections other hother (by simp [heq, hnew]) g hg inner hinner hdefined

/-- A reading meets nothing new where all that is spread was met and the fragments met are finished. -/
theorem mem_of_mem_reading {within met : List String} {selections : List Selection}
    (hfinished : IsFinished index within met)
    (hspreads : ∀ name ∈ spreadsOf selections, index.contains name = true → name ∈ met) :
    ∀ name ∈ reading index within selections, name ∈ met := by
  fun_induction reading index within selections with
  | case1 => simp
  | case2 within field inner rest ihinner ihrest =>
    rw [spreadsOf, selectionSpreads, List.forall_mem_append] at hspreads
    rw [List.forall_mem_append]
    exact ⟨ihinner hfinished hspreads.1, ihrest hfinished hspreads.2⟩
  | case3 within condition inner position rest ihinner ihrest =>
    rw [spreadsOf, selectionSpreads, List.forall_mem_append] at hspreads
    rw [List.forall_mem_append]
    exact ⟨ihinner hfinished hspreads.1, ihrest hfinished hspreads.2⟩
  | case4 within name position rest hfound ih =>
    rw [spreadsOf, selectionSpreads, List.forall_mem_append] at hspreads
    exact ih hfinished hspreads.2
  | case5 within name position rest f hfound hopen ih =>
    rw [spreadsOf, selectionSpreads, List.forall_mem_append, List.forall_mem_singleton,
      contains, hfound] at hspreads
    rw [List.forall_mem_cons]
    exact ⟨hspreads.1 rfl, ih hfinished hspreads.2⟩
  | case6 within name position rest f hfound hopen ihown ihrest =>
    rw [spreadsOf, selectionSpreads, List.forall_mem_append, List.forall_mem_singleton,
      contains, hfound] at hspreads
    have hmet : name ∈ met := hspreads.1 rfl
    rw [List.forall_mem_cons, List.forall_mem_append]
    exact ⟨hmet, ihown (hfinished.push name) (hfinished name hmet hopen f hfound),
      ihrest hfinished hspreads.2⟩

/-! ## Reading with memory -/

/-- Selections can be read part by part. -/
theorem spreadsFrom_append (index : FragmentIndex) (seen : List String) (xs ys : List Selection) :
    index.spreadsFrom seen (xs ++ ys) = index.spreadsFrom (index.spreadsFrom seen xs).reverse ys := by
  fun_induction FragmentIndex.spreadsFrom index seen xs with
  | case1 seen => rw [List.nil_append, List.reverse_reverse]
  | case2 seen field inner rest ih =>
    rw [List.cons_append, FragmentIndex.spreadsFrom, ← ih, List.append_assoc]
  | case3 seen condition inner position rest ih =>
    rw [List.cons_append, FragmentIndex.spreadsFrom, ← ih, List.append_assoc]
  | case4 seen name position rest hfound ih =>
    rw [List.cons_append, spreadsFrom_spread, hfound]
    exact ih
  | case5 seen name position rest f hfound hseen ih =>
    rw [List.cons_append, spreadsFrom_spread, hfound]
    simpa only [if_pos hseen] using ih
  | case6 seen name position rest f hfound hnew ih =>
    rw [List.cons_append, spreadsFrom_spread, hfound]
    simpa only [if_neg hnew, List.append_assoc] using ih

/-- Two parts are read one after the other as they are without memory, if each of them is. -/
theorem spreadsFrom_append_eq {seen xsNames ysNames : List String} {xs ys : List Selection}
    (hxs : index.spreadsFrom seen xs = (seen.reverse ++ xsNames).eraseDups)
    (hys : index.spreadsFrom (index.spreadsFrom seen xs).reverse ys =
      ((index.spreadsFrom seen xs).reverse.reverse ++ ysNames).eraseDups) :
    index.spreadsFrom seen (xs ++ ys) = (seen.reverse ++ (xsNames ++ ysNames)).eraseDups := by
  rw [spreadsFrom_append, hys, List.reverse_reverse, hxs, eraseDups_append_eraseDups,
    List.append_assoc]

/-- A reading that skips what it has seen meets what a reading without memory meets, each name where it
comes up for the first time. -/
theorem spreadsFrom_eq_eraseDups {within seen : List String} {selections : List Selection}
    (hnodup : seen.Nodup) (hwithin : ∀ name ∈ within, name ∈ seen)
    (hfinished : IsFinished index within seen) :
    index.spreadsFrom seen selections =
      (seen.reverse ++ reading index within selections).eraseDups := by
  -- what holds of the names seen holds of all names when a part has been read
  have hnodup' {seen : List String} {xs : List Selection} {names : List String}
      (h : index.spreadsFrom seen xs = names.eraseDups) :
      (index.spreadsFrom seen xs).reverse.Nodup := by
    rw [List.nodup_reverse, h]
    exact nodup_eraseDups names
  have hwithin' {within seen : List String} (xs : List Selection) (h : ∀ name ∈ within, name ∈ seen) :
      ∀ name ∈ within, name ∈ (index.spreadsFrom seen xs).reverse := by
    intro name hname
    exact List.mem_reverse.mpr (mem_spreadsFrom_of_seen (h name hname))
  fun_induction reading index within selections generalizing seen with
  | case1 within =>
    rw [FragmentIndex.spreadsFrom, List.append_nil,
      eraseDups_of_nodup (List.nodup_reverse.mpr hnodup)]
  | case2 within field inner rest ihinner ihrest =>
    have hinner := ihinner hnodup hwithin hfinished
    rw [FragmentIndex.spreadsFrom]
    exact spreadsFrom_append_eq hinner
      (ihrest (hnodup' hinner) (hwithin' inner hwithin) (hfinished.spreadsFrom inner).reverse)
  | case3 within condition inner position rest ihinner ihrest =>
    have hinner := ihinner hnodup hwithin hfinished
    rw [FragmentIndex.spreadsFrom]
    exact spreadsFrom_append_eq hinner
      (ihrest (hnodup' hinner) (hwithin' inner hwithin) (hfinished.spreadsFrom inner).reverse)
  | case4 within name position rest hfound ih =>
    rw [spreadsFrom_spread, hfound]
    exact ih hnodup hwithin hfinished
  | case5 within name position rest f hfound hopen ih =>
    have hseen : name ∈ seen := hwithin name hopen
    have hold : ∀ other ∈ [name], other ∈ seen.reverse := by simpa using hseen
    rw [spreadsFrom_spread, hfound]
    simp only [if_pos hseen]
    rw [ih hnodup hwithin hfinished]
    exact (eraseDups_append_of_subset hold).symm
  | case6 within name position rest f hfound hopen ihown ihrest =>
    rw [spreadsFrom_spread, hfound]
    by_cases hseen : name ∈ seen
    · -- the fragment is finished, so that reading it again adds nothing
      have hold : ∀ other ∈ reading index (name :: within) f.selections, other ∈ seen :=
        mem_of_mem_reading (hfinished.push name) (hfinished name hseen hopen f hfound)
      simp only [if_pos hseen]
      rw [ihrest hnodup hwithin hfinished, ← List.cons_append]
      refine (eraseDups_append_of_subset ?_).symm
      simpa [hseen] using hold
    · have hnodupCons : (name :: seen).Nodup := List.nodup_cons.mpr ⟨hseen, hnodup⟩
      have hwithinCons : ∀ other ∈ name :: within, other ∈ name :: seen := by
        intro other hother
        exact List.mem_cons.mpr ((List.mem_cons.mp hother).imp_right (hwithin other))
      have hown := ihown hnodupCons hwithinCons (hfinished.start name)
      simp only [if_neg hseen]
      rw [spreadsFrom_append_eq hown (ihrest (hnodup' hown)
          (fun other hother => hwithin' f.selections hwithinCons other (List.mem_cons_of_mem _ hother))
          ((hfinished.start name).leave hfound).reverse)]
      simp

/-! ## Reachable fragments -/

theorem contains_of_mem_reading {within : List String} {selections : List Selection} {name : String}
    (h : name ∈ reading index within selections) : index.contains name = true := by
  fun_induction reading index within selections with
  | case1 => cases h
  | case2 within field inner rest ihinner ihrest =>
    exact (List.mem_append.mp h).elim ihinner ihrest
  | case3 within condition inner position rest ihinner ihrest =>
    exact (List.mem_append.mp h).elim ihinner ihrest
  | case4 within other position rest hfound ih => exact ih h
  | case5 within other position rest f hfound hopen ih =>
    rcases List.mem_cons.mp h with rfl | hrest
    · rw [contains, hfound, Option.isSome_some]
    · exact ih hrest
  | case6 within other position rest f hfound hopen ihown ihrest =>
    rcases List.mem_cons.mp h with rfl | hmem
    · rw [contains, hfound, Option.isSome_some]
    · exact (List.mem_append.mp hmem).elim ihown ihrest

/-- The names of the reachable fragments are those that a reading meets, each where it comes up first. -/
theorem map_name_reachable (index : FragmentIndex) (selections : List Selection) :
    (index.reachable selections).map Fragment.name =
      (reading index [] selections).eraseDups := by
  have hnames : index.spreadsFrom [] selections = (reading index [] selections).eraseDups :=
    spreadsFrom_eq_eraseDups List.nodup_nil (by simp) (by simp [IsFinished])
  rw [reachable, hnames, List.map_filterMap]
  -- every name that is met leads to a fragment of that name
  have hsome : ∀ name ∈ (reading index [] selections).eraseDups,
      (index.get? name).map Fragment.name = some name := by
    intro name hname
    obtain ⟨f, hf⟩ := Option.isSome_iff_exists.mp
      (contains_of_mem_reading (List.mem_eraseDups.mp hname))
    rw [hf, Option.map_some, (get?_eq_some hf).2]
  rw [List.filterMap_congr hsome, List.filterMap_some]

theorem get?_eq_of_perm {index' : FragmentIndex} (h : index.fragments.Perm index'.fragments)
    (name : String) : index.get? name = index'.get? name := by
  refine Option.ext fun f => ?_
  rw [get?_eq_some_iff, get?_eq_some_iff, h.mem_iff]

/-- The reachable fragments are the fragments that are spread in a selection that is met, each of them
once. They come in the order in which a reading from left to right, that goes into every fragment where
it is spread, meets them for the first time, and the order of the fragments in the index does not
matter. -/
theorem reachable_exact (index : FragmentIndex) (selections : List Selection) :
    (index.reachable selections).Nodup ∧
      (∀ f, f ∈ index.reachable selections ↔
        f ∈ index.fragments ∧ ∃ position, Reaches index selections (.spread f.name position)) ∧
      (index.reachable selections).map Fragment.name =
        (reading index [] selections).eraseDups ∧
      ∀ index' : FragmentIndex, index.fragments.Perm index'.fragments →
        index.reachable selections = index'.reachable selections := by
  have hnames := map_name_reachable index selections
  refine ⟨?_, ?_, hnames, ?_⟩
  · refine List.Nodup.of_map Fragment.name ?_
    rw [hnames]
    exact nodup_eraseDups _
  · intro f
    constructor
    · intro hf
      obtain ⟨name, hname, hget⟩ := List.mem_filterMap.mp hf
      obtain ⟨hmem, rfl⟩ := get?_eq_some hget
      exact ⟨hmem, (reaches_of_mem_spreadsFrom hname).resolve_left (by simp)⟩
    · rintro ⟨hmem, position, hmet⟩
      exact hmet.mem_reachable (get?_eq_some_iff.mpr ⟨hmem, rfl⟩)
  · intro index' hperm
    exact reachable_eq fun name _ _ => get?_eq_of_perm hperm name

end FragmentIndex

namespace Sample

/-- Three fragments, two of which spread each other. -/
def friends : Fragment :=
  ⟨"Friends", "User", [select "friends" [spread "Person"], spread "Ids"], .start⟩

def person : Fragment :=
  ⟨"Person", "User", [select "name" [], spread "Missing", spread "Friends"], .start⟩

def ids : Fragment := ⟨"Ids", "User", [select "id" []], .start⟩

def circle : FragmentIndex := ⟨[friends, person, ids], by simp [friends, person, ids]⟩

def circleReversed : FragmentIndex := ⟨[ids, person, friends], by simp [friends, person, ids]⟩

/-- The second fragment of the circle is spread first, inside an inline fragment. -/
def entering : List Selection :=
  [select "search" [inline "User" [spread "Person"]], spread "Ids", spread "Friends"]

theorem reading_entering :
    circle.reading [] entering =
      ["Person", "Friends", "Person", "Ids", "Ids", "Friends", "Person", "Friends", "Ids"] := by
  cbv

end Sample

/-- A circle of fragments is entered at its second fragment. -/
theorem FragmentIndex.reachable_exact_circle :
    (Sample.circle.reachable Sample.entering).map Fragment.name = ["Person", "Friends", "Ids"] ∧
      Sample.circle.fragments.Perm Sample.circleReversed.fragments ∧
      Sample.circle.reachable Sample.entering = Sample.circleReversed.reachable Sample.entering := by
  obtain ⟨-, -, hnames, horder⟩ := reachable_exact Sample.circle Sample.entering
  have hperm : Sample.circle.fragments.Perm Sample.circleReversed.fragments :=
    (List.reverse_perm _).symm
  refine ⟨?_, hperm, horder _ hperm⟩
  rw [hnames, Sample.reading_entering]
  decide

end ElmBindings
