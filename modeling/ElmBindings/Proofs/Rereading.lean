import ElmBindings.Proofs.Lexing

set_option autoImplicit false

/-! # Reading the tokens of a document

Each reader, given lexemes whose tokens are those of a type, a value, a selection or a definition,
returns that and what follows. The readers of nested parts are given a budget of steps, and the number
of tokens is enough of it. The place of a lexeme does not count, so a definition is read back without
its places; the directives of a field are not among its tokens, so a field is read back as
unconditional; and a float is read back as the one that its text stands for
(`Document.parse_definitions`). -/

namespace ElmBindings

namespace GraphQL

/-- Lexemes whose tokens start with a given one. -/
theorem exists_lexeme {ls : List Lexeme} {t : Token} {ts : List Token}
    (h : ls.map Lexeme.token = t :: ts) :
    ∃ position rest, ls = ⟨t, position⟩ :: rest ∧ rest.map Lexeme.token = ts := by
  obtain ⟨⟨_, position⟩, rest, rfl, rfl, hrest⟩ := List.map_eq_cons_iff.mp h
  exact ⟨position, rest, rfl, hrest⟩

/-- Lexemes do not start with a token that is not the first of theirs. -/
theorem ne_cons_of_head? {ls : List Lexeme} {t : Token} {ts : List Token}
    (h : ls.map Lexeme.token = ts) (hts : ts.head? ≠ some t) (position : Position)
    (rest : List Lexeme) : ls ≠ ⟨t, position⟩ :: rest := by
  rintro rfl
  exact hts (congrArg List.head? h).symm

theorem length_le_of_tokens {ls : List Lexeme} {us ts : List Token}
    (h : ls.map Lexeme.token = us ++ ts) : us.length ≤ ls.length := by
  have hlength := congrArg List.length h
  rw [List.length_map, List.length_append] at hlength
  omega

theorem length_lt_of_tokens {ls : List Lexeme} {us ts : List Token} {t : Token}
    (h : ls.map Lexeme.token = us ++ t :: ts) : us.length < ls.length := by
  rw [List.append_cons] at h
  simpa using length_le_of_tokens h

theorem bracketed_append (left right : Punctuator) (us ts : List Token) :
    bracketed left right us ++ ts = .punct left :: (us ++ .punct right :: ts) := by
  simp [bracketed]

theorem length_bracketed (left right : Punctuator) (us : List Token) :
    (bracketed left right us).length = us.length + 2 := by
  simp [bracketed]

/-! ## Types -/

theorem afterType_nullable {t : TypeRef} {depth : Nat} (ht : t.Written depth) {ls : List Lexeme}
    {ts : List Token}
    (hls : ls.map Lexeme.token = (if t.isNonNull then [.punct .bang] else []) ++ ts)
    (hts : ts.head? ≠ some (.punct .bang)) :
    ∃ rest, afterType t.nullable ls = (t, rest) ∧ rest.map Lexeme.token = ts := by
  cases t with
  | nonNull inner =>
    obtain ⟨position, rest, rfl, hrest⟩ := exists_lexeme hls
    exact ⟨rest, by simp [afterType, TypeRef.nullable, TypeRef.required, ht.1], hrest⟩
  | named | list =>
    refine ⟨ls, ?_, hls⟩
    unfold afterType
    split
    · exact absurd rfl (ne_cons_of_head? hls hts _ _)
    · rfl

theorem tokens_nullable (t : TypeRef) :
    t.tokens = t.nullable.tokens ++ if t.isNonNull then [.punct .bang] else [] := by
  cases t <;> simp [TypeRef.tokens, TypeRef.nullable, TypeRef.isNonNull]

/-- A type is read up to the exclamation mark that may make it non-null. -/
theorem type?_nullable {t : TypeRef} {depth budget : Nat} (ht : t.Written depth)
    {ls : List Lexeme} {ts : List Token} (hbudget : t.tokens.length ≤ budget)
    (hls : ls.map Lexeme.token = t.nullable.tokens ++ ts) :
    ∃ rest, type? budget ls = some (afterType t.nullable rest) ∧ rest.map Lexeme.token = ts := by
  induction t generalizing depth budget ls ts with
  | named name =>
    obtain ⟨position, rest, rfl, hrest⟩ := exists_lexeme hls
    obtain ⟨n, rfl⟩ : ∃ n, budget = n + 1 := Nat.exists_eq_add_of_le' hbudget
    exact ⟨rest, by rw [type?]; rfl, hrest⟩
  | list item ih =>
    have hlist : (TypeRef.list item).nullable = .list item := rfl
    rw [hlist, TypeRef.tokens, bracketed_append] at hls
    rw [TypeRef.tokens, length_bracketed] at hbudget
    obtain ⟨position, rest, rfl, hrest⟩ := exists_lexeme hls
    obtain ⟨n, rfl⟩ : ∃ n, budget = n + 1 := ⟨budget - 1, by omega⟩
    rw [tokens_nullable item, List.append_assoc] at hrest
    have hitem : item.tokens.length ≤ n := by omega
    obtain ⟨inner, hinner, htokens⟩ := ih ht.2 hitem hrest
    obtain ⟨after, hafter, htokens⟩ := afterType_nullable ht.2 htokens (by simp)
    obtain ⟨position', rest', rfl, hrest'⟩ := exists_lexeme htokens
    exact ⟨rest', by rw [type?, hlist]; simp [hinner, hafter], hrest'⟩
  | nonNull inner ih =>
    have hnull : inner.nullable = inner := by
      cases inner with
      | nonNull _ => exact absurd ht.1 (by simp [TypeRef.isNonNull])
      | named | list => rfl
    rw [TypeRef.tokens, List.length_append] at hbudget
    have hinner := ih ht.2 (Nat.le_of_add_right_le hbudget) (hnull.symm ▸ hls)
    rwa [hnull] at hinner

theorem type?_tokens {t : TypeRef} {depth budget : Nat} (ht : t.Written depth)
    {ls : List Lexeme} {ts : List Token} (hbudget : t.tokens.length ≤ budget)
    (hls : ls.map Lexeme.token = t.tokens ++ ts) (hts : ts.head? ≠ some (.punct .bang)) :
    ∃ rest, type? budget ls = some (t, rest) ∧ rest.map Lexeme.token = ts := by
  rw [tokens_nullable, List.append_assoc] at hls
  obtain ⟨inner, hinner, htokens⟩ := type?_nullable ht hbudget hls
  obtain ⟨rest, hafter, hrest⟩ := afterType_nullable ht htokens hts
  exact ⟨rest, by rw [hinner, hafter], hrest⟩

/-! ## Values -/

mutual

/-- The value that the text of a value is read as: floats may differ. -/
def Value.reread : Value → Value
  | .float x => .float x.reread
  | .list items => .list (rereadItems items)
  | .object entries => .object (rereadEntries entries)
  | v => v

/-- The items that the texts of items are read as. -/
def rereadItems : List Value → List Value
  | [] => []
  | item :: items => item.reread :: rereadItems items

/-- The named values that the texts of named values are read as. -/
def rereadEntries : List (String × Value) → List (String × Value)
  | [] => []
  | (key, value) :: entries => (key, value.reread) :: rereadEntries entries

end

theorem map_fst_rereadEntries (entries : List (String × Value)) :
    (rereadEntries entries).map Prod.fst = entries.map Prod.fst := by
  induction entries with
  | nil => rfl
  | cons entry entries ih => simp [rereadEntries, ih]

/-- An entry goes to the end of entries with smaller keys. -/
theorem insertEntry_of_lt {key : String} (value : Value) {entries : List (String × Value)}
    (h : ∀ k ∈ entries.map Prod.fst, k < key) :
    insertEntry key value entries = entries ++ [(key, value)] := by
  induction entries with
  | nil => rfl
  | cons entry entries ih =>
    obtain ⟨k, v⟩ := entry
    rw [List.map_cons, List.forall_mem_cons] at h
    rw [insertEntry, if_neg h.1.ne', if_neg (lt_asymm h.1), ih h.2, List.cons_append]

/-- Entries in the order of their keys are those of the object that they make. -/
theorem ofEntries_sorted {entries : List (String × Value)}
    (h : (entries.map Prod.fst).Pairwise (· < ·)) : Value.ofEntries entries = .object entries := by
  have hfold : ∀ sorted : List (String × Value),
      (∀ k ∈ sorted.map Prod.fst, ∀ key ∈ entries.map Prod.fst, k < key) →
      entries.foldl (fun sorted entry => insertEntry entry.1 entry.2 sorted) sorted =
        sorted ++ entries := by
    induction entries with
    | nil => simp
    | cons entry entries ih =>
      obtain ⟨key, value⟩ := entry
      intro sorted hsorted
      rw [List.map_cons, List.pairwise_cons] at h
      have hinsert := insertEntry_of_lt value fun k hk => hsorted k hk key (by simp)
      simp only [List.foldl_cons, hinsert]
      rw [ih h.2, List.append_assoc, List.singleton_append]
      intro k hk other hother
      rw [List.map_append, List.mem_append] at hk
      rcases hk with hk | hk
      · exact hsorted k hk other (by simp [hother])
      · obtain rfl : k = key := by simpa using hk
        exact h.1 other hother
  rw [ofEntries_eq, hfold [] (by simp), List.nil_append]

/-- A value starts with a token, and not with a closing bracket. -/
theorem exists_tokens_eq_cons (v : Value) :
    ∃ t ts, v.tokens = t :: ts ∧ t ≠ .punct .closeBracket := by
  match v with
  | .boolean true => exact ⟨_, _, rfl, by decide⟩
  | .boolean false => exact ⟨_, _, rfl, by decide⟩
  | .null => exact ⟨_, _, rfl, by decide⟩
  | .variable _ | .int _ | .float _ | .string _ | .enum _ | .list _ | .object _ =>
    exact ⟨_, _, rfl, by simp⟩

section

variable {floats : Binary64 → Bool} {constant : Bool}

mutual

theorem value?_tokens {depth : Nat} (v : Value) (hv : v.Written floats constant depth)
    (budget : Nat) (hbudget : v.tokens.length ≤ budget) {ls : List Lexeme} {ts : List Token}
    (hls : ls.map Lexeme.token = v.tokens ++ ts) :
    ∃ rest, value? constant budget ls = some (v.reread, rest) ∧ rest.map Lexeme.token = ts := by
  obtain ⟨t, us, htokens, -⟩ := exists_tokens_eq_cons v
  obtain ⟨n, rfl⟩ : ∃ n, budget = n + 1 := by
    rw [htokens, List.length_cons] at hbudget
    exact ⟨budget - 1, by omega⟩
  match v, hv with
  | .variable name, ⟨hconstant, _⟩ =>
    obtain ⟨position, inner, rfl, hinner⟩ := exists_lexeme hls
    obtain ⟨position', rest, rfl, hrest⟩ := exists_lexeme hinner
    exact ⟨rest, by rw [value?, hconstant]; rfl, hrest⟩
  | .int _, _ | .float _, _ | .string _, _ =>
    obtain ⟨position, rest, rfl, hrest⟩ := exists_lexeme hls
    exact ⟨rest, by rw [value?]; rfl, hrest⟩
  | .boolean true, _ | .boolean false, _ | .null, _ =>
    obtain ⟨position, rest, rfl, hrest⟩ := exists_lexeme hls
    exact ⟨rest, by rw [value?]; rfl, hrest⟩
  | .enum name, ⟨_, henum⟩ =>
    obtain ⟨position, rest, rfl, hrest⟩ := exists_lexeme hls
    exact ⟨rest, by rw [value?, henum]; rfl, hrest⟩
  | .list items, ⟨_, hitems⟩ =>
    rw [Value.tokens, length_bracketed] at hbudget
    rw [Value.tokens, bracketed_append] at hls
    obtain ⟨position, inner, rfl, hinner⟩ := exists_lexeme hls
    obtain ⟨rest, hread, hrest⟩ := items?_tokens items hitems n (by omega) hinner
    exact ⟨rest, by rw [value?]; simp [hread, Value.reread], hrest⟩
  | .object entries, ⟨_, hentries, hsorted⟩ =>
    rw [Value.tokens, length_bracketed] at hbudget
    rw [Value.tokens, bracketed_append] at hls
    obtain ⟨position, inner, rfl, hinner⟩ := exists_lexeme hls
    obtain ⟨rest, hread, hrest⟩ :=
      entries?_tokens .closeBrace entries hentries n (by omega) hinner
    have hobject : Value.ofEntries (rereadEntries entries) = .object (rereadEntries entries) := by
      refine ofEntries_sorted ?_
      rw [map_fst_rereadEntries]
      exact List.pairwise_map.mpr hsorted
    exact ⟨rest, by rw [value?]; simp [hread, hobject, Value.reread], hrest⟩

theorem items?_tokens {depth : Nat} (items : List Value)
    (h : ItemsWritten floats constant depth items) (budget : Nat)
    (hbudget : (itemsTokens items).length < budget) {ls : List Lexeme} {ts : List Token}
    (hls : ls.map Lexeme.token = itemsTokens items ++ .punct .closeBracket :: ts) :
    ∃ rest, items? constant budget ls = some (rereadItems items, rest) ∧
      rest.map Lexeme.token = ts := by
  obtain ⟨n, rfl⟩ : ∃ n, budget = n + 1 := ⟨budget - 1, by omega⟩
  match items, h with
  | [], _ =>
    obtain ⟨position, rest, rfl, hrest⟩ := exists_lexeme hls
    exact ⟨rest, by rw [items?]; rfl, hrest⟩
  | item :: items, ⟨hitem, hitems⟩ =>
    obtain ⟨t, us, htokens, hclose⟩ := exists_tokens_eq_cons item
    have hlength : item.tokens.length = us.length + 1 := by rw [htokens, List.length_cons]
    rw [itemsTokens, List.length_append] at hbudget
    rw [itemsTokens, List.append_assoc] at hls
    obtain ⟨rest, hread, hrest⟩ := value?_tokens item hitem n (by omega) hls
    obtain ⟨rest', hread', hrest'⟩ := items?_tokens items hitems n (by omega) hrest
    refine ⟨rest', ?_, hrest'⟩
    rw [items?]
    · simp [hread, hread', rereadItems]
    · -- an item is not read as the end of the list
      rintro position rest rfl
      rw [htokens] at hls
      exact hclose (List.cons.inj hls).1.symm

theorem entries?_tokens {depth : Nat} (close : Punctuator) (entries : List (String × Value))
    (h : EntriesWritten floats constant depth entries) (budget : Nat)
    (hbudget : (entriesTokens entries).length < budget) {ls : List Lexeme} {ts : List Token}
    (hls : ls.map Lexeme.token = entriesTokens entries ++ .punct close :: ts) :
    ∃ rest, entries? constant close budget ls = some (rereadEntries entries, rest) ∧
      rest.map Lexeme.token = ts := by
  obtain ⟨n, rfl⟩ : ∃ n, budget = n + 1 := ⟨budget - 1, by omega⟩
  match entries, h with
  | [], _ =>
    obtain ⟨position, rest, rfl, hrest⟩ := exists_lexeme hls
    exact ⟨rest, by rw [entries?, if_pos rfl]; rfl, hrest⟩
  | (key, value) :: entries, ⟨_, hvalue, hentries⟩ =>
    rw [entriesTokens, List.length_cons, List.length_cons, List.length_append] at hbudget
    rw [entriesTokens, List.cons_append, List.cons_append, List.append_assoc] at hls
    obtain ⟨position, colon, rfl, hcolon⟩ := exists_lexeme hls
    obtain ⟨position', inner, rfl, hinner⟩ := exists_lexeme hcolon
    obtain ⟨rest, hread, hrest⟩ := value?_tokens value hvalue n (by omega) hinner
    obtain ⟨rest', hread', hrest'⟩ := entries?_tokens close entries hentries n (by omega) hrest
    refine ⟨rest', ?_, hrest'⟩
    rw [entries?]
    simp [hread, hread', rereadEntries]

end

theorem arguments?_tokens {depth : Nat} {arguments : List (String × Value)}
    (h : ArgumentsWritten floats depth arguments) {ls : List Lexeme} {ts : List Token}
    (hls : ls.map Lexeme.token = argumentsTokens arguments ++ ts)
    (hts : ts.head? ≠ some (.punct .openParen)) :
    ∃ rest, arguments? ls = some (rereadEntries arguments, rest) ∧
      rest.map Lexeme.token = ts := by
  rw [argumentsTokens] at hls
  split at hls
  · next hnil =>
    rw [List.isEmpty_iff.mp hnil]
    refine ⟨ls, ?_, hls⟩
    rw [arguments?]
    · rfl
    · exact ne_cons_of_head? hls hts
  · next hne =>
    obtain rfl | ⟨-, hentries⟩ := h
    · exact absurd rfl hne
    rw [bracketed_append] at hls
    obtain ⟨position, inner, rfl, hinner⟩ := exists_lexeme hls
    obtain ⟨rest, hread, hrest⟩ := entries?_tokens .closeParen arguments hentries inner.length
      (length_lt_of_tokens hinner) hinner
    refine ⟨rest, ?_, hrest⟩
    rw [arguments?]
    cases arguments with
    | nil => exact absurd rfl hne
    | cons entry arguments => simp [hread, rereadEntries]

theorem defaultValue?_tokens {depth : Nat} {value : Option Value}
    (h : ∀ v ∈ value, v.Written floats true depth) {ls : List Lexeme} {ts : List Token}
    (hls : ls.map Lexeme.token = defaultTokens value ++ ts)
    (hts : ts.head? ≠ some (.punct .equals)) :
    ∃ rest, defaultValue? ls = some (value.map Value.reread, rest) ∧
      rest.map Lexeme.token = ts := by
  cases value with
  | none =>
    refine ⟨ls, ?_, hls⟩
    rw [defaultValue?]
    · rfl
    · exact ne_cons_of_head? hls hts
  | some v =>
    obtain ⟨position, inner, rfl, hinner⟩ := exists_lexeme hls
    obtain ⟨rest, hread, hrest⟩ :=
      value?_tokens v (h v rfl) inner.length (length_le_of_tokens hinner) hinner
    exact ⟨rest, by rw [defaultValue?]; simp [hread], hrest⟩

/-- Nothing is read where no directive stands. -/
theorem directives?_tokens {ls : List Lexeme} {ts : List Token} (hls : ls.map Lexeme.token = ts)
    (hts : ts.head? ≠ some (.punct .atSign)) : directives? ls = some ([], ls) := by
  have hnone := ne_cons_of_head? hls hts
  unfold directives? directivesUpTo?
  split
  · exact absurd rfl (hnone _ _)
  · exact absurd rfl (hnone _ _)
  · rfl

end

end GraphQL

open GraphQL

/-! ## Selections -/

mutual

/-- A selection with every field changed, wherever it stands in a text. -/
def Selection.mapFields (g : Field → Field) : Selection → Selection
  | .field f selections => .field (g f) (mapSelections g selections)
  | .spread name _ => .spread name .start
  | .inline condition selections _ => .inline condition (mapSelections g selections) .start

/-- Selections with every field changed, wherever they stand in a text. -/
def mapSelections (g : Field → Field) : List Selection → List Selection
  | [] => []
  | selection :: selections => selection.mapFields g :: mapSelections g selections

end

namespace Field

/-- The field, wherever it stands in a text. -/
def unplaced (f : Field) : Field := { f with position := .start }

/-- The field that the text of a field is read as, wherever it stands. -/
def reread (f : Field) : Field :=
  { f with arguments := rereadEntries f.arguments, conditional := false, position := .start }

end Field

/-- Whether no selection goes on with the given tokens. -/
def EndsSelection (ts : List Token) : Prop :=
  ∀ t ∈ ts.head?, t = .spread ∨ t = .punct .closeBrace ∨ ∃ s, t = .name s

theorem EndsSelection.head?_ne {ts : List Token} (h : EndsSelection ts) {p : Punctuator}
    (hp : p ≠ .closeBrace) : ts.head? ≠ some (.punct p) := by
  intro hhead
  rcases h _ hhead with heq | heq | ⟨s, heq⟩
  · cases heq
  · cases heq
    exact hp rfl
  · cases heq

theorem EndsSelection.head?_optional {ts : List Token} (h : EndsSelection ts)
    (selections : List Selection) {p : Punctuator} (hopen : p ≠ .openBrace)
    (hclose : p ≠ .closeBrace) :
    ((if selections.isEmpty then []
      else bracketed .openBrace .closeBrace (selectionsTokens selections)) ++ ts).head? ≠
    some (.punct p) := by
  split
  · exact h.head?_ne hclose
  · simpa [bracketed] using hopen.symm

section

variable {floats : Binary64 → Bool} {inner : Reader (List Selection)} {budget : Nat}

/-- Whether a reader reads selections from their tokens and the closing brace, if there are at most
so many. -/
def Rereads (floats : Binary64 → Bool) (budget : Nat) (inner : Reader (List Selection)) : Prop :=
  ∀ depth selections, selections ≠ [] → SelectionsWritten floats depth selections →
    (selectionsTokens selections).length < budget → ∀ ls ts,
    ls.map Lexeme.token = selectionsTokens selections ++ .punct .closeBrace :: ts →
    ∃ again rest, inner ls = some (again, rest) ∧
      mapSelections Field.unplaced again = mapSelections Field.reread selections ∧
      rest.map Lexeme.token = ts

theorem requiredSelections?_tokens (hinner : Rereads floats budget inner)
    {selections : List Selection} {depth : Nat} (hne : selections ≠ [])
    (hselections : SelectionsWritten floats depth selections)
    (hbudget : (selectionsTokens selections).length < budget) {ls : List Lexeme} {ts : List Token}
    (hls : ls.map Lexeme.token =
      bracketed .openBrace .closeBrace (selectionsTokens selections) ++ ts) :
    ∃ again rest, requiredSelections? inner ls = some (again, rest) ∧
      mapSelections Field.unplaced again = mapSelections Field.reread selections ∧
      rest.map Lexeme.token = ts := by
  rw [bracketed_append] at hls
  obtain ⟨position, tail, rfl, htail⟩ := exists_lexeme hls
  exact hinner depth selections hne hselections hbudget tail ts htail

theorem optionalSelections?_tokens (hinner : Rereads floats budget inner)
    {selections : List Selection} {depth : Nat}
    (hselections : selections = [] ∨
      depth < maxDepth ∧ SelectionsWritten floats (depth + 1) selections)
    (hbudget : (selectionsTokens selections).length < budget) {ls : List Lexeme} {ts : List Token}
    (hls : ls.map Lexeme.token = (if selections.isEmpty then []
      else bracketed .openBrace .closeBrace (selectionsTokens selections)) ++ ts)
    (hts : EndsSelection ts) :
    ∃ again rest, optionalSelections? inner ls = some (again, rest) ∧
      mapSelections Field.unplaced again = mapSelections Field.reread selections ∧
      rest.map Lexeme.token = ts := by
  cases selections with
  | nil =>
    refine ⟨[], ls, ?_, rfl, hls⟩
    rw [optionalSelections?]
    exact ne_cons_of_head? hls (hts.head?_ne (by decide))
  | cons selection selections =>
    obtain heq | ⟨-, hselections⟩ := hselections
    · cases heq
    obtain ⟨again, rest, hread, heq, hrest⟩ :=
      requiredSelections?_tokens hinner (by simp) hselections hbudget hls
    rw [List.isEmpty_cons, if_neg (by decide), bracketed_append] at hls
    obtain ⟨position, tail, rfl, htail⟩ := exists_lexeme hls
    exact ⟨again, rest, hread, heq, hrest⟩

theorem fieldTail?_tokens (hinner : Rereads floats budget inner) {f : Field}
    {selections : List Selection} {depth : Nat} (position : Position)
    (harguments : ArgumentsWritten floats depth f.arguments)
    (hselections : selections = [] ∨
      depth < maxDepth ∧ SelectionsWritten floats (depth + 1) selections)
    (hbudget : (selectionsTokens selections).length < budget) {ls : List Lexeme} {ts : List Token}
    (hls : ls.map Lexeme.token = argumentsTokens f.arguments ++ ((if selections.isEmpty then []
      else bracketed .openBrace .closeBrace (selectionsTokens selections)) ++ ts))
    (hts : EndsSelection ts) :
    ∃ again rest, fieldTail? inner f.label f.name position ls = some (again, rest) ∧
      again.mapFields Field.unplaced = (Selection.field f selections).mapFields Field.reread ∧
      rest.map Lexeme.token = ts := by
  obtain ⟨tail, hread, htail⟩ := arguments?_tokens harguments hls
    (hts.head?_optional selections (by decide) (by decide))
  have hdirectives := directives?_tokens htail
    (hts.head?_optional selections (by decide) (by decide))
  obtain ⟨again, rest, hread', heq, hrest⟩ :=
    optionalSelections?_tokens hinner hselections hbudget htail hts
  refine ⟨.field ⟨f.label, f.name, rereadEntries f.arguments, false, position⟩ again, rest, ?_, ?_,
    hrest⟩
  · simp [fieldTail?, hread, hdirectives, hread', areConditional]
  · simp [Selection.mapFields, heq, Field.unplaced, Field.reread]

theorem inlineTail?_tokens (hinner : Rereads floats budget inner) {condition : Option String}
    {selections : List Selection} {depth : Nat} (position start : Position) (hne : selections ≠ [])
    (hselections : SelectionsWritten floats depth selections)
    (hbudget : (selectionsTokens selections).length < budget) {ls : List Lexeme} {ts : List Token}
    (hls : ls.map Lexeme.token =
      bracketed .openBrace .closeBrace (selectionsTokens selections) ++ ts) :
    ∃ again rest, inlineTail? inner condition position ls = some (again, rest) ∧
      again.mapFields Field.unplaced =
        (Selection.inline condition selections start).mapFields Field.reread ∧
      rest.map Lexeme.token = ts := by
  have hdirectives := directives?_tokens hls (by simp [bracketed])
  obtain ⟨again, rest, hread, heq, hrest⟩ :=
    requiredSelections?_tokens hinner hne hselections hbudget hls
  refine ⟨.inline condition again position, rest, ?_, ?_, hrest⟩
  · simp [inlineTail?, hdirectives, hread]
  · simp [Selection.mapFields, heq]

theorem length_tokens_field (f : Field) (selections : List Selection) :
    (selectionsTokens selections).length < (Selection.field f selections).tokens.length := by
  rw [Selection.tokens, Field.tokens]
  cases selections with
  | nil => simp [selectionsTokens]
  | cons selection selections =>
    simp [length_bracketed]
    omega

theorem length_tokens_inline (condition : Option String) (selections : List Selection)
    (position : Position) :
    (selectionsTokens selections).length <
      (Selection.inline condition selections position).tokens.length := by
  rw [Selection.tokens.eq_def]
  simp [length_bracketed]
  omega

theorem selection?_field (hinner : Rereads floats budget inner) {f : Field}
    {selections : List Selection} {depth : Nat}
    (h : (Selection.field f selections).Written floats depth)
    (hbudget : (Selection.field f selections).tokens.length ≤ budget) {ls : List Lexeme}
    {ts : List Token} (hls : ls.map Lexeme.token = (Selection.field f selections).tokens ++ ts)
    (hts : EndsSelection ts) :
    ∃ again rest, selection? inner ls = some (again, rest) ∧
      again.mapFields Field.unplaced = (Selection.field f selections).mapFields Field.reread ∧
      rest.map Lexeme.token = ts := by
  obtain ⟨-, -, harguments, hselections⟩ := h
  have hlength := (length_tokens_field f selections).trans_le hbudget
  rw [Selection.tokens, Field.tokens] at hls
  cases hlabel : f.label with
  | none =>
    rw [hlabel, List.nil_append, List.append_assoc, List.cons_append] at hls
    obtain ⟨position, tail, rfl, htail⟩ := exists_lexeme hls
    have hread := fieldTail?_tokens hinner position harguments hselections hlength htail hts
    rw [selection?, ← hlabel]
    · exact hread
    · -- no colon follows, so the name is not read as a label
      rintro position' rest rfl
      rw [argumentsTokens] at htail
      split at htail
      · exact hts.head?_optional selections (by decide) (by decide)
          (congrArg List.head? htail).symm
      · simp [bracketed] at htail
  | some label =>
    rw [hlabel, List.append_assoc, List.append_assoc, List.cons_append] at hls
    obtain ⟨position, colon, rfl, hcolon⟩ := exists_lexeme hls
    obtain ⟨position', name, rfl, hname⟩ := exists_lexeme hcolon
    obtain ⟨position', tail, rfl, htail⟩ := exists_lexeme hname
    rw [selection?, ← hlabel]
    exact fieldTail?_tokens hinner position harguments hselections hlength htail hts

theorem selection?_tokens (hinner : Rereads floats budget inner) {selection : Selection}
    {depth : Nat} (h : selection.Written floats depth)
    (hbudget : selection.tokens.length ≤ budget) {ls : List Lexeme} {ts : List Token}
    (hls : ls.map Lexeme.token = selection.tokens ++ ts) (hts : EndsSelection ts) :
    ∃ again rest, selection? inner ls = some (again, rest) ∧
      again.mapFields Field.unplaced = selection.mapFields Field.reread ∧
      rest.map Lexeme.token = ts := by
  cases selection with
  | field f selections => exact selection?_field hinner h hbudget hls hts
  | spread name start =>
    obtain ⟨position, tail, rfl, htail⟩ := exists_lexeme hls
    obtain ⟨position', rest, rfl, hrest⟩ := exists_lexeme htail
    have hdirectives := directives?_tokens hrest (hts.head?_ne (by decide))
    refine ⟨.spread name position', rest, ?_, rfl, hrest⟩
    unfold selection?
    simp [h.2, hdirectives]
  | inline condition selections start =>
    obtain ⟨-, hne, -, hselections⟩ := h
    have hlength := (length_tokens_inline condition selections start).trans_le hbudget
    cases condition with
    | none =>
      rw [Selection.tokens, List.cons_append, List.nil_append, bracketed] at hls
      obtain ⟨position, next, rfl, hnext⟩ := exists_lexeme hls
      obtain ⟨position', tail, rfl, htail⟩ := exists_lexeme hnext
      rw [selection?]
      · exact inlineTail?_tokens hinner position' start hne hselections hlength hnext
      · simp
    | some name =>
      obtain ⟨position, on, rfl, hon⟩ := exists_lexeme hls
      obtain ⟨position', next, rfl, hnext⟩ := exists_lexeme hon
      obtain ⟨position'', tail, rfl, htail⟩ := exists_lexeme hnext
      exact inlineTail?_tokens hinner position' start hne hselections hlength htail

/-- A selection starts with dots or a name. -/
theorem exists_selectionTokens_eq_cons (selection : Selection) :
    ∃ t us, selection.tokens = t :: us ∧ (t = .spread ∨ ∃ s, t = .name s) := by
  match selection with
  | .field ⟨some label, name, arguments, conditional, position⟩ selections =>
    exact ⟨_, _, rfl, .inr ⟨label, rfl⟩⟩
  | .field ⟨none, name, arguments, conditional, position⟩ selections =>
    exact ⟨_, _, rfl, .inr ⟨name, rfl⟩⟩
  | .spread name _ => exact ⟨_, _, rfl, .inl rfl⟩
  | .inline (some _) _ _ | .inline none _ _ => exact ⟨_, _, rfl, .inl rfl⟩

/-- What follows a selection is another one or the closing brace. -/
theorem endsSelection_selections (selections : List Selection) (ts : List Token) :
    EndsSelection (selectionsTokens selections ++ .punct .closeBrace :: ts) := by
  intro t ht
  cases selections with
  | nil =>
    cases ht
    exact .inr (.inl rfl)
  | cons selection selections =>
    obtain ⟨u, us, htokens, hu⟩ := exists_selectionTokens_eq_cons selection
    rw [selectionsTokens, htokens] at ht
    cases ht
    exact hu.imp_right .inr

theorem selections?_tokens (budget : Nat) : Rereads floats budget (selections? budget) := by
  induction budget with
  | zero => exact fun _ _ _ _ hbudget => absurd hbudget (Nat.not_lt_zero _)
  | succ budget ih =>
    intro depth selections hne h hbudget ls ts hls
    cases selections with
    | nil => exact absurd rfl hne
    | cons selection selections =>
      obtain ⟨hselection, hselections⟩ := h
      obtain ⟨t, us, htokens, -⟩ := exists_selectionTokens_eq_cons selection
      have hlength : selection.tokens.length = us.length + 1 := by rw [htokens, List.length_cons]
      rw [selectionsTokens, List.length_append] at hbudget
      rw [selectionsTokens, List.append_assoc] at hls
      obtain ⟨first, rest, hread, hfirst, hrest⟩ := selection?_tokens ih hselection (by omega) hls
        (endsSelection_selections selections ts)
      cases selections with
      | nil =>
        obtain ⟨position, tail, rfl, htail⟩ := exists_lexeme hrest
        exact ⟨[first], tail, by simp [selections?, hread], by simp [mapSelections, hfirst], htail⟩
      | cons next selections =>
        obtain ⟨others, rest', hread', hothers, hrest'⟩ :=
          ih depth _ (by simp) hselections (by omega) rest ts hrest
        refine ⟨first :: others, rest', ?_, by simp [mapSelections, hfirst, hothers], hrest'⟩
        -- the next selection does not start with a closing brace
        obtain ⟨u, vs, hnext, hu⟩ := exists_selectionTokens_eq_cons next
        rw [selectionsTokens, hnext] at hrest
        obtain ⟨position, tail, rfl, -⟩ := exists_lexeme hrest
        rcases hu with rfl | ⟨s, rfl⟩ <;> simp [selections?, hread, hread']

theorem selectionSet?_tokens {selections : List Selection} {depth : Nat} (hne : selections ≠ [])
    (h : SelectionsWritten floats depth selections) {ls : List Lexeme} {ts : List Token}
    (hls : ls.map Lexeme.token =
      bracketed .openBrace .closeBrace (selectionsTokens selections) ++ ts) :
    ∃ again rest, selectionSet? ls = some (again, rest) ∧
      mapSelections Field.unplaced again = mapSelections Field.reread selections ∧
      rest.map Lexeme.token = ts := by
  have hlength : (selectionsTokens selections).length < ls.length := by
    have hle := length_le_of_tokens hls
    rw [length_bracketed] at hle
    omega
  exact requiredSelections?_tokens (selections?_tokens ls.length) hne h hlength hls

/-! ## Definitions -/

/-- The definition that the text of the definition of a variable is read as. -/
def VariableDefinition.reread (v : VariableDefinition) : VariableDefinition :=
  { v with defaultValue := v.defaultValue.map Value.reread }

namespace Definition

/-- A definition with every field and every variable changed, wherever it stands in a text. -/
def mapParts (g : Field → Field) (h : VariableDefinition → VariableDefinition) :
    Definition → Definition
  | operation op =>
    operation ⟨op.kind, op.name, op.parameters.map h, mapSelections g op.selections, .start⟩
  | fragment f => fragment ⟨f.name, f.condition, mapSelections g f.selections, .start⟩

/-- The definition, wherever it stands in a text. -/
def unplaced (d : Definition) : Definition := d.mapParts Field.unplaced id

/-- The definition that the text of a definition is read as, wherever it stands. -/
def reread (d : Definition) : Definition := d.mapParts Field.reread VariableDefinition.reread

end Definition

/-- What follows the definition of a variable is another one or the closing parenthesis. -/
theorem head?_parameters_ne {p : Punctuator} (hdollar : p ≠ .dollar) (hclose : p ≠ .closeParen)
    (parameters : List VariableDefinition) (ts : List Token) :
    (parameters.flatMap VariableDefinition.tokens ++ .punct .closeParen :: ts).head? ≠
      some (.punct p) := by
  cases parameters with
  | nil => simpa using hclose.symm
  | cons v parameters => simpa [VariableDefinition.tokens] using hdollar.symm

theorem parameters?_tokens {parameters : List VariableDefinition} {depth : Nat}
    (h : ∀ v ∈ parameters, v.Written floats depth) {budget : Nat}
    (hbudget : (parameters.flatMap VariableDefinition.tokens).length < budget) {ls : List Lexeme}
    {ts : List Token}
    (hls : ls.map Lexeme.token =
      parameters.flatMap VariableDefinition.tokens ++ .punct .closeParen :: ts) :
    ∃ rest, parameters? budget ls = some (parameters.map VariableDefinition.reread, rest) ∧
      rest.map Lexeme.token = ts := by
  induction parameters generalizing budget ls with
  | nil =>
    obtain ⟨position, rest, rfl, hrest⟩ := exists_lexeme hls
    obtain ⟨n, rfl⟩ : ∃ n, budget = n + 1 := ⟨budget - 1, by omega⟩
    exact ⟨rest, by rw [parameters?]; rfl, hrest⟩
  | cons v parameters ih =>
    obtain ⟨⟨-, htype, hvalue⟩, h⟩ := List.forall_mem_cons.mp h
    obtain ⟨n, rfl⟩ : ∃ n, budget = n + 1 := ⟨budget - 1, by omega⟩
    rw [List.flatMap_cons, List.length_append] at hbudget
    rw [List.flatMap_cons, VariableDefinition.tokens, List.append_assoc, List.cons_append,
      List.cons_append, List.cons_append, List.append_assoc] at hls
    obtain ⟨position₁, name, rfl, hname⟩ := exists_lexeme hls
    obtain ⟨position₂, colon, rfl, hcolon⟩ := exists_lexeme hname
    obtain ⟨position₃, type, rfl, htokens⟩ := exists_lexeme hcolon
    have hbang : (defaultTokens v.defaultValue ++
        (parameters.flatMap VariableDefinition.tokens ++ .punct .closeParen :: ts)).head? ≠
          some (.punct .bang) := by
      cases v.defaultValue with
      | none => exact head?_parameters_ne (by decide) (by decide) parameters ts
      | some value => simp [defaultTokens]
    have hbudget' : (parameters.flatMap VariableDefinition.tokens).length < n := by
      rw [VariableDefinition.tokens, List.length_cons] at hbudget
      omega
    obtain ⟨value, hread, htokens⟩ := type?_tokens htype (length_le_of_tokens htokens) htokens hbang
    obtain ⟨tail, hread', htail⟩ := defaultValue?_tokens hvalue htokens
      (head?_parameters_ne (by decide) (by decide) parameters ts)
    obtain ⟨rest, hread'', hrest⟩ := ih h hbudget' htail
    refine ⟨rest, ?_, hrest⟩
    rw [parameters?]
    simp [hread, hread', hread'', VariableDefinition.reread]

theorem variableDefinitions?_tokens {parameters : List VariableDefinition} {depth : Nat}
    (h : ∀ v ∈ parameters, v.Written floats depth) {ls : List Lexeme} {ts : List Token}
    (hls : ls.map Lexeme.token = parametersTokens parameters ++ ts)
    (hts : ts.head? ≠ some (.punct .openParen)) :
    ∃ rest, variableDefinitions? ls = some (parameters.map VariableDefinition.reread, rest) ∧
      rest.map Lexeme.token = ts := by
  rw [parametersTokens] at hls
  split at hls
  · next hnil =>
    rw [List.isEmpty_iff.mp hnil]
    refine ⟨ls, ?_, hls⟩
    rw [variableDefinitions?]
    · rfl
    · exact ne_cons_of_head? hls hts
  · next hne =>
    rw [bracketed_append] at hls
    obtain ⟨position, inner, rfl, hinner⟩ := exists_lexeme hls
    obtain ⟨rest, hread, hrest⟩ := parameters?_tokens h (length_lt_of_tokens hinner) hinner
    exact ⟨rest, by simp [variableDefinitions?, hread, List.isEmpty_iff.not.mp hne], hrest⟩

theorem operationTail?_tokens {op : Operation} (h : op.Written floats) (position : Position)
    {ls : List Lexeme} {ts : List Token}
    (hls : ls.map Lexeme.token = op.name.toList.map .name ++ (parametersTokens op.parameters ++
      (bracketed .openBrace .closeBrace (selectionsTokens op.selections) ++ ts))) :
    ∃ again rest, operationTail? op.kind position ls = some (again, rest) ∧
      again.unplaced = (Definition.operation op).reread ∧ rest.map Lexeme.token = ts := by
  obtain ⟨-, hparameters, hne, hselections⟩ := h
  obtain ⟨tail, hname, htail⟩ : ∃ tail, optionalName ls = (op.name, tail) ∧
      tail.map Lexeme.token = parametersTokens op.parameters ++
        (bracketed .openBrace .closeBrace (selectionsTokens op.selections) ++ ts) := by
    cases hop : op.name with
    | none =>
      rw [hop] at hls
      refine ⟨ls, ?_, hls⟩
      unfold optionalName
      split
      · -- without a name a bracket follows
        rw [parametersTokens] at hls
        split at hls
        · cases hls
        · cases hls
      · rfl
    | some name =>
      rw [hop] at hls
      obtain ⟨position', tail, rfl, htail⟩ := exists_lexeme hls
      exact ⟨tail, rfl, htail⟩
  obtain ⟨set, hread, hset⟩ := variableDefinitions?_tokens hparameters htail (by simp [bracketed])
  have hdirectives := directives?_tokens hset (by simp [bracketed])
  obtain ⟨again, rest, hread', heq, hrest⟩ := selectionSet?_tokens hne hselections hset
  refine ⟨.operation ⟨op.kind, op.name, op.parameters.map VariableDefinition.reread, again,
    position⟩, rest, ?_, ?_, hrest⟩
  · simp [operationTail?, hname, hread, hdirectives, hread']
  · simp [Definition.unplaced, Definition.reread, Definition.mapParts, heq]

theorem fragmentTail?_tokens {f : Fragment} (h : f.Written floats) (position : Position)
    {ls : List Lexeme} {ts : List Token}
    (hls : ls.map Lexeme.token = .name f.name :: .name "on" :: .name f.condition ::
      (bracketed .openBrace .closeBrace (selectionsTokens f.selections) ++ ts)) :
    ∃ again rest, fragmentTail? position ls = some (again, rest) ∧
      again.unplaced = (Definition.fragment f).reread ∧ rest.map Lexeme.token = ts := by
  obtain ⟨-, -, hne, hselections⟩ := h
  obtain ⟨position₁, on, rfl, hon⟩ := exists_lexeme hls
  obtain ⟨position₂, condition, rfl, hcondition⟩ := exists_lexeme hon
  obtain ⟨position₃, tail, rfl, htail⟩ := exists_lexeme hcondition
  have hdirectives := directives?_tokens htail (by simp [bracketed])
  obtain ⟨again, rest, hread, heq, hrest⟩ := selectionSet?_tokens hne hselections htail
  refine ⟨.fragment ⟨f.name, f.condition, again, position⟩, rest, ?_, ?_, hrest⟩
  · simp [fragmentTail?, hdirectives, hread]
  · simp [Definition.unplaced, Definition.reread, Definition.mapParts, heq]

theorem definition?_tokens {d : Definition} (h : d.Written floats) {ls : List Lexeme}
    {ts : List Token} (hls : ls.map Lexeme.token = d.tokens ++ ts) :
    ∃ again rest, definition? ls = some (again, rest) ∧ again.unplaced = d.reread ∧
      rest.map Lexeme.token = ts := by
  cases d with
  | operation op =>
    rw [Definition.tokens, Operation.tokens, List.cons_append, List.append_assoc,
      List.append_assoc] at hls
    obtain ⟨position, tail, rfl, htail⟩ := exists_lexeme hls
    obtain ⟨again, rest, hread, heq, hrest⟩ := operationTail?_tokens h position htail
    refine ⟨again, rest, ?_, heq, hrest⟩
    cases hkind : op.kind <;> simp_all [definition?, OperationKind.keyword]
  | fragment f =>
    obtain ⟨position, tail, rfl, htail⟩ := exists_lexeme hls
    obtain ⟨again, rest, hread, heq, hrest⟩ := fragmentTail?_tokens h position htail
    exact ⟨again, rest, by simp [definition?, hread], heq, hrest⟩

theorem length_tokens_pos (d : Definition) : 0 < d.tokens.length := by
  cases d <;> exact Nat.succ_pos _

theorem definitions?_tokens {ds : List Definition} (h : ∀ d ∈ ds, d.Written floats) {budget : Nat}
    {ls : List Lexeme} (hbudget : ls.length ≤ budget)
    (hls : ls.map Lexeme.token = ds.flatMap Definition.tokens) :
    ∃ again, definitions? budget ls = some again ∧
      again.map Definition.unplaced = ds.map Definition.reread := by
  induction ds generalizing budget ls with
  | nil =>
    obtain rfl : ls = [] := List.map_eq_nil_iff.mp hls
    exact ⟨[], by rw [definitions?], rfl⟩
  | cons d ds ih =>
    obtain ⟨hd, hds⟩ := List.forall_mem_cons.mp h
    rw [List.flatMap_cons] at hls
    obtain ⟨first, rest, hread, hfirst, hrest⟩ := definition?_tokens hd hls
    have hlength := congrArg List.length hls
    rw [List.length_map, List.length_append, ← hrest, List.length_map] at hlength
    have hpos := length_tokens_pos d
    obtain ⟨n, rfl⟩ : ∃ n, budget = n + 1 := ⟨budget - 1, by omega⟩
    have hfits : rest.length ≤ n := by omega
    obtain ⟨others, hread', hothers⟩ := ih hds hfits hrest
    refine ⟨first :: others, ?_, by simp [hfirst, hothers]⟩
    cases ls with
    | nil => simp [definition?] at hread
    | cons l ls => simp [definitions?, hread, hread']

/-- Definitions with finite floats are read back from their texts, up to their places, their conditions
and their floats. -/
theorem Document.parse_definitions {ds : List Definition} (hne : ds ≠ [])
    (h : ∀ d ∈ ds, d.Written floats) (hfinite : ds.all Definition.isFinite = true) :
    ∃ again, Document.parse (" ".intercalate (ds.map Definition.text)) = .ok ⟨again⟩ ∧
      again.map Definition.unplaced = ds.map Definition.reread := by
  obtain ⟨ls, hlexed, htokens⟩ := lexemes?_definitions h hfinite
  obtain ⟨again, hread, heq⟩ := definitions?_tokens h le_rfl htokens
  have hagain : again ≠ [] := by
    rintro rfl
    exact hne (List.map_eq_nil_iff.mp heq.symm)
  refine ⟨again, ?_, heq⟩
  simp [Document.parse, Document.parse?, hlexed, hread, hagain]

end

end ElmBindings
