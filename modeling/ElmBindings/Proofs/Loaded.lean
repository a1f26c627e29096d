import ElmBindings.Proofs.BuiltSchemas
import ElmBindings.Proofs.Expansion
import ElmBindings.Schema.Load

set_option autoImplicit false

/-! # Schemas that were loaded

The two readers start from the built-in scalars and change types only by adding definitions. So what holds
at the start and is kept by `Schema.add`, whatever the roots are, holds of every schema that was read from
a text (`IsLoaded.induction`): the names of its types differ (`IsLoaded.listed`), and a name leads to a
definition of that name (`IsLoaded.name_eq`). -/

namespace ElmBindings

namespace Schema

/-- Whether a schema was read from definitions or from an introspection result. -/
def IsLoaded (schema : Schema) : Prop :=
  ∃ text, parseDefinitions text = .ok schema ∨ parseIntrospection text = .ok schema

/-! ## What adding definitions keeps -/

section Readers

variable {P : Schema → Prop} (hquery : ∀ queryType, P (ofQuery queryType))
  (hadd : ∀ schema d, P schema → P (schema.add d))
  (hroots : ∀ schema queryType mutationType subscriptionType, P schema →
    P { schema with queryType, mutationType, subscriptionType })
include hquery hadd hroots

theorem holds_of_parseDefinitions {text : String} {schema : Schema}
    (h : parseDefinitions text = .ok schema) : P schema := by
  have hitem (schema : Schema) (hs : P schema) (item : SchemaItem) : P (schema.withItem item) := by
    cases item with
    | definition d => exact hadd schema d hs
    | roots roots => exact hroots schema _ _ _ hs
    | _ => exact hs
  have hextend (schema : Schema) (addition : TypeDef) (result : Schema) (hs : P schema)
      (hresult : schema.extend addition = .ok result) : P result := by
    unfold Schema.extend at hresult
    split at hresult
    · cases hresult
    · split at hresult
      · cases hresult
        exact hadd schema _ hs
      · cases hresult
  unfold parseDefinitions at h
  split at h
  · next items _ =>
    obtain ⟨extended, hextended, h⟩ := bind_eq_ok.mp h
    have hbase : P (items.foldl withItem (ofQuery "Query")) :=
      List.foldlRecOn items withItem (hquery "Query") fun schema hs item _ => hitem schema hs item
    have hholds : P extended :=
      foldlM_holds (I := fun _ => P) (fun _ => hextend) [] _ hbase hextended
    split at h
    · cases h
      exact hholds
    · cases h
      exact hroots extended _ _ _ hholds
  · cases h

theorem holds_of_parseIntrospection {text : String} {schema : Schema}
    (h : parseIntrospection text = .ok schema) : P schema := by
  have htype (schema : Schema) (t : Introspection.FullType) (result : Schema) (hs : P schema)
      (hresult : Introspection.withType schema t = .ok result) : P result := by
    unfold Introspection.withType at hresult
    split at hresult
    · cases hresult
      exact hs
    · obtain ⟨definition, -, hresult⟩ := bind_eq_ok.mp hresult
      split at hresult
      · cases hresult
        exact hadd schema _ hs
      · cases hresult
        exact hs
  unfold parseIntrospection at h
  split at h
  · next result _ =>
    refine foldlM_holds (I := fun _ => P) (fun _ => htype) [] _ ?_ h
    exact hroots _ _ _ _ (hquery result.queryType)
  · cases h

/-- What holds of the built-in scalars and stays true when definitions are added holds of every schema
that was loaded. -/
theorem IsLoaded.induction {schema : Schema} (h : schema.IsLoaded) : P schema := by
  obtain ⟨text, hread | hread⟩ := h
  · exact holds_of_parseDefinitions hquery hadd hroots hread
  · exact holds_of_parseIntrospection hquery hadd hroots hread

end Readers

/-! ## Names of loaded schemas -/

/-- No two types of a loaded schema have one name. -/
theorem IsLoaded.listed {schema : Schema} (h : schema.IsLoaded) : schema.Listed := by
  refine h.induction listed_ofQuery (fun schema d hs => hs.add d) ?_
  intro schema _ _ _ hs
  exact ⟨hs.nodup, hs.positions_eq⟩

/-- Whether every place that a name leads to holds a definition of that name. -/
def Indexed (schema : Schema) : Prop :=
  ∀ name i, schema.position? name = some i → ∃ d, schema.types[i]? = some d ∧ d.name = name

theorem Listed.indexed {schema : Schema} (h : schema.Listed) : schema.Indexed := by
  intro name i hi
  rw [h.position?_eq_some, names, List.getElem?_map] at hi
  exact Option.map_eq_some_iff.mp hi

theorem Indexed.name_eq {schema : Schema} (h : schema.Indexed) {name : String} {d : TypeDef}
    (hd : schema.get? name = some d) : d.name = name := by
  obtain ⟨i, hi, hat⟩ := Option.bind_eq_some_iff.mp hd
  obtain ⟨d', hd', hname⟩ := h name i hi
  cases hat.symm.trans hd'
  exact hname

theorem IsLoaded.indexed {schema : Schema} (h : schema.IsLoaded) : schema.Indexed :=
  h.listed.indexed

theorem IsLoaded.name_eq {schema : Schema} (h : schema.IsLoaded) {name : String} {d : TypeDef}
    (hd : schema.get? name = some d) : d.name = name :=
  h.indexed.name_eq hd

end Schema

end ElmBindings
