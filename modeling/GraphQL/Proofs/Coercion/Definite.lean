import Mathlib
import GraphQL.Proofs.Coercion.Conforms
import GraphQL.Proofs.Schema.Built

/-!
# Types that make no null

The types of every schema make null neither of a value nor of a literal.  So a schema that is
built is definite if the types of the host are (`Schema.isDefinite_of_build`).
-/

namespace GraphQL

namespace Scalar

theorem checkInt_ne_null (number : Option Binary64) (value : Json) :
    checkInt number value ≠ .ok .null := by
  unfold checkInt
  split
  · simp
  · split <;> simp

theorem checkFloat_ne_null (number : Option Binary64) (value : Json) :
    checkFloat number value ≠ .ok .null := by
  unfold checkFloat
  split <;> simp

theorem checkId_ne_null (value : Json) : checkId value ≠ .ok .null := by
  unfold checkId
  split <;> simp

theorem parseIntLiteral_ne_null (literal : Value) : parseIntLiteral literal ≠ .ok .null := by
  unfold parseIntLiteral
  split
  · split <;> simp
  · simp

theorem parseFloatLiteral_ne_null (literal : Value) : parseFloatLiteral literal ≠ .ok .null := by
  unfold parseFloatLiteral
  split <;> simp

theorem parseStringValue_ne_null (value : Json) : parseStringValue value ≠ .ok .null := by
  unfold parseStringValue
  split <;> simp

theorem parseStringLiteral_ne_null (literal : Value) :
    parseStringLiteral literal ≠ .ok .null := by
  unfold parseStringLiteral
  split <;> simp

theorem parseBooleanValue_ne_null (value : Json) : parseBooleanValue value ≠ .ok .null := by
  unfold parseBooleanValue
  split <;> simp

theorem parseBooleanLiteral_ne_null (literal : Value) :
    parseBooleanLiteral literal ≠ .ok .null := by
  unfold parseBooleanLiteral
  split <;> simp

theorem parseIdLiteral_ne_null (literal : Value) : parseIdLiteral literal ≠ .ok .null := by
  unfold parseIdLiteral
  split <;> simp

theorem isDefinite_builtin {name description : String} {serialize parseValue : Coercion}
    {parseLiteral : Value → Except String Json} (hvalue : ∀ value, parseValue value ≠ .ok .null)
    (hliteral : ∀ literal, parseLiteral literal ≠ .ok .null) :
    (builtin name description serialize parseValue parseLiteral).IsDefinite where
  scalar := by
    rintro _ ⟨⟩
    refine ⟨?_, ?_⟩
    · rintro _ ⟨⟩
      exact hvalue
    · rintro _ ⟨⟩
      exact hliteral
  enum := by
    rintro _ ⟨⟩

theorem isDefinite_of_mem_all {t : TypeDef} (h : t ∈ all) : t.IsDefinite := by
  simp only [all, List.mem_cons, List.not_mem_nil, or_false] at h
  rcases h with rfl | rfl | rfl | rfl | rfl
  · exact isDefinite_builtin parseStringValue_ne_null parseStringLiteral_ne_null
  · exact isDefinite_builtin (fun value => checkInt_ne_null _ value) parseIntLiteral_ne_null
  · exact isDefinite_builtin (fun value => checkFloat_ne_null _ value) parseFloatLiteral_ne_null
  · exact isDefinite_builtin parseBooleanValue_ne_null parseBooleanLiteral_ne_null
  · exact isDefinite_builtin checkId_ne_null parseIdLiteral_ne_null

end Scalar

namespace Introspection

/-- The types of introspection are objects, and enums whose values are their names. -/
theorem isDefinite_of_mem_types {t : TypeDef} (h : t ∈ types) : t.IsDefinite := by
  have hscalar : types.all fun t => (t.body matches .scalar _) = false := by decide +kernel
  have henum : types.all fun t => (t.enum?.map (·.values)).getD [] |>.all fun entry =>
      !entry.2.value.isNull := by decide +kernel
  refine ⟨fun d hd => ?_, fun d hd entry hentry hnull => ?_⟩
  · have := List.all_eq_true.mp hscalar t h
    simp [hd] at this
  · have := List.all_eq_true.mp henum t h
    simp only [hd, Option.map_some, Option.getD_some] at this
    have := List.all_eq_true.mp this entry hentry
    simp [hnull, Json.isNull] at this

end Introspection

namespace Schema

theorem isDefinite_of_mem_builtinTypes {t : TypeDef} (h : t ∈ builtinTypes) : t.IsDefinite :=
  (List.mem_append.mp h).elim Scalar.isDefinite_of_mem_all Introspection.isDefinite_of_mem_types

/-- The definitions to draw from are given, or are those of every schema. -/
theorem mem_of_mem_foldlM_addToPool {given pool pool' : List TypeDef} {t : TypeDef}
    (h : given.foldlM addToPool pool = .ok pool') (ht : t ∈ pool') : t ∈ pool ∨ t ∈ given := by
  induction given generalizing pool with
  | nil =>
      cases h
      exact Or.inl ht
  | cons first rest ih =>
      rw [List.foldlM_cons] at h
      obtain ⟨between, hbetween, hrest⟩ := exists_of_bind h
      rcases ih hrest with hmem | hmem
      · unfold addToPool at hbetween
        split at hbetween
        · cases hbetween
        split at hbetween
        · split at hbetween
          · cases hbetween
            exact Or.inl hmem
          · cases hbetween
        · cases hbetween
          rcases List.mem_append.mp hmem with hmem | hmem
          · exact Or.inl hmem
          · exact Or.inr (List.mem_singleton.mp hmem ▸ List.mem_cons_self)
      · exact Or.inr (List.mem_cons_of_mem _ hmem)

/-- A schema is definite if the types that the host has defined are. -/
theorem isDefinite_of_build {schema : Schema} {draft : Draft} (h : draft.build = .ok schema)
    (hhost : ∀ t ∈ draft.allTypes, t.IsDefinite) : schema.IsDefinite := by
  obtain ⟨_, all, reached, -, -, hall, hreached, rfl, -⟩ := exists_of_build h
  obtain ⟨given, hgiven, hpool⟩ := exists_of_bind hall
  intro name t ht
  obtain ⟨u, hu, heq⟩ := List.mem_map.mp (Assoc.mem_of_get? ht)
  obtain rfl : u = t := congrArg Prod.snd heq
  have hmem := (mem_of_mem_reachable hreached hu).resolve_left (by simp)
  cases hpool
  rcases List.mem_append.mp hmem with hmem | hmem
  · exact hhost u ((mem_of_mem_foldlM_addToPool hgiven hmem).resolve_left (by simp))
  · exact isDefinite_of_mem_builtinTypes (List.mem_of_mem_filter hmem)

end Schema

end GraphQL
