import GraphQL.Proofs.Schema.Built
import GraphQL.Validation.Merging.Conflicts

/-!
# Types of one shape

Two types are of one shape if values of both can be treated alike by a client: their lists are
nested alike, and what is at the bottom is the same scalar or enum, or neither is one
(`Schema.SameShape`).  A type that can be used for another is of its shape
(`SameShape.of_isSubtype`), and so are types in which the search for fields that cannot be merged
sees no conflict (`sameShape_of_typesConflict`).
-/

namespace GraphQL.Schema

variable {schema : Schema}

/-- The name is that of a scalar or an enum. -/
def IsLeafName (schema : Schema) (name : String) : Prop := (schema.type? name).any (·.isLeafType)

/-- The lists of both types are nested alike, and if one names a scalar or an enum, so does the
other, and the same. -/
def SameShape (schema : Schema) : TypeRef → TypeRef → Prop
  | .list a _, .list b _ => SameShape schema a b
  | .named a _, .named b _ => schema.IsLeafName a ∨ schema.IsLeafName b → a = b
  | _, _ => False

theorem IsLeafName.isCompositeType_eq_false {name : String} {t : TypeDef}
    (h : schema.IsLeafName name) (ht : schema.type? name = some t) : t.isCompositeType = false := by
  have hleaf : t.isLeafType := by simpa [IsLeafName, ht] using h
  unfold TypeDef.isLeafType at hleaf
  unfold TypeDef.isCompositeType
  split at hleaf <;> simp_all

/-- Neither an object type nor an abstract type around it is a leaf. -/
theorem not_isLeafName_of_isPossibleName {sub super : String}
    (h : schema.isPossibleName sub super) :
    ¬ schema.IsLeafName sub ∧ ¬ schema.IsLeafName super := by
  unfold isPossibleName at h
  split at h
  · rename_i t u ht hu
    obtain ⟨hobject, hpossible⟩ := Bool.and_eq_true_iff.mp h
    have hsub := isCompositeType_of_isObjectType hobject
    have hsuper := isCompositeType_of_isAbstractType (isAbstractType_of_isPossibleType hpossible)
    exact ⟨fun hleaf => by simp [hleaf.isCompositeType_eq_false ht] at hsub,
      fun hleaf => by simp [hleaf.isCompositeType_eq_false hu] at hsuper⟩
  · cases h

namespace SameShape

variable {a b c : TypeRef}

theorem refl (a : TypeRef) : schema.SameShape a a := by
  induction a with
  | named name nullable => exact fun _ => rfl
  | list item nullable ih => exact ih

theorem symm (h : schema.SameShape a b) : schema.SameShape b a := by
  induction a generalizing b with
  | named name nullable =>
      cases b with
      | named other nullable' => exact fun hleaf => (h hleaf.symm).symm
      | list => cases h
  | list item nullable ih =>
      cases b with
      | named => cases h
      | list other nullable' => exact ih h

theorem trans (h : schema.SameShape a b) (h' : schema.SameShape b c) : schema.SameShape a c := by
  induction a generalizing b c with
  | named name nullable =>
      cases b with
      | list => cases h
      | named other nullable' =>
          cases c with
          | list => cases h'
          | named last nullable'' =>
              rintro (hleaf | hleaf)
              · obtain rfl := h (Or.inl hleaf)
                exact h' (Or.inl hleaf)
              · obtain rfl := h' (Or.inr hleaf)
                exact h (Or.inr hleaf)
  | list item nullable ih =>
      cases b with
      | named => cases h
      | list other nullable' =>
          cases c with
          | named => cases h'
          | list last nullable'' => exact ih h h'

/-- A type that can be used for another is of its shape. -/
theorem of_isSubtype {sub super : TypeRef} (h : schema.isSubtype sub super) :
    schema.SameShape sub super := by
  induction sub generalizing super with
  | list item nullable ih =>
      cases super with
      | named => simp [isSubtype] at h
      | list superItem superNullable =>
          simp only [isSubtype, Bool.and_eq_true] at h
          exact ih h.2
  | named subName nullable =>
      cases super with
      | list => simp [isSubtype] at h
      | named superName superNullable =>
          simp only [isSubtype, Bool.and_eq_true, Bool.or_eq_true, decide_eq_true_eq] at h
          rcases h.2 with rfl | hpossible
          · exact .refl (.named subName nullable)
          · obtain ⟨hsub, hsuper⟩ := not_isLeafName_of_isPossibleName hpossible
            exact fun hleaf => (hleaf.elim hsub hsuper).elim

end SameShape

/-- Types in which the search sees no conflict are of one shape. -/
theorem sameShape_of_typesConflict {a b : TypeRef}
    (h : Merging.typesConflict schema a b = false) : schema.SameShape a b := by
  induction a generalizing b with
  | named name nullable =>
      cases b with
      | list => simp [Merging.typesConflict] at h
      | named other nullable' =>
          simp only [Merging.typesConflict, Bool.or_eq_false_iff] at h
          intro hleaf
          have hnames := h.2
          by_contra hne
          rcases hleaf with hleaf | hleaf <;> simp_all [IsLeafName]
  | list item nullable ih =>
      cases b with
      | named => simp [Merging.typesConflict] at h
      | list other nullable' =>
          simp only [Merging.typesConflict, Bool.or_eq_false_iff] at h
          exact ih h.2

end GraphQL.Schema
