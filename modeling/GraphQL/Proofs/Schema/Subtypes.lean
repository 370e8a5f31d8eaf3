import Mathlib
import GraphQL.Proofs.Schema.Possible

/-!
# Subtyping is what the declarations make of it

`Schema.isSubtype` compares two types layer by layer (`isSubtype_eq`).  As a relation it is the
least preorder (`isLeast_isSubtype`) in which a non-null type stands for its nullable form, lists
and non-null types follow what is within them, and an object type stands for its interfaces and for
the unions that list it.

The comparison never looks for a type in between.  It need not, as names lead to each other in one
step or not at all: what an abstract type is made of are objects, and objects are made of nothing
(`isPossibleName_trans`).
-/

namespace GraphQL.Schema

variable {schema : Schema} {draft : Draft}

/-! ## Names -/

theorem isObjectType_of_object {t : TypeDef} {d : ObjectDef} (h : t.body = .object d) :
    t.isObjectType := by
  simp [TypeDef.isObjectType, h]

/-- An object type is a possible one of whatever it is declared to be of. -/
theorem IsBuilt.isPossibleName {reached : List TypeDef} {sub super : String}
    (hbuilt : IsBuilt schema reached) (h : schema.Declares sub super) :
    schema.isPossibleName sub super := by
  have hmember {t u : TypeDef} {object : ObjectDef} (ht : schema.type? sub = some t)
      (hbody : t.body = .object object) (hu : schema.type? super = some u)
      (hpossible : t.name ∈ (schema.possibleTypes u).map (·.name)) :
      schema.isPossibleName sub super := by
    obtain ⟨v, hv, hname⟩ := List.mem_map.mp hpossible
    simp only [Schema.isPossibleName, ht, hu, isObjectType_of_object hbody, Bool.true_and]
    exact List.any_eq_true.mpr ⟨v, hv, decide_eq_true hname⟩
  cases h with
  | @interface t u object interface ht hbody hu habstract hmem =>
      obtain ⟨hreached, hname⟩ := hbuilt.type?_eq_some_iff.mp hu
      refine hmember ht hbody hu (List.mem_map_of_mem ?_)
      rw [hbuilt.mem_possibleTypes_iff hreached habstract, hname, mem_interfaceNames_iff]
      refine ⟨?_, object, hbody, hmem⟩
      rwa [(hbuilt.type?_eq_some_iff.mp ht).2]
  | @union t u object union ht hbody hu habstract hmem =>
      obtain ⟨hreached, -⟩ := hbuilt.type?_eq_some_iff.mp hu
      refine hmember ht hbody hu ?_
      rwa [hbuilt.names_possibleTypes hreached habstract, (hbuilt.type?_eq_some_iff.mp ht).2]

/-- There is no way from name to name in more than one step. -/
theorem isPossibleName_trans {a b c : String} (hab : schema.isPossibleName a b)
    (hbc : schema.isPossibleName b c) : False := by
  unfold isPossibleName at hab hbc
  cases hb : schema.type? b with
  | none => simp [hb] at hbc
  | some t =>
      have hobject : t.isObjectType := by
        cases hc : schema.type? c with
        | none => simp [hb, hc] at hbc
        | some u =>
            simp only [hb, hc] at hbc
            exact (Bool.and_eq_true_iff.mp hbc).1
      cases ha : schema.type? a with
      | none => simp [ha] at hab
      | some u =>
          simp only [ha, hb] at hab
          exact not_isPossibleType_of_isObjectType hobject (Bool.and_eq_true_iff.mp hab).2

/-! ## Layers -/

/-- Types are compared by taking layers off, in a fixed order: first null on the right, which has to
be missing on the left as well, then null on the left, and then the lists. -/
theorem isSubtype_eq (sub super : TypeRef) :
    schema.isSubtype sub super =
      if sub = super then true
      else if super.isNonNull then
        sub.isNonNull && schema.isSubtype sub.nullableType super.nullableType
      else if sub.isNonNull then schema.isSubtype sub.nullableType super
      else
        match sub, super with
        | .list sub _, .list super _ => schema.isSubtype sub super
        | .named sub _, .named super _ => schema.isPossibleName sub super
        | _, _ => false := by
  by_cases hsame : sub = super
  · subst hsame
    rw [if_pos rfl, isSubtype_refl]
  rw [if_neg hsame]
  -- There are two shapes for the outermost layer of each type, with null or without it.
  rcases sub with ⟨sub, _ | _⟩ | ⟨sub, _ | _⟩ <;>
    rcases super with ⟨super, _ | _⟩ | ⟨super, _ | _⟩ <;>
    simp_all [isSubtype, TypeRef.isNonNull, TypeRef.isNullable, TypeRef.nullableType,
      TypeRef.withNullable]

theorem isSubtype_trans {a b c : TypeRef} (hab : schema.isSubtype a b)
    (hbc : schema.isSubtype b c) : schema.isSubtype a c := by
  induction a generalizing b c with
  | named a aNullable =>
      cases b with
      | list => simp [isSubtype] at hab
      | named b bNullable =>
          cases c with
          | list => simp [isSubtype] at hbc
          | named c cNullable =>
              simp only [isSubtype, Bool.and_eq_true, Bool.or_eq_true, decide_eq_true_eq,
                Bool.not_eq_true'] at hab hbc ⊢
              refine ⟨?_, ?_⟩
              · cases aNullable <;> cases bNullable <;> simp_all
              · rcases hab.2 with rfl | hab
                · exact hbc.2
                · rcases hbc.2 with rfl | hbc
                  · exact Or.inr hab
                  · exact (isPossibleName_trans hab hbc).elim
  | list a aNullable ih =>
      cases b with
      | named => simp [isSubtype] at hab
      | list b bNullable =>
          cases c with
          | named => simp [isSubtype] at hbc
          | list c cNullable =>
              simp only [isSubtype, Bool.and_eq_true, Bool.or_eq_true, Bool.not_eq_true']
                at hab hbc ⊢
              refine ⟨?_, ih hab.2 hbc.2⟩
              cases aNullable <;> cases bNullable <;> simp_all

/-! ## The least relation -/

/-- A preorder in which types stand for others as they have to. -/
structure IsSubtyping (schema : Schema) (r : TypeRef → TypeRef → Prop) : Prop where
  refl : ∀ a, r a a
  trans : ∀ {a b c}, r a b → r b c → r a c
  /-- A non-null type stands for its nullable form. -/
  nullable : ∀ a : TypeRef, r (a.withNullable false) (a.withNullable true)
  list : ∀ {a b}, r a b → r (.list a true) (.list b true)
  nonNull : ∀ {a b : TypeRef}, a.isNullable → b.isNullable → r a b →
    r (a.withNullable false) (b.withNullable false)
  /-- An object type stands for its interfaces, and for the unions that list it. -/
  declares : ∀ {sub super}, schema.Declares sub super → r (.named sub true) (.named super true)

namespace IsSubtyping

variable {r : TypeRef → TypeRef → Prop} {a b : TypeRef}

/-- Where a nullable type stands for another, its forms do that allow no more than those of the
other. -/
theorem withNullable (hr : schema.IsSubtyping r)
    (h : r (a.withNullable true) (b.withNullable true)) {aNullable bNullable : Bool}
    (hnull : aNullable → bNullable) :
    r (a.withNullable aNullable) (b.withNullable bNullable) := by
  cases aNullable with
  | true =>
      rw [hnull rfl]
      exact h
  | false =>
      cases bNullable with
      | true => exact hr.trans (hr.nullable a) h
      | false =>
          have hboth := hr.nonNull (TypeRef.isNullable_withNullable true a)
            (TypeRef.isNullable_withNullable true b) h
          cases a <;> cases b <;> exact hboth

/-- What the declarations put below a type stands for it. -/
theorem of_isBelow (hr : schema.IsSubtyping r) (h : schema.IsBelow a b) : r a b := by
  induction h with
  | @named sub super subNullable superNullable hnull h =>
      have hnames : r (.named sub true) (.named super true) := by
        rcases h with rfl | h
        · exact hr.refl _
        · exact hr.declares h
      exact hr.withNullable (a := .named sub true) (b := .named super true) hnames hnull
  | @list sub super subNullable superNullable hnull _ ih =>
      exact hr.withNullable (a := .list sub true) (b := .list super true) (hr.list ih) hnull

end IsSubtyping

/-- A subtype stays one if the outermost layers change, as long as null is allowed on the right
where it is on the left. -/
theorem isSubtype_withNullable {a b : TypeRef} (h : schema.isSubtype a b)
    {aNullable bNullable : Bool} (hnull : aNullable → bNullable) :
    schema.isSubtype (a.withNullable aNullable) (b.withNullable bNullable) := by
  have hflags : (bNullable || !aNullable) = true := by
    cases aNullable <;> simp_all
  cases a with
  | named a =>
      cases b with
      | list => simp [isSubtype] at h
      | named b =>
          rw [isSubtype, Bool.and_eq_true] at h
          rw [TypeRef.withNullable, TypeRef.withNullable, isSubtype, hflags, Bool.true_and]
          exact h.2
  | list a =>
      cases b with
      | named => simp [isSubtype] at h
      | list b =>
          rw [isSubtype, Bool.and_eq_true] at h
          rw [TypeRef.withNullable, TypeRef.withNullable, isSubtype, hflags, Bool.true_and]
          exact h.2

theorem IsBuilt.isSubtyping_isSubtype {reached : List TypeDef} (hbuilt : IsBuilt schema reached) :
    schema.IsSubtyping fun a b => schema.isSubtype a b where
  refl := schema.isSubtype_refl
  trans := isSubtype_trans
  nullable a := isSubtype_withNullable (schema.isSubtype_refl a) (by simp)
  list h := by simpa [isSubtype] using h
  nonNull _ _ h := isSubtype_withNullable h id
  declares h := by simp [isSubtype, hbuilt.isPossibleName h]

/-- In a schema that is built, the subtypes are those of the least preorder in which types stand for
others as they have to. -/
theorem isLeast_isSubtype (hbuild : draft.build = .ok schema) :
    IsLeast {r | schema.IsSubtyping r} fun a b => schema.isSubtype a b := by
  obtain ⟨reached, hbuilt⟩ := exists_isBuilt hbuild
  constructor
  · exact hbuilt.isSubtyping_isSubtype
  · intro r hr a b h
    exact hr.of_isBelow (hbuilt.isBelow_of_isSubtype h)

/-- A list of books can be used as a list of things, but one in which books may be missing cannot be
used where every item has a label. -/
theorem isLeast_isSubtype_shelfSchema :
    shelfDraft.build = .ok shelfSchema ∧
      IsLeast {r | shelfSchema.IsSubtyping r} (fun a b => shelfSchema.isSubtype a b) ∧
      shelfSchema.isSubtype (.list (.named "Book" false) false)
        (.list (.named "Thing" true) true) ∧
      ¬ shelfSchema.isSubtype (.list (.named "Book" true) true)
        (.list (.named "Labelled" false) true) := by
  exact ⟨build_shelfDraft, isLeast_isSubtype build_shelfDraft, by decide +kernel, by decide +kernel⟩

end GraphQL.Schema
