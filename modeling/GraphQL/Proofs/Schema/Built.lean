import Mathlib
import GraphQL.Proofs.Rows
import GraphQL.Schema.Build

/-!
# Schemas that are built

What holds of every schema that `Schema.Draft.build` gives (`Schema.Coherent`): types stand
under their own names, the possible types of an abstract type are object types of the
schema, and where an interface has a field, its possible types have one whose type can be
used for it.
-/

namespace GraphQL.Schema

variable {schema : Schema} {draft : Draft}

/-- A schema in which names lead to what they should. -/
structure Coherent (schema : Schema) : Prop where
  name_of_type? : ∀ {name t}, schema.type? name = some t → t.name = name
  /-- Possible types are object types of the schema. -/
  possible : ∀ {t u}, schema.type? t.name = some t → u ∈ schema.possibleTypes t →
    u.isObjectType ∧ schema.type? u.name = some u
  /-- Objects have the fields of their interfaces, with types that can be used for those. -/
  covariant : ∀ {t u name d}, schema.type? t.name = some t → u ∈ schema.possibleTypes t →
    t.field? name = some d → ∃ d', u.field? name = some d' ∧ schema.isSubtype d'.type d.type
  /-- The type under the name of the root of queries is an object type. -/
  query : ∀ {t}, schema.type? schema.queryType.name = some t → t.isObjectType

theorem exists_of_bind {ε α β : Type} {x : Except ε α} {f : α → Except ε β} {result : β}
    (h : x >>= f = .ok result) : ∃ value, x = .ok value ∧ f value = .ok result := by
  cases x with
  | error e => cases h
  | ok value => exact ⟨value, rfl, h⟩

/-! ## What is reached -/

/-- What is reached has different names, if that held before. -/
theorem nodup_reachable {pool done reached : List TypeDef} {references : List (String × SchemaSite)}
    (h : reachable pool done references = .ok reached) (hdone : (done.map (·.name)).Nodup) :
    (reached.map (·.name)).Nodup := by
  induction pool, done, references using reachable.induct with
  | case1 pool done =>
      rw [reachable] at h
      cases h
      exact hdone
  | case2 pool done name site rest hmem ih =>
      rw [reachable, if_pos hmem] at h
      exact ih h hdone
  | case3 pool done name site rest hmem hnone =>
      rw [reachable, if_neg hmem, hnone] at h
      cases h
  | case4 pool done name site rest hmem t hfind ih =>
      rw [reachable, if_neg hmem, hfind] at h
      have hname : t.name = name := by simpa using List.find?_some hfind
      refine ih h ?_
      rw [List.map_append, List.map_singleton, List.nodup_append]
      refine ⟨hdone, List.nodup_singleton _, fun other hother found hfound hsame => hmem ?_⟩
      obtain ⟨u, hu, rfl⟩ := List.mem_map.mp hother
      obtain rfl := List.mem_singleton.mp hfound
      exact List.any_eq_true.mpr ⟨u, hu, by simpa using hsame.trans hname⟩

theorem mem_of_mem_reachable {pool done reached : List TypeDef}
    {references : List (String × SchemaSite)} {t : TypeDef}
    (h : reachable pool done references = .ok reached) (ht : t ∈ reached) : t ∈ done ∨ t ∈ pool := by
  induction pool, done, references using reachable.induct with
  | case1 pool done =>
      rw [reachable] at h
      cases h
      exact Or.inl ht
  | case2 pool done name site rest hmem ih =>
      rw [reachable, if_pos hmem] at h
      exact ih h
  | case3 pool done name site rest hmem hnone =>
      rw [reachable, if_neg hmem, hnone] at h
      cases h
  | case4 pool done name site rest hmem found hfind ih =>
      rw [reachable, if_neg hmem, hfind] at h
      rcases ih h with hdone | hpool
      · rcases List.mem_append.mp hdone with hdone | hfound
        · exact Or.inl hdone
        · obtain rfl := List.mem_singleton.mp hfound
          exact Or.inr (List.mem_of_find?_eq_some hfind)
      · exact Or.inr (List.mem_of_mem_filter hpool)

/-- A type is the only one of its name in a pool. -/
def Leads (pool : List TypeDef) (t : TypeDef) : Prop :=
  t ∈ pool ∧ ∀ other ∈ pool, other.name = t.name → other = t

theorem Leads.addToPool {pool pool' : List TypeDef} {t other : TypeDef} (hleads : Leads pool t)
    (h : Schema.addToPool pool other = .ok pool') : Leads pool' t := by
  unfold Schema.addToPool at h
  split at h
  · cases h
  split at h
  · split at h
    · cases h
      exact hleads
    · cases h
  · rename_i hnone
    cases h
    refine ⟨List.mem_append_left _ hleads.1, fun found hfound hname => ?_⟩
    rcases List.mem_append.mp hfound with hfound | hfound
    · exact hleads.2 found hfound hname
    · obtain rfl := List.mem_singleton.mp hfound
      have hne := List.find?_eq_none.mp hnone t hleads.1
      exact absurd hname.symm (by simpa using hne)

theorem Leads.foldlM {given pool pool' : List TypeDef} {t : TypeDef} (hleads : Leads pool t)
    (h : given.foldlM Schema.addToPool pool = .ok pool') : Leads pool' t := by
  induction given generalizing pool with
  | nil =>
      cases h
      exact hleads
  | cons other rest ih =>
      rw [List.foldlM_cons] at h
      obtain ⟨between, hbetween, hrest⟩ := exists_of_bind h
      exact ih (hleads.addToPool hbetween) hrest

/-- The first of the given types is the one of its name. -/
theorem leads_pool {t : TypeDef} {rest all : List TypeDef} (h : pool (t :: rest) = .ok all) :
    Leads all t := by
  obtain ⟨given, hgiven, h⟩ := exists_of_bind h
  rw [List.foldlM_cons] at hgiven
  obtain ⟨first, hfirst, hrest⟩ := exists_of_bind hgiven
  have hleads : Leads first t := by
    unfold addToPool at hfirst
    split at hfirst
    · cases hfirst
    · cases hfirst
      exact ⟨List.mem_singleton_self t, fun other hother _ => List.mem_singleton.mp hother⟩
  have hgiven := hleads.foldlM hrest
  cases h
  refine ⟨List.mem_append_left _ hgiven.1, fun other hother hname => ?_⟩
  rcases List.mem_append.mp hother with hother | hother
  · exact hgiven.2 other hother hname
  · have hnew := (List.mem_filter.mp hother).2
    simp only [Bool.not_eq_true', List.any_eq_false, decide_eq_true_eq] at hnew
    exact absurd hname.symm (hnew t hgiven.1)

/-- What is built, step by step. -/
structure IsBuilt (schema : Schema) (reached : List TypeDef) : Prop where
  types : schema.types = reached.map fun t => (t.name, t)
  possible : schema.possible = reached.foldl (addPossible schema.types) []
  nodup : (reached.map (·.name)).Nodup
  faults : schema.faults = []
  root : schema.queryType.isObjectType
  /-- No other type has the name of the root of queries. -/
  query : ∀ t ∈ reached, t.name = schema.queryType.name → t = schema.queryType

/-- What a schema is built of, if nothing is wrong. -/
theorem exists_of_build (h : draft.build = .ok schema) : ∃ directives all reached,
    checkRoot .query draft.query = .ok () ∧
    (DirectiveDef.builtins ++ draft.directives).foldlM addDirective [] = .ok directives ∧
    pool draft.allTypes = .ok all ∧ reachable all [] (draft.references directives) = .ok reached ∧
    schema =
      { directives
        queryType := draft.query
        mutationType := draft.mutation
        subscriptionType := draft.subscription
        types := reached.map fun t => (t.name, t)
        possible := reached.foldl (addPossible (reached.map fun t => (t.name, t))) [] } ∧
    schema.faults = [] := by
  obtain ⟨_, hroot, h⟩ := exists_of_bind h
  obtain ⟨-, -, h⟩ := exists_of_bind h
  obtain ⟨-, -, h⟩ := exists_of_bind h
  obtain ⟨directives, hdirectives, h⟩ := exists_of_bind h
  obtain ⟨all, hall, h⟩ := exists_of_bind h
  obtain ⟨reached, hreached, h⟩ := exists_of_bind h
  refine ⟨directives, all, reached, hroot, hdirectives, hall, hreached, ?_⟩
  simp only at h
  split at h
  · rename_i hfaults
    cases h
    exact ⟨rfl, hfaults⟩
  · cases h

/-- What is reached from the references of the draft makes the schema. -/
theorem exists_reached_of_build (h : draft.build = .ok schema) : ∃ all reached,
    pool draft.allTypes = .ok all ∧
    reachable all [] (draft.references schema.directives) = .ok reached ∧
    IsBuilt schema reached := by
  obtain ⟨directives, all, reached, hroot, -, hall, hreached, rfl, hfaults⟩ := exists_of_build h
  refine ⟨all, reached, hall, hreached, rfl, rfl, nodup_reachable hreached List.nodup_nil, hfaults,
    ?_, fun t ht hname => ?_⟩
  · change draft.query.isObjectType = true
    unfold checkRoot at hroot
    split at hroot
    · assumption
    · cases hroot
  · have hmem := (mem_of_mem_reachable hreached ht).resolve_left (by simp)
    exact (leads_pool hall).2 t hmem hname

theorem exists_isBuilt (h : draft.build = .ok schema) : ∃ reached, IsBuilt schema reached :=
  have ⟨_, reached, _, _, hbuilt⟩ := exists_reached_of_build h
  ⟨reached, hbuilt⟩

section

variable {reached : List TypeDef} (hbuilt : IsBuilt schema reached)
include hbuilt

theorem IsBuilt.type?_eq_some_iff {name : String} {t : TypeDef} :
    schema.type? name = some t ↔ t ∈ reached ∧ t.name = name := by
  rw [type?, hbuilt.types]
  constructor
  · intro h
    obtain ⟨u, hu, heq⟩ := List.mem_map.mp (Assoc.mem_of_get? h)
    cases heq
    exact ⟨hu, rfl⟩
  · rintro ⟨hmem, rfl⟩
    refine Assoc.get?_of_mem ?_ (List.mem_map_of_mem (f := fun t : TypeDef => (t.name, t)) hmem)
    rw [List.map_map]
    exact hbuilt.nodup

/-- No type of the schema is at fault. -/
theorem IsBuilt.typeFaults_eq_nil {t : TypeDef} (ht : t ∈ reached) : schema.typeFaults t = [] := by
  have hfaults := (List.append_eq_nil_iff.mp hbuilt.faults).1
  refine List.flatMap_eq_nil_iff.mp hfaults (t.name, t) ?_
  rw [hbuilt.types]
  exact List.mem_map_of_mem (f := fun t : TypeDef => (t.name, t)) ht

end

/-! ## Possible types -/

/-- Why an object type is one of those of an abstract type. -/
inductive IsMember (types : List (String × TypeDef)) (t : TypeDef) (abstractName : String)
    (u : TypeDef) : Prop where
  | union {d : UnionDef} {name : String} (hname : t.name = abstractName)
    (hbody : t.body = .union d) (hmember : name ∈ d.members)
    (hget : Assoc.get? types name = some u) (hobject : u.isObjectType)
  | object {d : ObjectDef} (hsame : t = u) (hbody : t.body = .object d)
    (hinterface : abstractName ∈ d.interfaces)

variable {types : List (String × TypeDef)} {possible : List (String × List TypeDef)}
  {t u : TypeDef} {abstractName : String}

theorem mem_of_mem_addInterfaces {interfaces : List String}
    (h : u ∈ (Assoc.get? (interfaces.foldl (fun possible name =>
      Assoc.insert possible name ((Assoc.get? possible name).getD [] ++ [t])) possible)
        abstractName).getD []) :
    u ∈ (Assoc.get? possible abstractName).getD [] ∨ t = u ∧ abstractName ∈ interfaces := by
  induction interfaces generalizing possible with
  | nil => exact Or.inl h
  | cons name rest ih =>
      rcases ih h with h | ⟨rfl, hrest⟩
      · beta_reduce at h
        by_cases hname : name = abstractName
        · subst hname
          rw [Assoc.get?_insert_self, Option.getD_some] at h
          rcases List.mem_append.mp h with h | h
          · exact Or.inl h
          · exact Or.inr ⟨(List.mem_singleton.mp h).symm, List.mem_cons_self⟩
        · rw [Assoc.get?_insert_of_ne _ _ (Ne.symm hname)] at h
          exact Or.inl h
      · exact Or.inr ⟨rfl, List.mem_cons_of_mem _ hrest⟩

theorem mem_of_mem_addPossible
    (h : u ∈ (Assoc.get? (addPossible types possible t) abstractName).getD []) :
    u ∈ (Assoc.get? possible abstractName).getD [] ∨ IsMember types t abstractName u := by
  unfold addPossible at h
  split at h
  · rename_i d hbody
    by_cases hname : t.name = abstractName
    · subst hname
      rw [Assoc.get?_insert_self, Option.getD_some] at h
      obtain ⟨name, hmember, hu⟩ := List.mem_filterMap.mp h
      obtain ⟨hget, hobject⟩ := Option.filter_eq_some_iff.mp hu
      exact Or.inr (.union rfl hbody hmember hget hobject)
    · rw [Assoc.get?_insert_of_ne _ _ (Ne.symm hname)] at h
      exact Or.inl h
  · by_cases hname : t.name = abstractName
    · subst hname
      rw [Assoc.get?_insert_self, Option.getD_some] at h
      exact Or.inl h
    · rw [Assoc.get?_insert_of_ne _ _ (Ne.symm hname)] at h
      exact Or.inl h
  · rename_i d hbody
    rcases mem_of_mem_addInterfaces h with h | ⟨hsame, hinterface⟩
    · exact Or.inl h
    · exact Or.inr (.object hsame hbody hinterface)
  · exact Or.inl h

theorem exists_isMember {reached : List TypeDef}
    (h : u ∈ (Assoc.get? (reached.foldl (addPossible types) possible) abstractName).getD []) :
    u ∈ (Assoc.get? possible abstractName).getD [] ∨
      ∃ t ∈ reached, IsMember types t abstractName u := by
  induction reached generalizing possible with
  | nil => exact Or.inl h
  | cons t rest ih =>
      rcases ih h with h | ⟨other, hother, hmember⟩
      · rcases mem_of_mem_addPossible h with h | hmember
        · exact Or.inl h
        · exact Or.inr ⟨t, List.mem_cons_self, hmember⟩
      · exact Or.inr ⟨other, List.mem_cons_of_mem _ hother, hmember⟩

/-! ## Coherence -/

theorem possibleTypes_of_not_isAbstractType (h : t.isAbstractType = false) :
    schema.possibleTypes t = [] := by
  rw [possibleTypes, h]
  rfl

section

variable {reached : List TypeDef} (hbuilt : IsBuilt schema reached)
include hbuilt

theorem IsBuilt.exists_isMember (h : u ∈ schema.possibleTypes t) :
    ∃ other ∈ reached, IsMember schema.types other t.name u := by
  unfold possibleTypes at h
  split at h
  · rw [hbuilt.possible] at h
    rcases Schema.exists_isMember h with h | h
    · simp [Assoc.get?] at h
    · exact h
  · cases h

theorem IsBuilt.mem_reached_of_mem_possibleTypes (h : u ∈ schema.possibleTypes t) :
    u.isObjectType ∧ u ∈ reached := by
  obtain ⟨other, hother, hmember⟩ := hbuilt.exists_isMember h
  cases hmember with
  | union _ _ _ hget hobject =>
      exact ⟨hobject, (hbuilt.type?_eq_some_iff.mp hget).1⟩
  | object hsame hbody _ =>
      subst hsame
      exact ⟨by simp [TypeDef.isObjectType, hbody], hother⟩

/-- An object type has the fields of the interfaces that it declares, without faults. -/
theorem IsBuilt.exists_field {object : ObjectDef} {name : String} {d : FieldDef}
    (hu : u ∈ reached) (hbody : u.body = .object object) (ht : schema.type? t.name = some t)
    (hinterface : t.name ∈ object.interfaces) (hd : t.field? name = some d) :
    ∃ d', u.field? name = some d' ∧ schema.fieldImplementationFaults d d' = [] := by
  have hfaults := hbuilt.typeFaults_eq_nil hu
  simp only [typeFaults, hbody, List.append_eq_nil_iff, List.flatMap_eq_nil_iff,
    List.map_eq_nil_iff] at hfaults
  have himplementation := hfaults.2 t.name hinterface
  rw [implementationFaults, ht, Option.bind_some] at himplementation
  cases hinterface : t.interface? with
  | none => simp [hinterface] at himplementation
  | some interface =>
      have hfields : t.fields? = some interface.fields := by
        unfold TypeDef.interface? at hinterface
        unfold TypeDef.fields?
        split at hinterface <;> simp_all
      rw [hinterface] at himplementation
      simp only [List.append_eq_nil_iff, List.flatMap_eq_nil_iff] at himplementation
      rw [TypeDef.field?, hfields, Option.bind_some] at hd
      have hfield := himplementation.2 _ (Assoc.mem_of_get? hd)
      have hobject : u.field? name = Assoc.get? object.fields name := by
        rw [TypeDef.field?, TypeDef.fields?, hbody]
        rfl
      cases hprovided : Assoc.get? object.fields name with
      | none => simp [hprovided] at hfield
      | some provided => exact ⟨provided, hobject.trans hprovided, by simpa [hprovided] using hfield⟩

/-- Where an abstract type has a field, its possible types have one that is as it should be. -/
theorem IsBuilt.implements {name : String} {d : FieldDef} (ht : schema.type? t.name = some t)
    (h : u ∈ schema.possibleTypes t) (hd : t.field? name = some d) :
    ∃ d', u.field? name = some d' ∧ schema.fieldImplementationFaults d d' = [] := by
  obtain ⟨other, hother, hmember⟩ := hbuilt.exists_isMember h
  cases hmember with
  | union hname hbody _ _ _ =>
      have hsame : other = t := Option.some.inj
        ((hbuilt.type?_eq_some_iff.mpr ⟨hother, hname⟩).symm.trans ht)
      subst hsame
      simp [TypeDef.field?, TypeDef.fields?, hbody] at hd
  | object hsame hbody hinterface =>
      subst hsame
      exact hbuilt.exists_field hother hbody ht hinterface hd

omit hbuilt in
theorem isSubtype_of_implements {expected provided : FieldDef}
    (h : schema.fieldImplementationFaults expected provided = []) :
    schema.isSubtype provided.type expected.type := by
  by_contra hsub
  simp [fieldImplementationFaults, hsub] at h

/-- A schema that is built is coherent. -/
theorem IsBuilt.coherent : schema.Coherent where
  name_of_type? h := (hbuilt.type?_eq_some_iff.mp h).2
  possible _ h := by
    obtain ⟨hobject, hmem⟩ := hbuilt.mem_reached_of_mem_possibleTypes h
    exact ⟨hobject, hbuilt.type?_eq_some_iff.mpr ⟨hmem, rfl⟩⟩
  query h := by
    obtain ⟨hmem, hname⟩ := hbuilt.type?_eq_some_iff.mp h
    rw [hbuilt.query _ hmem hname]
    exact hbuilt.root
  covariant ht h hd := by
    obtain ⟨d', hd', himplements⟩ := hbuilt.implements ht h hd
    exact ⟨d', hd', isSubtype_of_implements himplements⟩

end

theorem coherent_of_build (h : draft.build = .ok schema) : schema.Coherent :=
  have ⟨_, hbuilt⟩ := exists_isBuilt h
  hbuilt.coherent

namespace Draft

/-- The schema of a draft with which nothing is wrong. -/
def built (draft : Draft) (h : draft.build.isOk = true) : Schema :=
  match hbuild : draft.build with
  | .ok schema => schema
  | .error _ => absurd h (by simp [hbuild, Except.isOk, Except.toBool])

theorem build_eq_ok_built (draft : Draft) (h : draft.build.isOk = true) :
    draft.build = .ok (draft.built h) := by
  unfold built
  split
  · assumption
  · rename_i hbuild
    simp [hbuild, Except.isOk, Except.toBool] at h

end Draft

/-! ## Where object types stand -/

/-- Values of the named object type may stand where a type is declared. -/
def Occupies (schema : Schema) (name : String) (type : TypeRef) : Prop :=
  ∃ t, schema.namedType? type = some t ∧
    ((t.isObjectType ∧ t.name = name) ∨ schema.isPossibleType t name)

/-- A type, if it is known, is one of the schema, and objects of the named type may be of it,
if any objects may. -/
def Fits (schema : Schema) (parent : Option TypeDef) (name : String) : Prop :=
  ∀ t, parent = some t → schema.type? t.name = some t ∧
    (t.isCompositeType → t.name = name ∨ schema.isPossibleType t name)

/-- What stands where a field is selected would fit the field of that name which the type
declares.  It does so unless a field of introspection hides a declared one. -/
def Unshadowed (schema : Schema) : Prop :=
  ∀ t name declared found object, schema.type? t.name = some t →
    t.field? name = some declared → schema.fieldDef? t name = some found →
    schema.Occupies object found.type → schema.Fits (schema.namedType? declared.type) object

theorem isCompositeType_of_isObjectType (h : t.isObjectType) : t.isCompositeType := by
  unfold TypeDef.isObjectType at h
  unfold TypeDef.isCompositeType
  split at h <;> simp_all

theorem isCompositeType_of_field? {name : String} {d : FieldDef} (h : t.field? name = some d) :
    t.isCompositeType := by
  obtain ⟨fields, hfields, -⟩ := Option.bind_eq_some_iff.mp h
  unfold TypeDef.fields? at hfields
  unfold TypeDef.isCompositeType
  split at hfields <;> simp_all

theorem not_isPossibleType_of_isObjectType {name : String} (h : t.isObjectType) :
    ¬ schema.isPossibleType t name := by
  have habstract : t.isAbstractType = false := by
    unfold TypeDef.isObjectType at h
    unfold TypeDef.isAbstractType
    split at h <;> simp_all
  rw [isPossibleType, possibleTypes_of_not_isAbstractType habstract]
  simp

/-- An object type that is one of those of another type leaves that one abstract. -/
theorem isAbstractType_of_isPossibleType {name : String} (h : schema.isPossibleType t name) :
    t.isAbstractType = true := by
  by_contra hnot
  rw [isPossibleType, possibleTypes_of_not_isAbstractType (by simpa using hnot)] at h
  simp at h

theorem isCompositeType_of_isAbstractType (h : t.isAbstractType) : t.isCompositeType := by
  unfold TypeDef.isAbstractType at h
  unfold TypeDef.isCompositeType
  split at h <;> simp_all

section

variable {object outer name : String} {parent : Option TypeDef} {found : FieldDef}
  (hcoherent : schema.Coherent)
include hcoherent

theorem Occupies.fits {type : TypeRef} (h : schema.Occupies object type) :
    schema.Fits (schema.namedType? type) object := by
  obtain ⟨t, ht, hobject⟩ := h
  intro t' ht'
  obtain rfl : t = t' := Option.some.inj (ht.symm.trans ht')
  refine ⟨?_, fun _ => hobject.imp_left And.right⟩
  rw [hcoherent.name_of_type? ht]
  exact ht

/-- What fits a type fits those that the type can be used for. -/
theorem Fits.of_isSubtype {sub super : TypeRef} (h : schema.Fits (schema.namedType? sub) object)
    (hsub : schema.isSubtype sub super) : schema.Fits (schema.namedType? super) object := by
  induction sub generalizing super with
  | list item nullable ih =>
      cases super with
      | named superName superNullable => simp [isSubtype] at hsub
      | list superItem superNullable =>
          simp only [isSubtype, Bool.and_eq_true] at hsub
          have hitem : schema.Fits (schema.namedType? superItem) object := ih h hsub.2
          exact hitem
  | named subName nullable =>
      cases super with
      | list superItem superNullable => simp [isSubtype] at hsub
      | named superName superNullable =>
          simp only [isSubtype, Bool.and_eq_true, Bool.or_eq_true, decide_eq_true_eq] at hsub
          rcases hsub.2 with rfl | hpossible
          · exact h
          have h : schema.Fits (schema.type? subName) object := h
          show schema.Fits (schema.type? superName) object
          unfold isPossibleName at hpossible
          cases hu : schema.type? subName with
          | none => simp [hu] at hpossible
          | some u =>
              intro t ht
              rw [hu, ht] at hpossible
              obtain ⟨hobject, hpossible⟩ := Bool.and_eq_true_iff.mp hpossible
              refine ⟨by rw [hcoherent.name_of_type? ht]; exact ht, fun _ => Or.inr ?_⟩
              rcases (h u hu).2 (isCompositeType_of_isObjectType hobject) with rfl | hbelow
              · exact hpossible
              · exact absurd hbelow (not_isPossibleType_of_isObjectType hobject)

/-- The types that may stand where an abstract type is declared are types of the schema. -/
theorem exists_mem_possibleTypes (ht : schema.type? t.name = some t)
    (h : schema.isPossibleType t outer) :
    ∃ u ∈ schema.possibleTypes t, u.isObjectType ∧ schema.type? outer = some u ∧
      schema.type? u.name = some u := by
  obtain ⟨u, hu, hname⟩ := List.any_eq_true.mp h
  obtain ⟨hobject, htype⟩ := hcoherent.possible ht hu
  obtain rfl : u.name = outer := by simpa using hname
  exact ⟨u, hu, hobject, htype, htype⟩

theorem isCompositeType_of_fieldDef? {d : FieldDef} (ht : schema.type? t.name = some t)
    (hd : schema.fieldDef? t name = some d) : t.isCompositeType := by
  have hroot (hname : t.name = schema.queryType.name) : t.isCompositeType :=
    isCompositeType_of_isObjectType (hcoherent.query (hname ▸ ht))
  simp only [fieldDef?] at hd
  split at hd
  · rename_i h
    exact hroot h.2
  split at hd
  · rename_i h
    exact hroot h.2
  split at hd
  · rename_i h
    exact h.2
  · exact isCompositeType_of_field? hd

/-- What is the value of a field of an object fits the field as it is declared by the types
that the object fits. -/
theorem Fits.declared {declared : FieldDef} (hunshadowed : schema.Unshadowed)
    (h : schema.Fits (some t) outer) (hdeclared : t.field? name = some declared)
    (hfound : (schema.type? outer).bind (schema.fieldDef? · name) = some found)
    (hobject : schema.Occupies object found.type) :
    schema.Fits (schema.namedType? declared.type) object := by
  obtain ⟨ht, hfits⟩ := h t rfl
  obtain rfl | hpossible := hfits (isCompositeType_of_field? hdeclared)
  · rw [ht] at hfound
    exact hunshadowed t name declared found object ht hdeclared hfound hobject
  · obtain ⟨u, hu, -, houter, htype⟩ := exists_mem_possibleTypes hcoherent ht hpossible
    rw [houter] at hfound
    obtain ⟨d, hd, hsub⟩ := hcoherent.covariant ht hu hdeclared
    have hfits := hunshadowed u name d found object htype hd hfound hobject
    exact hfits.of_isSubtype hcoherent hsub

/-- What is the value of a field of an object fits the field as it is selected of the types
that the object fits. -/
theorem Fits.selected {d : FieldDef} (hunshadowed : schema.Unshadowed)
    (h : schema.Fits (some t) outer) (hd : schema.fieldDef? t name = some d)
    (hfound : (schema.type? outer).bind (schema.fieldDef? · name) = some found)
    (hobject : schema.Occupies object found.type) :
    schema.Fits (schema.namedType? d.type) object := by
  obtain ⟨ht, hfits⟩ := h t rfl
  obtain rfl | hpossible := hfits (isCompositeType_of_fieldDef? hcoherent ht hd)
  · rw [ht, Option.bind_some, hd] at hfound
    obtain rfl := Option.some.inj hfound
    exact hobject.fits hcoherent
  · obtain ⟨u, hu, hisObject, houter, htype⟩ := exists_mem_possibleTypes hcoherent ht hpossible
    -- The root of queries is an object type, so `t` has neither of its two fields.
    have hroot : t.name ≠ schema.queryType.name := fun hname =>
      not_isPossibleType_of_isObjectType (hcoherent.query (hname ▸ ht)) hpossible
    unfold fieldDef? at hd
    simp only [hroot, and_false, if_false] at hd
    split at hd
    · rename_i htypename
      obtain ⟨rfl, -⟩ := htypename
      have hsame : schema.fieldDef? u Introspection.typenameFieldName =
          some Introspection.typenameField := by
        simp [fieldDef?, isCompositeType_of_isObjectType hisObject,
          Introspection.typenameFieldName, Introspection.schemaFieldName,
          Introspection.typeFieldName]
      rw [houter, Option.bind_some, hsame] at hfound
      obtain rfl := Option.some.inj (hfound.symm.trans hd)
      exact hobject.fits hcoherent
    · exact h.declared hcoherent hunshadowed hd hfound hobject

/-- Nothing is hidden if the names that are kept for introspection are not given to fields. -/
theorem unshadowed_of_reserved
    (h : ∀ entry ∈ schema.types, ∀ field ∈ entry.2.fields?.getD [],
      isReservedName field.1 = false) : schema.Unshadowed := by
  intro t name declared found object ht hdeclared hfound hobject
  obtain ⟨fields, hfields, hget⟩ := Option.bind_eq_some_iff.mp hdeclared
  have hname := h _ (Assoc.mem_of_get? ht) (name, declared) (by
    rw [hfields]
    exact Assoc.mem_of_get? hget)
  have hne (reserved : String) (hreserved : isReservedName reserved = true) : name ≠ reserved := by
    rintro rfl
    exact Bool.false_ne_true (hname.symm.trans hreserved)
  have hsame : schema.fieldDef? t name = t.field? name := by
    simp [fieldDef?, hne Introspection.schemaFieldName (by decide),
      hne Introspection.typeFieldName (by decide),
      hne Introspection.typenameFieldName (by decide)]
  rw [hsame, hdeclared] at hfound
  obtain rfl := Option.some.inj hfound
  exact hobject.fits hcoherent

end

end GraphQL.Schema
