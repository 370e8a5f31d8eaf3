import Mathlib
import GraphQL.Proofs.Schema.Built

/-!
# Types in their roles

The root types that a draft gives for queries, mutations and subscriptions are object types, and
so is what a built schema has under their names (`exists_root_of_build`).  All references of the
draft are reached, and the draft gives no two different definitions under one name.

In a schema that is built the fields of input objects have input types
(`fieldsAreInputs_of_build`), and so have the arguments of all fields
(`argumentsAreInputs_of_build`).  An object has the arguments that the field of an interface
has, with the same types; what it adds to them may be null (`exists_argument_of_implements`,
`isNonNull_eq_false_of_implements`).
-/

namespace GraphQL.Schema

variable {schema : Schema} {draft : Draft}

/-! ## Definitions to draw from -/

/-- A list of definitions knows a type: the only one of its name is the same definition. -/
structure Knows (pool : List TypeDef) (t : TypeDef) : Prop where
  nodup : (pool.map (·.name)).Nodup
  found : ∃ other ∈ pool, other.isSameDefinition t

theorem Knows.isSameDefinition {pool : List TypeDef} {t u : TypeDef} (h : Knows pool t)
    (hu : u ∈ pool) (hname : u.name = t.name) : u.isSameDefinition t := by
  obtain ⟨other, hother, hsame⟩ := h.found
  have hnames : other.name = t.name := by
    simp only [TypeDef.isSameDefinition, Bool.and_eq_true, decide_eq_true_eq] at hsame
    exact hsame.1.1
  obtain rfl : u = other := List.inj_on_of_nodup_map h.nodup hu hother (hname.trans hnames.symm)
  exact hsame

theorem isSameDefinition_self (t : TypeDef) : t.isSameDefinition t := by
  simp [TypeDef.isSameDefinition]

/-- A definition that is added is known from then on, and what was there stays. -/
theorem knows_of_addToPool {pool pool' : List TypeDef} {t : TypeDef}
    (hnodup : (pool.map (·.name)).Nodup) (h : addToPool pool t = .ok pool') :
    Knows pool' t ∧ pool ⊆ pool' := by
  unfold addToPool at h
  split at h
  · cases h
  split at h
  · rename_i other hfind
    split at h
    · rename_i hsame
      cases h
      exact ⟨⟨hnodup, other, List.mem_of_find?_eq_some hfind, hsame⟩, List.Subset.refl _⟩
    · cases h
  · rename_i hnone
    cases h
    refine ⟨⟨?_, t, List.mem_append_right _ (List.mem_singleton_self t), isSameDefinition_self t⟩,
      List.subset_append_left _ _⟩
    rw [List.map_append, List.map_singleton]
    refine hnodup.append (List.nodup_singleton _) ?_
    simpa using fun other hother => List.find?_eq_none.mp hnone other hother

theorem knows_of_foldlM {given pool pool' : List TypeDef} (hnodup : (pool.map (·.name)).Nodup)
    (h : given.foldlM addToPool pool = .ok pool') :
    (pool'.map (·.name)).Nodup ∧ pool ⊆ pool' ∧ ∀ t ∈ given, Knows pool' t := by
  induction given generalizing pool with
  | nil =>
      cases h
      exact ⟨hnodup, List.Subset.refl _, by simp⟩
  | cons t rest ih =>
      rw [List.foldlM_cons] at h
      obtain ⟨between, hbetween, hrest⟩ := exists_of_bind h
      obtain ⟨hknows, hsubset⟩ := knows_of_addToPool hnodup hbetween
      obtain ⟨hnodup', hsubset', hothers⟩ := ih hknows.nodup hrest
      obtain ⟨other, hother, hsame⟩ := hknows.found
      exact ⟨hnodup', List.Subset.trans hsubset hsubset',
        List.forall_mem_cons.mpr ⟨⟨hnodup', other, hsubset' hother, hsame⟩, hothers⟩⟩

/-- The only type of a given name in the pool is the definition that is given. -/
theorem isSameDefinition_of_pool {given all : List TypeDef} {t u : TypeDef}
    (h : pool given = .ok all) (ht : t ∈ given) (hu : u ∈ all) (hname : u.name = t.name) :
    u.isSameDefinition t := by
  obtain ⟨first, hfirst, h⟩ := exists_of_bind h
  have hknows := (knows_of_foldlM (by simp) hfirst).2.2 t ht
  cases h
  rcases List.mem_append.mp hu with hu | hu
  · exact hknows.isSameDefinition hu hname
  · -- A type of every schema is there only if none of its name is given.
    obtain ⟨other, hother, hsame⟩ := hknows.found
    simp only [TypeDef.isSameDefinition, Bool.and_eq_true, decide_eq_true_eq] at hsame
    have hnew := (List.mem_filter.mp hu).2
    simp only [Bool.not_eq_true', List.any_eq_false, decide_eq_true_eq] at hnew
    exact absurd (hsame.1.1.trans hname.symm) (hnew other hother)

/-! ## What is reached -/

theorem mem_reachable_of_done {pool done reached : List TypeDef}
    {references : List (String × SchemaSite)} (h : reachable pool done references = .ok reached) :
    done ⊆ reached := by
  induction pool, done, references using reachable.induct with
  | case1 pool done =>
      rw [reachable] at h
      cases h
      exact List.Subset.refl _
  | case2 pool done name site rest hmem ih =>
      rw [reachable, if_pos hmem] at h
      exact ih h
  | case3 pool done name site rest hmem hnone =>
      rw [reachable, if_neg hmem, hnone] at h
      cases h
  | case4 pool done name site rest hmem t hfind ih =>
      rw [reachable, if_neg hmem, hfind] at h
      exact List.Subset.trans (List.subset_append_left _ _) (ih h)

/-- A type is reached for every reference. -/
theorem exists_of_reachable {pool done reached : List TypeDef}
    {references : List (String × SchemaSite)} {reference : String × SchemaSite}
    (h : reachable pool done references = .ok reached) (hreference : reference ∈ references) :
    ∃ t ∈ reached, t.name = reference.1 := by
  induction pool, done, references using reachable.induct with
  | case1 => cases hreference
  | case2 pool done name site rest hmem ih =>
      rw [reachable, if_pos hmem] at h
      rcases List.mem_cons.mp hreference with rfl | hrest
      · obtain ⟨t, ht, hname⟩ := List.any_eq_true.mp hmem
        exact ⟨t, mem_reachable_of_done h ht, by simpa using hname⟩
      · exact ih h hrest
  | case3 pool done name site rest hmem hnone =>
      rw [reachable, if_neg hmem, hnone] at h
      cases h
  | case4 pool done name site rest hmem t hfind ih =>
      rw [reachable, if_neg hmem, hfind] at h
      rcases List.mem_cons.mp hreference with rfl | hrest
      · have ht := mem_reachable_of_done h (List.mem_append_right _ (List.mem_singleton_self t))
        exact ⟨t, ht, by simpa using List.find?_some hfind⟩
      · exact ih h (List.mem_append_right _ hrest)

/-! ## Root types -/

theorem isObjectType_of_checkRoot {kind : OperationKind} {t : TypeDef}
    (h : checkRoot kind t = .ok ()) : t.isObjectType := by
  unfold checkRoot at h
  split at h
  · assumption
  · cases h

theorem isObjectType_of_forM {kind : OperationKind} {root : Option TypeDef} {t : TypeDef}
    (h : root.forM (checkRoot kind) = .ok ()) (ht : root = some t) : t.isObjectType := by
  subst ht
  exact isObjectType_of_checkRoot h

theorem isObjectType_iff_kind {t : TypeDef} : t.isObjectType ↔ t.kind = .object := by
  unfold TypeDef.isObjectType TypeDef.kind TypeBody.kind
  cases t.body <;> simp

theorem isObjectType_of_isSameDefinition {t u : TypeDef} (h : u.isSameDefinition t)
    (ht : t.isObjectType) : u.isObjectType := by
  simp only [TypeDef.isSameDefinition, Bool.and_eq_true, decide_eq_true_eq] at h
  exact isObjectType_iff_kind.mpr (h.2.trans (isObjectType_iff_kind.mp ht))

/-- The root types of a draft are object types. -/
theorem isObjectType_of_rootType? {kind : OperationKind} {t : TypeDef}
    (h : draft.build = .ok schema) (ht : schema.rootType? kind = some t) :
    t.isObjectType ∧ t ∈ draft.allTypes := by
  obtain ⟨_, hquery, hrest⟩ := exists_of_bind h
  obtain ⟨_, hmutation, hrest⟩ := exists_of_bind hrest
  obtain ⟨_, hsubscription, -⟩ := exists_of_bind hrest
  obtain ⟨directives, all, reached, -, -, -, -, rfl, -⟩ := exists_of_build h
  cases kind with
  | query =>
      obtain rfl : draft.query = t := Option.some.inj ht
      exact ⟨isObjectType_of_checkRoot hquery, by simp [Draft.allTypes]⟩
  | mutation =>
      have ht : draft.mutation = some t := ht
      exact ⟨isObjectType_of_forM hmutation ht, by simp [Draft.allTypes, ht]⟩
  | subscription =>
      have ht : draft.subscription = some t := ht
      exact ⟨isObjectType_of_forM hsubscription ht, by simp [Draft.allTypes, ht]⟩

/-- Under the name of a root type, a schema has that definition. -/
theorem exists_same_of_rootType? {kind : OperationKind} {t : TypeDef}
    (h : draft.build = .ok schema) (ht : schema.rootType? kind = some t) :
    ∃ u, schema.type? t.name = some u ∧ u.isSameDefinition t := by
  have hmem := (isObjectType_of_rootType? h ht).2
  obtain ⟨all, reached, hall, hreached, hbuilt⟩ := exists_reached_of_build h
  have hreference : (t.name, SchemaSite.schema) ∈ draft.references schema.directives :=
    List.mem_append_left _ (List.mem_map_of_mem hmem)
  obtain ⟨u, hu, hname⟩ := exists_of_reachable hreached hreference
  have hpool := (mem_of_mem_reachable hreached hu).resolve_left (by simp)
  exact ⟨u, hbuilt.type?_eq_some_iff.mpr ⟨hu, hname⟩,
    isSameDefinition_of_pool hall hmem hpool hname⟩

/-- Under the name of a root type, a schema has an object type. -/
theorem exists_root_of_build {kind : OperationKind} {t : TypeDef} (h : draft.build = .ok schema)
    (ht : schema.rootType? kind = some t) :
    ∃ u, schema.type? t.name = some u ∧ u.isObjectType := by
  obtain ⟨u, hu, hsame⟩ := exists_same_of_rootType? h ht
  exact ⟨u, hu, isObjectType_of_isSameDefinition hsame (isObjectType_of_rootType? h ht).1⟩

/-! ## Arguments and input fields -/

/-- The fields of input objects have input types. -/
def FieldsAreInputs (schema : Schema) : Prop :=
  ∀ name d, schema.inputObject? name = some d → ∀ field ∈ d.fields, schema.isInputRef field.2.type

/-- The arguments of all fields have input types, those of introspection included. -/
def ArgumentsAreInputs (schema : Schema) : Prop :=
  ∀ {t name d}, schema.type? t.name = some t → schema.fieldDef? t name = some d →
    ∀ argument ∈ d.arguments, schema.isInputRef argument.2.type

theorem isInputRef_of_inputFaults {site : SchemaSite} {type : TypeRef}
    (h : schema.inputFaults site type = []) : schema.isInputRef type := by
  unfold inputFaults at h
  split at h
  · assumption
  · cases h

theorem isInputRef_of_fieldFaults {typeName name : String} {fields : List (String × FieldDef)}
    {d : FieldDef} (h : schema.fieldFaults typeName fields = []) (hd : (name, d) ∈ fields) :
    ∀ argument ∈ d.arguments, schema.isInputRef argument.2.type := by
  intro argument hargument
  unfold fieldFaults at h
  split at h
  · cases h
  · have hfield := (List.append_eq_nil_iff.mp (List.flatMap_eq_nil_iff.mp h _ hd)).2
    exact isInputRef_of_inputFaults (List.flatMap_eq_nil_iff.mp hfield _ hargument)

section

variable {reached : List TypeDef} (hbuilt : IsBuilt schema reached)
include hbuilt

theorem IsBuilt.fieldsAreInputs : schema.FieldsAreInputs := by
  intro name d hd field hfield
  obtain ⟨t, ht, hobject⟩ := Option.bind_eq_some_iff.mp hd
  have hfaults := hbuilt.typeFaults_eq_nil (hbuilt.type?_eq_some_iff.mp ht).1
  cases hbody : t.body with
  | inputObject object =>
      obtain rfl : object = d := by simpa [TypeDef.inputObject?, hbody] using hobject
      simp only [typeFaults, hbody] at hfaults
      split at hfaults
      · cases hfaults
      · exact isInputRef_of_inputFaults (List.flatMap_eq_nil_iff.mp hfaults _ hfield)
  | _ => simp [TypeDef.inputObject?, hbody] at hobject

/-- The arguments of declared fields have input types. -/
theorem IsBuilt.isInputRef_of_field? {t : TypeDef} {name : String} {d : FieldDef}
    (ht : schema.type? t.name = some t) (hd : t.field? name = some d) :
    ∀ argument ∈ d.arguments, schema.isInputRef argument.2.type := by
  have hfaults := hbuilt.typeFaults_eq_nil (hbuilt.type?_eq_some_iff.mp ht).1
  obtain ⟨fields, hfields, hget⟩ := Option.bind_eq_some_iff.mp hd
  have hmem := Assoc.mem_of_get? hget
  cases hbody : t.body with
  | object object =>
      obtain rfl : object.fields = fields := by simpa [TypeDef.fields?, hbody] using hfields
      simp only [typeFaults, hbody, List.append_eq_nil_iff] at hfaults
      exact isInputRef_of_fieldFaults hfaults.1 hmem
  | interface interface =>
      obtain rfl : interface.fields = fields := by simpa [TypeDef.fields?, hbody] using hfields
      simp only [typeFaults, hbody] at hfaults
      exact isInputRef_of_fieldFaults hfaults hmem
  | _ => simp [TypeDef.fields?, hbody] at hfields

end

/-! ## Directives -/

theorem mem_of_addDirective {directives directives' : List (String × DirectiveDef)}
    {d : DirectiveDef} (h : addDirective directives d = .ok directives') :
    directives ⊆ directives' ∧ (d.name, d) ∈ directives' := by
  unfold addDirective at h
  split at h
  · cases h
  · cases h
    exact ⟨List.subset_append_left _ _, List.mem_append_right _ (List.mem_singleton_self _)⟩

/-- All directives that are given are there in the end. -/
theorem mem_of_foldlM_addDirective {given : List DirectiveDef}
    {directives directives' : List (String × DirectiveDef)}
    (h : given.foldlM addDirective directives = .ok directives') :
    directives ⊆ directives' ∧ ∀ d ∈ given, (d.name, d) ∈ directives' := by
  induction given generalizing directives with
  | nil =>
      cases h
      exact ⟨List.Subset.refl _, by simp⟩
  | cons first rest ih =>
      rw [List.foldlM_cons] at h
      obtain ⟨between, hbetween, hrest⟩ := exists_of_bind h
      obtain ⟨hsubset, hfirst⟩ := mem_of_addDirective hbetween
      obtain ⟨hsubset', hothers⟩ := ih hrest
      exact ⟨List.Subset.trans hsubset hsubset',
        List.forall_mem_cons.mpr ⟨hsubset' hfirst, hothers⟩⟩

/-- The directives of every schema are there, so the types of their arguments are input types. -/
theorem deprecated_mem_of_build (h : draft.build = .ok schema) :
    (DirectiveDef.deprecated.name, DirectiveDef.deprecated) ∈ schema.directives := by
  obtain ⟨directives, _, _, -, hdirectives, -, -, rfl, -⟩ := exists_of_build h
  exact (mem_of_foldlM_addDirective hdirectives).2 DirectiveDef.deprecated (by
    simp [DirectiveDef.builtins])

/-- Texts are of an input type in every schema: the reason of a deprecation is one. -/
theorem isInputRef_string_of_build (h : draft.build = .ok schema) (nullable : Bool) :
    schema.isInputRef (.named Scalar.stringName nullable) := by
  obtain ⟨reached, hbuilt⟩ := exists_isBuilt h
  have hfaults := (List.append_eq_nil_iff.mp hbuilt.faults).2
  have hdirective := List.flatMap_eq_nil_iff.mp hfaults _ (deprecated_mem_of_build h)
  obtain ⟨reason, hreason, htype⟩ : ∃ argument ∈ DirectiveDef.deprecated.arguments,
      argument.2.type = .ofName Scalar.stringName := ⟨_, List.mem_singleton_self _, rfl⟩
  have href := isInputRef_of_inputFaults (List.flatMap_eq_nil_iff.mp hdirective _ hreason)
  rwa [htype] at href

theorem fieldsAreInputs_of_build (h : draft.build = .ok schema) : schema.FieldsAreInputs :=
  have ⟨_, hbuilt⟩ := exists_isBuilt h
  hbuilt.fieldsAreInputs

theorem argumentsAreInputs_of_build (h : draft.build = .ok schema) :
    schema.ArgumentsAreInputs := by
  intro t name d ht hd argument hargument
  obtain ⟨reached, hbuilt⟩ := exists_isBuilt h
  simp only [fieldDef?] at hd
  split at hd
  · cases hd
    cases hargument
  split at hd
  · cases hd
    obtain rfl := List.mem_singleton.mp hargument
    exact isInputRef_string_of_build h false
  split at hd
  · cases hd
    cases hargument
  · exact hbuilt.isInputRef_of_field? ht hd argument hargument

/-! ## Arguments of fields that implement others -/

section

variable {expected provided : FieldDef} {name : String} {input : InputDef}
  (h : schema.fieldImplementationFaults expected provided = [])
include h

theorem exists_argument_of_implements (hinput : (name, input) ∈ expected.arguments) :
    ∃ given, Assoc.get? provided.arguments name = some given ∧ given.type = input.type := by
  simp only [fieldImplementationFaults, List.append_eq_nil_iff, List.flatMap_eq_nil_iff] at h
  have hargument := h.1.2 _ hinput
  split at hargument
  · cases hargument
  · rename_i given hgiven
    split at hargument
    · rename_i htype
      exact ⟨given, hgiven, htype.symm⟩
    · cases hargument

theorem isNonNull_eq_false_of_implements (hinput : (name, input) ∈ provided.arguments)
    (hadded : Assoc.contains expected.arguments name = false) : input.type.isNonNull = false := by
  simp only [fieldImplementationFaults, List.append_eq_nil_iff, List.flatMap_eq_nil_iff] at h
  have hargument := h.2 _ hinput
  split at hargument
  · cases hargument
  · rename_i hnot
    simpa [hadded] using hnot

end

end GraphQL.Schema
