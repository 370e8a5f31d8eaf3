import Mathlib
import GraphQL.Proofs.Schema.Roles

/-!
# What a schema guarantees

What can be relied on once a draft is built (`sound_of_build`): every name leads to a type that
may stand where the name does, no type is without members, objects keep to their interfaces, and
only the types of introspection have names that are kept for them.

A definition is known by its origin, so where a type is said to be a given definition, it is the
very same one; it is equal to it, too, if the draft does not give one origin to two definitions.
Members that a host finds late are found once, when the schema is built at the latest, and count
as given.
-/

namespace GraphQL.Schema

variable {schema : Schema} {draft : Draft}

/-! ## Types below others -/

/-- The object type is of the abstract type: it declares that interface, or is declared by that
union. -/
inductive Declares (schema : Schema) (sub super : String) : Prop where
  | interface {t u : TypeDef} {object : ObjectDef} {interface : InterfaceDef}
    (ht : schema.type? sub = some t) (hbody : t.body = .object object)
    (hu : schema.type? super = some u) (habstract : u.body = .interface interface)
    (hmem : super ∈ object.interfaces)
  | union {t u : TypeDef} {object : ObjectDef} {union : UnionDef}
    (ht : schema.type? sub = some t) (hbody : t.body = .object object)
    (hu : schema.type? super = some u) (habstract : u.body = .union union)
    (hmem : sub ∈ union.members)

/-- Every value of the first type is one of the second, as the types are declared. -/
inductive IsBelow (schema : Schema) : TypeRef → TypeRef → Prop where
  | named {sub super : String} {subNullable superNullable : Bool}
    (hnull : subNullable → superNullable) (h : sub = super ∨ schema.Declares sub super) :
    IsBelow schema (.named sub subNullable) (.named super superNullable)
  | list {sub super : TypeRef} {subNullable superNullable : Bool}
    (hnull : subNullable → superNullable) (h : IsBelow schema sub super) :
    IsBelow schema (.list sub subNullable) (.list super superNullable)

/-! ## Requirements -/

/-- What the provided field has to be, to stand for the expected one. -/
structure StandsIn (schema : Schema) (provided expected : FieldDef) : Prop where
  type : schema.IsBelow provided.type expected.type
  arguments : ∀ argument ∈ expected.arguments,
    ∃ given, Assoc.get? provided.arguments argument.1 = some given ∧ given.type = argument.2.type
  /-- What is added to the arguments may be left out. -/
  added : ∀ argument ∈ provided.arguments,
    Assoc.contains expected.arguments argument.1 = false → argument.2.type.isNonNull = false

/-- The fields have types of values, and their arguments have types of input. -/
structure FieldsAreSound (schema : Schema) (fields : List (String × FieldDef)) : Prop where
  ne_nil : fields ≠ []
  output : ∀ field ∈ fields, schema.isOutputRef field.2.type
  input : ∀ field ∈ fields, ∀ argument ∈ field.2.arguments, schema.isInputRef argument.2.type

/-- What is required of a type of each kind. -/
def BodyIsSound (schema : Schema) : TypeBody → Prop
  | .scalar _ => True
  | .object d => schema.FieldsAreSound d.fields ∧ d.interfaces.Nodup ∧
      ∀ name ∈ d.interfaces, ∃ t interface, schema.type? name = some t ∧
        t.body = .interface interface ∧ ∀ field ∈ interface.fields,
          ∃ provided, Assoc.get? d.fields field.1 = some provided ∧
            schema.StandsIn provided field.2
  | .interface d => schema.FieldsAreSound d.fields
  | .union d => d.members ≠ [] ∧
      ∀ name ∈ d.members, ∃ t object, schema.type? name = some t ∧ t.body = .object object
  | .enum d => d.values ≠ []
  | .inputObject d => d.fields ≠ [] ∧ ∀ field ∈ d.fields, schema.isInputRef field.2.type

/-- The origins of a draft tell its definitions apart, and from those of every schema. -/
def Draft.Identifies (draft : Draft) : Prop :=
  ∀ t ∈ draft.allTypes, ∀ u ∈ draft.allTypes ++ builtinTypes, u.isSameDefinition t → u = t

theorem Draft.identifies_of_nodup
    (h : ((draft.allTypes ++ builtinTypes).map (·.name)).Nodup) : draft.Identifies := by
  intro t ht u hu hsame
  simp only [TypeDef.isSameDefinition, Bool.and_eq_true, decide_eq_true_eq] at hsame
  exact List.inj_on_of_nodup_map h hu (List.mem_append_left _ ht) hsame.1.1

/-- The type is the given definition. -/
def Draft.Same (draft : Draft) (t u : TypeDef) : Prop :=
  t.isSameDefinition u ∧ (draft.Identifies → t = u)

/-- A schema that can be relied on. -/
structure Sound (schema : Schema) (draft : Draft) : Prop where
  nodup : (schema.types.map (·.1)).Nodup
  name : ∀ entry ∈ schema.types, entry.2.name = entry.1
  root : ∀ {kind root}, schema.rootType? kind = some root →
    root.isObjectType ∧ ∃ t, schema.type? root.name = some t ∧ draft.Same t root
  /-- All names within a type are those of types. -/
  reference : ∀ {name t}, schema.type? name = some t →
    ∀ reference ∈ t.references, (schema.type? reference.1).isSome
  body : ∀ {name t}, schema.type? name = some t → schema.BodyIsSound t.body
  directive : ∀ directive ∈ schema.directives, ∀ argument ∈ directive.2.arguments,
    schema.isInputRef argument.2.type
  reserved : ∀ {name t}, schema.type? name = some t → isReservedName name →
    ∃ builtin ∈ Introspection.types, draft.Same t builtin

/-! ## The definitions to draw from -/

/-- Names that are kept for introspection are given only to definitions of every schema. -/
theorem reserved_of_addToPool {pool pool' : List TypeDef} {t u : TypeDef}
    (h : addToPool pool t = .ok pool') (hu : u ∈ pool') :
    u ∈ pool ∨ u = t ∧ (isReservedName t.name → ∃ b ∈ builtinTypes, b.isSameDefinition t) := by
  unfold addToPool at h
  split at h
  · cases h
  rename_i hreserved
  split at h
  · split at h
    · cases h
      exact .inl hu
    · cases h
  · cases h
    rcases List.mem_append.mp hu with hu | hu
    · exact .inl hu
    · refine .inr ⟨List.mem_singleton.mp hu, fun hname => ?_⟩
      rw [hname, Bool.true_and, Bool.not_eq_true', Bool.not_eq_false] at hreserved
      exact List.any_eq_true.mp hreserved

theorem reserved_of_foldlM {given pool pool' : List TypeDef} {u : TypeDef}
    (h : given.foldlM addToPool pool = .ok pool') (hu : u ∈ pool') :
    u ∈ pool ∨ u ∈ given ∧ (isReservedName u.name → ∃ b ∈ builtinTypes, b.isSameDefinition u) := by
  induction given generalizing pool with
  | nil =>
      cases h
      exact .inl hu
  | cons t rest ih =>
      rw [List.foldlM_cons] at h
      obtain ⟨between, hbetween, hrest⟩ := exists_of_bind h
      rcases ih hrest with hmem | ⟨hmem, hbuiltin⟩
      · rcases reserved_of_addToPool hbetween hmem with hmem | ⟨rfl, hbuiltin⟩
        · exact .inl hmem
        · exact .inr ⟨List.mem_cons_self, hbuiltin⟩
      · exact .inr ⟨List.mem_cons_of_mem _ hmem, hbuiltin⟩

/-- A definition to draw from is given, or one of every schema. -/
theorem reserved_of_pool {given all : List TypeDef} {u : TypeDef} (h : pool given = .ok all)
    (hu : u ∈ all) :
    u ∈ builtinTypes ∨
      u ∈ given ∧ (isReservedName u.name → ∃ b ∈ builtinTypes, b.isSameDefinition u) := by
  obtain ⟨first, hfirst, h⟩ := exists_of_bind h
  cases h
  rcases List.mem_append.mp hu with hu | hu
  · exact .inr ((reserved_of_foldlM hfirst hu).resolve_left List.not_mem_nil)
  · exact .inl (List.mem_of_mem_filter hu)

theorem name_of_isSameDefinition {t u : TypeDef} (h : t.isSameDefinition u) : t.name = u.name := by
  simp only [TypeDef.isSameDefinition, Bool.and_eq_true, decide_eq_true_eq] at h
  exact h.1.1

theorem isSameDefinition_symm {t u : TypeDef} (h : t.isSameDefinition u) :
    u.isSameDefinition t := by
  simp only [TypeDef.isSameDefinition, Bool.and_eq_true, decide_eq_true_eq] at h ⊢
  exact ⟨⟨h.1.1.symm, h.1.2.symm⟩, h.2.symm⟩

/-- Among the definitions of every schema, those with names of introspection are its types. -/
theorem mem_introspection_of_isReservedName {t : TypeDef} (h : t ∈ builtinTypes)
    (hname : isReservedName t.name) : t ∈ Introspection.types := by
  refine (List.mem_append.mp h).resolve_left fun hscalar => ?_
  have hplain : ∀ t ∈ Scalar.all, isReservedName t.name = false := by decide
  rw [hplain t hscalar] at hname
  cases hname

/-! ## What is reached -/

/-- For every reference of a type that is reached, a type is reached. -/
theorem references_of_reachable {pool done reached : List TypeDef}
    {references : List (String × SchemaSite)} {t : TypeDef}
    (h : reachable pool done references = .ok reached) (ht : t ∈ reached) (hnew : t ∉ done) :
    ∀ reference ∈ t.references, ∃ u ∈ reached, u.name = reference.1 := by
  induction pool, done, references using reachable.induct with
  | case1 =>
      rw [reachable] at h
      cases h
      exact absurd ht hnew
  | case2 pool done name site rest hmem ih =>
      rw [reachable, if_pos hmem] at h
      exact ih h hnew
  | case3 pool done name site rest hmem hnone =>
      rw [reachable, if_neg hmem, hnone] at h
      cases h
  | case4 pool done name site rest hmem found hfind ih =>
      rw [reachable, if_neg hmem, hfind] at h
      by_cases hfound : t = found
      · -- Its references are still to be followed from here on.
        subst hfound
        exact fun reference hreference =>
          exists_of_reachable h (List.mem_append_left _ hreference)
      · refine ih h fun hdone => ?_
        rcases List.mem_append.mp hdone with hdone | hdone
        · exact hnew hdone
        · exact hfound (List.mem_singleton.mp hdone)

/-! ## Types without faults -/

theorem fieldsAreSound_of_fieldFaults {typeName : String} {fields : List (String × FieldDef)}
    (h : schema.fieldFaults typeName fields = []) : schema.FieldsAreSound fields where
  ne_nil := by
    rintro rfl
    cases h
  output field hfield := by
    unfold fieldFaults at h
    split at h
    · cases h
    · have hfield := (List.append_eq_nil_iff.mp (List.flatMap_eq_nil_iff.mp h _ hfield)).1
      split at hfield
      · assumption
      · cases hfield
  input field hfield := isInputRef_of_fieldFaults h hfield

section

variable {reached : List TypeDef} (hbuilt : IsBuilt schema reached)
include hbuilt

theorem IsBuilt.eq_of_mem {t u : TypeDef} (ht : t ∈ reached) (hu : u ∈ reached)
    (hname : t.name = u.name) : t = u :=
  List.inj_on_of_nodup_map hbuilt.nodup ht hu hname

/-- An object declares interfaces only, and each of them once. -/
theorem IsBuilt.interface_of_mem {t : TypeDef} {d : ObjectDef} {name : String} (ht : t ∈ reached)
    (hbody : t.body = .object d) (hname : name ∈ d.interfaces) :
    d.interfaces.count name ≤ 1 ∧ ∃ u interface, schema.type? name = some u ∧
      u.body = .interface interface ∧ ∀ field ∈ interface.fields,
        ∃ provided, Assoc.get? d.fields field.1 = some provided ∧
          schema.fieldImplementationFaults field.2 provided = [] := by
  have hfaults := hbuilt.typeFaults_eq_nil ht
  simp only [typeFaults, hbody, List.append_eq_nil_iff, List.flatMap_eq_nil_iff,
    List.map_eq_nil_iff] at hfaults
  have himplementation := hfaults.2 name hname
  unfold implementationFaults at himplementation
  split at himplementation
  · cases himplementation
  rename_i interface hinterface
  obtain ⟨u, hu, hbody'⟩ := Option.bind_eq_some_iff.mp hinterface
  obtain ⟨honce, hfields⟩ := List.append_eq_nil_iff.mp himplementation
  refine ⟨?_, u, interface, hu, ?_, fun field hfield => ?_⟩
  · split at honce
    · cases honce
    · omega
  · unfold TypeDef.interface? at hbody'
    split at hbody'
    · rw [← Option.some.inj hbody']
      assumption
    · cases hbody'
  · have hfield := List.flatMap_eq_nil_iff.mp hfields field hfield
    cases hprovided : Assoc.get? d.fields field.1 with
    | none => simp [hprovided] at hfield
    | some provided => exact ⟨provided, rfl, by simpa [hprovided] using hfield⟩

/-- An object type of an abstract type is declared to be of it. -/
theorem IsBuilt.declares {sub super : String} (h : schema.isPossibleName sub super) :
    schema.Declares sub super := by
  unfold isPossibleName at h
  split at h
  swap
  · cases h
  rename_i t s ht hs
  obtain ⟨hobject, hpossible⟩ := Bool.and_eq_true_iff.mp h
  obtain ⟨u, hu, hname⟩ := List.any_eq_true.mp hpossible
  obtain ⟨object, hbody⟩ : ∃ object, t.body = .object object := by
    unfold TypeDef.isObjectType at hobject
    split at hobject
    · exact ⟨_, ‹_›⟩
    · cases hobject
  obtain ⟨ht', rfl⟩ := hbuilt.type?_eq_some_iff.mp ht
  obtain ⟨hs', rfl⟩ := hbuilt.type?_eq_some_iff.mp hs
  have hname : u.name = t.name := by simpa using hname
  obtain ⟨other, hother, hmember⟩ := hbuilt.exists_isMember hu
  cases hmember with
  | union hsame hunion hmem hget _ =>
      obtain rfl := hbuilt.eq_of_mem hother hs' hsame
      have hmember := (hbuilt.type?_eq_some_iff.mp hget).2
      exact .union ht hbody hs hunion (hname ▸ hmember ▸ hmem)
  | object hsame hbody' hmem =>
      obtain rfl : t = other :=
        hbuilt.eq_of_mem ht' hother (hname.symm.trans (congrArg TypeDef.name hsame.symm))
      obtain ⟨-, v, interface, hv, habstract, -⟩ := hbuilt.interface_of_mem ht' hbody' hmem
      exact .interface ht hbody' hv habstract hmem

theorem IsBuilt.isBelow_of_isSubtype {sub super : TypeRef} (h : schema.isSubtype sub super) :
    schema.IsBelow sub super := by
  induction sub generalizing super with
  | named sub subNullable =>
      cases super with
      | list => simp [isSubtype] at h
      | named super superNullable =>
          simp only [isSubtype, Bool.and_eq_true, Bool.or_eq_true, decide_eq_true_eq] at h
          refine .named (fun hnull => ?_) (h.2.imp_right hbuilt.declares)
          simpa [hnull] using h.1
  | list sub subNullable ih =>
      cases super with
      | named => simp [isSubtype] at h
      | list super superNullable =>
          simp only [isSubtype, Bool.and_eq_true, Bool.or_eq_true] at h
          refine .list (fun hnull => ?_) (ih h.2)
          simpa [hnull] using h.1

theorem IsBuilt.standsIn {expected provided : FieldDef}
    (h : schema.fieldImplementationFaults expected provided = []) :
    schema.StandsIn provided expected where
  type := hbuilt.isBelow_of_isSubtype (isSubtype_of_implements h)
  arguments _ hargument := exists_argument_of_implements h hargument
  added _ hargument := isNonNull_eq_false_of_implements h hargument

/-- What is required of a type holds of those that are reached. -/
theorem IsBuilt.bodyIsSound {t : TypeDef} (ht : t ∈ reached) : schema.BodyIsSound t.body := by
  have hfaults := hbuilt.typeFaults_eq_nil ht
  unfold typeFaults at hfaults
  cases hbody : t.body with
  | scalar d => trivial
  | object d =>
      simp only [hbody] at hfaults
      refine ⟨fieldsAreSound_of_fieldFaults (List.append_eq_nil_iff.mp hfaults).1, ?_,
        fun name hname => ?_⟩
      · refine List.nodup_iff_count_le_one.mpr fun name => ?_
        by_cases hname : name ∈ d.interfaces
        · exact (hbuilt.interface_of_mem ht hbody hname).1
        · rw [List.count_eq_zero.mpr hname]
          exact Nat.zero_le 1
      · obtain ⟨-, u, interface, hu, hbody', hfields⟩ := hbuilt.interface_of_mem ht hbody hname
        refine ⟨u, interface, hu, hbody', fun field hfield => ?_⟩
        obtain ⟨provided, hprovided, himplements⟩ := hfields field hfield
        exact ⟨provided, hprovided, hbuilt.standsIn himplements⟩
  | interface d =>
      simp only [hbody] at hfaults
      exact fieldsAreSound_of_fieldFaults hfaults
  | union d =>
      simp only [hbody] at hfaults
      split at hfaults
      · cases hfaults
      rename_i hne
      refine ⟨by simpa using hne, fun name hname => ?_⟩
      have hmember := List.flatMap_eq_nil_iff.mp hfaults name hname
      split at hmember
      · rename_i hobject
        obtain ⟨u, hu, hobject⟩ := (Option.any_eq_true _ _).mp hobject
        unfold TypeDef.isObjectType at hobject
        split at hobject
        · exact ⟨u, _, hu, ‹_›⟩
        · cases hobject
      · cases hmember
  | enum d =>
      simp only [hbody] at hfaults
      split at hfaults
      · cases hfaults
      · rename_i hne
        show d.values ≠ []
        simpa using hne
  | inputObject d =>
      simp only [hbody] at hfaults
      split at hfaults
      · cases hfaults
      · rename_i hne
        refine ⟨by simpa using hne, fun field hfield => ?_⟩
        exact isInputRef_of_inputFaults (List.flatMap_eq_nil_iff.mp hfaults field hfield)

end

/-! ## All guarantees -/

/-- The type under the name of a definition that is given is that definition. -/
theorem same_of_build {t u : TypeDef} {all : List TypeDef} (hall : pool draft.allTypes = .ok all)
    (ht : t ∈ all) (hu : u ∈ draft.allTypes) (h : t.isSameDefinition u) : draft.Same t u := by
  refine ⟨h, fun hidentifies => hidentifies u hu t (List.mem_append.mpr ?_) h⟩
  exact (reserved_of_pool hall ht).symm.imp_left And.left

/-- A schema that is built can be relied on. -/
theorem sound_of_build (h : draft.build = .ok schema) : schema.Sound draft := by
  obtain ⟨all, reached, hall, hreached, hbuilt⟩ := exists_reached_of_build h
  have hpool {name : String} {t : TypeDef} (ht : schema.type? name = some t) : t ∈ all :=
    (mem_of_mem_reachable hreached (hbuilt.type?_eq_some_iff.mp ht).1).resolve_left
      List.not_mem_nil
  refine ⟨?_, fun entry hentry => ?_, fun {kind root} hroot => ?_, fun ht reference hreference => ?_,
    fun ht => hbuilt.bodyIsSound (hbuilt.type?_eq_some_iff.mp ht).1,
    fun directive hdirective argument hargument => ?_, fun {name t} ht hname => ?_⟩
  · rw [hbuilt.types, List.map_map]
    exact hbuilt.nodup
  · rw [hbuilt.types] at hentry
    obtain ⟨t, -, rfl⟩ := List.mem_map.mp hentry
    rfl
  · obtain ⟨hobject, hmem⟩ := isObjectType_of_rootType? h hroot
    obtain ⟨t, ht, hsame⟩ := exists_same_of_rootType? h hroot
    exact ⟨hobject, t, ht, same_of_build hall (hpool ht) hmem hsame⟩
  · obtain ⟨hmem, -⟩ := hbuilt.type?_eq_some_iff.mp ht
    obtain ⟨u, hu, hname⟩ :=
      references_of_reachable hreached hmem List.not_mem_nil reference hreference
    exact Option.isSome_iff_exists.mpr ⟨u, hbuilt.type?_eq_some_iff.mpr ⟨hu, hname⟩⟩
  · have hfaults := (List.append_eq_nil_iff.mp hbuilt.faults).2
    have hdirective := List.flatMap_eq_nil_iff.mp hfaults directive hdirective
    exact isInputRef_of_inputFaults (List.flatMap_eq_nil_iff.mp hdirective argument hargument)
  · obtain ⟨-, rfl⟩ := hbuilt.type?_eq_some_iff.mp ht
    rcases reserved_of_pool hall (hpool ht) with hbuiltin | ⟨hmem, hbuiltin⟩
    · exact ⟨t, mem_introspection_of_isReservedName hbuiltin hname, isSameDefinition_self t,
        fun _ => rfl⟩
    · obtain ⟨builtin, hmem', hsame⟩ := hbuiltin hname
      have hreserved : isReservedName builtin.name := name_of_isSameDefinition hsame ▸ hname
      refine ⟨builtin, mem_introspection_of_isReservedName hmem' hreserved,
        isSameDefinition_symm hsame, fun hidentifies => ?_⟩
      exact (hidentifies t hmem builtin (List.mem_append_right _ hmem') hsame).symm

/-- Things on shelves, of which there are only books. -/
def shelfDraft : Draft where
  query := {
    name := "Query"
    origin := .host 0
    body := .object { fields := FieldDef.table [{
      name := "things"
      type := .list (.named "Thing" false) true
      arguments := InputDef.table [{ name := "filter", type := .named "Filter" true }] }] } }
  types := [
    { name := "Labelled"
      origin := .host 1
      body := .interface { fields := FieldDef.table [{
        name := "label"
        type := .named "Labelled" true
        arguments := InputDef.table [{ name := "short", type := .named "Boolean" true }] }] } },
    { name := "Book"
      origin := .host 2
      body := .object {
        fields := FieldDef.table [{
          name := "label"
          type := .named "Book" false
          arguments := InputDef.table [
            { name := "short", type := .named "Boolean" true },
            { name := "width", type := .named "Int" true }] }]
        interfaces := ["Labelled"] } },
    { name := "Thing", origin := .host 3, body := .union { members := ["Book"] } },
    { name := "Cover"
      origin := .host 4
      body := .enum { values := EnumValueDef.table [.named "HARD" none, .named "SOFT" none] } },
    { name := "Filter"
      origin := .host 5
      body := .inputObject {
        fields := InputDef.table [{ name := "cover", type := .named "Cover" false }] } }]
  directives := [{
    name := "only"
    locations := [.field]
    arguments := InputDef.table [{ name := "filter", type := .named "Filter" false }] }]

@[irreducible] def shelfSchema : Schema := shelfDraft.built (by decide +kernel)

theorem build_shelfDraft : shelfDraft.build = .ok shelfSchema := by
  unfold shelfSchema
  exact Draft.build_eq_ok_built _ _

theorem sound_shelfSchema :
    shelfDraft.build = .ok shelfSchema ∧ shelfDraft.Identifies ∧ shelfSchema.Sound shelfDraft := by
  have hbuild : shelfDraft.build = .ok shelfSchema := by
    unfold shelfSchema
    exact Draft.build_eq_ok_built _ _
  exact ⟨hbuild, Draft.identifies_of_nodup (by decide), sound_of_build hbuild⟩

end GraphQL.Schema
