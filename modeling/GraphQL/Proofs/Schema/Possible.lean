import Mathlib
import GraphQL.Execution.RuntimeType
import GraphQL.Proofs.Schema.Guarantees

/-!
# The possible types of an abstract type

`Schema.addPossible` goes over the types of a schema once, and does three different things to the
lists of object types that it makes.  For a schema that is built they come to what the definitions
say (`possibleTypes_eq_declaredTypes`): a union has the types that it lists, and an interface has
those that list it.

An object may not declare an interface twice, but nothing keeps a union from listing a member twice.
So the possible types of an interface are different from each other, and those of a union are so if
its members are.  It matters when a value is claimed by the types themselves: a member that is
listed twice claims the value twice, and then no type is found for it.
-/

namespace GraphQL.Schema

variable {schema : Schema} {draft : Draft}

/-- The object types that a type has, by its own definition or by theirs. -/
def declaredTypes (schema : Schema) (t : TypeDef) : List TypeDef :=
  match t.body with
  | .union d => d.members.filterMap fun name => (schema.type? name).filter (·.isObjectType)
  | .interface _ => (schema.types.map (·.2)).filter (t.name ∈ ·.interfaceNames)
  | _ => []

/-! ## Lists of object types, by the names of their abstract types -/

section

variable {types : List (String × TypeDef)} {possible : List (String × List TypeDef)}
  {t : TypeDef} {abstractName : String}

/-- The object types that have been listed under a name. -/
def listed (possible : List (String × List TypeDef)) (name : String) : List TypeDef :=
  (Assoc.get? possible name).getD []

theorem listed_insert (object name : String) (objects : List TypeDef) :
    listed (Assoc.insert possible name objects) object =
      if object = name then objects else listed possible object := by
  by_cases h : object = name
  · subst h
    rw [if_pos rfl, listed, Assoc.get?_insert_self, Option.getD_some]
  · rw [if_neg h, listed, Assoc.get?_insert_of_ne _ _ h, listed]

/-- An object is added to each interface as often as it declares it. -/
theorem listed_addInterfaces (interfaces : List String) :
    listed (interfaces.foldl (fun possible name =>
        Assoc.insert possible name (listed possible name ++ [t])) possible) abstractName =
      listed possible abstractName ++ List.replicate (interfaces.count abstractName) t := by
  induction interfaces generalizing possible with
  | nil => simp
  | cons name rest ih =>
      rw [List.foldl_cons, ih, listed_insert]
      by_cases hname : abstractName = name
      · subst hname
        rw [if_pos rfl, List.count_cons_self, List.append_assoc, List.replicate_succ,
          List.singleton_append]
      · rw [if_neg hname, List.count_cons_of_ne (Ne.symm hname)]

/-- The type is the union of that name. -/
def IsUnionOf (t : TypeDef) (name : String) : Prop := t.name = name ∧ ∃ d, t.body = .union d

theorem listed_addPossible_union {d : UnionDef} (hbody : t.body = .union d) :
    listed (addPossible types possible t) t.name =
      d.members.filterMap fun name => (Assoc.get? types name).filter (·.isObjectType) := by
  simp only [addPossible, hbody]
  rw [listed_insert, if_pos rfl]

/-- What a type adds to the list of an abstract type, unless it is a union with a list of its
own. -/
theorem listed_addPossible (h : ¬ IsUnionOf t abstractName) :
    listed (addPossible types possible t) abstractName =
      listed possible abstractName ++ List.replicate (t.interfaceNames.count abstractName) t := by
  cases hbody : t.body with
  | object d =>
      simp only [addPossible, TypeDef.interfaceNames, hbody]
      exact listed_addInterfaces d.interfaces
  | interface d =>
      simp only [addPossible, TypeDef.interfaceNames, hbody]
      rw [listed_insert, List.count_nil, List.replicate_zero, List.append_nil]
      split
      · rename_i hname
        rw [hname, listed]
      · rfl
  | union d =>
      have hname : abstractName ≠ t.name := fun hname => h ⟨hname.symm, d, hbody⟩
      simp only [addPossible, TypeDef.interfaceNames, hbody]
      rw [listed_insert, if_neg hname, List.count_nil, List.replicate_zero, List.append_nil]
  | scalar d => simp [addPossible, TypeDef.interfaceNames, hbody]
  | enum d => simp [addPossible, TypeDef.interfaceNames, hbody]
  | inputObject d => simp [addPossible, TypeDef.interfaceNames, hbody]

/-- What a number of types add to the list of an abstract type. -/
theorem listed_foldl_addPossible {reached : List TypeDef}
    (h : ∀ t ∈ reached, ¬ IsUnionOf t abstractName) :
    listed (reached.foldl (addPossible types) possible) abstractName =
      listed possible abstractName ++
        reached.flatMap fun t => List.replicate (t.interfaceNames.count abstractName) t := by
  induction reached generalizing possible with
  | nil => simp
  | cons t rest ih =>
      rw [List.foldl_cons, ih fun u hu => h u (List.mem_cons_of_mem _ hu),
        listed_addPossible (h t List.mem_cons_self), List.append_assoc, List.flatMap_cons]

/-- Objects that declare an interface at most once are listed under it once if they do. -/
theorem flatMap_replicate_eq_filter {reached : List TypeDef}
    (h : ∀ t ∈ reached, t.interfaceNames.count abstractName ≤ 1) :
    (reached.flatMap fun t => List.replicate (t.interfaceNames.count abstractName) t) =
      reached.filter (abstractName ∈ ·.interfaceNames) := by
  induction reached with
  | nil => rfl
  | cons t rest ih =>
      have hcount := h t List.mem_cons_self
      rw [List.flatMap_cons, ih fun u hu => h u (List.mem_cons_of_mem _ hu)]
      by_cases hmem : abstractName ∈ t.interfaceNames
      · have hone : t.interfaceNames.count abstractName = 1 := by
          have := List.count_pos_iff.mpr hmem
          omega
        rw [hone, List.filter_cons_of_pos (by simpa using hmem)]
        rfl
      · rw [List.count_eq_zero.mpr hmem, List.filter_cons_of_neg (by simpa using hmem)]
        rfl

end

/-! ## Types of a schema that is built -/

section

variable {reached : List TypeDef} {t u : TypeDef} {name : String}

theorem mem_interfaceNames_iff :
    name ∈ t.interfaceNames ↔ ∃ d, t.body = .object d ∧ name ∈ d.interfaces := by
  unfold TypeDef.interfaceNames
  split
  · rename_i d hbody
    simp [hbody]
  · rename_i hnot
    simpa using fun d hbody => absurd hbody (hnot d)

variable (hbuilt : IsBuilt schema reached)
include hbuilt

theorem IsBuilt.count_interfaceNames_le_one (ht : t ∈ reached) (name : String) :
    t.interfaceNames.count name ≤ 1 := by
  by_cases hmem : name ∈ t.interfaceNames
  · obtain ⟨d, hbody, hinterface⟩ := mem_interfaceNames_iff.mp hmem
    have hcount := (hbuilt.interface_of_mem ht hbody hinterface).1
    simpa only [TypeDef.interfaceNames, hbody] using hcount
  · rw [List.count_eq_zero.mpr hmem]
    exact Nat.zero_le 1

/-- Nothing declares a union. -/
theorem IsBuilt.notMem_interfaceNames {d : UnionDef} (hu : u ∈ reached) (ht : t ∈ reached)
    (hbody : t.body = .union d) : t.name ∉ u.interfaceNames := by
  intro hmem
  obtain ⟨object, hobject, hinterface⟩ := mem_interfaceNames_iff.mp hmem
  obtain ⟨-, other, interface, hother, hbody', -⟩ := hbuilt.interface_of_mem hu hobject hinterface
  have hsame : other = t :=
    Option.some.inj (hother.symm.trans (hbuilt.type?_eq_some_iff.mpr ⟨ht, rfl⟩))
  rw [hsame, hbody] at hbody'
  cases hbody'

theorem IsBuilt.possibleTypes_of_interface {d : InterfaceDef} (ht : t ∈ reached)
    (hbody : t.body = .interface d) :
    schema.possibleTypes t = reached.filter (t.name ∈ ·.interfaceNames) := by
  have hno : ∀ u ∈ reached, ¬ IsUnionOf u t.name := by
    rintro u hu ⟨hname, union, hunion⟩
    rw [hbuilt.eq_of_mem hu ht hname, hbody] at hunion
    cases hunion
  calc
    schema.possibleTypes t = listed (reached.foldl (addPossible schema.types) []) t.name := by
      simp [possibleTypes, TypeDef.isAbstractType, hbody, listed, hbuilt.possible]
    _ = reached.flatMap fun u => List.replicate (u.interfaceNames.count t.name) u :=
      listed_foldl_addPossible hno
    _ = reached.filter (t.name ∈ ·.interfaceNames) :=
      flatMap_replicate_eq_filter fun u hu => hbuilt.count_interfaceNames_le_one hu t.name

theorem IsBuilt.possibleTypes_of_union {d : UnionDef} (ht : t ∈ reached)
    (hbody : t.body = .union d) :
    schema.possibleTypes t =
      d.members.filterMap fun name => (schema.type? name).filter (·.isObjectType) := by
  obtain ⟨before, after, hreached⟩ := List.append_of_mem ht
  -- The list that the union gets is final: it is the only one of its name, and no object that
  -- comes later may declare it.
  have hafter {u : TypeDef} (hu : u ∈ after) : u ∈ reached :=
    hreached ▸ List.mem_append_right _ (List.mem_cons_of_mem _ hu)
  have hno : ∀ u ∈ after, ¬ IsUnionOf u t.name := by
    rintro u hu ⟨hname, -⟩
    have hnodup := hbuilt.nodup
    rw [hreached, List.map_append, List.map_cons] at hnodup
    have hnotMem := (List.nodup_cons.mp hnodup.of_append_right).1
    exact hnotMem (hname ▸ List.mem_map_of_mem hu)
  have hnone : (after.flatMap fun u => List.replicate (u.interfaceNames.count t.name) u) = [] := by
    refine List.flatMap_eq_nil_iff.mpr fun u hu => ?_
    rw [List.count_eq_zero.mpr (hbuilt.notMem_interfaceNames (hafter hu) ht hbody)]
    rfl
  calc
    schema.possibleTypes t = listed (reached.foldl (addPossible schema.types) []) t.name := by
      simp [possibleTypes, TypeDef.isAbstractType, hbody, listed, hbuilt.possible]
    _ = listed (addPossible schema.types (before.foldl (addPossible schema.types) []) t)
          t.name := by
      rw [hreached, List.foldl_append, List.foldl_cons, listed_foldl_addPossible hno, hnone,
        List.append_nil]
    _ = d.members.filterMap fun name => (schema.type? name).filter (·.isObjectType) :=
      listed_addPossible_union hbody

/-- The possible types are those that the definitions give. -/
theorem IsBuilt.possibleTypes_eq_declaredTypes (ht : t ∈ reached) :
    schema.possibleTypes t = schema.declaredTypes t := by
  have htypes : schema.types.map (·.2) = reached := by
    rw [hbuilt.types, List.map_map]
    exact List.map_id reached
  cases hbody : t.body with
  | interface d =>
      rw [hbuilt.possibleTypes_of_interface ht hbody]
      simp only [declaredTypes, hbody, htypes]
  | union d =>
      rw [hbuilt.possibleTypes_of_union ht hbody]
      simp only [declaredTypes, hbody]
  | scalar d => simp [possibleTypes, declaredTypes, TypeDef.isAbstractType, hbody]
  | object d => simp [possibleTypes, declaredTypes, TypeDef.isAbstractType, hbody]
  | enum d => simp [possibleTypes, declaredTypes, TypeDef.isAbstractType, hbody]
  | inputObject d => simp [possibleTypes, declaredTypes, TypeDef.isAbstractType, hbody]

theorem IsBuilt.mem_possibleTypes_iff {d : InterfaceDef} (ht : t ∈ reached)
    (hbody : t.body = .interface d) :
    u ∈ schema.possibleTypes t ↔ schema.type? u.name = some u ∧ t.name ∈ u.interfaceNames := by
  rw [hbuilt.possibleTypes_of_interface ht hbody, List.mem_filter, decide_eq_true_eq,
    hbuilt.type?_eq_some_iff]
  simp only [and_true]

/-- An interface has each of its object types once. -/
theorem IsBuilt.nodup_possibleTypes {d : InterfaceDef} (ht : t ∈ reached)
    (hbody : t.body = .interface d) : ((schema.possibleTypes t).map (·.name)).Nodup := by
  rw [hbuilt.possibleTypes_of_interface ht hbody]
  exact hbuilt.nodup.sublist (List.filter_sublist.map _)

/-- A union has each of its object types as often as it lists it. -/
theorem IsBuilt.names_possibleTypes {d : UnionDef} (ht : t ∈ reached)
    (hbody : t.body = .union d) : (schema.possibleTypes t).map (·.name) = d.members := by
  have hsound := hbuilt.bodyIsSound ht
  rw [hbody] at hsound
  have hmember {name : String} (hname : name ∈ d.members) :
      ((schema.type? name).filter (·.isObjectType)).map (·.name) = some name := by
    obtain ⟨u, object, hu, hobject⟩ := hsound.2 name hname
    rw [hu, Option.filter_some, TypeDef.isObjectType, hobject, if_pos rfl, Option.map_some,
      (hbuilt.type?_eq_some_iff.mp hu).2]
  rw [hbuilt.possibleTypes_of_union ht hbody, List.map_filterMap,
    List.filterMap_congr fun name hname => hmember hname]
  exact List.filterMap_some

end

/-! ## Claims -/

section

variable {t : TypeDef} {value : Json} {info : ResolveInfo} {fault : FieldFault}

theorem exists_claimants_of_error (h : schema.runtimeTypeName? t value info = .error fault) :
    ∃ first second rest, schema.claimants t value info = first :: second :: rest ∧
      fault = .twoObjectTypes t.name first.name second.name := by
  unfold runtimeTypeName? at h
  split at h
  · cases h
  split at h
  · cases h
  split at h
  · cases h
  · cases h
  · rename_i first second rest hclaimants
    cases h
    exact ⟨first, second, rest, hclaimants, rfl⟩

/-- Possible types are claimed for in their order, and as often as they are listed. -/
theorem pair_sublist_of_claimants {first second : TypeDef} {rest : List TypeDef}
    (h : schema.claimants t value info = first :: second :: rest) :
    [first.name, second.name].Sublist ((schema.possibleTypes t).map (·.name)) := by
  have hpair : [first, second].Sublist (schema.claimants t value info) := by
    rw [h]
    exact ((List.nil_sublist rest).cons_cons second).cons_cons first
  exact (hpair.trans List.filter_sublist).map _

theorem IsBuilt.repeats_of_claimants {reached : List TypeDef} {first second : TypeDef}
    {rest : List TypeDef} (hbuilt : IsBuilt schema reached) (ht : t ∈ reached)
    (h : schema.claimants t value info = first :: second :: rest)
    (hname : first.name = second.name) :
    ∃ d, t.body = .union d ∧ 1 < d.members.count first.name := by
  have hpair := pair_sublist_of_claimants h
  rw [← hname] at hpair
  cases hbody : t.body with
  | union d =>
      rw [hbuilt.names_possibleTypes ht hbody] at hpair
      have hcount : [first.name, first.name].count first.name ≤ d.members.count first.name :=
        hpair.count_le _
      rw [List.count_cons_self, List.count_cons_self] at hcount
      exact ⟨d, rfl, by omega⟩
  | interface d =>
      have hnodup := (hbuilt.nodup_possibleTypes ht hbody).sublist hpair
      simp at hnodup
  | _ =>
      -- The other types have no possible types that could claim anything.
      simp [possibleTypes, TypeDef.isAbstractType, hbody] at hpair

end

/-- The possible types of a union are the types that it lists, and those of an interface are the
object types that declare it, each of them once.  So if a value is claimed twice, this is by two
types, or else by one type that a union lists twice. -/
theorem possibleTypes_are_declared {t : TypeDef} (hbuild : draft.build = .ok schema)
    (ht : schema.type? t.name = some t) :
    (∀ u ∈ schema.possibleTypes t, u.isObjectType ∧ schema.type? u.name = some u) ∧
      (∀ d, t.body = .union d → (schema.possibleTypes t).map (·.name) = d.members) ∧
      (∀ d, t.body = .interface d → ((schema.possibleTypes t).map (·.name)).Nodup ∧
        ∀ u, u ∈ schema.possibleTypes t ↔
          schema.type? u.name = some u ∧ t.name ∈ u.interfaceNames) ∧
      ∀ value info fault, schema.runtimeTypeName? t value info = .error fault →
        ∃ first ∈ schema.claimants t value info, ∃ second ∈ schema.claimants t value info,
          fault = .twoObjectTypes t.name first.name second.name ∧
          (first.name = second.name →
            ∃ d, t.body = .union d ∧ 1 < d.members.count first.name) := by
  obtain ⟨reached, hbuilt⟩ := exists_isBuilt hbuild
  have hmem : t ∈ reached := (hbuilt.type?_eq_some_iff.mp ht).1
  refine ⟨fun u hu => hbuilt.coherent.possible ht hu,
    fun d hbody => hbuilt.names_possibleTypes hmem hbody,
    fun d hbody => ⟨hbuilt.nodup_possibleTypes hmem hbody,
      fun u => hbuilt.mem_possibleTypes_iff hmem hbody⟩, ?_⟩
  intro value info fault hfault
  obtain ⟨first, second, rest, hclaimants, rfl⟩ := exists_claimants_of_error hfault
  refine ⟨first, ?_, second, ?_, rfl, hbuilt.repeats_of_claimants hmem hclaimants⟩
  · rw [hclaimants]
    exact List.mem_cons_self
  · rw [hclaimants]
    exact List.mem_cons_of_mem _ List.mem_cons_self

/-- Things of which there are only stones, though these are listed twice. -/
def quarryDraft : Draft where
  query := {
    name := "Query"
    origin := .host 0
    body := .object {
      fields := FieldDef.table [{ name := "thing", type := .named "Thing" true }] } }
  types := [
    { name := "Stone"
      origin := .host 1
      body := .object {
        fields := FieldDef.table [{ name := "weight", type := .named "Int" true }]
        isTypeOf := some fun _ _ => true } },
    { name := "Thing", origin := .host 2, body := .union { members := ["Stone", "Stone"] } }]

@[irreducible] def quarrySchema : Schema := quarryDraft.built (by decide +kernel)

theorem build_quarryDraft : quarryDraft.build = .ok quarrySchema := by
  unfold quarrySchema
  exact Draft.build_eq_ok_built _ _

/-- What is known of the field `thing` of the query `{ thing }`. -/
def thingInfo : ResolveInfo where
  fieldName := "thing"
  fieldNodes := []
  returnType := .named "Thing" true
  parentTypeName := "Query"
  path := [.key "thing"]
  fragments := []
  rootValue := .null
  operation := {
    operation := .query
    name := none
    variableDefinitions := []
    directives := []
    selectionSet := { selections := [] } }
  variableValues := []

/-- A stone is claimed twice, by one type. -/
theorem possibleTypes_of_thing : ∃ t d fault, quarrySchema.type? t.name = some t ∧
    t.body = .union d ∧ (quarrySchema.possibleTypes t).map (·.name) = d.members ∧
    quarrySchema.runtimeTypeName? t .null thingInfo = .error fault ∧
    ∃ first ∈ quarrySchema.claimants t .null thingInfo,
      ∃ second ∈ quarrySchema.claimants t .null thingInfo,
        fault = .twoObjectTypes t.name first.name second.name ∧ 1 < d.members.count first.name := by
  have hthing : (quarrySchema.type? "Thing").any (fun t =>
      decide ((quarrySchema.possibleTypes t).map (·.name) = ["Stone", "Stone"]) &&
        !(quarrySchema.runtimeTypeName? t .null thingInfo).isOk) = true := by
    decide +kernel
  obtain ⟨t, ht, hthing⟩ := (Option.any_eq_true _ _).mp hthing
  obtain ⟨hnames, herror⟩ := Bool.and_eq_true_iff.mp hthing
  have hname : t.name = "Thing" := (coherent_of_build build_quarryDraft).name_of_type? ht
  rw [← hname] at ht
  cases hfault : quarrySchema.runtimeTypeName? t .null thingInfo with
  | ok name? => simp [hfault, Except.isOk, Except.toBool] at herror
  | error fault =>
      obtain ⟨-, hmembers, -, hclaims⟩ := possibleTypes_are_declared build_quarryDraft ht
      obtain ⟨first, hfirst, second, hsecond, hfault', hrepeats⟩ := hclaims _ _ _ hfault
      have hstone {u : TypeDef} (hu : u ∈ quarrySchema.claimants t .null thingInfo) :
          u.name = "Stone" := by
        have hmem := List.mem_map_of_mem (f := (·.name)) (List.mem_of_mem_filter hu)
        rw [of_decide_eq_true hnames] at hmem
        simpa using hmem
      obtain ⟨d, hd, hcount⟩ := hrepeats ((hstone hfirst).trans (hstone hsecond).symm)
      exact ⟨t, d, fault, ht, hd, hmembers d hd, hfault, first, hfirst, second, hsecond, hfault',
        hcount⟩

end GraphQL.Schema
