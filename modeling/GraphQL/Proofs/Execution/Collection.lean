import GraphQL.Proofs.Execution.FieldMaps
import GraphQL.Proofs.Execution.Gathering

/-!
# Which selections field collection comes to

Field collection comes to the selections of a set, and to those within the inline fragments and
the fragments that it follows (`Grouping.Comes`).  It follows every fragment once, but it misses
nothing by that: the fields that are gathered are those it comes to that take part
(`Grouping.Gathers.mem_iff`), and so are those in the groups (`Setting.mem_groupsOf_iff`).

`Setting.CollectsFrom` tells from which sets execution collects the fields of objects: from the
set of the operation for the root type, and from the sets of the fields of a group for the objects
that the group can give.
-/

namespace GraphQL

namespace Grouping

variable {target : Target} {fragments unfollowed left : FragmentTable} {sets : List SelectionSet}
  {selections : List Selection} {fields : List Field}

/-! ## Coming to selections -/

/-- Field collection comes to the selection: it is in one of the sets, or in a fragment that is
followed for the object. -/
inductive Comes (target : Target) (fragments : FragmentTable) (sets : List SelectionSet) :
    Selection → Prop
  | own {set : SelectionSet} {selection : Selection} (hset : set ∈ sets)
      (hmem : selection ∈ set.selections) : Comes target fragments sets selection
  | inline {f : InlineFragment} {selection : Selection}
      (h : Comes target fragments sets (.inline f))
      (htakes : takesPart target.schema target.bindings f.directives)
      (happlies : applies target.schema target.objectName f.typeCondition)
      (hmem : selection ∈ f.selectionSet.selections) : Comes target fragments sets selection
  | spread {s : FragmentSpread} {fragment : FragmentDefinition} {selection : Selection}
      (h : Comes target fragments sets (.spread s))
      (htakes : takesPart target.schema target.bindings s.directives)
      (hfragment : Assoc.get? fragments s.name.text = some fragment)
      (happlies : applies target.schema target.objectName (some fragment.typeCondition))
      (hmem : selection ∈ fragment.selectionSet.selections) : Comes target fragments sets selection

/-! ### Fragments that are left -/

theorem get?_unclaimed (unfollowed : FragmentTable) (name other : String) :
    Assoc.get? (unclaimed unfollowed name) other =
      if other = name then none else Assoc.get? unfollowed other := by
  induction unfollowed with
  | nil => simp [unclaimed, Assoc.get?]
  | cons entry rest ih =>
      obtain ⟨key, fragment⟩ := entry
      simp only [unclaimed, List.filter_cons] at ih ⊢
      by_cases hkey : key = name
      · subst hkey
        rw [if_neg (by simp), ih, Assoc.get?_cons]
        split_ifs <;> simp_all
      · rw [if_pos (by simpa using hkey), Assoc.get?_cons, ih, Assoc.get?_cons]
        split_ifs <;> simp_all

/-- Fragments that are left are those from before, or some of them. -/
def Remains (left unfollowed : FragmentTable) : Prop :=
  ∀ name fragment, Assoc.get? left name = some fragment → Assoc.get? unfollowed name = some fragment

theorem remains_unclaimed (unfollowed : FragmentTable) (name : String) :
    Remains (unclaimed unfollowed name) unfollowed := by
  intro other fragment h
  rw [get?_unclaimed] at h
  split at h
  · cases h
  · exact h

theorem Remains.trans {between : FragmentTable} (h : Remains left between)
    (h' : Remains between unfollowed) : Remains left unfollowed :=
  fun name fragment hfragment => h' name fragment (h name fragment hfragment)

theorem Remains.eq_none {name : String} (h : Remains left unfollowed)
    (hnone : Assoc.get? unfollowed name = none) : Assoc.get? left name = none := by
  cases hget : Assoc.get? left name with
  | none => rfl
  | some fragment => simp [h name fragment hget] at hnone

theorem Gathers.remains (h : Gathers target selections unfollowed fields left) :
    Remains left unfollowed := by
  induction h with
  | nil => exact fun _ _ => id
  | field _ _ ih | followed _ _ ih | leftOut _ _ ih => exact ih
  | inline _ _ _ _ ihinner ihrest => exact ihrest.trans ihinner
  | spread _ _ _ _ _ ihinner ihrest =>
      exact (ihrest.trans ihinner).trans (remains_unclaimed _ _)
  | otherSpread _ _ _ _ ih => exact ih.trans (remains_unclaimed _ _)

/-! ## What is gathered is come to -/

/-- Where field collection comes to the selections, it comes to the fields that they select, and
these take part. -/
theorem Gathers.comes (h : Gathers target selections unfollowed fields left)
    (hselections : ∀ selection ∈ selections, Comes target fragments sets selection)
    (hremains : Remains unfollowed fragments) :
    ∀ f ∈ fields, Comes target fragments sets (.field f) ∧
      takesPart target.schema target.bindings f.directives := by
  induction h with
  | nil => simp
  | field htakes _ ih =>
      obtain ⟨hfirst, hrest⟩ := List.forall_mem_cons.mp hselections
      exact List.forall_mem_cons.mpr ⟨⟨hfirst, htakes⟩, ih hrest hremains⟩
  | inline htakes happlies hinner _ ihinner ihrest =>
      obtain ⟨hfirst, hrest⟩ := List.forall_mem_cons.mp hselections
      exact List.forall_mem_append.mpr
        ⟨ihinner (fun _ hmem => hfirst.inline htakes happlies hmem) hremains,
          ihrest hrest (hinner.remains.trans hremains)⟩
  | @spread s _ _ unfollowed _ _ _ _ htakes hfragment happlies hinner _ ihinner ihrest =>
      obtain ⟨hfirst, hrest⟩ := List.forall_mem_cons.mp hselections
      have hremainsInner := (remains_unclaimed unfollowed s.name.text).trans hremains
      exact List.forall_mem_append.mpr
        ⟨ihinner (fun _ hmem => hfirst.spread htakes (hremains _ _ hfragment) happlies hmem)
          hremainsInner, ihrest hrest (hinner.remains.trans hremainsInner)⟩
  | otherSpread _ _ _ _ ih =>
      exact ih (List.forall_mem_cons.mp hselections).2 ((remains_unclaimed _ _).trans hremains)
  | followed _ _ ih | leftOut _ _ ih => exact ih (List.forall_mem_cons.mp hselections).2 hremains

/-! ## What is come to is gathered -/

/-- Nothing is missed of the selection: fields and inline fragments that take part have been gone
through, and fragments that are spread are not left. -/
inductive Settled (target : Target) (fields : List Field) (left : FragmentTable) : Selection → Prop
  | field {f : Field}
      (h : takesPart target.schema target.bindings f.directives → f ∈ fields) :
      Settled target fields left (.field f)
  | inline {f : InlineFragment}
      (h : takesPart target.schema target.bindings f.directives →
        applies target.schema target.objectName f.typeCondition →
        ∀ selection ∈ f.selectionSet.selections, Settled target fields left selection) :
      Settled target fields left (.inline f)
  | spread {s : FragmentSpread}
      (h : takesPart target.schema target.bindings s.directives →
        Assoc.get? left s.name.text = none) :
      Settled target fields left (.spread s)

theorem Settled.mono {selection : Selection} {more : List Field} {fewer : FragmentTable}
    (h : Settled target fields left selection) (hfields : fields ⊆ more)
    (hleft : Remains fewer left) : Settled target more fewer selection := by
  induction h with
  | field h => exact .field fun htakes => hfields (h htakes)
  | inline _ ih => exact .inline ih
  | spread h => exact .spread fun htakes => hleft.eq_none (h htakes)

theorem settled_of_leftOut {selection : Selection} (h : LeftOut target selection) :
    Settled target fields left selection := by
  cases h with
  | skipped h =>
      cases selection with
      | field f => exact .field fun htakes => absurd h (Bool.not_eq_false _ ▸ htakes)
      | inline f => exact .inline fun htakes => absurd h (Bool.not_eq_false _ ▸ htakes)
      | spread s => exact .spread fun htakes => absurd h (Bool.not_eq_false _ ▸ htakes)
  | otherType h => exact .inline fun _ happlies => absurd h (by simpa using happlies)

/-- The selections are settled, and so are those in the fragments that have been followed. -/
structure Complete (target : Target) (selections : List Selection) (unfollowed : FragmentTable)
    (fields : List Field) (left : FragmentTable) : Prop where
  selections : ∀ selection ∈ selections, Settled target fields left selection
  followed : ∀ name fragment, Assoc.get? unfollowed name = some fragment →
    Assoc.get? left name = none →
    applies target.schema target.objectName (some fragment.typeCondition) →
    ∀ selection ∈ fragment.selectionSet.selections, Settled target fields left selection

theorem Complete.cons {selection : Selection} (h : Complete target selections unfollowed fields left)
    (hselection : Settled target fields left selection) :
    Complete target (selection :: selections) unfollowed fields left :=
  ⟨List.forall_mem_cons.mpr ⟨hselection, h.selections⟩, h.followed⟩

/-- Selections that are gone through one after the other. -/
theorem Complete.append {others : List Selection} {between : FragmentTable} {more : List Field}
    (h : Complete target selections unfollowed fields between)
    (hmore : Complete target others between more left)
    (hbetween : Remains between unfollowed) (hleft : Remains left between) :
    Complete target (selections ++ others) unfollowed (fields ++ more) left := by
  have hfirst {selection : Selection} (hsettled : Settled target fields between selection) :
      Settled target (fields ++ more) left selection :=
    hsettled.mono (List.subset_append_left _ _) hleft
  have hlast {selection : Selection} (hsettled : Settled target more left selection) :
      Settled target (fields ++ more) left selection :=
    hsettled.mono (List.subset_append_right _ _) fun _ _ => id
  refine ⟨List.forall_mem_append.mpr ⟨fun selection hmem => hfirst (h.selections selection hmem),
    fun selection hmem => hlast (hmore.selections selection hmem)⟩,
    fun name fragment hfragment hnone happlies selection hmem => ?_⟩
  cases hget : Assoc.get? between name with
  | none => exact hfirst (h.followed name fragment hfragment hget happlies selection hmem)
  | some other =>
      obtain rfl := Option.some.inj (hfragment.symm.trans (hbetween name other hget))
      exact hlast (hmore.followed name fragment hget hnone happlies selection hmem)

/-- A fragment that is spread is claimed, and what is in it is settled if it is for the object. -/
theorem Complete.claim {s : FragmentSpread} {fragment : FragmentDefinition}
    (h : Complete target selections (unclaimed unfollowed s.name.text) fields left)
    (hclaimed : Assoc.get? left s.name.text = none)
    (hfragment : Assoc.get? unfollowed s.name.text = some fragment)
    (hinside : applies target.schema target.objectName (some fragment.typeCondition) →
      ∀ selection ∈ fragment.selectionSet.selections, Settled target fields left selection) :
    Complete target (.spread s :: selections) unfollowed fields left := by
  refine Complete.cons ⟨h.selections, fun name other hother hnone happlies selection hmem => ?_⟩
    (.spread fun _ => hclaimed)
  by_cases hname : name = s.name.text
  · subst hname
    obtain rfl := Option.some.inj (hfragment.symm.trans hother)
    exact hinside happlies selection hmem
  · refine h.followed name other ?_ hnone happlies selection hmem
    rw [get?_unclaimed, if_neg hname, hother]

theorem Gathers.complete (h : Gathers target selections unfollowed fields left) :
    Complete target selections unfollowed fields left := by
  induction h with
  | nil => exact ⟨by simp, fun _ _ hsome hnone => by simp [hsome] at hnone⟩
  | @field f rest unfollowed left fields htakes hrest ih =>
      have hmono {selection : Selection} (hsettled : Settled target fields left selection) :
          Settled target (f :: fields) left selection :=
        hsettled.mono (List.subset_cons_self _ _) fun _ _ => id
      refine Complete.cons ⟨fun selection hmem => hmono (ih.selections selection hmem),
        fun name fragment hfragment hnone happlies selection hmem =>
          hmono (ih.followed name fragment hfragment hnone happlies selection hmem)⟩ ?_
      exact .field fun _ => List.mem_cons_self
  | @inline f rest unfollowed between left fields more htakes happlies hinner hrest ihinner ihrest =>
      have hboth := ihinner.append ihrest hinner.remains hrest.remains
      refine Complete.cons ⟨fun selection hmem => ?_, hboth.followed⟩ ?_
      · exact hboth.selections selection (List.mem_append_right _ hmem)
      · exact .inline fun _ _ selection hmem =>
          hboth.selections selection (List.mem_append_left _ hmem)
  | @spread s fragment rest unfollowed between left fields more htakes hfragment happlies hinner
      hrest ihinner ihrest =>
      have hboth := ihinner.append ihrest hinner.remains hrest.remains
      have hclaimed : Assoc.get? left s.name.text = none :=
        (hrest.remains.trans hinner.remains).eq_none (by rw [get?_unclaimed, if_pos rfl])
      exact Complete.claim ⟨fun selection hmem => hboth.selections selection
        (List.mem_append_right _ hmem), hboth.followed⟩ hclaimed hfragment
        fun _ selection hmem => hboth.selections selection (List.mem_append_left _ hmem)
  | @otherSpread s fragment rest unfollowed left fields htakes hfragment happlies hrest ih =>
      -- The fragment is claimed all the same, but none of its selections is for the object.
      have hclaimed : Assoc.get? left s.name.text = none :=
        hrest.remains.eq_none (by rw [get?_unclaimed, if_pos rfl])
      exact ih.claim hclaimed hfragment fun happlies' => absurd happlies' (by simp [happlies])
  | followed hnone hrest ih =>
      exact ih.cons (.spread fun _ => hrest.remains.eq_none hnone)
  | leftOut hout _ ih => exact ih.cons (settled_of_leftOut hout)

/-- Of what some sets select, all that field collection comes to is settled. -/
theorem Gathers.settled (h : Gathers target (sets.flatMap (·.selections)) fragments fields left)
    {selection : Selection} (hcomes : Comes target fragments sets selection) :
    Settled target fields left selection := by
  have hcomplete := h.complete
  induction hcomes with
  | own hset hmem => exact hcomplete.selections _ (List.mem_flatMap.mpr ⟨_, hset, hmem⟩)
  | inline _ htakes happlies hmem ih =>
      cases ih with
      | inline hinner => exact hinner htakes happlies _ hmem
  | spread _ htakes hfragment happlies hmem ih =>
      cases ih with
      | spread hclaimed =>
          exact hcomplete.followed _ _ hfragment (hclaimed htakes) happlies _ hmem

/-- The fields that are gathered are those that field collection comes to and that take part. -/
theorem Gathers.mem_iff (h : Gathers target (sets.flatMap (·.selections)) fragments fields left)
    {f : Field} : f ∈ fields ↔ Comes target fragments sets (.field f) ∧
      takesPart target.schema target.bindings f.directives := by
  constructor
  · refine fun hmem => h.comes (fun selection hselection => ?_) (fun _ _ => id) f hmem
    obtain ⟨set, hset, hmem⟩ := List.mem_flatMap.mp hselection
    exact .own hset hmem
  · rintro ⟨hcomes, htakes⟩
    cases h.settled hcomes with
    | field hgathered => exact hgathered htakes

end Grouping

/-! ## Collecting during an execution -/

namespace Setting

variable {setting : Setting} {t : TypeDef} {sets : List SelectionSet} {f : Field}

/-- Field collection from some sets comes to the selection, for an object of the type. -/
def Comes (setting : Setting) (objectType : TypeDef) (sets : List SelectionSet) :
    Selection → Prop :=
  Grouping.Comes ⟨setting.schema, setting.bindings, objectType.name⟩ setting.fragments sets

/-- The fields of a group have its key. -/
theorem responseKey_of_mem_groupsOf {key : String} {row : List Field}
    (hrow : (key, row) ∈ setting.groupsOf t sets) (hf : f ∈ row) : f.responseKey = key := by
  obtain ⟨fields, -, hgroups⟩ := setting.exists_selects t sets
  rw [hgroups] at hrow
  obtain ⟨rfl, -⟩ := Assoc.mem_rows_iff.mp hrow
  simpa using (List.mem_filter.mp hf).2

/-- A field is in one of the groups if field collection comes to it and it takes part. -/
theorem mem_groupsOf_iff :
    (∃ row, (f.responseKey, row) ∈ setting.groupsOf t sets ∧ f ∈ row) ↔
      setting.Comes t sets (.field f) ∧
        Grouping.takesPart setting.schema setting.bindings f.directives := by
  obtain ⟨fields, ⟨left, hgathers⟩, hgroups⟩ := setting.exists_selects t sets
  rw [hgroups]
  refine Iff.trans ⟨?_, fun hmem => ?_⟩ hgathers.mem_iff
  · rintro ⟨row, hrow, hmem⟩
    obtain ⟨rfl, -⟩ := Assoc.mem_rows_iff.mp hrow
    exact (List.mem_filter.mp hmem).1
  · exact Assoc.exists_row_of_mem Field.responseKey hmem

/-- The sets that the fields of an object are collected from: for the root type that of the
operation, and for the objects that may be the value of a group those of its fields. -/
inductive CollectsFrom (setting : Setting) : TypeDef → List SelectionSet → Prop
  | root {t : TypeDef} (ht : setting.schema.rootType? setting.operation.operation = some t) :
      CollectsFrom setting t [setting.operation.selectionSet]
  | next {outer object : TypeDef} {sets : List SelectionSet} {key : String} {node : Field}
      {nodes : List Field} {d : FieldDef} (h : CollectsFrom setting outer sets)
      (hgroup : (key, node :: nodes) ∈ setting.groupsOf outer sets)
      (hd : setting.definition? outer node = some d)
      (hobject : setting.schema.Occupies object.name d.type) :
      CollectsFrom setting object ((node :: nodes).filterMap (·.selectionSet))

/-- The field maps of an execution are gathered from these sets. -/
theorem fieldMap_iff {groups : FieldGroups} :
    setting.FieldMap t groups ↔
      ∃ sets, setting.CollectsFrom t sets ∧ groups = setting.groupsOf t sets := by
  constructor
  · intro h
    induction h with
    | root ht => exact ⟨_, .root ht, rfl⟩
    | next _ hgroup hd hobject ih =>
        obtain ⟨sets, hcollects, rfl⟩ := ih
        exact ⟨_, hcollects.next hgroup hd hobject, rfl⟩
  · rintro ⟨sets, hcollects, rfl⟩
    induction hcollects with
    | root ht => exact .root ht
    | next _ hgroup hd hobject ih => exact ih.next hgroup hd hobject

end Setting

end GraphQL
