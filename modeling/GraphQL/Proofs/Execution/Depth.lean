import GraphQL.Proofs.Execution.Gathering
import GraphQL.Proofs.Execution.Requests
import GraphQL.Proofs.Validation.References

/-!
# Execution comes to an end

Types may be recursive, and resolvers may answer with objects and lists of any size.  What brings
execution to an end is the document: every object in a response is completed with the selection
sets of the fields it is the value of, and as long as no fragment is spread within itself, the
fields that these sets lead to (`FragmentTable.Leads`) are nested in each other up to a
certain depth only (`FragmentTable.NestsWithin`).  Going down from a selection set, every
fragment is entered once at most; so the height of the set and the heights of all fragments
together are a bound (`nestsWithin_of_covers`), whatever the types are and whatever is answered.

For one object after the other, then, less is left to be done of the document, while within
the value of a field the type gets smaller from list to item (`Setting.acc_object`).  And the depth
up to which objects are completed is never reached: what would be done beyond it does not matter
(`Setting.completeObjectOr_eq`).
-/

namespace GraphQL

open Merging (innerSet?)

/-! ## Fragments that are not spread within themselves -/

namespace FragmentTable

/-- A fragment spreads another, at any depth. -/
def Spreads (fragments : FragmentTable) (name other : String) : Prop :=
  ∃ fragment spread, Assoc.get? fragments name = some fragment ∧
    spread ∈ fragment.selectionSet.spreads ∧ spread.name.text = other

/-- No way along spreads leads back to its start. -/
def Acyclic (fragments : FragmentTable) : Prop :=
  ∀ name, ¬Relation.TransGen (Spreads fragments) name name

/-- The heights of all fragments together. -/
def weight (fragments : FragmentTable) : ℕ := (fragments.map (·.2.selectionSet.height)).sum

/-- Selections lead to a field that may be selected of an object, through inline fragments and
spreads. -/
inductive Leads (fragments : FragmentTable) : List Selection → Field → Prop where
  | field {selections : List Selection} {f : Field} (h : .field f ∈ selections) :
      Leads fragments selections f
  | inline {selections : List Selection} {g : InlineFragment} {f : Field}
      (h : .inline g ∈ selections) (hinner : Leads fragments g.selectionSet.selections f) :
      Leads fragments selections f
  | spread {selections : List Selection} {s : FragmentSpread} {fragment : FragmentDefinition}
      {f : Field} (h : .spread s ∈ selections)
      (hfragment : Assoc.get? fragments s.name.text = some fragment)
      (hinner : Leads fragments fragment.selectionSet.selections f) : Leads fragments selections f

/-- Objects that are completed with these selections have less than so many levels of others
within them.  The value of any field may be an object, also where nothing is selected of it. -/
def NestsWithin (fragments : FragmentTable) : ℕ → List Selection → Prop
  | 0, _ => False
  | n + 1, selections => ∀ f, Leads fragments selections f → n ≠ 0 ∧
      ∀ inner, f.selectionSet = some inner → NestsWithin fragments n inner.selections

/-- What the set spreads, and what is spread from there, is among these fragments. -/
def Covers (fragments left : FragmentTable) (set : SelectionSet) : Prop :=
  ∀ spread ∈ set.spreads, ∀ name fragment,
    Relation.ReflTransGen (Spreads fragments) spread.name.text name →
    Assoc.get? fragments name = some fragment → (name, fragment) ∈ left

end FragmentTable

namespace SelectionSet

/-- A set within another is less high. -/
theorem height_lt_of_innerSet? {set inner : SelectionSet} {selection : Selection}
    (h : selection ∈ set.selections) (hinner : innerSet? selection = some inner) :
    inner.height < set.height :=
  (Node.Lower.inner hinner).height_lt.trans (height_lt_of_mem h)

theorem height_pos (set : SelectionSet) : 0 < set.height := by
  obtain ⟨selections, span⟩ := set
  rw [height]
  exact Nat.succ_pos _

end SelectionSet

theorem Selection.two_le_height_field (f : Field) : 2 ≤ (Selection.field f).height := by
  obtain ⟨responseName, name, arguments, directives, set?, span⟩ := f
  simp only [height, SelectionSet.heightSelections]
  omega

namespace FragmentTable

variable {fragments left : FragmentTable} {n m : ℕ} {selections : List Selection}

theorem get?_unclaimed {name other : String} {fragment : FragmentDefinition}
    (h : Assoc.get? (Grouping.unclaimed fragments name) other = some fragment) :
    other ≠ name ∧ Assoc.get? fragments other = some fragment := by
  induction fragments with
  | nil => cases h
  | cons entry rest ih =>
      rw [Grouping.unclaimed, List.filter_cons] at h
      split at h
      · rename_i hkept
        rw [Assoc.get?_cons] at h ⊢
        split at h
        · rename_i hother
          rw [if_pos hother]
          exact ⟨fun heq => by simp [hother, heq] at hkept, h⟩
        · rename_i hother
          rw [if_neg hother]
          exact ih h
      · rename_i hdropped
        obtain ⟨hne, hrest⟩ := ih h
        rw [Assoc.get?_cons, if_neg]
        · exact ⟨hne, hrest⟩
        · rintro rfl
          simp at hdropped
          exact hne hdropped

theorem weight_append (fragments others : FragmentTable) :
    weight (fragments ++ others) = weight fragments + weight others := by
  rw [weight, List.map_append, List.sum_append, ← weight, ← weight]

theorem weight_unclaimed_le (fragments : FragmentTable) (name : String) :
    weight (Grouping.unclaimed fragments name) ≤ weight fragments :=
  (List.filter_sublist.map _).sum_le_sum fun _ _ => Nat.zero_le _

theorem weight_unclaimed {name : String} {fragment : FragmentDefinition}
    (h : (name, fragment) ∈ left) :
    fragment.selectionSet.height + weight (Grouping.unclaimed left name) ≤ weight left := by
  obtain ⟨before, after, rfl⟩ := List.append_of_mem h
  have hkept : Grouping.unclaimed (before ++ (name, fragment) :: after) name =
      Grouping.unclaimed before name ++ Grouping.unclaimed after name := by
    rw [Grouping.unclaimed, List.filter_append, List.filter_cons_of_neg (by simp)]
    rfl
  have hweight : weight ((name, fragment) :: after) =
      fragment.selectionSet.height + weight after := by
    rw [weight, List.map_cons, List.sum_cons, ← weight]
  calc fragment.selectionSet.height +
        weight (Grouping.unclaimed (before ++ (name, fragment) :: after) name)
      = fragment.selectionSet.height +
          (weight (Grouping.unclaimed before name) + weight (Grouping.unclaimed after name)) := by
        rw [hkept, weight_append]
    _ ≤ fragment.selectionSet.height + (weight before + weight after) :=
        Nat.add_le_add_left
          (Nat.add_le_add (weight_unclaimed_le before name) (weight_unclaimed_le after name)) _
    _ = weight (before ++ (name, fragment) :: after) := by
        rw [weight_append, hweight]
        omega

theorem NestsWithin.mono (h : NestsWithin fragments n selections) (hle : n ≤ m) :
    NestsWithin fragments m selections := by
  induction n generalizing m selections with
  | zero => exact h.elim
  | succ n ih =>
      obtain ⟨m, rfl⟩ := Nat.exists_eq_succ_of_ne_zero (Nat.ne_of_gt (Nat.zero_lt_of_lt hle))
      intro f hf
      obtain ⟨hn, hinner⟩ := h f hf
      have hle : n ≤ m := Nat.le_of_succ_le_succ hle
      refine ⟨fun hm => hn (Nat.le_zero.mp (hm ▸ hle)), fun inner hset => ?_⟩
      exact ih (hinner inner hset) hle

theorem NestsWithin.ne_zero (h : NestsWithin fragments n selections) : n ≠ 0 := by
  rintro rfl
  exact h

theorem covers_of_innerSet? {set inner : SelectionSet} {selection : Selection}
    (hcovers : Covers fragments left set) (h : selection ∈ set.selections)
    (hinner : innerSet? selection = some inner) : Covers fragments left inner :=
  fun spread hspread => hcovers spread (SelectionSet.spreads_subset h hinner hspread)

/-- A fragment is not entered again below itself. -/
theorem covers_of_spread (hacyclic : Acyclic fragments) {set : SelectionSet} {s : FragmentSpread}
    {fragment : FragmentDefinition} (hcovers : Covers fragments left set)
    (h : .spread s ∈ set.selections)
    (hfragment : Assoc.get? fragments s.name.text = some fragment) :
    (s.name.text, fragment) ∈ left ∧
      Covers fragments (Grouping.unclaimed left s.name.text) fragment.selectionSet := by
  have hs : s ∈ set.spreads :=
    SelectionSet.mem_spreads.mpr (Or.inl (SelectionSet.mem_directSpreads h))
  refine ⟨hcovers s hs _ fragment .refl hfragment, fun spread hspread name other hpath hother => ?_⟩
  have hway : Relation.TransGen (Spreads fragments) s.name.text name :=
    Relation.TransGen.head' ⟨fragment, spread, hfragment, hspread, rfl⟩ hpath
  refine List.mem_filter.mpr ⟨hcovers s hs name other hway.to_reflTransGen hother, ?_⟩
  have hne : name ≠ s.name.text := fun heq => hacyclic _ (heq ▸ hway)
  simpa using hne

/-- The fields that a set leads to are nested no deeper than it is high, with all the fragments
that may be entered. -/
theorem nestsWithin_of_covers (hacyclic : Acyclic fragments) {set : SelectionSet}
    (hcovers : Covers fragments left set) (hle : set.height + weight left ≤ n) :
    NestsWithin fragments n set.selections := by
  induction n generalizing left set with
  | zero =>
      have hpos := set.height_pos
      omega
  | succ n ih =>
      -- Behind a selection less is left, so what is nested in a field there is nested here.
      have hthrough {f : Field} {selections : List Selection} (hf : Leads fragments selections f)
          (hnests : NestsWithin fragments n selections) :
          n ≠ 0 ∧ ∀ inner, f.selectionSet = some inner →
            NestsWithin fragments n inner.selections := by
        obtain ⟨k, rfl⟩ := Nat.exists_eq_succ_of_ne_zero hnests.ne_zero
        refine ⟨hnests.ne_zero, fun inner hinner => ?_⟩
        exact ((hnests f hf).2 inner hinner).mono (Nat.le_succ k)
      intro f hf
      cases hf with
      | field h =>
          have htwo := Selection.two_le_height_field f
          have hlt := SelectionSet.height_lt_of_mem h
          refine ⟨by omega, fun inner hinner => ih (covers_of_innerSet? hcovers h hinner) ?_⟩
          have hinner := SelectionSet.height_lt_of_innerSet? h hinner
          omega
      | @inline _ g _ h hled =>
          have hlt : g.selectionSet.height < set.height :=
            SelectionSet.height_lt_of_innerSet? h rfl
          exact hthrough hled (ih (covers_of_innerSet? hcovers h rfl) (by omega))
      | @spread _ s fragment _ h hfragment hled =>
          -- The fragment is entered at the price of its weight, which nothing below it needs.
          obtain ⟨hmem, hbelow⟩ := covers_of_spread hacyclic hcovers h hfragment
          have hweight := weight_unclaimed hmem
          have hpos := set.height_pos
          exact hthrough hled (ih hbelow (by omega))

theorem nestsWithin (hacyclic : Acyclic fragments) (set : SelectionSet) :
    NestsWithin fragments (set.height + weight fragments) set.selections :=
  nestsWithin_of_covers hacyclic (fun _ _ _ _ _ h => Assoc.mem_of_get? h) le_rfl

/-! ## Several sets at once -/

/-- Objects that are completed with these sets together nest less than so many levels of
others. -/
def SetsNestWithin (fragments : FragmentTable) (n : ℕ) (sets : List SelectionSet) : Prop :=
  NestsWithin fragments n (sets.flatMap (·.selections))

theorem exists_set_of_leads {sets : List SelectionSet} {f : Field}
    (h : Leads fragments (sets.flatMap (·.selections)) f) :
    ∃ set ∈ sets, Leads fragments set.selections f := by
  cases h with
  | field h =>
      obtain ⟨set, hset, hmem⟩ := List.mem_flatMap.mp h
      exact ⟨set, hset, .field hmem⟩
  | inline h hinner =>
      obtain ⟨set, hset, hmem⟩ := List.mem_flatMap.mp h
      exact ⟨set, hset, .inline hmem hinner⟩
  | spread h hfragment hinner =>
      obtain ⟨set, hset, hmem⟩ := List.mem_flatMap.mp h
      exact ⟨set, hset, .spread hmem hfragment hinner⟩

theorem setsNestWithin_of_forall {sets : List SelectionSet} (hn : n ≠ 0)
    (h : ∀ set ∈ sets, NestsWithin fragments n set.selections) :
    SetsNestWithin fragments n sets := by
  obtain ⟨n, rfl⟩ := Nat.exists_eq_succ_of_ne_zero hn
  intro f hf
  obtain ⟨set, hset, hled⟩ := exists_set_of_leads hf
  exact h set hset f hled

theorem Leads.cons {selection : Selection} {f : Field} (h : Leads fragments selections f) :
    Leads fragments (selection :: selections) f := by
  cases h with
  | field h => exact .field (List.mem_cons_of_mem _ h)
  | inline h hinner => exact .inline (List.mem_cons_of_mem _ h) hinner
  | spread h hfragment hinner => exact .spread (List.mem_cons_of_mem _ h) hfragment hinner

/-- What is gathered is led to, where the fragments that have not been followed are of the
table. -/
theorem leads_of_gathers {target : Grouping.Target} {unfollowed left : FragmentTable}
    {fields : List Field} (h : Grouping.Gathers target selections unfollowed fields left)
    (hknown : ∀ name fragment, Assoc.get? unfollowed name = some fragment →
      Assoc.get? fragments name = some fragment) :
    (∀ f ∈ fields, Leads fragments selections f) ∧
      ∀ name fragment, Assoc.get? left name = some fragment →
        Assoc.get? fragments name = some fragment := by
  -- Following a fragment only takes it away from those that have not been followed.
  have hunclaimed {unfollowed : FragmentTable} (name : String)
      (hknown : ∀ name fragment, Assoc.get? unfollowed name = some fragment →
        Assoc.get? fragments name = some fragment) :
      ∀ other fragment, Assoc.get? (Grouping.unclaimed unfollowed name) other = some fragment →
        Assoc.get? fragments other = some fragment :=
    fun other fragment h => hknown other fragment (get?_unclaimed h).2
  induction h with
  | nil => exact ⟨nofun, hknown⟩
  | field _ _ ih =>
      obtain ⟨hrest, hleft⟩ := ih hknown
      exact ⟨List.forall_mem_cons.mpr ⟨.field List.mem_cons_self, fun f hf => (hrest f hf).cons⟩,
        hleft⟩
  | inline _ _ _ _ ihinner ihrest =>
      obtain ⟨hinner, hbetween⟩ := ihinner hknown
      obtain ⟨hrest, hleft⟩ := ihrest hbetween
      refine ⟨List.forall_mem_append.mpr ⟨fun f hf => ?_, fun f hf => (hrest f hf).cons⟩, hleft⟩
      exact .inline List.mem_cons_self (hinner f hf)
  | spread _ hfragment _ _ _ ihinner ihrest =>
      obtain ⟨hinner, hbetween⟩ := ihinner (hunclaimed _ hknown)
      obtain ⟨hrest, hleft⟩ := ihrest hbetween
      refine ⟨List.forall_mem_append.mpr ⟨fun f hf => ?_, fun f hf => (hrest f hf).cons⟩, hleft⟩
      exact .spread List.mem_cons_self (hknown _ _ hfragment) (hinner f hf)
  | otherSpread _ _ _ _ ih =>
      obtain ⟨hrest, hleft⟩ := ih (hunclaimed _ hknown)
      exact ⟨fun f hf => (hrest f hf).cons, hleft⟩
  | followed _ _ ih | leftOut _ _ ih =>
      obtain ⟨hrest, hleft⟩ := ih hknown
      exact ⟨fun f hf => (hrest f hf).cons, hleft⟩

end FragmentTable

/-! ## The parts of a response -/

namespace Setting

open FragmentTable

variable {setting : Setting} {n m : ℕ}

theorem leads_of_mem_groupsOf {t : TypeDef} {sets : List SelectionSet} {key : String}
    {nodes : List Field} {f : Field} (h : (key, nodes) ∈ setting.groupsOf t sets)
    (hf : f ∈ nodes) : Leads setting.fragments (sets.flatMap (·.selections)) f := by
  obtain ⟨fields, ⟨left, hgathers⟩, hgroups⟩ := setting.exists_selects t sets
  rw [hgroups] at h
  obtain ⟨rfl, -⟩ := Assoc.mem_rows_iff.mp h
  exact (leads_of_gathers hgathers fun _ _ h => h).1 f (List.mem_of_mem_filter hf)

/-- One level less is within the values of the fields that are selected of an object. -/
theorem setsNestWithin_of_mem_groupsOf {t : TypeDef} {sets : List SelectionSet} {key : String}
    {nodes : List Field} (hnests : SetsNestWithin setting.fragments (n + 1) sets)
    (h : (key, nodes) ∈ setting.groupsOf t sets) (hne : nodes ≠ []) :
    SetsNestWithin setting.fragments n (nodes.filterMap (·.selectionSet)) := by
  obtain ⟨node, hnode⟩ := List.exists_mem_of_ne_nil nodes hne
  refine setsNestWithin_of_forall (hnests node (leads_of_mem_groupsOf h hnode)).1 ?_
  intro set hset
  obtain ⟨f, hf, hinner⟩ := List.mem_filterMap.mp hset
  exact (hnests f (leads_of_mem_groupsOf h hf)).2 set hinner

/-! ### No part goes on for ever -/

variable (setting) in
/-- A part is found as another, or on the way to it, however deeply objects are nested and whatever
resolvers answer. -/
inductive Spawns : Task → Task → Prop
  | goOn {n m : ℕ} {task next : Task} {notes : List Note}
      (h : setting.Moves n task notes m (.goOn next)) : Spawns next task
  | part {n m : ℕ} {task part : Task} {notes : List Note} {whole : Whole} {parts : Parts}
      {place : PathSegment} (h : setting.Moves n task notes m (.parts whole parts))
      (hpart : (place, part) ∈ parts) : Spawns part task
  | orNull {type : TypeRef} {task : Task} : Spawns task (.orNull type task)

theorem acc_orNull {type : TypeRef} {task : Task} (h : Acc setting.Spawns task) :
    Acc setting.Spawns (.orNull type task) := by
  refine .intro _ fun next hnext => ?_
  cases hnext with
  | goOn h => cases h
  | part h => cases h
  | orNull => exact h

section

variable {info : ResolveInfo}

/-- The type gets smaller from a list to its items. -/
theorem acc_value (hobject : ∀ t path value, Acc setting.Spawns (.object info t path value))
    (type : TypeRef) (path : List PathSegment) (value : Json) :
    Acc setting.Spawns (.value info type path value) := by
  induction type generalizing path value with
  | named name nullable =>
      refine .intro _ fun next hnext => ?_
      cases hnext with
      | goOn h =>
          cases h with
          | object => exact hobject _ _ _
      | part h => cases h
  | list item nullable ih =>
      refine .intro _ fun next hnext => ?_
      cases hnext with
      | goOn h => cases h
      | part h hpart =>
          cases h with
          | items =>
              obtain ⟨⟨value, i⟩, -, heq⟩ := List.mem_map.mp hpart
              cases heq
              exact acc_orNull (ih _ value)

end

/-- The fields of an object come to an end if the objects do that they are completed with. -/
theorem acc_of_mem_members {parent : TypeDef} {source : Json} {path : List PathSegment}
    {groups : FieldGroups} {place : PathSegment} {part : Task}
    (hobject : ∀ key nodes, (key, nodes) ∈ groups → nodes ≠ [] → ∀ info : ResolveInfo,
      info.fieldNodes = nodes → ∀ t path value, Acc setting.Spawns (.object info t path value))
    (h : (place, part) ∈ setting.members parent source path groups) : Acc setting.Spawns part := by
  obtain ⟨⟨key, d, nodes⟩, hfield, heq⟩ := List.mem_map.mp h
  cases heq
  obtain ⟨node, rest, hnodes, hgroup, -⟩ := exists_of_mem_selectedFields hfield
  have hne : nodes ≠ [] := hnodes ▸ List.cons_ne_nil node rest
  refine acc_orNull (.intro _ fun next hnext => ?_)
  cases hnext with
  | goOn h =>
      cases h with
      | resolved => exact acc_value (hobject key nodes hgroup hne _ rfl) _ _ _
  | part h => cases h

/-- From one object to those that are the values of its fields, less is left of the document. -/
theorem acc_object {info : ResolveInfo}
    (hnests : SetsNestWithin setting.fragments n (info.fieldNodes.filterMap (·.selectionSet)))
    (t : TypeDef) (path : List PathSegment) (value : Json) :
    Acc setting.Spawns (.object info t path value) := by
  induction n generalizing info t path value with
  | zero => exact hnests.elim
  | succ n ih =>
      refine .intro _ fun next hnext => ?_
      cases hnext with
      | goOn h => cases h
      | part h hpart =>
          cases h with
          | members =>
              refine acc_of_mem_members ?_ hpart
              rintro key nodes hgroup hne info rfl
              exact ih (setsNestWithin_of_mem_groupsOf hnests hgroup hne)

/-! ### The depth is never reached -/

section

variable {object object' : ObjectCompletion}

theorem completeNamed_congr {info : ResolveInfo}
    (h : ∀ t path value, object info t path value = object' info t path value)
    (name : String) (path : List PathSegment) (value : Json) :
    completeNamed setting object info name path value =
      completeNamed setting object' info name path value := by
  simp only [completeNamed, h]

theorem complete_congr {info : ResolveInfo}
    (h : ∀ t path value, object info t path value = object' info t path value)
    (type : TypeRef) (path : List PathSegment) (value : Json) :
    complete setting object info type path value =
      complete setting object' info type path value := by
  induction type generalizing path value with
  | named name nullable => simp only [complete, completeNamed_congr h]
  | list item nullable ih => simp only [complete, ih]

/-- Fields are resolved alike if the objects are completed alike that may be their values. -/
theorem resolveFields_congr {order : Order} {parent : TypeDef} {source : Json}
    {path : List PathSegment} {groups : FieldGroups}
    (h : ∀ key nodes, (key, nodes) ∈ groups → nodes ≠ [] → ∀ info : ResolveInfo,
      info.fieldNodes = nodes →
      ∀ t path value, object info t path value = object' info t path value) :
    resolveFields setting object order parent source path groups =
      resolveFields setting object' order parent source path groups := by
  have hfield (key : String) (d : FieldDef) (nodes : List Field)
      (hmem : (key, d, nodes) ∈ setting.selectedFields parent groups) :
      resolveField setting object parent source d nodes (path ++ [.key key]) =
        resolveField setting object' parent source d nodes (path ++ [.key key]) := by
    obtain ⟨node, rest, hnodes, hgroup, -⟩ := exists_of_mem_selectedFields hmem
    have hne : nodes ≠ [] := hnodes ▸ List.cons_ne_nil node rest
    have hobject := h key nodes hgroup hne (setting.info parent d nodes (path ++ [.key key])) rfl
    simp only [resolveField, complete_congr hobject]
  unfold resolveFields
  dsimp only
  congr 2
  refine List.map_congr_left ?_
  rintro ⟨key, d, nodes⟩ hmem
  exact hfield key d nodes hmem

end

/-- Where objects nest less deeply than they may, it does not matter how deeply they may nest. -/
theorem completeObject_eq {info : ResolveInfo}
    (hnests : SetsNestWithin setting.fragments n (info.fieldNodes.filterMap (·.selectionSet)))
    (hle : n ≤ m) (t : TypeDef) (path : List PathSegment) (value : Json) :
    completeObject setting m info t path value = completeObject setting n info t path value := by
  induction n generalizing m info t path value with
  | zero => exact hnests.elim
  | succ n ih =>
      obtain ⟨m, rfl⟩ := Nat.exists_eq_succ_of_ne_zero (Nat.ne_of_gt (Nat.zero_lt_of_lt hle))
      rw [completeObject, completeObject]
      split
      · rfl
      · refine resolveFields_congr ?_
        rintro key nodes hgroup hne info rfl
        exact ih (setsNestWithin_of_mem_groupsOf hnests hgroup hne) (Nat.le_of_succ_le_succ hle)

/-! ### Operations -/

section

variable {rootType : TypeDef}
  (hnests : NestsWithin setting.fragments (n + 1) setting.operation.selectionSet.selections)
include hnests

theorem setsNestWithin_of_mem_rootGroups {key : String} {nodes : List Field}
    (h : (key, nodes) ∈ setting.groupsOf rootType [setting.operation.selectionSet])
    (hne : nodes ≠ []) :
    SetsNestWithin setting.fragments n (nodes.filterMap (·.selectionSet)) := by
  refine setsNestWithin_of_mem_groupsOf ?_ h hne
  rwa [SetsNestWithin, List.flatMap_singleton]

theorem acc_of_mem_rootParts {place : PathSegment} {part : Task}
    (h : (place, part) ∈ setting.rootParts rootType) : Acc setting.Spawns part := by
  refine acc_of_mem_members ?_ h
  rintro key nodes hgroup hne info rfl
  exact acc_object (setsNestWithin_of_mem_rootGroups hnests hgroup hne)

theorem resolveRoot_eq (hle : n ≤ m) :
    setting.resolveRoot m rootType = setting.resolveRoot n rootType := by
  have hfields : resolveFields setting (setting.completeObject m)
      (rootOrder setting.operation.operation) rootType setting.rootValue []
      (setting.groupsOf rootType [setting.operation.selectionSet]) =
      resolveFields setting (setting.completeObject n) (rootOrder setting.operation.operation)
        rootType setting.rootValue [] (setting.groupsOf rootType [setting.operation.selectionSet]) := by
    refine resolveFields_congr ?_
    rintro key nodes hgroup hne info rfl
    exact completeObject_eq (setsNestWithin_of_mem_rootGroups hnests hgroup hne) hle
  rw [resolveRoot, hfields, resolveRoot]

theorem ofSetting_eq (hle : n ≤ m) :
    Execution.ofSetting setting m = Execution.ofSetting setting n := by
  unfold Execution.ofSetting
  cases setting.schema.rootType? setting.operation.operation with
  | none => rfl
  | some rootType => simp only [resolveRoot_eq hnests hle]

end

end Setting

/-! ## Documents -/

theorem FragmentTable.weight_insert_le (fragments : FragmentTable) (name : String)
    (fragment : FragmentDefinition) :
    weight (Assoc.insert fragments name fragment) ≤
      weight fragments + fragment.selectionSet.height := by
  induction fragments with
  | nil => simp [Assoc.insert, weight]
  | cons entry rest ih =>
      obtain ⟨key, first⟩ := entry
      rw [Assoc.insert]
      split
      · simp only [weight, List.map_cons, List.sum_cons]
        omega
      · simp only [weight, List.map_cons, List.sum_cons] at ih ⊢
        omega

theorem FragmentTable.weight_ofList_le (fragments : FragmentTable) :
    weight (Assoc.ofList fragments) ≤ weight fragments := by
  induction fragments using List.reverseRecOn with
  | nil => exact le_rfl
  | append_singleton fragments last ih =>
      rw [Assoc.ofList, List.foldl_append, ← Assoc.ofList, weight_append]
      refine (weight_insert_le _ last.1 last.2).trans (Nat.add_le_add ih ?_)
      simp [weight]

namespace Document

variable {document : Document}

/-- Operations and fragments are definitions, and higher than what they select. -/
theorem sum_height_le (document : Document) :
    (document.operations.map (·.selectionSet.height)).sum +
        (document.fragments.map (·.selectionSet.height)).sum ≤
      (document.definitions.map Definition.height).sum := by
  obtain ⟨definitions, span, source⟩ := document
  simp only [operations, fragments]
  induction definitions with
  | nil => exact le_rfl
  | cons d rest ih =>
      cases d with
      | operation d =>
          have hlt : d.selectionSet.height ≤ (Definition.operation d).height := by
            simp only [Definition.height]
            omega
          simp only [List.filterMap_cons, List.map_cons, List.sum_cons]
          omega
      | fragment d =>
          have hlt : d.selectionSet.height ≤ (Definition.fragment d).height := by
            simp only [Definition.height]
            omega
          simp only [List.filterMap_cons, List.map_cons, List.sum_cons]
          omega
      | _ =>
          simp only [List.filterMap_cons, List.map_cons, List.sum_cons]
          omega

theorem nestingLimit_eq (document : Document) :
    document.nestingLimit =
      (document.definitions.map Definition.height).sum + recursionAllowance := by
  rw [nestingLimit]
  induction document.definitions with
  | nil => exact (Nat.zero_add _).symm
  | cons d rest ih => rw [List.foldr_cons, ih, List.map_cons, List.sum_cons, Nat.add_assoc]

/-- The nesting limit is enough for every operation if fragments are not spread within
themselves. -/
theorem nestsWithin_nestingLimit (hacyclic : document.fragmentTable.Acyclic)
    {operation : OperationDefinition} (h : operation ∈ document.operations) :
    document.fragmentTable.NestsWithin document.nestingLimit
      operation.selectionSet.selections := by
  have hoperation : operation.selectionSet.height ≤
      (document.operations.map (·.selectionSet.height)).sum :=
    List.le_sum_of_mem (List.mem_map_of_mem h)
  have hfragments : document.fragmentTable.weight ≤
      (document.fragments.map (·.selectionSet.height)).sum := by
    refine (FragmentTable.weight_ofList_le _).trans (le_of_eq ?_)
    rw [FragmentTable.weight, List.map_map]
    rfl
  refine (FragmentTable.nestsWithin hacyclic operation.selectionSet).mono ?_
  calc operation.selectionSet.height + document.fragmentTable.weight
      ≤ (document.operations.map (·.selectionSet.height)).sum +
          (document.fragments.map (·.selectionSet.height)).sum :=
        Nat.add_le_add hoperation hfragments
    _ ≤ (document.definitions.map Definition.height).sum := document.sum_height_le
    _ ≤ document.nestingLimit := by
        rw [nestingLimit_eq]
        exact Nat.le_add_right _ _

/-- If no fragment of the document is spread within itself, execution comes to an end: no part of
the response goes on for ever, however often it is found as another or put together of others,
and whatever resolvers answer; and the depth up to which objects are completed is never reached. -/
theorem execution_ends (hacyclic : document.fragmentTable.Acyclic) (schema : Schema)
    (input : ExecutionInput) :
    (∀ operation bindings rootType, document.chooseOperation input.operationName = .ok operation →
      Variables.coerce schema operation.variableDefinitions input.variableValues = .ok bindings →
      schema.rootType? operation.operation = some rootType →
      ∀ part ∈ (document.setting schema input operation bindings).rootParts rootType,
        Acc (document.setting schema input operation bindings).Spawns part.2) ∧
    ∀ limit, document.nestingLimit ≤ limit →
      document.executeWithin limit schema input = document.execute schema input := by
  have hnests {operation : OperationDefinition} {bindings : Json.Members}
      (hoperation : document.chooseOperation input.operationName = .ok operation) :
      (document.setting schema input operation bindings).fragments.NestsWithin
        (document.nestingLimit + 1) operation.selectionSet.selections :=
    (nestsWithin_nestingLimit hacyclic (mem_operations_of_chooseOperation hoperation)).mono
      (Nat.le_succ _)
  constructor
  · rintro operation bindings rootType hoperation - - ⟨place, part⟩ hpart
    exact Setting.acc_of_mem_rootParts (hnests hoperation) hpart
  · -- A request that comes to no operation or to no variables does not look at the limit.
    intro limit hlimit
    unfold execute executeWithin
    cases hoperation : document.chooseOperation input.operationName with
    | error fault => rfl
    | ok operation =>
        cases hbindings : Variables.coerce schema operation.variableDefinitions
            input.variableValues with
        | error errors => simp only [hbindings]
        | ok bindings =>
            have hsetting : Execution.ofSetting (document.setting schema input operation bindings)
                limit = Execution.ofSetting (document.setting schema input operation bindings)
                  document.nestingLimit := Setting.ofSetting_eq (hnests hoperation) hlimit
            simp only [hbindings]
            exact congrArg (Execution.inDocument document) hsetting

/-! ### A type whose objects go on for ever -/

/-- A field whose value is a new object, whatever it is a field of. -/
def nextField : FieldDef where
  name := "next"
  type := .named "Node" true
  resolver := some (.host fun _ memory => ({ outcome := .ok (.object []) }, memory))

def nodeType : TypeDef where
  name := "Node"
  origin := .host 1
  body := .object { fields := [("next", nextField)] }

def nodeSchema : Schema where
  directives := []
  queryType := nodeType
  mutationType := none
  subscriptionType := none
  types := [("Node", nodeType)]
  possible := []

def innerFragment : FragmentDefinition where
  name := ⟨"Inner", none⟩
  typeCondition := ⟨⟨"Node", none⟩, none⟩
  directives := []
  selectionSet := ⟨[.field {
    responseName := none
    name := ⟨"next", none⟩
    arguments := []
    directives := []
    selectionSet := none }], none⟩

/-- A fragment that spreads another below a field. -/
def outerFragment : FragmentDefinition where
  name := ⟨"Outer", none⟩
  typeCondition := ⟨⟨"Node", none⟩, none⟩
  directives := []
  selectionSet := ⟨[.field {
    responseName := none
    name := ⟨"next", none⟩
    arguments := []
    directives := []
    selectionSet := some ⟨[.spread { name := ⟨"Inner", none⟩, directives := [] }], none⟩ }], none⟩

def nodeDocument : Document where
  definitions := [
    .operation {
      operation := .query
      name := none
      variableDefinitions := []
      directives := []
      selectionSet := ⟨[.spread { name := ⟨"Outer", none⟩, directives := [] }], none⟩ },
    .fragment outerFragment,
    .fragment innerFragment]

theorem acyclic_nodeDocument : nodeDocument.fragmentTable.Acyclic := by
  have htable : nodeDocument.fragmentTable =
      [("Outer", outerFragment), ("Inner", innerFragment)] := rfl
  have hspreads {name other : String}
      (h : nodeDocument.fragmentTable.Spreads name other) : name = "Outer" ∧ other = "Inner" := by
    obtain ⟨fragment, spread, hfragment, hspread, rfl⟩ := h
    have hmem := Assoc.mem_of_get? hfragment
    rw [htable] at hmem
    rcases List.mem_cons.mp hmem with heq | hmem
    · cases heq
      obtain rfl := List.mem_singleton.mp hspread
      exact ⟨rfl, rfl⟩
    · cases List.mem_singleton.mp hmem
      cases hspread
  intro name h
  obtain ⟨_, hfirst, -⟩ := Relation.TransGen.head'_iff.mp h
  obtain ⟨_, -, hlast⟩ := Relation.TransGen.tail'_iff.mp h
  exact absurd ((hspreads hfirst).1.symm.trans (hspreads hlast).2) (by decide)

theorem execution_ends_of_next :
    nodeDocument.fragmentTable.Acyclic ∧
    (∀ operation bindings rootType, nodeDocument.chooseOperation none = .ok operation →
      Variables.coerce nodeSchema operation.variableDefinitions [] = .ok bindings →
      nodeSchema.rootType? operation.operation = some rootType →
      ∀ part ∈ (nodeDocument.setting nodeSchema {} operation bindings).rootParts rootType,
        Acc (nodeDocument.setting nodeSchema {} operation bindings).Spawns part.2) ∧
    ∀ limit, nodeDocument.nestingLimit ≤ limit →
      nodeDocument.executeWithin limit nodeSchema {} = nodeDocument.execute nodeSchema {} :=
  ⟨acyclic_nodeDocument, execution_ends acyclic_nodeDocument nodeSchema {}⟩

end Document

end GraphQL
