import Mathlib
import GraphQL.Proofs.Execution.Repetitions

/-!
# Field collection as full expansion

Execution collects fields from the set of an operation, and then from the sets of the fields in a
group.  The groups that it forms are those of the full expansion of the sets, in which a fragment is
followed wherever it is spread, without repetitions of the same field (`groupFields_eq_expansion`).
The fields in a group are different from each other, so the sets that are collected from next are
such sets again (`Grouping.Starts`).
-/

namespace GraphQL

namespace Grouping

variable {schema : Schema} {document : Document} {target : Target}
  {placed : List (Place × Selection)} {entry : Place × Selection} {place home : Place}
  {nodes : List FieldNode}

/-! ## Where field collection starts -/

/-- A selection set that fields are collected from: that of an operation or of a field. -/
inductive StartsAt (schema : Schema) (document : Document) : Place → SelectionSet → Prop
  | operation {index : ℕ} {d : OperationDefinition}
      (h : document.definitions[index]? = some (.operation d)) :
      StartsAt schema document [index] d.selectionSet
  | field {place : Place} {f : Field} {set : SelectionSet}
      (h : document.selectionAt? schema place = some (.field f))
      (hset : f.selectionSet = some set) : StartsAt schema document place set

/-- The selection sets of some operations and fields, no two of which are the same. -/
structure Starts (schema : Schema) (document : Document) (starts : List (Place × SelectionSet)) :
    Prop where
  startsAt : ∀ start ∈ starts, StartsAt schema document start.1 start.2
  nodup : (starts.map (·.1)).Nodup

theorem StartsAt.setAt? {set : SelectionSet} (h : StartsAt schema document place set) :
    Merging.setAt? (.ofDocument schema document) document place = some set := by
  cases h with
  | operation h =>
      rw [Merging.setAt?, h]
      rfl
  | field h hset => exact Document.setAt?_of_selectionAt? h hset

theorem StartsAt.homeOf {set : SelectionSet} (h : StartsAt schema document place set)
    (hentry : entry ∈ set.placed place) : document.homeOf schema entry.1 = place := by
  obtain ⟨index, hplace, -⟩ := SelectionSet.mem_placed_iff.mp hentry
  rw [hplace]
  refine Document.homeOf_cons fun f hinline => ?_
  cases h with
  | operation => cases hinline
  | field h => cases h.symm.trans hinline

/-- Field collection does not start from a fragment. -/
theorem StartsAt.ne_home {set : SelectionSet} {name : String} {fragment : FragmentDefinition}
    (h : StartsAt schema document place set)
    (hplaced : Assoc.get? document.placedTable name = some (home, fragment)) : place ≠ home := by
  rintro rfl
  obtain ⟨index, hfragment, hplace, -⟩ := Document.exists_of_placedTable hplaced
  cases h with
  | operation h =>
      obtain rfl := (List.cons.inj hplace).1
      cases h.symm.trans hfragment
  | field h =>
      rw [hplace] at h
      cases h

theorem Starts.ready {starts : List (Place × SelectionSet)}
    (h : Starts schema document starts) (target : Target) :
    Ready schema document target (starts.flatMap fun start => start.2.placed start.1)
      document.fragmentTable [] [] where
  selectionAt := by
    intro entry hentry
    obtain ⟨start, hstart, hentry⟩ := List.mem_flatMap.mp hentry
    exact Document.selectionAt?_of_mem_placed (h.startsAt start hstart).setAt? hentry
  apart := by
    refine List.pairwise_flatMap.mpr ⟨fun start _ => apart_placed start.2 start.1, ?_⟩
    refine (List.pairwise_map.mp h.nodup).imp_of_mem ?_
    intro first later hfirst hlater hne entry hentry other hother hhome
    rw [(h.startsAt first hfirst).homeOf hentry, (h.startsAt later hlater).homeOf hother] at hhome
    exact absurd hhome hne
  fresh _ _ := List.forall_mem_nil _
  ahead := by
    intro name home fragment _ hplaced
    refine ⟨fun entry hentry => ?_, List.forall_mem_nil _⟩
    obtain ⟨start, hstart, hentry⟩ := List.mem_flatMap.mp hentry
    rw [(h.startsAt start hstart).homeOf hentry]
    exact (h.startsAt start hstart).ne_home hplaced
  followed := by
    intro name home fragment hplaced hnone
    rw [Document.get?_fragmentTable, hplaced] at hnone
    cases hnone
  opened := List.forall_mem_nil _
  remains _ _ := id

/-- What selections come to is written at the places that are given. -/
theorem Expands.selectionAt? (h : Expands document.placedTable target placed nodes)
    (hplaced : ∀ entry ∈ placed, document.selectionAt? schema entry.1 = some entry.2) :
    ∀ node ∈ nodes, document.selectionAt? schema node.place = some (.field node.field) := by
  induction h with
  | nil => exact List.forall_mem_nil _
  | field _ _ ih =>
      obtain ⟨hfirst, hrest⟩ := List.forall_mem_cons.mp hplaced
      exact List.forall_mem_cons.mpr ⟨hfirst, ih hrest⟩
  | inline _ _ _ _ ihinner ihrest =>
      obtain ⟨hfirst, hrest⟩ := List.forall_mem_cons.mp hplaced
      have hset := Document.setAt?_of_selectionAt? hfirst rfl
      exact List.forall_mem_append.mpr
        ⟨ihinner fun _ => Document.selectionAt?_of_mem_placed hset, ihrest hrest⟩
  | spread _ hfragment _ _ _ ihinner ihrest =>
      refine List.forall_mem_append.mpr
        ⟨ihinner fun _ => ?_, ihrest (List.forall_mem_cons.mp hplaced).2⟩
      exact Document.selectionAt?_of_mem_placed (Document.setAt?_of_placedTable hfragment)
  | otherSpread _ _ _ ih | unknownSpread _ _ ih | leftOut _ _ ih =>
      exact ih (List.forall_mem_cons.mp hplaced).2

/-- Repetitions of fields that are written at their places may be dropped in each row. -/
theorem rows_map_unseen
    (h : ∀ node ∈ nodes, document.selectionAt? schema node.place = some (.field node.field)) :
    Assoc.rows Field.responseKey ((FieldNode.unseen [] nodes).map (·.field)) =
      (Assoc.rows (·.field.responseKey) nodes).map fun (key, row) =>
        (key, (FieldNode.firsts row).map (·.field)) := by
  have hkeys : ∀ a ∈ nodes, ∀ b ∈ nodes, a.place = b.place →
      a.field.responseKey = b.field.responseKey := by
    intro a ha b hb hplace
    have hfield := (h a ha).symm.trans (hplace ▸ h b hb)
    rw [Selection.field.inj (Option.some.inj hfield)]
  rw [FieldNode.unseen_nil, Assoc.rows_map, FieldNode.rows_firsts _ hkeys, List.map_map]
  rfl

/-- The selection sets of some fields, with their places. -/
def setsOf (nodes : List FieldNode) : List (Place × SelectionSet) :=
  nodes.filterMap fun node => node.field.selectionSet.map fun set => (node.place, set)

theorem map_snd_setsOf (nodes : List FieldNode) :
    (setsOf nodes).map (·.2) = (nodes.map (·.field)).filterMap (·.selectionSet) := by
  rw [setsOf, List.map_filterMap, List.filterMap_map]
  refine List.filterMap_congr fun node _ => ?_
  simp

theorem map_fst_setsOf_sublist (nodes : List FieldNode) :
    ((setsOf nodes).map (·.1)).Sublist (nodes.map (·.place)) := by
  induction nodes with
  | nil => exact .slnil
  | cons node rest ih =>
      rw [setsOf, List.filterMap_cons]
      cases node.field.selectionSet with
      | none => exact ih.cons _
      | some set => exact ih.cons_cons _

/-- The sets of fields that are written at their places, each of them once. -/
theorem starts_setsOf
    (h : ∀ node ∈ nodes, document.selectionAt? schema node.place = some (.field node.field))
    (hnodup : (nodes.map (·.place)).Nodup) : Starts schema document (setsOf nodes) where
  startsAt start hstart := by
    obtain ⟨node, hnode, hset⟩ := List.mem_filterMap.mp hstart
    obtain ⟨set, hinner, rfl⟩ := Option.map_eq_some_iff.mp hset
    exact .field (h node hnode) hinner
  nodup := hnodup.sublist (map_fst_setsOf_sublist nodes)

end Grouping

open Grouping in
/-- Field collection comes to an end on every document, also where fragments spread each other in
circles; and where they do not, its groups are those of the full expansion, in which a fragment is
followed wherever it is spread: the same keys in the same order, and in each group the same fields
in the same order, of which repetitions of one field are dropped.  This is for the sets of any
operations and fields that are different from each other, and the sets of the fields in a group
always are. -/
theorem groupFields_eq_expansion (target : Grouping.Target) (document : Document)
    (starts : List (Place × SelectionSet)) :
    let groups := groupFields target.schema target.bindings document.fragmentTable target.objectName
      (starts.map (·.2))
    (∃ fields left, Gathers target (starts.flatMap (·.2.selections)) document.fragmentTable fields
      left ∧ groups = Assoc.rows Field.responseKey fields) ∧
    (Starts target.schema document starts → Acyclic document.fragmentTable →
      (∃ nodes, (∀ other, Expands document.placedTable target
          (starts.flatMap fun start => start.2.placed start.1) other ↔ other = nodes) ∧
        groups = (Assoc.rows (·.field.responseKey) nodes).map fun (key, row) =>
          (key, (FieldNode.firsts row).map (·.field))) ∧
      ∀ key row, (key, row) ∈ groups → ∃ next, Starts target.schema document next ∧
        next.map (·.2) = row.filterMap (·.selectionSet)) := by
  intro groups
  obtain ⟨fields, left, hgathers, hgroups⟩ :=
    exists_gathers target document.fragmentTable (starts.map (·.2))
  rw [List.flatMap_map] at hgathers
  refine ⟨⟨fields, left, hgathers, hgroups⟩, fun hstarts hacyclic => ?_⟩
  have hready := hstarts.ready target
  obtain ⟨nodes, hexpands, rfl, -⟩ := hgathers.matches hacyclic hready (by
    rw [List.map_flatMap]
    exact List.flatMap_congr fun start _ => start.2.map_snd_placed start.1)
  have hplaces := hexpands.selectionAt? hready.selectionAt
  have hrows : groups = _ := hgroups.trans (rows_map_unseen hplaces)
  refine ⟨⟨nodes, fun other => ⟨hexpands.unique, fun h => h ▸ hexpands⟩, hrows⟩, ?_⟩
  intro key row hrow
  rw [hrows] at hrow
  obtain ⟨⟨_, members⟩, hmembers, heq⟩ := List.mem_map.mp hrow
  obtain ⟨rfl, rfl⟩ := Prod.mk.inj heq
  obtain ⟨rfl, -⟩ := Assoc.mem_rows_iff.mp hmembers
  refine ⟨_, starts_setsOf (fun node hnode => ?_) (FieldNode.nodup_firsts _), map_snd_setsOf _⟩
  exact hplaces node (List.mem_of_mem_filter ((FieldNode.firsts_sublist _).subset hnode))

/-! ## An example -/

open Grouping

theorem acyclic_of_forall_spreads {fragments : FragmentTable}
    (h : fragments.all fun entry => entry.2.selectionSet.spreads.isEmpty) : Acyclic fragments := by
  intro name hcycle
  obtain ⟨_, ⟨fragment, spread, hfragment, hspread, -⟩, -⟩ :=
    Relation.TransGen.head'_iff.mp hcycle
  have hempty := List.all_eq_true.mp h _ (Assoc.mem_of_get? hfragment)
  have hmem := SelectionSet.mem_spreads_iff.mpr hspread
  rw [List.isEmpty_iff.mp hempty] at hmem
  cases hmem

set_option maxRecDepth 3000 in
theorem acyclic_peopleDocument : Acyclic peopleDocument.fragmentTable :=
  acyclic_of_forall_spreads (by decide +kernel)

def peopleTarget : Grouping.Target := ⟨peopleSchema, [], peopleSchema.queryType.name⟩

set_option maxRecDepth 3000 in
theorem definitions_peopleDocument :
    peopleDocument.definitions[0]? = some (.operation peopleOperation) := by
  have hkind : peopleDocument.definitions[0]?.map Definition.kind = some .operationDefinition := by
    decide +kernel
  have hhead : peopleDocument.operations.head? = some peopleOperation := by
    unfold peopleOperation
    exact List.head?_eq_some_head _
  rw [Document.operations] at hhead
  cases hdefinitions : peopleDocument.definitions with
  | nil =>
      rw [hdefinitions] at hkind
      cases hkind
  | cons first rest =>
      rw [hdefinitions] at hkind hhead
      cases first with
      | operation d =>
          obtain rfl : d = peopleOperation := Option.some.inj hhead
          rfl
      | _ => cases hkind

def peopleStarts : List (Place × SelectionSet) := [([0], peopleOperation.selectionSet)]

theorem starts_people : Starts peopleSchema peopleDocument peopleStarts :=
  ⟨List.forall_mem_singleton.mpr (.operation definitions_peopleDocument), List.nodup_singleton _⟩

/-- The people that are asked for in the operation and in its fragment. -/
theorem groups_of_people :
    (Starts peopleSchema peopleDocument peopleStarts ∧ Acyclic peopleDocument.fragmentTable) ∧
      (∃ nodes, (∀ other, Expands peopleDocument.placedTable peopleTarget
          (peopleStarts.flatMap fun start => start.2.placed start.1) other ↔ other = nodes) ∧
        peopleGroups = (Assoc.rows (·.field.responseKey) nodes).map fun (key, row) =>
          (key, (FieldNode.firsts row).map (·.field))) ∧
      ∀ key row, (key, row) ∈ peopleGroups → ∃ next,
        Starts peopleSchema peopleDocument next ∧
          next.map (·.2) = row.filterMap (·.selectionSet) := by
  obtain ⟨-, hexpansion⟩ := groupFields_eq_expansion peopleTarget peopleDocument peopleStarts
  exact ⟨⟨starts_people, acyclic_peopleDocument⟩, hexpansion starts_people acyclic_peopleDocument⟩

end GraphQL
