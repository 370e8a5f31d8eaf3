import Mathlib
import GraphQL.Proofs.Execution.Collection
import GraphQL.Proofs.Merging.Places
import GraphQL.Proofs.Validation.SpreadGraph

/-!
# Fragments expanded wherever they are spread

`Grouping.Expands` tells which fields selections come to if a fragment is followed wherever it is
spread, as often as it is.  Two fields that look the same are still two fields if they are written
at different places, and one field is met more than once where its fragment is followed more than
once.  So fields are given with their places (`FieldNode`).

Selections have an expansion only if it comes to an end, and then they have one
(`Grouping.Expands.unique`).

A selection is in one set of an operation, a fragment or a field, with inline fragments opened.  The
place of that set is its home (`Document.homeOf`).  The sets of a document do not share fields, so
what is collected from one of them is not met in another; within one set, selections next to each
other have nothing below them in common (`SelectionSet.pairwise_placed`).

A field that is met more than once counts where it is met first (`FieldNode.firsts`).  It makes no
difference whether repetitions are dropped from a list of fields or from the rows that the list is
sorted into (`FieldNode.rows_firsts`), and what is new in one list after another is told by the
places in the first (`FieldNode.unseen_append`).
-/

namespace GraphQL

open Merging (PlacedFragments placedFragments setAt? innerSet? setAt?_cons)

/-- A field and the place in a document where it is written. -/
structure FieldNode where
  place : Place
  field : Field

/-- The selections of a set at a place, with their own places. -/
def SelectionSet.placed (place : Place) (set : SelectionSet) : List (Place × Selection) :=
  set.selections.zipIdx.map fun (selection, index) => (index :: place, selection)

theorem SelectionSet.map_snd_placed (place : Place) (set : SelectionSet) :
    (set.placed place).map (·.2) = set.selections := by
  rw [placed, List.map_map]
  exact List.zipIdx_map_fst 0 set.selections

/-! ## The fragments of a document -/

namespace Document

/-- The fragments by name, with their places; of those that share a name the last one counts. -/
def placedTable (document : Document) : PlacedFragments := Assoc.ofList (placedFragments document)

theorem map_placedFragments (document : Document) :
    ((placedFragments document).map fun entry => (entry.1, entry.2.2)) =
      document.fragments.map fun fragment => (fragment.name.text, fragment) := by
  rw [placedFragments, fragments, List.map_filterMap, List.map_filterMap]
  conv_rhs => rw [← List.zipIdx_map_fst 0 document.definitions, List.filterMap_map]
  refine List.filterMap_congr ?_
  rintro ⟨definition, index⟩ -
  cases definition <;> rfl

theorem get?_fragmentTable (document : Document) (name : String) :
    Assoc.get? document.fragmentTable name = (Assoc.get? document.placedTable name).map (·.2) := by
  rw [fragmentTable, ← map_placedFragments]
  exact (congrArg (Assoc.get? · name) (Assoc.ofList_map (·.2) (placedFragments document))).trans
    (Assoc.get?_map (·.2) document.placedTable name)

end Document

/-! ## Expansions -/

namespace Grouping

/-- The selections come to some fields, one after the other as they are written, if a fragment
that is for the object is followed at every spread that takes part. -/
inductive Expands (fragments : PlacedFragments) (target : Target) :
    List (Place × Selection) → List FieldNode → Prop
  | nil : Expands fragments target [] []
  | field {place : Place} {f : Field} {rest : List (Place × Selection)} {nodes : List FieldNode}
      (htakes : takesPart target.schema target.bindings f.directives)
      (hrest : Expands fragments target rest nodes) :
      Expands fragments target ((place, .field f) :: rest) (⟨place, f⟩ :: nodes)
  | inline {place : Place} {f : InlineFragment} {rest : List (Place × Selection)}
      {nodes more : List FieldNode}
      (htakes : takesPart target.schema target.bindings f.directives)
      (happlies : applies target.schema target.objectName f.typeCondition)
      (hinner : Expands fragments target (f.selectionSet.placed place) nodes)
      (hrest : Expands fragments target rest more) :
      Expands fragments target ((place, .inline f) :: rest) (nodes ++ more)
  | spread {place home : Place} {s : FragmentSpread} {fragment : FragmentDefinition}
      {rest : List (Place × Selection)} {nodes more : List FieldNode}
      (htakes : takesPart target.schema target.bindings s.directives)
      (hfragment : Assoc.get? fragments s.name.text = some (home, fragment))
      (happlies : applies target.schema target.objectName (some fragment.typeCondition))
      (hinner : Expands fragments target (fragment.selectionSet.placed home) nodes)
      (hrest : Expands fragments target rest more) :
      Expands fragments target ((place, .spread s) :: rest) (nodes ++ more)
  | otherSpread {place home : Place} {s : FragmentSpread} {fragment : FragmentDefinition}
      {rest : List (Place × Selection)} {nodes : List FieldNode}
      (hfragment : Assoc.get? fragments s.name.text = some (home, fragment))
      (happlies : applies target.schema target.objectName (some fragment.typeCondition) = false)
      (hrest : Expands fragments target rest nodes) :
      Expands fragments target ((place, .spread s) :: rest) nodes
  | unknownSpread {place : Place} {s : FragmentSpread} {rest : List (Place × Selection)}
      {nodes : List FieldNode} (hnone : Assoc.get? fragments s.name.text = none)
      (hrest : Expands fragments target rest nodes) :
      Expands fragments target ((place, .spread s) :: rest) nodes
  | leftOut {place : Place} {selection : Selection} {rest : List (Place × Selection)}
      {nodes : List FieldNode} (h : LeftOut target selection)
      (hrest : Expands fragments target rest nodes) :
      Expands fragments target ((place, selection) :: rest) nodes

variable {fragments : PlacedFragments} {target : Target} {placed more : List (Place × Selection)}
  {nodes others : List FieldNode}

theorem not_leftOut_field {f : Field}
    (htakes : takesPart target.schema target.bindings f.directives) :
    ¬LeftOut target (.field f) := by
  rintro (h | h)
  exact absurd (htakes.symm.trans h) Bool.noConfusion

theorem not_leftOut_inline {f : InlineFragment}
    (htakes : takesPart target.schema target.bindings f.directives)
    (happlies : applies target.schema target.objectName f.typeCondition) :
    ¬LeftOut target (.inline f) := by
  rintro (h | h)
  · exact absurd (htakes.symm.trans h) Bool.noConfusion
  · exact absurd (happlies.symm.trans h) Bool.noConfusion

theorem not_leftOut_spread {s : FragmentSpread}
    (htakes : takesPart target.schema target.bindings s.directives) :
    ¬LeftOut target (.spread s) := by
  rintro (h | h)
  exact absurd (htakes.symm.trans h) Bool.noConfusion

/-- Selections have one expansion at most. -/
theorem Expands.unique (h : Expands fragments target placed nodes)
    (hothers : Expands fragments target placed others) : others = nodes := by
  induction h generalizing others with
  | nil =>
      cases hothers
      rfl
  | field htakes _ ih =>
      cases hothers with
      | field _ hrest => rw [ih hrest]
      | leftOut hout => exact absurd hout (not_leftOut_field htakes)
  | inline htakes happlies _ _ ihinner ihrest =>
      cases hothers with
      | inline _ _ hinner hrest => rw [ihinner hinner, ihrest hrest]
      | leftOut hout => exact absurd hout (not_leftOut_inline htakes happlies)
  | spread htakes hfragment happlies _ _ ihinner ihrest =>
      cases hothers with
      | spread _ hfragment' _ hinner hrest =>
          obtain ⟨rfl, rfl⟩ := Prod.mk.inj (Option.some.inj (hfragment.symm.trans hfragment'))
          rw [ihinner hinner, ihrest hrest]
      | otherSpread hfragment' happlies' =>
          obtain ⟨rfl, rfl⟩ := Prod.mk.inj (Option.some.inj (hfragment.symm.trans hfragment'))
          exact absurd (happlies.symm.trans happlies') Bool.noConfusion
      | unknownSpread hnone => cases hfragment.symm.trans hnone
      | leftOut hout => exact absurd hout (not_leftOut_spread htakes)
  | otherSpread hfragment happlies _ ih =>
      cases hothers with
      | spread _ hfragment' happlies' =>
          obtain ⟨rfl, rfl⟩ := Prod.mk.inj (Option.some.inj (hfragment.symm.trans hfragment'))
          exact absurd (happlies'.symm.trans happlies) Bool.noConfusion
      | otherSpread _ _ hrest | unknownSpread _ hrest | leftOut _ hrest => exact ih hrest
  | unknownSpread hnone _ ih =>
      cases hothers with
      | spread _ hfragment => cases hfragment.symm.trans hnone
      | otherSpread _ _ hrest | unknownSpread _ hrest | leftOut _ hrest => exact ih hrest
  | leftOut hout _ ih =>
      cases hothers with
      | field htakes => exact absurd hout (not_leftOut_field htakes)
      | inline htakes happlies => exact absurd hout (not_leftOut_inline htakes happlies)
      | spread htakes => exact absurd hout (not_leftOut_spread htakes)
      | otherSpread _ _ hrest | unknownSpread _ hrest | leftOut _ hrest => exact ih hrest

end Grouping

/-! ## Homes -/

namespace SelectionSet

variable {place : Place} {set : SelectionSet}

theorem mem_placed_iff {entry : Place × Selection} :
    entry ∈ set.placed place ↔
      ∃ index, entry.1 = index :: place ∧ set.selections[index]? = some entry.2 := by
  obtain ⟨here, selection⟩ := entry
  simp only [placed, List.mem_map, Prod.exists, List.mem_zipIdx_iff_getElem?, Prod.mk.injEq]
  constructor
  · rintro ⟨_, index, hselection, rfl, rfl⟩
    exact ⟨index, rfl, hselection⟩
  · rintro ⟨index, rfl, hselection⟩
    exact ⟨selection, index, hselection, rfl, rfl⟩

/-- Places of one length are different or have nothing below them in common. -/
theorem eq_of_suffix {place other inner : Place} (hlength : place.length = other.length)
    (h : place <:+ inner) (hother : other <:+ inner) : place = other :=
  (List.suffix_of_suffix_length_le h hother hlength.le).eq_of_length hlength

/-- Nothing is below two selections of a set. -/
theorem pairwise_placed (set : SelectionSet) (place : Place) :
    (set.placed place).Pairwise fun a b => ∀ inner : Place, a.1 <:+ inner → ¬b.1 <:+ inner := by
  rw [List.pairwise_iff_getElem]
  intro i j hi hj hlt inner ha hb
  simp only [placed, List.getElem_map, List.getElem_zipIdx, Nat.zero_add] at ha hb
  have heq := eq_of_suffix (by simp) ha hb
  exact absurd (List.cons.inj heq).1 (Nat.ne_of_lt hlt)

end SelectionSet

namespace Document

variable {schema : Schema} {document : Document} {place : Place} {set : SelectionSet}

/-- The selection at a place. -/
def selectionAt? (schema : Schema) (document : Document) : Place → Option Selection
  | [] => none
  | index :: place =>
    (setAt? (.ofDocument schema document) document place).bind (·.selections[index]?)

/-- The place of the set that a selection stands in, with inline fragments opened. -/
def homeOf (schema : Schema) (document : Document) : Place → Place
  | [] => []
  | _ :: place =>
    match document.selectionAt? schema place with
    | some (.inline _) => homeOf schema document place
    | _ => place

theorem homeOf_cons_of_inline {f : InlineFragment}
    (h : document.selectionAt? schema place = some (.inline f)) (index : ℕ) :
    document.homeOf schema (index :: place) = document.homeOf schema place := by
  rw [homeOf, h]

theorem homeOf_cons {index : ℕ} (h : ∀ f, document.selectionAt? schema place ≠ some (.inline f)) :
    document.homeOf schema (index :: place) = place := by
  rw [homeOf]
  split
  · next f hf => exact absurd hf (h f)
  · rfl

theorem selectionAt?_of_mem_placed {entry : Place × Selection}
    (h : setAt? (.ofDocument schema document) document place = some set)
    (hentry : entry ∈ set.placed place) :
    document.selectionAt? schema entry.1 = some entry.2 := by
  obtain ⟨index, hplace, hselection⟩ := SelectionSet.mem_placed_iff.mp hentry
  rw [hplace, selectionAt?, h]
  exact hselection

theorem setAt?_of_selectionAt? {selection : Selection}
    (h : document.selectionAt? schema place = some selection)
    (hset : innerSet? selection = some set) :
    setAt? (.ofDocument schema document) document place = some set := by
  cases place with
  | nil => cases h
  | cons index place =>
      obtain ⟨around, haround, hselection⟩ := Option.bind_eq_some_iff.mp h
      rw [setAt?_cons haround, hselection]
      exact hset

variable {name other : String} {home : Place} {fragment : FragmentDefinition}

theorem exists_of_placedTable (h : Assoc.get? document.placedTable name = some (home, fragment)) :
    ∃ index, document.definitions[index]? = some (.fragment fragment) ∧ home = [index] ∧
      fragment.name.text = name :=
  Merging.mem_placedFragments_iff.mp (Assoc.ofList_subset _ (Assoc.mem_of_get? h))

/-- Fragments of different names are at home in different places. -/
theorem placedTable_injective {fragment' : FragmentDefinition}
    (h : Assoc.get? document.placedTable name = some (home, fragment))
    (hother : Assoc.get? document.placedTable other = some (home, fragment')) : name = other := by
  obtain ⟨index, hdefinition, rfl, rfl⟩ := exists_of_placedTable h
  obtain ⟨index', hdefinition', hindex, rfl⟩ := exists_of_placedTable hother
  obtain rfl := (List.cons.inj hindex).1
  obtain rfl : fragment = fragment' := by simpa using hdefinition.symm.trans hdefinition'
  rfl

theorem setAt?_of_placedTable
    (h : Assoc.get? document.placedTable name = some (home, fragment)) :
    setAt? (.ofDocument schema document) document home = some fragment.selectionSet :=
  Merging.setAt?_of_mem_placedFragments (Assoc.ofList_subset _ (Assoc.mem_of_get? h))

theorem homeOf_of_mem_fragment {entry : Place × Selection}
    (h : Assoc.get? document.placedTable name = some (home, fragment))
    (hentry : entry ∈ fragment.selectionSet.placed home) :
    document.homeOf schema entry.1 = home := by
  obtain ⟨index, -, rfl, -⟩ := exists_of_placedTable h
  obtain ⟨i, hplace, -⟩ := SelectionSet.mem_placed_iff.mp hentry
  rw [hplace]
  exact homeOf_cons fun _ h => nomatch h

theorem homeOf_of_mem_inline {entry : Place × Selection} {f : InlineFragment}
    (h : document.selectionAt? schema place = some (.inline f))
    (hentry : entry ∈ f.selectionSet.placed place) :
    document.homeOf schema entry.1 = document.homeOf schema place := by
  obtain ⟨i, hplace, -⟩ := SelectionSet.mem_placed_iff.mp hentry
  rw [hplace]
  exact homeOf_cons_of_inline h i

end Document

/-! ## Without repetitions -/

namespace FieldNode

variable {nodes more : List FieldNode} {node : FieldNode} {seen : List Place}

/-- The nodes without those that have been met before, at the same place. -/
def firsts : List FieldNode → List FieldNode
  | [] => []
  | node :: rest => node :: (firsts rest).filter (·.place ≠ node.place)

/-- The nodes without those that have been met before, among them or at places that were seen. -/
def unseen (seen : List Place) (nodes : List FieldNode) : List FieldNode :=
  (firsts nodes).filter (·.place ∉ seen)

theorem firsts_sublist (nodes : List FieldNode) : (firsts nodes).Sublist nodes := by
  induction nodes with
  | nil => exact .slnil
  | cons node rest ih => exact (List.filter_sublist.trans ih).cons_cons node

theorem nodup_firsts (nodes : List FieldNode) : ((firsts nodes).map (·.place)).Nodup := by
  induction nodes with
  | nil => exact List.nodup_nil
  | cons node rest ih =>
      rw [firsts, List.map_cons, List.nodup_cons]
      constructor
      · simp
      · exact ih.sublist (List.filter_sublist.map _)

theorem firsts_append (nodes more : List FieldNode) :
    firsts (nodes ++ more) = firsts nodes ++ unseen (nodes.map (·.place)) more := by
  induction nodes with
  | nil => simp [firsts, unseen]
  | cons node rest ih =>
      rw [List.cons_append, firsts, ih, firsts, List.cons_append, List.filter_append, unseen,
        List.filter_filter, unseen]
      refine congrArg (fun tail => node :: (_ ++ tail)) (List.filter_congr fun other _ => ?_)
      simp

theorem unseen_nil (nodes : List FieldNode) : unseen [] nodes = firsts nodes := by
  simp [unseen]

theorem unseen_append (seen : List Place) (nodes more : List FieldNode) :
    unseen seen (nodes ++ more) =
      unseen seen nodes ++ unseen (seen ++ nodes.map (·.place)) more := by
  rw [unseen, firsts_append, List.filter_append, unseen, unseen, List.filter_filter, unseen]
  simp

/-- Nothing is new of what has been seen. -/
theorem unseen_of_subset (h : ∀ node ∈ nodes, node.place ∈ seen) : unseen seen nodes = [] := by
  rw [unseen, List.filter_eq_nil_iff]
  intro node hnode
  simpa using h node ((firsts_sublist nodes).subset hnode)

theorem unseen_singleton (h : node.place ∉ seen) : unseen seen [node] = [node] := by
  simp [unseen, firsts, h]

theorem firsts_concat_of_mem (h : node.place ∈ nodes.map (·.place)) :
    firsts (nodes ++ [node]) = firsts nodes := by
  rw [firsts_append, unseen_of_subset, List.append_nil]
  simpa using h

theorem firsts_concat_of_notMem (h : node.place ∉ nodes.map (·.place)) :
    firsts (nodes ++ [node]) = firsts nodes ++ [node] := by
  rw [firsts_append, unseen_singleton h]

/-- Repetitions may be dropped before the nodes are put in rows, or in each row after that, if what
is at one place is one node. -/
theorem rows_firsts {nodes : List FieldNode} (key : FieldNode → String)
    (h : ∀ a ∈ nodes, ∀ b ∈ nodes, a.place = b.place → key a = key b) :
    Assoc.rows key (firsts nodes) =
      (Assoc.rows key nodes).map fun entry => (entry.1, firsts entry.2) := by
  induction nodes using List.reverseRecOn with
  | nil => rfl
  | append_singleton nodes last ih =>
      have hkeys : ∀ a ∈ nodes, a.place = last.place → key a = key last := fun a ha =>
        h a (List.mem_append_left _ ha) last (by simp)
      have hrows := ih fun a ha b hb =>
        h a (List.mem_append_left _ ha) b (List.mem_append_left _ hb)
      rw [Assoc.rows_concat]
      by_cases hmem : last.place ∈ nodes.map (·.place)
      -- A repetition goes to the row of the node that it repeats, and is dropped there.
      · obtain ⟨node, hnode, hplace⟩ := List.mem_map.mp hmem
        have hrow : node ∈ nodes.filter (key · = key last) :=
          List.mem_filter.mpr ⟨hnode, by simpa using hkeys node hnode hplace⟩
        have hget : Assoc.get? (Assoc.rows key nodes) (key last) =
            some (nodes.filter (key · = key last)) := by
          rw [Assoc.get?_rows, if_neg]
          exact List.ne_nil_of_mem hrow
        rw [firsts_concat_of_mem hmem, hrows, Assoc.map_push_of_eq firsts hget]
        exact firsts_concat_of_mem (List.mem_map.mpr ⟨node, hrow, hplace⟩)
      · rw [firsts_concat_of_notMem hmem, Assoc.rows_concat, hrows,
          Assoc.map_push firsts (by simp [firsts]) fun row hrow => firsts_concat_of_notMem ?_]
        obtain ⟨rfl, -⟩ := Assoc.mem_rows_iff.mp hrow
        exact fun hin => hmem ((List.filter_sublist.map _).subset hin)

end FieldNode

end GraphQL
