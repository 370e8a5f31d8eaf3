import Mathlib
import GraphQL.Proofs.Merging.Agreement
import GraphQL.Proofs.Validation.Usages

/-!
# The fragments that an operation reaches

`Document.reachedFragments` goes through selection sets and takes the fragments that they spread,
each once.  What it ends with is closed: a fragment that is spread in one of the sets, or in a
fragment that was taken, has been taken (`mem_reachedFragments`).  So the uses of variables in
all that an operation reaches are among those that validation looks at
(`Document.Reaches.usages_subset`).
-/

namespace GraphQL

open Merging (setAt? rootOf? innerSet? placedFragments SpreadsTo)

variable {schema : Schema} {document : Document}

/-! ## Spreads -/

namespace SelectionSet

variable {selections rest : List Selection} {span : Option Span} {s : FragmentSpread}

theorem mem_spreads {set : SelectionSet} :
    s ∈ set.spreads ↔ s ∈ directSpreads set.selections ∨ s ∈ nestedSpreads set.selections := by
  obtain ⟨selections, span⟩ := set
  rw [spreads, List.mem_append]

theorem directSpreads_subset {selection : Selection} :
    directSpreads rest ⊆ directSpreads (selection :: rest) := by
  cases selection with
  | spread s => exact List.subset_cons_self _ _
  | _ => exact List.Subset.refl _

theorem nestedSpreads_subset {selection : Selection} :
    nestedSpreads rest ⊆ nestedSpreads (selection :: rest) := by
  cases selection with
  | field f =>
      obtain ⟨keyAlias, name, arguments, directives, set?, span⟩ := f
      cases set? with
      | none => exact List.Subset.refl _
      | some set =>
          rw [nestedSpreads]
          exact List.subset_append_left _ _
  | inline f =>
      obtain ⟨condition, directives, set, span⟩ := f
      rw [nestedSpreads]
      exact List.subset_append_left _ _
  | spread s => exact List.Subset.refl _

theorem mem_directSpreads (h : .spread s ∈ selections) : s ∈ directSpreads selections := by
  induction selections with
  | nil => cases h
  | cons first rest ih =>
      rcases List.mem_cons.mp h with rfl | h
      · exact List.mem_cons_self
      · exact directSpreads_subset (ih h)

theorem subset_nestedSpreads {selection : Selection} {inner : SelectionSet}
    (h : selection ∈ selections) (hinner : innerSet? selection = some inner) :
    inner.spreads ⊆ nestedSpreads selections := by
  induction selections with
  | nil => cases h
  | cons first rest ih =>
      rcases List.mem_cons.mp h with rfl | h
      · cases selection with
        | field f =>
            obtain ⟨keyAlias, name, arguments, directives, set?, span⟩ := f
            obtain rfl : set? = some inner := hinner
            rw [nestedSpreads]
            exact List.subset_append_right _ _
        | inline f =>
            obtain ⟨condition, directives, set, span⟩ := f
            obtain rfl : set = inner := Option.some.inj hinner
            rw [nestedSpreads]
            exact List.subset_append_right _ _
        | spread s => cases hinner
      · exact List.Subset.trans (ih h) nestedSpreads_subset

/-- What an inner set spreads is spread by the set around it. -/
theorem spreads_subset {set inner : SelectionSet} {selection : Selection}
    (h : selection ∈ set.selections) (hinner : innerSet? selection = some inner) :
    inner.spreads ⊆ set.spreads :=
  fun _ hs => mem_spreads.mpr (Or.inr (subset_nestedSpreads h hinner hs))

mutual

/-- The names that are spread in a set, with its inline fragments, are those of spreads. -/
theorem exists_spread_of_mem_spreadsOf {name : String} :
    ∀ {selections : List Selection} {span : Option Span},
      name ∈ Selected.spreadsOf selections →
        ∃ s ∈ SelectionSet.spreads ⟨selections, span⟩, s.name.text = name
  | selection :: rest, span, h => by
      rcases List.mem_append.mp h with h | h
      · exact exists_spread_of_mem_spreadsOfSelection h List.mem_cons_self
      · obtain ⟨s, hs, hname⟩ : ∃ s ∈ SelectionSet.spreads ⟨rest, span⟩, s.name.text = name :=
          exists_spread_of_mem_spreadsOf h
        refine ⟨s, mem_spreads.mpr ?_, hname⟩
        exact (mem_spreads.mp hs).imp (directSpreads_subset ·) (nestedSpreads_subset ·)

theorem exists_spread_of_mem_spreadsOfSelection {name : String} :
    ∀ {selection : Selection} {set : SelectionSet},
      name ∈ Selected.spreadsOfSelection selection → selection ∈ set.selections →
        ∃ s ∈ set.spreads, s.name.text = name
  | .field f, set, h, hmem => by simp [Selected.spreadsOfSelection] at h
  | .spread s, set, h, hmem => by
      obtain rfl : name = s.name.text := List.mem_singleton.mp h
      exact ⟨s, mem_spreads.mpr (Or.inl (mem_directSpreads hmem)), rfl⟩
  | .inline ⟨condition, directives, ⟨selections, innerSpan⟩, span⟩, set, h, hmem => by
      obtain ⟨s, hs, hname⟩ : ∃ s ∈ SelectionSet.spreads ⟨selections, innerSpan⟩,
          s.name.text = name := exists_spread_of_mem_spreadsOf h
      exact ⟨s, spreads_subset hmem rfl hs, hname⟩

end

end SelectionSet

/-! ## Taking fragments -/

namespace Document

theorem name_of_fragment? {name : String} {fragment : FragmentDefinition}
    (h : document.fragment? name = some fragment) : fragment.name.text = name := by
  simpa using List.find?_some h

theorem fragment?_of_mem (hnodup : (document.fragments.map (·.name.text)).Nodup)
    {fragment : FragmentDefinition} (h : fragment ∈ document.fragments) :
    document.fragment? fragment.name.text = some fragment := by
  obtain ⟨found, hfound⟩ : ∃ found, document.fragment? fragment.name.text = some found := by
    refine Option.isSome_iff_exists.mp (List.find?_isSome.mpr ⟨fragment, h, ?_⟩)
    simp
  rw [hfound, List.inj_on_of_nodup_map hnodup (List.mem_of_find?_eq_some hfound) h
    (name_of_fragment? hfound)]

variable {left : List FragmentDefinition} {spreads : List FragmentSpread}
  {fragment : FragmentDefinition} {name : String}

theorem find?_fragmentsWithout {other : String} (h : name ≠ other) :
    (fragmentsWithout other left).find? (·.name.text = name) =
      left.find? (·.name.text = name) := by
  rw [fragmentsWithout, List.find?_filter]
  refine List.find?_congr fun fragment _ => ?_
  by_cases hname : fragment.name.text = name
  · simp [hname, h]
  · simp [hname]

theorem takeSpread_sublist (left : List FragmentDefinition) (spreads : List FragmentSpread) :
    (takeSpread left spreads).1.Sublist left := by
  induction spreads generalizing left with
  | nil => exact List.Sublist.refl left
  | cons spread rest ih =>
      unfold takeSpread
      split
      · exact ih left
      · exact (ih _).trans List.filter_sublist

/-- What is left after some spreads is not spread by them. -/
theorem name_ne_of_mem_takeSpread (h : fragment ∈ (takeSpread left spreads).1) :
    ∀ spread ∈ spreads, spread.name.text ≠ fragment.name.text := by
  induction spreads generalizing left with
  | nil => simp
  | cons spread rest ih =>
      unfold takeSpread at h
      split at h
      · rename_i hnone
        refine List.forall_mem_cons.mpr ⟨fun hname => ?_, ih h⟩
        have hmem := (takeSpread_sublist left rest).subset h
        exact absurd hname.symm (by simpa using List.find?_eq_none.mp hnone fragment hmem)
      · refine List.forall_mem_cons.mpr ⟨fun hname => ?_, ih h⟩
        have hmem := (takeSpread_sublist _ rest).subset h
        exact absurd hname.symm (by simpa [fragmentsWithout] using (List.mem_filter.mp hmem).2)

/-- The fragment that counts for a name is left, or it has been taken. -/
theorem find?_or_mem_takeSpread (spreads : List FragmentSpread)
    (h : left.find? (·.name.text = name) = some fragment) :
    (takeSpread left spreads).1.find? (·.name.text = name) = some fragment ∨
      fragment ∈ (takeSpread left spreads).2 := by
  induction spreads generalizing left with
  | nil => exact Or.inl h
  | cons spread rest ih =>
      unfold takeSpread
      split
      · exact ih h
      · rename_i found hfound
        by_cases hsame : name = spread.name.text
        · subst hsame
          obtain rfl := Option.some.inj (h.symm.trans hfound)
          exact Or.inr List.mem_cons_self
        · have hleft := (find?_fragmentsWithout hsame).trans h
          exact (ih hleft).imp_right (List.mem_cons_of_mem _)

/-- The fragments that are reached are closed under spreads. -/
theorem mem_reachedFragments {waiting : List SelectionSet}
    (h : left.find? (·.name.text = fragment.name.text) = some fragment)
    (hspread : (∃ set ∈ waiting, ∃ s ∈ set.spreads, s.name.text = fragment.name.text) ∨
      ∃ other ∈ reachedFragments left waiting, ∃ s ∈ other.selectionSet.spreads,
        s.name.text = fragment.name.text) : fragment ∈ reachedFragments left waiting := by
  induction left, waiting using reachedFragments.induct with
  | case1 left => simp [reachedFragments] at hspread
  | case2 left set waiting ih =>
      rw [reachedFragments] at hspread ⊢
      rcases find?_or_mem_takeSpread set.spreads h with hleft | htaken
      · refine List.mem_append_right _ (ih hleft ?_)
        rcases hspread with ⟨inner, hinner, s, hs, hname⟩ | ⟨other, hother, hs⟩
        · rcases List.mem_cons.mp hinner with rfl | hinner
          · have hmem := List.mem_of_find?_eq_some hleft
            exact absurd hname (name_ne_of_mem_takeSpread hmem s hs)
          · exact Or.inl ⟨inner, List.mem_append_right _ hinner, s, hs, hname⟩
        · rcases List.mem_append.mp hother with hother | hother
          · have hset := List.mem_map_of_mem (f := fun d : FragmentDefinition => d.selectionSet)
              (List.mem_reverse.mpr hother)
            exact Or.inl ⟨_, List.mem_append_left _ hset, hs⟩
          · exact Or.inr ⟨other, hother, hs⟩
      · exact List.mem_append_left _ htaken

/-- The name of a fragment that is defined. -/
def fragmentNameOf? : Definition → Option String
  | .fragment d => some d.name.text
  | _ => none

theorem map_fst_placedFragments (document : Document) :
    (placedFragments document).map (·.1) = document.fragments.map (·.name.text) := by
  calc (placedFragments document).map (·.1)
      = document.definitions.zipIdx.filterMap (fragmentNameOf? ∘ Prod.fst) := by
        rw [placedFragments, List.map_filterMap]
        refine List.filterMap_congr fun entry _ => ?_
        obtain ⟨d, index⟩ := entry
        cases d <;> rfl
    _ = document.definitions.filterMap fragmentNameOf? := by
        rw [← List.filterMap_map, List.zipIdx_map_fst]
    _ = document.fragments.map (·.name.text) := by
        rw [fragments, List.map_filterMap]
        exact List.filterMap_congr fun d _ => by cases d <;> rfl

/-! ## What an operation reaches -/

/-- The definition is the operation, or a fragment that it reaches. -/
inductive Reaches (document : Document) (operation : OperationDefinition) : Definition → Prop
  | operation : Reaches document operation (.operation operation)
  | fragment {d : FragmentDefinition} (h : d ∈ document.referencedFragments operation) :
      Reaches document operation (.fragment d)

variable {operation : OperationDefinition} {d : Definition}

/-- Validation looks at the uses of variables in all definitions that the operation reaches. -/
theorem Reaches.usages_subset (h : document.Reaches operation d) :
    d.variableUsages schema ⊆ document.operationUsages schema operation := by
  intro usage husage
  cases h with
  | operation => exact List.mem_append_left _ husage
  | fragment h => exact List.mem_append_right _ (List.mem_flatMap.mpr ⟨_, h, husage⟩)

/-- A fragment is reached that is spread in something reached. -/
theorem Reaches.of_spread {s : Merging.Setting} {parent : Option TypeDef} {set : SelectionSet}
    {spread : FragmentSpread} (h : document.Reaches operation d)
    (hnodup : (document.fragments.map (·.name.text)).Nodup)
    (hroot : rootOf? s d = some (parent, set)) (hspread : spread ∈ set.spreads)
    (hfragment : fragment ∈ document.fragments) (hname : spread.name.text = fragment.name.text) :
    document.Reaches operation (.fragment fragment) := by
  refine .fragment (mem_reachedFragments (fragment?_of_mem hnodup hfragment) ?_)
  cases h with
  | operation =>
      obtain ⟨-, rfl⟩ : _ ∧ operation.selectionSet = set := by simpa [rootOf?] using hroot
      exact Or.inl ⟨_, List.mem_singleton_self _, spread, hspread, hname⟩
  | @fragment d h =>
      obtain ⟨-, rfl⟩ : _ ∧ d.selectionSet = set := by simpa [rootOf?] using hroot
      exact Or.inr ⟨d, h, spread, hspread, hname⟩

/-- The place is in a definition that the operation reaches. -/
def ReachesPlace (document : Document) (operation : OperationDefinition) (place : Place) : Prop :=
  ∃ i d, place.getLast? = some i ∧ document.definitions[i]? = some d ∧
    document.Reaches operation d

/-- The definition around a set. -/
theorem exists_root_of_setAt? {s : Merging.Setting} {place : Place} {set : SelectionSet}
    (h : setAt? s document place = some set) :
    ∃ i d parent root, place.getLast? = some i ∧ document.definitions[i]? = some d ∧
      rootOf? s d = some (parent, root) ∧ set.spreads ⊆ root.spreads := by
  induction place generalizing set with
  | nil => simp [setAt?] at h
  | cons index outer ih =>
      cases outer with
      | nil =>
          obtain ⟨⟨parent, root⟩, hroot, rfl⟩ := Option.map_eq_some_iff.mp h
          obtain ⟨d, hd, hroot⟩ := Option.bind_eq_some_iff.mp hroot
          exact ⟨index, d, parent, root, rfl, hd, hroot, List.Subset.refl _⟩
      | cons first rest =>
          obtain ⟨around, haround, hset⟩ := Option.bind_eq_some_iff.mp h
          obtain ⟨selection, hselection, hinner⟩ := Option.bind_eq_some_iff.mp hset
          obtain ⟨i, d, parent, root, hi, hd, hroot, hsubset⟩ := ih haround
          refine ⟨i, d, parent, root, ?_, hd, hroot, ?_⟩
          · rw [List.getLast?_cons_cons]
            exact hi
          · exact List.Subset.trans
              (SelectionSet.spreads_subset (List.mem_of_getElem? hselection) hinner) hsubset

/-- A place in a fragment that is spread in a place that is reached is reached. -/
theorem ReachesPlace.of_spread {place other : Place} {set : SelectionSet} {name : String}
    (h : document.ReachesPlace operation place)
    (hnodup : ((placedFragments document).map (·.1)).Nodup)
    (hset : setAt? (.ofDocument schema document) document place = some set)
    (hspread : name ∈ Selected.spreadsOfSet set)
    (hplaced : Assoc.get? (placedFragments document) name = some (other, fragment)) :
    document.ReachesPlace operation other := by
  obtain ⟨i, d, hi, hd, hreaches⟩ := h
  obtain ⟨i', d', parent, root, hi', hd', hroot, hsubset⟩ := exists_root_of_setAt? hset
  obtain rfl := Option.some.inj (hi.symm.trans hi')
  obtain rfl := Option.some.inj (hd.symm.trans hd')
  obtain ⟨index, hget, rfl, rfl⟩ := Merging.mem_placedFragments_iff.mp (Assoc.mem_of_get? hplaced)
  obtain ⟨selections, span⟩ := set
  obtain ⟨spread, hspread, hname⟩ : ∃ s ∈ SelectionSet.spreads ⟨selections, span⟩,
      s.name.text = fragment.name.text :=
    SelectionSet.exists_spread_of_mem_spreadsOf (List.mem_eraseDups.mp hspread)
  have hfragment : fragment ∈ document.fragments :=
    List.mem_filterMap.mpr ⟨_, List.mem_of_getElem? hget, rfl⟩
  exact ⟨index, .fragment fragment, rfl, hget, hreaches.of_spread
    (map_fst_placedFragments document ▸ hnodup) hroot (hsubset hspread) hfragment hname⟩

end Document

end GraphQL
