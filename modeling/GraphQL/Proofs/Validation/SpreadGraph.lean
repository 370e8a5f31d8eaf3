import Mathlib
import GraphQL.Proofs.Validation.References

/-!
# The graph of spreads

The names of fragments are the nodes of a graph.  Of the fragments that share a name the first one
counts, and an edge leads from its name to every defined name that is spread in it, at any depth.
What is spread at any depth is what the search through selection sets lists
(`SelectionSet.mem_spreads_iff`).

A way through the graph is given by the spreads along it (`Document.Walk`), as two fragments may be
joined by more than one spread.
-/

namespace GraphQL

open Merging (innerSet?)

namespace SelectionSet

variable {s : FragmentSpread}

/-- The spread stands in the set, or in a set anywhere within it. -/
inductive HasSpread (s : FragmentSpread) : SelectionSet → Prop
  | here {set : SelectionSet} (h : .spread s ∈ set.selections) : HasSpread s set
  | within {set inner : SelectionSet} {selection : Selection} (h : selection ∈ set.selections)
      (hinner : innerSet? selection = some inner) (hs : HasSpread s inner) : HasSpread s set

theorem spread_mem_of_mem_directSpreads {selections : List Selection}
    (h : s ∈ directSpreads selections) : .spread s ∈ selections := by
  induction selections with
  | nil => cases h
  | cons selection rest ih =>
      cases selection with
      | spread first =>
          rcases List.mem_cons.mp h with rfl | h
          · exact List.mem_cons_self
          · exact List.mem_cons_of_mem _ (ih h)
      | _ => exact List.mem_cons_of_mem _ (ih h)

mutual

theorem hasSpread_of_mem_spreads : ∀ (set : SelectionSet), s ∈ set.spreads → HasSpread s set
  | ⟨selections, span⟩, h => by
      rcases mem_spreads.mp h with h | h
      · exact .here (spread_mem_of_mem_directSpreads h)
      · obtain ⟨selection, inner, hmem, hinner, hs⟩ := exists_of_mem_nestedSpreads selections h
        exact .within hmem hinner hs

theorem exists_of_mem_nestedSpreads : ∀ (selections : List Selection),
    s ∈ nestedSpreads selections → ∃ selection inner, selection ∈ selections ∧
      innerSet? selection = some inner ∧ HasSpread s inner
  | [], h => by cases h
  | .field ⟨key, name, arguments, directives, some set, span⟩ :: rest, h => by
      rcases List.mem_append.mp h with h | h
      · obtain ⟨selection, inner, hmem, hinner⟩ := exists_of_mem_nestedSpreads rest h
        exact ⟨selection, inner, List.mem_cons_of_mem _ hmem, hinner⟩
      · exact ⟨_, set, List.mem_cons_self, rfl, hasSpread_of_mem_spreads set h⟩
  | .field ⟨key, name, arguments, directives, none, span⟩ :: rest, h => by
      obtain ⟨selection, inner, hmem, hinner⟩ := exists_of_mem_nestedSpreads rest h
      exact ⟨selection, inner, List.mem_cons_of_mem _ hmem, hinner⟩
  | .inline ⟨condition, directives, set, span⟩ :: rest, h => by
      rcases List.mem_append.mp h with h | h
      · obtain ⟨selection, inner, hmem, hinner⟩ := exists_of_mem_nestedSpreads rest h
        exact ⟨selection, inner, List.mem_cons_of_mem _ hmem, hinner⟩
      · exact ⟨_, set, List.mem_cons_self, rfl, hasSpread_of_mem_spreads set h⟩
  | .spread first :: rest, h => by
      obtain ⟨selection, inner, hmem, hinner⟩ := exists_of_mem_nestedSpreads rest h
      exact ⟨selection, inner, List.mem_cons_of_mem _ hmem, hinner⟩

end

/-- The spreads that are listed are those that stand anywhere in the set. -/
theorem mem_spreads_iff {set : SelectionSet} : s ∈ set.spreads ↔ HasSpread s set := by
  constructor
  · exact hasSpread_of_mem_spreads set
  · intro h
    induction h with
    | here h => exact mem_spreads.mpr (Or.inl (mem_directSpreads h))
    | within h hinner _ ih => exact spreads_subset h hinner ih

end SelectionSet

namespace Document

variable {document : Document} {name last : String} {spread : FragmentSpread}
  {way : List FragmentSpread}

/-- The spread stands in the first fragment of the name, at any depth, and the fragment that it
spreads is defined. -/
def Step (document : Document) (name : String) (spread : FragmentSpread) : Prop :=
  ∃ fragment, document.fragment? name = some fragment ∧
    fragment.selectionSet.HasSpread spread ∧ (document.fragment? spread.name.text).isSome

/-- An edge leads from one name to the other. -/
def Leads (document : Document) (name other : String) : Prop :=
  ∃ spread, document.Step name spread ∧ spread.name.text = other

/-- The spreads lead from one name to the other, one after the other. -/
inductive Walk (document : Document) : String → List FragmentSpread → String → Prop
  | nil (name : String) : Walk document name [] name
  | cons {name last : String} {spread : FragmentSpread} {rest : List FragmentSpread}
      (h : document.Step name spread) (hrest : Walk document spread.name.text rest last) :
      Walk document name (spread :: rest) last

theorem Walk.concat (hway : document.Walk name way last) (h : document.Step last spread) :
    document.Walk name (way ++ [spread]) spread.name.text := by
  induction hway with
  | nil => exact .cons h (.nil _)
  | cons hfirst _ ih => exact .cons hfirst (ih h)

theorem Walk.reflTransGen (h : document.Walk name way last) :
    Relation.ReflTransGen document.Leads name last := by
  induction h with
  | nil => exact .refl
  | cons hfirst _ ih => exact .head ⟨_, hfirst, rfl⟩ ih

/-- A way that has a step goes along an edge. -/
theorem Walk.transGen (h : document.Walk name way last) (hway : way ≠ []) :
    Relation.TransGen document.Leads name last := by
  cases h with
  | nil => exact absurd rfl hway
  | cons hfirst hrest => exact .head' ⟨_, hfirst, rfl⟩ hrest.reflTransGen

/-- Where a way comes to a fragment that is defined, it started at one. -/
theorem Walk.isSome_fragment? (h : document.Walk name way last)
    (hlast : (document.fragment? last).isSome) : (document.fragment? name).isSome := by
  cases h with
  | nil => exact hlast
  | cons hfirst _ =>
      obtain ⟨fragment, hfragment, -⟩ := hfirst
      rw [hfragment]
      rfl

end Document

end GraphQL
