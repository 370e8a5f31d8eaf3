import Mathlib
import GraphQL.Proofs.Rows
import GraphQL.Validation.Merging.Conflicts

/-!
# Which fragments are reached

`reach` takes fragments out of those that are left as it comes to them.  What it ends with
is closed: neither the given names nor any name that a reached fragment spreads is left
(`Closing`).  A path of spreads can therefore not lead out of the fragments that are
reached, except through the set that is not gone through (`mem_reach_of_reaches`).
-/

namespace GraphQL.Merging

/-! ## One fragment -/

theorem get?_without (left : PlacedFragments) (name other : String) :
    Assoc.get? (left.without name) other = if other = name then none else Assoc.get? left other := by
  induction left with
  | nil => simp [PlacedFragments.without, Assoc.get?]
  | cons entry rest ih =>
      rw [PlacedFragments.without] at ih ⊢
      by_cases hentry : entry.1 = name
      · rw [List.filter_cons_of_neg (by simpa using hentry), ih, Assoc.get?_cons]
        by_cases hother : other = name
        · rw [if_pos hother, if_pos hother]
        · rw [if_neg hother, if_neg hother, if_neg (fun h => hother (h.symm.trans hentry))]
      · rw [List.filter_cons_of_pos (by simpa using hentry), Assoc.get?_cons, ih,
          Assoc.get?_cons]
        by_cases hother : other = name
        · rw [if_pos hother, if_pos hother, if_neg (fun h => hentry (h.trans hother))]
        · rw [if_neg hother, if_neg hother]

section

variable {home : Place} {left : PlacedFragments} {name : String} {rest : List String}

theorem reach_of_unknown (h : Assoc.get? left name = none) :
    reach home left (name :: rest) = reach home left rest := by
  rw [reach, h]

theorem reach_of_home {fragment : FragmentDefinition}
    (h : Assoc.get? left name = some (home, fragment)) :
    reach home left (name :: rest) = reach home (left.without name) rest := by
  rw [reach, h]
  simp only [if_true]

theorem reach_of_found {place : Place} {fragment : FragmentDefinition}
    (h : Assoc.get? left name = some (place, fragment)) (hplace : place ≠ home) :
    reach home left (name :: rest) =
      ((name, place, fragment) ::
        (reach home (left.without name) (Selected.spreadsOfSet fragment.selectionSet ++ rest)).1,
       (reach home (left.without name) (Selected.spreadsOfSet fragment.selectionSet ++ rest)).2) := by
  rw [reach, h]
  simp only [hplace, if_false]

end

/-! ## All fragments -/

/-- Fragments are reached among those that are left. -/
theorem mem_of_mem_reach {home : Place} {left : PlacedFragments} {names : List String}
    {entry : String × Place × FragmentDefinition} (h : entry ∈ (reach home left names).1) :
    entry ∈ left := by
  induction left, names using reach.induct home with
  | case1 left => simp [reach] at h
  | case2 left name rest hnone ih =>
      rw [reach_of_unknown hnone] at h
      exact ih h
  | case3 left name rest fragment hsome ih =>
      rw [reach_of_home hsome] at h
      exact List.mem_of_mem_filter (ih h)
  | case4 left name rest place fragment hsome hplace _ _ _ ih =>
      rw [reach_of_found hsome hplace] at h
      rcases List.mem_cons.mp h with rfl | h
      · exact Assoc.mem_of_get? hsome
      · exact List.mem_of_mem_filter (ih h)

theorem mem_of_mem_still {home : Place} {left : PlacedFragments} {names : List String}
    {entry : String × Place × FragmentDefinition} (h : entry ∈ (reach home left names).2) :
    entry ∈ left := by
  induction left, names using reach.induct home with
  | case1 left => rwa [reach] at h
  | case2 left name rest hnone ih =>
      rw [reach_of_unknown hnone] at h
      exact ih h
  | case3 left name rest fragment hsome ih =>
      rw [reach_of_home hsome] at h
      exact List.mem_of_mem_filter (ih h)
  | case4 left name rest place fragment hsome hplace _ _ _ ih =>
      rw [reach_of_found hsome hplace] at h
      exact List.mem_of_mem_filter (ih h)

/-- Names are followed in turn. -/
theorem reach_append (home : Place) (left : PlacedFragments) (names more : List String) :
    reach home left (names ++ more) =
      ((reach home left names).1 ++ (reach home (reach home left names).2 more).1,
       (reach home (reach home left names).2 more).2) := by
  induction left, names using reach.induct home with
  | case1 left => simp [reach]
  | case2 left name rest hnone ih =>
      rw [List.cons_append, reach_of_unknown hnone, reach_of_unknown hnone, ih]
  | case3 left name rest fragment hsome ih =>
      rw [List.cons_append, reach_of_home hsome, reach_of_home hsome, ih]
  | case4 left name rest place fragment hsome hplace _ _ _ ih =>
      rw [List.cons_append, reach_of_found hsome hplace, reach_of_found hsome hplace,
        ← List.append_assoc, ih, List.cons_append]

/-- What holds of the fragments that were left at the start, of those that some names reach,
and of those that are left in the end. -/
structure Closing (home : Place) (left : PlacedFragments) (names : List String)
    (reached still : PlacedFragments) : Prop where
  names : ∀ name ∈ names, Assoc.get? still name = none
  spreads : ∀ entry ∈ reached, ∀ name ∈ Selected.spreadsOfSet entry.2.2.selectionSet,
    Assoc.get? still name = none
  /-- What is taken out has been reached. -/
  taken : ∀ name place fragment, Assoc.get? left name = some (place, fragment) → place ≠ home →
    Assoc.get? still name = none → (name, place, fragment) ∈ reached
  gone : ∀ name, Assoc.get? left name = none → Assoc.get? still name = none

theorem closing_reach (home : Place) (left : PlacedFragments) (names : List String) :
    Closing home left names (reach home left names).1 (reach home left names).2 := by
  induction left, names using reach.induct home with
  | case1 left =>
      rw [reach]
      refine ⟨by simp, by simp, fun name place fragment hsome _ hnone => ?_, fun _ h => h⟩
      rw [hsome] at hnone
      simp at hnone
  | case2 left name rest hnone ih =>
      rw [reach_of_unknown hnone]
      refine ⟨fun other hother => ?_, ih.spreads, ih.taken, ih.gone⟩
      rcases List.mem_cons.mp hother with rfl | hother
      · exact ih.gone _ hnone
      · exact ih.names other hother
  | case3 left name rest fragment hsome ih =>
      rw [reach_of_home hsome]
      have hself : Assoc.get? (left.without name) name = none := by
        rw [get?_without, if_pos rfl]
      refine ⟨fun other hother => ?_, ih.spreads, fun other place found hfound hplace => ?_,
        fun other hother => ih.gone other ?_⟩
      · rcases List.mem_cons.mp hother with rfl | hother
        · exact ih.gone _ hself
        · exact ih.names other hother
      · refine ih.taken other place found ?_ hplace
        rw [get?_without, if_neg, hfound]
        rintro rfl
        rw [hsome] at hfound
        cases hfound
        exact hplace rfl
      · rw [get?_without, hother, ite_self]
  | case4 left name rest place fragment hsome hplace _ _ _ ih =>
      rw [reach_of_found hsome hplace]
      have hself : Assoc.get? (left.without name) name = none := by
        rw [get?_without, if_pos rfl]
      refine ⟨fun other hother => ?_, fun entry hentry => ?_,
        fun other otherPlace found hfound hother hnone => ?_, fun other hother => ih.gone other ?_⟩
      · rcases List.mem_cons.mp hother with rfl | hother
        · exact ih.gone _ hself
        · exact ih.names other (List.mem_append_right _ hother)
      · rcases List.mem_cons.mp hentry with rfl | hentry
        · exact fun spread hspread => ih.names spread (List.mem_append_left _ hspread)
        · exact ih.spreads entry hentry
      · by_cases heq : other = name
        · subst heq
          rw [hsome] at hfound
          cases hfound
          exact List.mem_cons_self
        · refine List.mem_cons_of_mem _ (ih.taken other otherPlace found ?_ hother hnone)
          rw [get?_without, if_neg heq, hfound]
      · rw [get?_without, hother, ite_self]

/-! ## Paths of spreads -/

/-- A fragment that is not at the given place spreads another. -/
def SpreadsBut (s : Setting) (home : Place) (name other : String) : Prop :=
  ∃ place fragment, Assoc.get? s.fragments name = some (place, fragment) ∧ place ≠ home ∧
    other ∈ Selected.spreadsOfSet fragment.selectionSet

/-- Whatever is reached is at the end of a path of spreads. -/
theorem reaches_of_mem_reach {s : Setting} {home place : Place} {left : PlacedFragments}
    {names : List String} {name : String} {fragment : FragmentDefinition}
    (hleft : ∀ other placed, Assoc.get? left other = some placed →
      Assoc.get? s.fragments other = some placed)
    (h : (name, place, fragment) ∈ (reach home left names).1) :
    ∃ first ∈ names, Relation.ReflTransGen (SpreadsBut s home) first name ∧
      Assoc.get? s.fragments name = some (place, fragment) := by
  have hwithout : ∀ {left : PlacedFragments} {taken : String},
      (∀ other placed, Assoc.get? left other = some placed →
        Assoc.get? s.fragments other = some placed) →
      ∀ other placed, Assoc.get? (left.without taken) other = some placed →
        Assoc.get? s.fragments other = some placed := by
    intro left taken hleft other placed hother
    rw [get?_without] at hother
    split at hother
    · simp at hother
    · exact hleft other placed hother
  induction left, names using reach.induct home with
  | case1 left => simp [reach] at h
  | case2 left first rest hnone ih =>
      rw [reach_of_unknown hnone] at h
      obtain ⟨other, hother, hpath⟩ := ih hleft h
      exact ⟨other, List.mem_cons_of_mem _ hother, hpath⟩
  | case3 left first rest found hsome ih =>
      rw [reach_of_home hsome] at h
      obtain ⟨other, hother, hpath⟩ := ih (hwithout hleft) h
      exact ⟨other, List.mem_cons_of_mem _ hother, hpath⟩
  | case4 left first rest foundPlace found hsome hplace _ _ _ ih =>
      rw [reach_of_found hsome hplace] at h
      have hfirst := hleft first _ hsome
      rcases List.mem_cons.mp h with heq | h
      · cases heq
        exact ⟨name, List.mem_cons_self, .refl, hfirst⟩
      obtain ⟨other, hother, hpath, hname⟩ := ih (hwithout hleft) h
      rcases List.mem_append.mp hother with hspread | hother
      · exact ⟨first, List.mem_cons_self, hpath.head ⟨foundPlace, found, hfirst, hplace, hspread⟩,
          hname⟩
      · exact ⟨other, List.mem_cons_of_mem _ hother, hpath, hname⟩

/-- A path of spreads does not lead out of the fragments that are reached. -/
theorem mem_reach_of_reaches {s : Setting} {home place : Place} {names : List String}
    {first name : String} {fragment : FragmentDefinition} (hfirst : first ∈ names)
    (hpath : Relation.ReflTransGen (SpreadsBut s home) first name)
    (hname : Assoc.get? s.fragments name = some (place, fragment)) (hplace : place ≠ home) :
    (name, place, fragment) ∈ (reach home s.fragments names).1 := by
  have hclosing := closing_reach home s.fragments names
  refine hclosing.taken name place fragment hname hplace ?_
  induction hpath generalizing place fragment with
  | refl => exact hclosing.names first hfirst
  | @tail middle last _ hstep ih =>
      obtain ⟨middlePlace, middleFragment, hmiddle, hne, hspread⟩ := hstep
      have hreached := hclosing.taken middle _ _ hmiddle hne (ih hmiddle hne)
      exact hclosing.spreads _ hreached last hspread

end GraphQL.Merging
