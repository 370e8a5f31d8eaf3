import Mathlib
import GraphQL.Proofs.Merging.Nesting
import GraphQL.Proofs.Validation.References

/-!
# Fragments without cycles

The search for cycles of spreads goes down from every fragment once.  If it finds none, every way
along spreads comes to an end (`Document.ends_of_errors_eq_nil`): what has been visited and is not
on the way any more has been gone through, and all that it spreads before it
(`FragmentCycles.Settled`).

No selection set of such a document lies below itself (`Document.not_below_self`), so the search
for fields that cannot be merged ends, too.
-/

namespace GraphQL

open Merging (Below setAt? placedFragments rootOf? innerSet?)

variable {schema : Schema} {document : Document}

namespace Document

/-- A fragment spreads another, at any depth. -/
def Spreads (document : Document) (name other : String) : Prop :=
  ∃ fragment spread, document.fragment? name = some fragment ∧
    spread ∈ fragment.selectionSet.spreads ∧ spread.name.text = other

/-- No way along spreads from the fragment goes on for ever. -/
def Ends (document : Document) (name : String) : Prop :=
  Acc (fun other name => document.Spreads name other) name

theorem ends_of_fragment?_eq_none {name : String} (h : document.fragment? name = none) :
    document.Ends name := by
  refine Acc.intro _ fun other hspreads => ?_
  obtain ⟨fragment, -, hfragment, -, -⟩ := hspreads
  cases h.symm.trans hfragment

theorem ends_of_fragment? {name : String} {fragment : FragmentDefinition}
    (h : document.fragment? name = some fragment)
    (hspreads : ∀ spread ∈ fragment.selectionSet.spreads, document.Ends spread.name.text) :
    document.Ends name := by
  refine Acc.intro _ fun other hother => ?_
  obtain ⟨found, spread, hfound, hmem, rfl⟩ := hother
  obtain rfl := Option.some.inj (h.symm.trans hfound)
  exact hspreads spread hmem

end Document

/-! ## The search for cycles -/

namespace FragmentCycles

variable {openAt : List (String × ℕ)} {found : Search}

/-- Fragments that were visited and are not on the way have been gone through. -/
def Settled (document : Document) (openAt : List (String × ℕ)) (found : Search) : Prop :=
  ∀ name ∈ found.visited, name ∉ openAt.map (·.1) → document.Ends name

/-- What a search from fragments that are not on the way does, if it finds no cycle. -/
def Settles (document : Document) (openAt : List (String × ℕ))
    (search : List FragmentSpread → List (String × ℕ) → FragmentDefinition → Search → Search) :
    Prop :=
  ∀ path fragment found, document.fragment? fragment.name.text = some fragment →
    fragment.name.text ∉ openAt.map (·.1) → (search path openAt fragment found).errors = [] →
    found.errors = [] ∧ (Settled document openAt found →
      Settled document openAt (search path openAt fragment found) ∧
        document.Ends fragment.name.text)

theorem settled_alongSpreads
    {search : List FragmentSpread → List (String × ℕ) → FragmentDefinition → Search → Search}
    (hsearch : Settles document openAt search) {path : List FragmentSpread}
    {spreads : List FragmentSpread}
    (h : (alongSpreads document search path openAt spreads found).errors = []) :
    found.errors = [] ∧ (Settled document openAt found →
      Settled document openAt (alongSpreads document search path openAt spreads found) ∧
        ∀ spread ∈ spreads, document.Ends spread.name.text) := by
  induction spreads generalizing found with
  | nil => exact ⟨h, fun hsettled => ⟨hsettled, by simp⟩⟩
  | cons spread rest ih =>
      rw [alongSpreads] at h ⊢
      obtain ⟨hnone, hrest⟩ := ih h
      cases hopen : Assoc.get? openAt spread.name.text with
      | some start => simp [hopen] at hnone
      | none =>
          have hnotOpen : spread.name.text ∉ openAt.map (·.1) := fun hmem => by
            simpa [hopen] using Assoc.get?_isSome_iff.mpr hmem
          simp only [hopen] at hnone hrest ⊢
          cases hfragment : document.fragment? spread.name.text with
          | none =>
              simp only [hfragment] at hnone hrest ⊢
              refine ⟨hnone, fun hsettled => ⟨(hrest hsettled).1, ?_⟩⟩
              exact List.forall_mem_cons.mpr
                ⟨Document.ends_of_fragment?_eq_none hfragment, (hrest hsettled).2⟩
          | some fragment =>
              simp only [hfragment] at hnone hrest ⊢
              have hname := Document.name_of_fragment? hfragment
              obtain ⟨hbefore, hfirst⟩ :=
                hsearch _ fragment found (hname.symm ▸ hfragment) (hname.symm ▸ hnotOpen) hnone
              refine ⟨hbefore, fun hsettled => ?_⟩
              obtain ⟨hsettled, hends⟩ := hfirst hsettled
              obtain ⟨hsettled, hothers⟩ := hrest hsettled
              exact ⟨hsettled, List.forall_mem_cons.mpr ⟨hname ▸ hends, hothers⟩⟩

/-- The search goes down far enough, as it never comes to a fragment that is on the way. -/
theorem settles_fromFragment {depth : ℕ} (hnodup : (openAt.map (·.1)).Nodup)
    (hopen : openAt.map (·.1) ⊆ document.fragments.map (·.name.text))
    (hdepth : document.fragments.length < depth + openAt.length) :
    Settles document openAt (fromFragment document depth) := by
  induction depth generalizing openAt with
  | zero =>
      have hlength := (List.subperm_of_subset hnodup hopen).length_le
      simp only [List.length_map] at hlength
      omega
  | succ depth ih =>
      intro path fragment found hfragment hnotOpen h
      rw [fromFragment] at h ⊢
      by_cases hvisited : fragment.name.text ∈ found.visited
      · rw [if_pos hvisited] at h ⊢
        exact ⟨h, fun hsettled => ⟨hsettled, hsettled _ hvisited hnotOpen⟩⟩
      · rw [if_neg hvisited] at h ⊢
        have hmem := List.mem_map_of_mem (f := (·.name.text)) (List.mem_of_find?_eq_some hfragment)
        have hbelow : Settles document ((fragment.name.text, path.length) :: openAt)
            (fromFragment document depth) := by
          refine ih (List.nodup_cons.mpr ⟨hnotOpen, hnodup⟩) ?_ ?_
          · exact List.cons_subset.mpr ⟨hmem, hopen⟩
          · simp only [List.length_cons]
            omega
        obtain ⟨hbefore, hafter⟩ := settled_alongSpreads hbelow h
        refine ⟨hbefore, fun hsettled => ?_⟩
        obtain ⟨hsettled, hspreads⟩ := hafter fun name hname hnotOpen => by
          rcases List.mem_cons.mp hname with rfl | hname
          · exact absurd List.mem_cons_self hnotOpen
          · exact hsettled name hname fun hopen => hnotOpen (List.mem_cons_of_mem _ hopen)
        have hends := Document.ends_of_fragment? hfragment hspreads
        refine ⟨fun name hname hnotOpen => ?_, hends⟩
        by_cases heq : name = fragment.name.text
        · exact heq ▸ hends
        · exact hsettled name hname fun hopen =>
            (List.mem_cons.mp hopen).elim heq hnotOpen

/-! ### All fragments -/

theorem visited_subset_alongSpreads
    {search : List FragmentSpread → List (String × ℕ) → FragmentDefinition → Search → Search}
    (hsearch : ∀ path fragment found,
      found.visited ⊆ (search path openAt fragment found).visited)
    (path : List FragmentSpread) (spreads : List FragmentSpread) (found : Search) :
    found.visited ⊆ (alongSpreads document search path openAt spreads found).visited := by
  induction spreads generalizing found with
  | nil => exact List.Subset.refl _
  | cons spread rest ih =>
      rw [alongSpreads]
      refine List.Subset.trans ?_ (ih _)
      split
      · exact List.Subset.refl _
      · split
        · exact hsearch _ _ _
        · exact List.Subset.refl _

theorem visited_subset_fromFragment (depth : ℕ) (path : List FragmentSpread)
    (fragment : FragmentDefinition) :
    found.visited ⊆ (fromFragment document depth path openAt fragment found).visited := by
  induction depth generalizing openAt path fragment found with
  | zero => exact List.Subset.refl _
  | succ depth ih =>
      rw [fromFragment]
      split
      · exact List.Subset.refl _
      · refine List.Subset.trans (List.subset_cons_self fragment.name.text _) ?_
        exact visited_subset_alongSpreads (fun path fragment _ => ih path fragment) path _
          { found with visited := fragment.name.text :: found.visited }

theorem mem_visited_fromFragment (depth : ℕ) (path : List FragmentSpread)
    (fragment : FragmentDefinition) : fragment.name.text ∈
      (fromFragment document (depth + 1) path openAt fragment found).visited := by
  by_cases hvisited : fragment.name.text ∈ found.visited
  · exact visited_subset_fromFragment (depth + 1) path fragment hvisited
  · rw [fromFragment]
    simp only [if_neg hvisited]
    exact visited_subset_alongSpreads
      (fun path fragment _ => visited_subset_fromFragment depth path fragment) path _
      { found with visited := fragment.name.text :: found.visited } List.mem_cons_self

/-- What the search ends with. -/
def searched (document : Document) : Search :=
  document.fragments.foldl (fun search fragment =>
    fromFragment document (document.fragments.length + 1) [] [] fragment search) {}

/-- The search goes down from the first fragment of every name.  When it comes to another one of the
name, it has been there. -/
theorem searched_induction {P : Search → Prop} (hstart : P {})
    (hstep : ∀ fragment found, document.fragment? fragment.name.text = some fragment → P found →
      P (fromFragment document (document.fragments.length + 1) [] [] fragment found)) :
    P (searched document) ∧
      ∀ fragment ∈ document.fragments, fragment.name.text ∈ (searched document).visited := by
  have hall (fragments : List FragmentDefinition) :
      ∀ (earlier : List FragmentDefinition) (found : Search),
        document.fragments = earlier ++ fragments →
        (∀ fragment ∈ earlier, fragment.name.text ∈ found.visited) → P found →
        let result := fragments.foldl (fun search fragment => fromFragment document
          (document.fragments.length + 1) [] [] fragment search) found
        P result ∧ ∀ fragment ∈ document.fragments, fragment.name.text ∈ result.visited := by
    induction fragments with
    | nil =>
        intro earlier found heq hearlier hfound
        exact ⟨hfound, by simpa [heq] using hearlier⟩
    | cons fragment rest ih =>
        intro earlier found heq hearlier hfound
        refine ih (earlier ++ [fragment]) _ (by simp [heq]) ?_ ?_
        · intro other hother
          rcases List.mem_append.mp hother with hother | hother
          · exact visited_subset_fromFragment _ _ _ (hearlier other hother)
          · obtain rfl := List.mem_singleton.mp hother
            exact mem_visited_fromFragment _ _ _
        · by_cases hvisited : fragment.name.text ∈ found.visited
          · show P (fromFragment document (document.fragments.length + 1) [] [] fragment found)
            rw [fromFragment, if_pos hvisited]
            exact hfound
          · have hfirst : document.fragment? fragment.name.text = some fragment := by
              have hnone : earlier.find? (·.name.text = fragment.name.text) = none := by
                refine List.find?_eq_none.mpr fun other hother hname => hvisited ?_
                rw [← of_decide_eq_true hname]
                exact hearlier other hother
              rw [Document.fragment?, heq, List.find?_append, hnone, Option.none_or]
              exact List.find?_cons_of_pos (decide_eq_true rfl)
            exact hstep fragment found hfirst hfound
  exact hall document.fragments [] {} rfl (by simp) hstart

end FragmentCycles

namespace Document

/-- Where no cycles of spreads are found, every way along spreads comes to an end. -/
theorem ends_of_errors_eq_nil (h : FragmentCycles.errors document = []) (name : String) :
    document.Ends name := by
  have hsearch : FragmentCycles.Settles document []
      (FragmentCycles.fromFragment document (document.fragments.length + 1)) :=
    FragmentCycles.settles_fromFragment List.nodup_nil (List.nil_subset _) (by simp)
  obtain ⟨hsettled, hvisited⟩ := FragmentCycles.searched_induction
    (P := fun found => found.errors = [] → FragmentCycles.Settled document [] found)
    (fun _ name hname => absurd hname List.not_mem_nil)
    fun fragment found hfirst hfound hnone => by
      obtain ⟨hbefore, hafter⟩ := hsearch [] fragment found hfirst List.not_mem_nil hnone
      exact (hafter (hfound hbefore)).1
  cases hfragment : document.fragment? name with
  | none => exact ends_of_fragment?_eq_none hfragment
  | some fragment =>
      have hmem := hvisited fragment (List.mem_of_find?_eq_some hfragment)
      rw [name_of_fragment? hfragment] at hmem
      exact hsettled h name hmem List.not_mem_nil

/-! ## Sets below sets -/

theorem mem_fragments_of_getElem? {i : ℕ} {fragment : FragmentDefinition}
    (h : document.definitions[i]? = some (.fragment fragment)) : fragment ∈ document.fragments :=
  List.mem_filterMap.mpr ⟨_, List.mem_of_getElem? h, rfl⟩

section

variable {s : Merging.Setting} {place other : Place}

/-- The second place is in a fragment that the first one leads to, by way of a spread in a set at
or below it. -/
def Enters (s : Merging.Setting) (document : Document) (place other : Place) : Prop :=
  ∃ before after set first name i fragment,
    setAt? s document (before ++ place) = some set ∧
    first ∈ Selected.spreadsOfSet set ∧ Relation.ReflTransGen document.Spreads first name ∧
    document.definitions[i]? = some (.fragment fragment) ∧ fragment.name.text = name ∧
    other = after ++ [i]

variable (hs : s.fragments = placedFragments document)
  (hnodup : (document.fragments.map (·.name.text)).Nodup)
include hnodup

/-- What is spread at or below the set of a fragment is spread by the fragment. -/
theorem spreads_of_mem_spreadsOfSet {i : ℕ} {fragment : FragmentDefinition} {inner : Place}
    {set : SelectionSet} {name : String}
    (hfragment : document.definitions[i]? = some (.fragment fragment))
    (hset : setAt? s document (inner ++ [i]) = some set)
    (hname : name ∈ Selected.spreadsOfSet set) : document.Spreads fragment.name.text name := by
  obtain ⟨selections, span⟩ := set
  obtain ⟨spread, hspread, hname⟩ : ∃ s ∈ SelectionSet.spreads ⟨selections, span⟩,
      s.name.text = name :=
    SelectionSet.exists_spread_of_mem_spreadsOf (List.mem_eraseDups.mp hname)
  obtain ⟨i', d, parent, root, hi', hd, hroot, hsubset⟩ := exists_root_of_setAt? hset
  obtain rfl : i = i' := by simpa using hi'
  obtain rfl : .fragment fragment = d := Option.some.inj (hfragment.symm.trans hd)
  obtain ⟨-, rfl⟩ : _ ∧ fragment.selectionSet = root := by simpa [rootOf?] using hroot
  exact ⟨fragment, spread, fragment?_of_mem hnodup (mem_fragments_of_getElem? hfragment),
    hsubset hspread, hname⟩

include hs

/-- Places that lie below another are nested in it, or entered from it. -/
theorem nested_or_enters (h : Relation.TransGen (Below s document) place other) :
    (∃ first rest, other = (first :: rest) ++ place) ∨ Enters s document place other := by
  induction h with
  | single h =>
      cases h with
      | nested index => exact .inl ⟨index, [], rfl⟩
      | spread hset hname hfragment =>
          obtain ⟨i, hdefinition, rfl, rfl⟩ :=
            Merging.mem_placedFragments_iff.mp (hs ▸ Assoc.mem_of_get? hfragment)
          exact .inr ⟨[], [], _, _, _, i, _, hset, hname, .refl, hdefinition, rfl, rfl⟩
  | @tail middle last _ h ih =>
      cases h with
      | nested index =>
          rcases ih with ⟨first, rest, rfl⟩ |
            ⟨before, after, set, first, name, i, fragment, hset, hfirst, hpath, hi, hname, rfl⟩
          · exact .inl ⟨index, first :: rest, rfl⟩
          · exact .inr ⟨before, index :: after, set, first, name, i, fragment, hset, hfirst, hpath,
              hi, hname, rfl⟩
      | spread hset hname hfragment =>
          obtain ⟨j, hdefinition, rfl, rfl⟩ :=
            Merging.mem_placedFragments_iff.mp (hs ▸ Assoc.mem_of_get? hfragment)
          rcases ih with ⟨first, rest, rfl⟩ |
            ⟨before, after, set, first, name, i, fragment, hset', hfirst, hpath, hi, rfl, rfl⟩
          · exact .inr ⟨first :: rest, [], _, _, _, j, _, hset, hname, .refl, hdefinition, rfl, rfl⟩
          · have hspreads := spreads_of_mem_spreadsOfSet hnodup hi hset hname
            exact .inr ⟨before, [], set, first, _, j, _, hset', hfirst, hpath.tail hspreads,
              hdefinition, rfl, rfl⟩

/-- No selection set lies below itself if every way along spreads comes to an end. -/
theorem not_below_self (hends : ∀ name, document.Ends name) :
    ¬ Relation.TransGen (Below s document) place place := by
  intro h
  rcases nested_or_enters hs hnodup h with ⟨first, rest, heq⟩ |
    ⟨before, after, set, first, name, i, fragment, hset, hfirst, hpath, hi, rfl, rfl⟩
  · have hlength := congrArg List.length heq
    simp only [List.length_append, List.length_cons] at hlength
    omega
  · rw [← List.append_assoc] at hset
    have hback := spreads_of_mem_spreadsOfSet hnodup hi hset hfirst
    exact Merging.not_transGen_self_of_acc (hends _) (Relation.TransGen.head' hback hpath)

end

/-! ## The search for fields that cannot be merged -/

theorem errors_eq_nil_of_satisfies (h : document.Satisfies schema Rule.noFragmentCycles) :
    FragmentCycles.errors document = [] := by
  obtain ⟨depth, _, -, -, halone⟩ := exists_alone_eq_nil h
  rwa [Rule.alone_of_stop rfl rfl] at halone

/-- In a document of fragments with names of their own, and without cycles, the search for fields
that cannot be merged comes to an end. -/
theorem isSome_search?_of_satisfies (hnames : ((placedFragments document).map (·.1)).Nodup)
    (h : document.Satisfies schema Rule.noFragmentCycles) :
    (Merging.search? schema document).isSome := by
  rw [map_fst_placedFragments] at hnames
  refine Merging.isSome_search?_of_not_below_self fun place set _ => ?_
  exact not_below_self rfl hnames (ends_of_errors_eq_nil (errors_eq_nil_of_satisfies h))

end Document

end GraphQL
