import Mathlib
import GraphQL.Proofs.Validation.Cycles
import GraphQL.Proofs.Validation.Findings
import GraphQL.Proofs.Validation.SpreadGraph

/-!
# The cycles of spreads that are reported

The search for cycles needs no bound on its depth.  `Runs` is the search without one: it may come to
a fragment that is not on the way, or back to one that is, and there are only so many fragments.
So it comes to an end with what `FragmentCycles.searched` ends with (`runs_iff`).

What is reported are cycles.  On the way to a fragment the spreads behind every open fragment lead
to where the search is (`OnWay`), so a spread of an open fragment closes a way
(`reports_alongSpreads`).  And every cycle leads to a report, as nothing is left out: where nothing
is reported, all that was visited has been gone through (`Document.ends_of_errors_eq_nil`).
-/

namespace GraphQL

namespace FragmentCycles

/-! ## The search without a bound -/

/-- What a search is to do: to search from fragments, or to follow spreads, in turn. -/
inductive Task where
  | fragments (fragments : List FragmentDefinition)
  | spreads (spreads : List FragmentSpread)

/-- A search with nothing but the fragments it has come to and those on the way comes to an end.
It starts with what was found before, and ends with what is found then. -/
inductive Runs (document : Document) : List FragmentSpread → List (String × ℕ) → Task → Search →
    Search → Prop
  | noFragments {path openAt found} : Runs document path openAt (.fragments []) found found
  | visited {path openAt fragment rest found result} (h : fragment.name.text ∈ found.visited)
      (hrest : Runs document path openAt (.fragments rest) found result) :
      Runs document path openAt (.fragments (fragment :: rest)) found result
  | fresh {path openAt fragment rest found between result}
      (h : fragment.name.text ∉ found.visited)
      (hspreads : Runs document path ((fragment.name.text, path.length) :: openAt)
        (.spreads fragment.selectionSet.spreads)
        { found with visited := fragment.name.text :: found.visited } between)
      (hrest : Runs document path openAt (.fragments rest) between result) :
      Runs document path openAt (.fragments (fragment :: rest)) found result
  | noSpreads {path openAt found} : Runs document path openAt (.spreads []) found found
  | closes {path openAt spread rest found result start}
      (h : Assoc.get? openAt spread.name.text = some start)
      (hrest : Runs document path openAt (.spreads rest)
        { found with errors := found.errors ++ [cycleError (path.drop start) spread] } result) :
      Runs document path openAt (.spreads (spread :: rest)) found result
  | undefined {path openAt spread rest found result}
      (h : Assoc.get? openAt spread.name.text = none)
      (hfragment : document.fragment? spread.name.text = none)
      (hrest : Runs document path openAt (.spreads rest) found result) :
      Runs document path openAt (.spreads (spread :: rest)) found result
  | follows {path openAt spread fragment rest found between result}
      (h : Assoc.get? openAt spread.name.text = none)
      (hfragment : document.fragment? spread.name.text = some fragment)
      (hbelow : Runs document (path ++ [spread]) openAt (.fragments [fragment]) found between)
      (hrest : Runs document path openAt (.spreads rest) between result) :
      Runs document path openAt (.spreads (spread :: rest)) found result

variable {document : Document} {path : List FragmentSpread} {openAt : List (String × ℕ)}
  {found result other : Search}

/-- A search ends in one way. -/
theorem Runs.unique {task : Task} (h : Runs document path openAt task found result)
    (h' : Runs document path openAt task found other) : result = other := by
  induction h generalizing other with
  | noFragments => cases h'; rfl
  | visited hvisited _ ih =>
      cases h' with
      | visited _ hrest => exact ih hrest
      | fresh hfresh => exact absurd hvisited hfresh
  | fresh hfresh _ _ ihSpreads ih =>
      cases h' with
      | visited hvisited => exact absurd hvisited hfresh
      | fresh _ hspreads hrest =>
          obtain rfl := ihSpreads hspreads
          exact ih hrest
  | noSpreads => cases h'; rfl
  | closes hopen _ ih =>
      cases h' with
      | closes h hrest =>
          obtain rfl := Option.some.inj (hopen.symm.trans h)
          exact ih hrest
      | undefined h => cases hopen.symm.trans h
      | follows h => cases hopen.symm.trans h
  | undefined hopen hfragment _ ih =>
      cases h' with
      | closes h => cases hopen.symm.trans h
      | undefined _ _ hrest => exact ih hrest
      | follows _ h => cases hfragment.symm.trans h
  | follows hopen hfragment _ _ ihBelow ih =>
      cases h' with
      | closes h => cases hopen.symm.trans h
      | undefined _ h => cases hfragment.symm.trans h
      | follows _ h hbelow hrest =>
          obtain rfl := Option.some.inj (hfragment.symm.trans h)
          obtain rfl := ihBelow hbelow
          exact ih hrest

theorem Runs.cons {fragment : FragmentDefinition} {rest : List FragmentDefinition}
    {between : Search} (h : Runs document path openAt (.fragments [fragment]) found between)
    (hrest : Runs document path openAt (.fragments rest) between result) :
    Runs document path openAt (.fragments (fragment :: rest)) found result := by
  cases h with
  | visited hvisited hnone =>
      cases hnone
      exact .visited hvisited hrest
  | fresh hfresh hspreads hnone =>
      cases hnone
      exact .fresh hfresh hspreads hrest

/-- A search from fragments of the document that are not on the way is one without a bound. -/
def RunsFrom (document : Document) (openAt : List (String × ℕ))
    (search : List FragmentSpread → List (String × ℕ) → FragmentDefinition → Search → Search) :
    Prop :=
  ∀ path fragment found, fragment ∈ document.fragments →
    fragment.name.text ∉ openAt.map (·.1) →
    Runs document path openAt (.fragments [fragment]) found (search path openAt fragment found)

theorem runs_alongSpreads
    {search : List FragmentSpread → List (String × ℕ) → FragmentDefinition → Search → Search}
    (hsearch : RunsFrom document openAt search) (path : List FragmentSpread)
    (spreads : List FragmentSpread) (found : Search) :
    Runs document path openAt (.spreads spreads) found
      (alongSpreads document search path openAt spreads found) := by
  induction spreads generalizing found with
  | nil => exact .noSpreads
  | cons spread rest ih =>
      rw [alongSpreads]
      cases hopen : Assoc.get? openAt spread.name.text with
      | some start => exact .closes hopen (ih _)
      | none =>
          cases hfragment : document.fragment? spread.name.text with
          | none => exact .undefined hopen hfragment (ih _)
          | some fragment =>
              refine .follows hopen hfragment (hsearch _ fragment found ?_ ?_) (ih _)
              · exact List.mem_of_find?_eq_some hfragment
              · rw [Document.name_of_fragment? hfragment]
                intro hmem
                have hsome := Assoc.get?_isSome_iff.mpr hmem
                rw [hopen] at hsome
                cases hsome

/-- The number of fragments is bound enough: no two fragments on the way share a name. -/
theorem runs_fromFragment {depth : ℕ} (hnodup : (openAt.map (·.1)).Nodup)
    (hopen : openAt.map (·.1) ⊆ document.fragments.map (·.name.text))
    (hdepth : document.fragments.length < depth + openAt.length) :
    RunsFrom document openAt (fromFragment document depth) := by
  induction depth generalizing openAt with
  | zero =>
      have hlength := (List.subperm_of_subset hnodup hopen).length_le
      simp only [List.length_map] at hlength
      omega
  | succ depth ih =>
      intro path fragment found hfragment hnotOpen
      rw [fromFragment]
      by_cases hvisited : fragment.name.text ∈ found.visited
      · simp only [if_pos hvisited]
        exact .visited hvisited .noFragments
      · simp only [if_neg hvisited]
        have hmem := List.mem_map_of_mem (f := (·.name.text)) hfragment
        have hbelow : RunsFrom document ((fragment.name.text, path.length) :: openAt)
            (fromFragment document depth) := by
          refine ih (List.nodup_cons.mpr ⟨hnotOpen, hnodup⟩) ?_ ?_
          · exact List.cons_subset.mpr ⟨hmem, hopen⟩
          · simp only [List.length_cons]
            omega
        exact .fresh hvisited (runs_alongSpreads hbelow path _ _) .noFragments

/-- The search ends, with what was searched. -/
theorem runs_iff (document : Document) (result : Search) :
    Runs document [] [] (.fragments document.fragments) {} result ↔
      result = searched document := by
  have hsearch : RunsFrom document []
      (fromFragment document (document.fragments.length + 1)) :=
    runs_fromFragment List.nodup_nil (List.nil_subset _) (by simp)
  have hall (fragments : List FragmentDefinition) (hsubset : fragments ⊆ document.fragments)
      (found : Search) : Runs document [] [] (.fragments fragments) found
        (fragments.foldl (fun search fragment => fromFragment document
          (document.fragments.length + 1) [] [] fragment search) found) := by
    induction fragments generalizing found with
    | nil => exact .noFragments
    | cons fragment rest ih =>
        obtain ⟨hmem, hrest⟩ := List.cons_subset.mp hsubset
        exact (hsearch [] fragment found hmem List.not_mem_nil).cons (ih hrest _)
  have hruns : Runs document [] [] (.fragments document.fragments) {} (searched document) :=
    hall document.fragments (List.Subset.refl _) {}
  constructor
  · intro h
    exact h.unique hruns
  · rintro rfl
    exact hruns

/-! ## What is reported -/

/-- The error tells of a closed way along the graph of spreads, and points at the spreads of the way
in their order. -/
def IsCycle (document : Document) (error : ValidationError) : Prop :=
  ∃ name spreads, spreads ≠ [] ∧ document.Walk name spreads name ∧
    error.spans = spreads.map (·.span) ∧
    error.fault = .fragmentCycle name (spreads.dropLast.map (·.name.text))

theorem IsCycle.exists_transGen {error : ValidationError}
    (h : IsCycle document error) :
    ∃ name, Relation.TransGen document.Leads name name := by
  obtain ⟨name, spreads, hne, hwalk, -⟩ := h
  exact ⟨name, hwalk.transGen hne⟩

/-- The spreads behind every open fragment lead to the fragment of the name. -/
def OnWay (document : Document) (path : List FragmentSpread) (openAt : List (String × ℕ))
    (name : String) : Prop :=
  ∀ other start, Assoc.get? openAt other = some start →
    start ≤ path.length ∧ document.Walk other (path.drop start) name

variable {name : String} {spread : FragmentSpread}

theorem OnWay.open (h : OnWay document path openAt name) :
    OnWay document path ((name, path.length) :: openAt) name := by
  intro other start hget
  rw [Assoc.get?_cons] at hget
  split at hget
  · rename_i heq
    obtain rfl := Option.some.inj hget
    subst heq
    rw [List.drop_length]
    exact ⟨le_rfl, .nil _⟩
  · exact h other start hget

theorem OnWay.concat (h : OnWay document path openAt name) (hstep : document.Step name spread) :
    OnWay document (path ++ [spread]) openAt spread.name.text := by
  intro other start hget
  obtain ⟨hle, hway⟩ := h other start hget
  refine ⟨hle.trans (by simp), ?_⟩
  rw [List.drop_append_of_le_length hle]
  exact hway.concat hstep

/-- What a search from fragments reports are cycles, if that held before. -/
def Reports (document : Document) (openAt : List (String × ℕ))
    (search : List FragmentSpread → List (String × ℕ) → FragmentDefinition → Search → Search) :
    Prop :=
  ∀ path fragment found, document.fragment? fragment.name.text = some fragment →
    OnWay document path openAt fragment.name.text →
    (∀ error ∈ found.errors, IsCycle document error) →
    ∀ error ∈ (search path openAt fragment found).errors, IsCycle document error

/-- A spread of a fragment that is on the way closes a cycle. -/
theorem isCycle_cycleError {start : ℕ} (hway : OnWay document path openAt name)
    (hopen : Assoc.get? openAt spread.name.text = some start) {fragment : FragmentDefinition}
    (hfragment : document.fragment? name = some fragment)
    (hspread : fragment.selectionSet.HasSpread spread) :
    IsCycle document (cycleError (path.drop start) spread) := by
  obtain ⟨-, hwalk⟩ := hway _ _ hopen
  have hdefined : (document.fragment? spread.name.text).isSome := by
    apply hwalk.isSome_fragment?
    rw [hfragment]
    rfl
  have hclosed := hwalk.concat ⟨fragment, hfragment, hspread, hdefined⟩
  refine ⟨spread.name.text, path.drop start ++ [spread], by simp, hclosed, ?_, ?_⟩
  · simp [cycleError]
  · simp [cycleError]

theorem reports_alongSpreads
    {search : List FragmentSpread → List (String × ℕ) → FragmentDefinition → Search → Search}
    (hsearch : Reports document openAt search) {fragment : FragmentDefinition}
    (hfragment : document.fragment? name = some fragment)
    (hway : OnWay document path openAt name) {spreads : List FragmentSpread}
    (hspreads : ∀ spread ∈ spreads, fragment.selectionSet.HasSpread spread)
    (hfound : ∀ error ∈ found.errors, IsCycle document error) :
    ∀ error ∈ (alongSpreads document search path openAt spreads found).errors,
      IsCycle document error := by
  induction spreads generalizing found with
  | nil => exact hfound
  | cons spread rest ih =>
      obtain ⟨hspread, hrest⟩ := List.forall_mem_cons.mp hspreads
      rw [alongSpreads]
      apply ih hrest
      cases hopen : Assoc.get? openAt spread.name.text with
      | some start =>
          intro error herror
          rcases List.mem_append.mp herror with herror | herror
          · exact hfound error herror
          · rw [List.mem_singleton.mp herror]
            exact isCycle_cycleError hway hopen hfragment hspread
      | none =>
          cases hbelow : document.fragment? spread.name.text with
          | none => exact hfound
          | some below =>
              have hname := Document.name_of_fragment? hbelow
              have hstep : document.Step name spread := by
                refine ⟨fragment, hfragment, hspread, ?_⟩
                rw [hbelow]
                rfl
              refine hsearch _ below found (hname.symm ▸ hbelow) ?_ hfound
              rw [hname]
              exact hway.concat hstep

theorem reports_fromFragment (depth : ℕ) :
    Reports document openAt (fromFragment document depth) := by
  induction depth generalizing openAt with
  | zero => exact fun _ _ _ _ _ hfound => hfound
  | succ depth ih =>
      intro path fragment found hfragment hway hfound
      rw [fromFragment]
      by_cases hvisited : fragment.name.text ∈ found.visited
      · simp only [if_pos hvisited]
        exact hfound
      · simp only [if_neg hvisited]
        refine reports_alongSpreads ih hfragment hway.open (fun spread hspread => ?_) hfound
        exact SelectionSet.mem_spreads_iff.mp hspread

theorem isCycle_of_mem_errors (document : Document) :
    ∀ error ∈ errors document, IsCycle document error := by
  refine (searched_induction
    (P := fun found => ∀ error ∈ found.errors, IsCycle document error) ?_ ?_).1
  · intro error herror
    cases herror
  · intro fragment found hfirst hfound
    refine reports_fromFragment _ [] fragment found hfirst ?_ hfound
    intro other start hget
    cases hget

end FragmentCycles

namespace Document

open FragmentCycles (Runs searched)

variable {document : Document}

/-- A cycle is found, as from where nothing is found every way comes to an end. -/
theorem errors_ne_nil_of_transGen {name : String}
    (h : Relation.TransGen document.Leads name name) : FragmentCycles.errors document ≠ [] := by
  intro hnone
  have hspreads : Relation.TransGen document.Spreads name name := by
    refine Relation.TransGen.mono (fun name other hleads => ?_) _ _ h
    obtain ⟨spread, ⟨fragment, hfragment, hspread, -⟩, rfl⟩ := hleads
    exact ⟨fragment, spread, hfragment, SelectionSet.mem_spreads_iff.mpr hspread, rfl⟩
  exact Merging.not_transGen_self_of_acc (ends_of_errors_eq_nil hnone name) hspreads

/-- The search for cycles comes to an end, in every document, and finds one if and only if there is
one.  Every error points at the spreads of a closed way, in their order. -/
theorem reports_cycles (schema : Schema) (document : Document) :
    (∃ result, (∀ other, Runs document [] [] (.fragments document.fragments) {} other ↔
        other = result) ∧
      document.errorsOf? schema [Rule.noFragmentCycles] = some result.errors ∧
      (result.errors ≠ [] ↔ ∃ name, Relation.TransGen document.Leads name name) ∧
      ∀ error ∈ result.errors, ∃ name spreads, spreads ≠ [] ∧
        document.Walk name spreads name ∧ error.spans = spreads.map (·.span) ∧
        error.fault = .fragmentCycle name (spreads.dropLast.map (·.name.text))) := by
  refine ⟨searched document, FragmentCycles.runs_iff document, ?_, ?_, ?_⟩
  · obtain ⟨depth, -, herrors⟩ := exists_errorsOf? schema document Rule.noFragmentCycles rfl
    rw [herrors, Rule.alone_of_stop rfl rfl]
    rfl
  · constructor
    · intro hne
      obtain ⟨error, herror⟩ := List.exists_mem_of_ne_nil _ hne
      have hcycle : FragmentCycles.IsCycle document error :=
        FragmentCycles.isCycle_of_mem_errors document error herror
      exact hcycle.exists_transGen
    · rintro ⟨name, hcycle⟩
      exact errors_ne_nil_of_transGen hcycle
  · exact FragmentCycles.isCycle_of_mem_errors document

end Document

end GraphQL
