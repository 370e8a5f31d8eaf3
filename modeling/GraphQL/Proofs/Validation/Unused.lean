import Mathlib
import GraphQL.Proofs.Validation.Findings
import GraphQL.Proofs.Validation.Occurrences
import GraphQL.Proofs.Validation.SpreadGraph
import GraphQL.Validation.Rules.Fragments

/-!
# What is undefined, and what is unused

Which fragments an operation reaches is told by the text (`Document.ReachesName`): those that it
spreads, and those that the first fragment of a reached name spreads.  The search through selection
sets lists the first fragments of the reached names (`Document.mem_referencedFragments_iff`), and
each of them once (`Document.nodup_referencedFragments`).

The fragments that are left over at some point of the search are those of names that were not
spread so far.  So what is found first among them is what is found first in the document.

Three rules go by what an operation reaches.  A variable that occurs in the operation, or in a
fragment that it reaches, has to be one of its own; its own variables have to occur there; and every
fragment has to be reached.  Each rule tells just what is against it, once for every occurrence,
variable or fragment (`Document.reached_and_used_exactly`).

The rules look at usages, which come with types.  What they tell hangs on no more than the place of
a usage, so they tell the same of the variables that occur in the text.
-/

namespace GraphQL

/-! ## What an operation reaches -/

namespace Document

variable {document : Document} {operation : OperationDefinition} {name : String}
  {fragment : FragmentDefinition} {left : List FragmentDefinition}
  {waiting : List SelectionSet} {spreads : List FragmentSpread}

/-- The operation leads to the name by spreads, at any depth, of its own and of the first fragments
of the names on the way. -/
inductive ReachesName (document : Document) (operation : OperationDefinition) : String → Prop
  | direct {spread : FragmentSpread} (h : operation.selectionSet.HasSpread spread) :
      ReachesName document operation spread.name.text
  | through {name : String} {fragment : FragmentDefinition} {spread : FragmentSpread}
      (hname : ReachesName document operation name)
      (hfragment : document.fragment? name = some fragment)
      (h : fragment.selectionSet.HasSpread spread) :
      ReachesName document operation spread.name.text

/-! ## One step of the search -/

/-- What is taken is the first fragment of a name that is spread. -/
theorem exists_spread_of_mem_takeSpread (h : fragment ∈ (takeSpread left spreads).2) :
    ∃ spread ∈ spreads, left.find? (·.name.text = spread.name.text) = some fragment := by
  induction spreads generalizing left with
  | nil => cases h
  | cons spread rest ih =>
      unfold takeSpread at h
      split at h
      · obtain ⟨other, hother, hfound⟩ := ih h
        exact ⟨other, List.mem_cons_of_mem _ hother, hfound⟩
      · rename_i found hfound
        rcases List.mem_cons.mp h with rfl | h
        · exact ⟨spread, List.mem_cons_self, hfound⟩
        · obtain ⟨other, hother, hfragment⟩ := ih h
          have hname : fragment.name.text = other.name.text := by
            simpa using List.find?_some hfragment
          have hne : other.name.text ≠ spread.name.text := by
            have hkept := (List.mem_filter.mp (List.mem_of_find?_eq_some hfragment)).2
            rw [← hname]
            exact of_decide_eq_true hkept
          exact ⟨other, List.mem_cons_of_mem _ hother, (find?_fragmentsWithout hne).symm.trans
            hfragment⟩

theorem mem_of_mem_takeSpread (h : fragment ∈ (takeSpread left spreads).2) : fragment ∈ left := by
  obtain ⟨spread, -, hfound⟩ := exists_spread_of_mem_takeSpread h
  exact List.mem_of_find?_eq_some hfound

/-- What is found first among the fragments that remain was found first before. -/
theorem find?_of_find?_takeSpread
    (h : (takeSpread left spreads).1.find? (·.name.text = name) = some fragment) :
    left.find? (·.name.text = name) = some fragment := by
  induction spreads generalizing left with
  | nil => exact h
  | cons spread rest ih =>
      unfold takeSpread at h
      split at h
      · exact ih h
      · have hfound := ih h
        have hname : fragment.name.text = name := by simpa using List.find?_some hfound
        have hne : name ≠ spread.name.text := by
          have hkept := (List.mem_filter.mp (List.mem_of_find?_eq_some hfound)).2
          rw [← hname]
          exact of_decide_eq_true hkept
        exact (find?_fragmentsWithout hne).symm.trans hfound

theorem nodup_takeSpread (left : List FragmentDefinition) (spreads : List FragmentSpread) :
    ((takeSpread left spreads).2.map (·.name.text)).Nodup := by
  induction spreads generalizing left with
  | nil => exact List.nodup_nil
  | cons spread rest ih =>
      unfold takeSpread
      split
      · exact ih left
      · rename_i found hfound
        rw [List.map_cons]
        refine List.nodup_cons.mpr ⟨fun hmem => ?_, ih _⟩
        obtain ⟨other, hother, hname⟩ := List.mem_map.mp hmem
        have hkept := (List.mem_filter.mp (mem_of_mem_takeSpread hother)).2
        have hfoundName : found.name.text = spread.name.text := by
          simpa using List.find?_some hfound
        exact of_decide_eq_true hkept (hname.trans hfoundName)

/-! ## The search -/

theorem mem_of_mem_reachedFragments (h : fragment ∈ reachedFragments left waiting) :
    fragment ∈ left := by
  induction left, waiting using reachedFragments.induct with
  | case1 left => simp [reachedFragments] at h
  | case2 left set waiting ih =>
      rw [reachedFragments] at h
      rcases List.mem_append.mp h with h | h
      · exact mem_of_mem_takeSpread h
      · exact (takeSpread_sublist left set.spreads).subset (ih h)

/-- Nothing is taken twice, as what remains has other names than what was taken. -/
theorem nodup_reachedFragments (left : List FragmentDefinition) (waiting : List SelectionSet) :
    ((reachedFragments left waiting).map (·.name.text)).Nodup := by
  induction left, waiting using reachedFragments.induct with
  | case1 left => simp [reachedFragments]
  | case2 left set waiting ih =>
      rw [reachedFragments, List.map_append]
      refine List.nodup_append.mpr ⟨nodup_takeSpread left set.spreads, ih, ?_⟩
      intro first hfirst second hsecond heq
      obtain ⟨taken, htaken, rfl⟩ := List.mem_map.mp hfirst
      obtain ⟨later, hlater, rfl⟩ := List.mem_map.mp hsecond
      obtain ⟨spread, hspread, hfound⟩ := exists_spread_of_mem_takeSpread htaken
      have hname : taken.name.text = spread.name.text := by simpa using List.find?_some hfound
      have hapart := name_ne_of_mem_takeSpread (mem_of_mem_reachedFragments hlater) spread hspread
      exact hapart (hname.symm.trans heq)

/-- What is taken is reached, if that holds of all that the waiting sets spread. -/
theorem reachesName_of_mem_reachedFragments
    (hleft : ∀ name fragment, left.find? (·.name.text = name) = some fragment →
      document.fragment? name = some fragment)
    (hwaiting : ∀ set ∈ waiting, ∀ spread : FragmentSpread, set.HasSpread spread →
      document.ReachesName operation spread.name.text)
    (h : fragment ∈ reachedFragments left waiting) :
    document.ReachesName operation fragment.name.text ∧
      document.fragment? fragment.name.text = some fragment := by
  induction left, waiting using reachedFragments.induct with
  | case1 left => simp [reachedFragments] at h
  | case2 left set waiting ih =>
      rw [reachedFragments] at h
      obtain ⟨hset, hothers⟩ := List.forall_mem_cons.mp hwaiting
      have htaken (taken : FragmentDefinition) (hmem : taken ∈ (takeSpread left set.spreads).2) :
          document.ReachesName operation taken.name.text ∧
            document.fragment? taken.name.text = some taken := by
        obtain ⟨spread, hspread, hfound⟩ := exists_spread_of_mem_takeSpread hmem
        have hname : taken.name.text = spread.name.text := by simpa using List.find?_some hfound
        rw [hname]
        exact ⟨hset spread (SelectionSet.mem_spreads_iff.mp hspread), hleft _ _ hfound⟩
      rcases List.mem_append.mp h with h | h
      · exact htaken fragment h
      · refine ih (fun name found hfound => ?_) (fun inner hinner spread hspread => ?_) h
        · exact hleft name found (find?_of_find?_takeSpread hfound)
        · rcases List.mem_append.mp hinner with hinner | hinner
          · obtain ⟨taken, hmem, rfl⟩ := List.mem_map.mp hinner
            obtain ⟨hreached, hfirst⟩ := htaken taken (List.mem_reverse.mp hmem)
            exact .through hreached hfirst hspread
          · exact hothers inner hinner spread hspread

/-! ## What is reached -/

theorem nodup_referencedFragments (document : Document) (operation : OperationDefinition) :
    ((document.referencedFragments operation).map (·.name.text)).Nodup :=
  nodup_reachedFragments document.fragments [operation.selectionSet]

/-- Listed are the first fragments of the names that the operation reaches. -/
theorem mem_referencedFragments_iff : fragment ∈ document.referencedFragments operation ↔
    ∃ name, document.ReachesName operation name ∧ document.fragment? name = some fragment := by
  constructor
  · intro h
    have hwaiting : ∀ set ∈ [operation.selectionSet], ∀ spread : FragmentSpread,
        set.HasSpread spread → document.ReachesName operation spread.name.text := by
      intro set hset spread hspread
      rw [List.mem_singleton.mp hset] at hspread
      exact .direct hspread
    exact ⟨fragment.name.text,
      reachesName_of_mem_reachedFragments (fun _ _ hfound => hfound) hwaiting h⟩
  · rintro ⟨name, hreached, hfragment⟩
    -- The list is closed under spreads, so it grows along every way to a name.
    induction hreached generalizing fragment with
    | @direct spread h =>
        have hname := name_of_fragment? hfragment
        refine mem_reachedFragments (hname.symm ▸ hfragment) (Or.inl ?_)
        exact ⟨operation.selectionSet, List.mem_singleton_self _, spread,
          SelectionSet.mem_spreads_iff.mpr h, hname.symm⟩
    | @through name between spread _ hbetween h ih =>
        have hname := name_of_fragment? hfragment
        refine mem_reachedFragments (hname.symm ▸ hfragment) (Or.inr ?_)
        exact ⟨between, ih hbetween, spread, SelectionSet.mem_spreads_iff.mpr h, hname.symm⟩

end Document

/-! ## Items that are told of -/

variable {schema : Schema} {document : Document} {operation : OperationDefinition}

/-- Of the items, those without the property are told of. -/
theorem filterMap_ite_none {α β : Type} (p : α → Prop) [DecidablePred p] (tell : α → β)
    (items : List α) :
    (items.filterMap fun item => if p item then none else some (tell item)) =
      (items.filter fun item => ¬ p item).map tell := by
  induction items with
  | nil => rfl
  | cons item rest ih => by_cases h : p item <;> simp [h, ih]

/-! ## Variables -/

/-- The error of a variable that occurs where the operation has none of that name. -/
def Variable.undefinedIn (operation : OperationDefinition) (v : Variable) : ValidationError :=
  ⟨.undefinedVariable v.name.text operation.nameText?, [v.span, operation.span]⟩

/-- The error of a variable of the operation that does not occur. -/
def VariableDefinition.unusedIn (operation : OperationDefinition) (d : VariableDefinition) :
    ValidationError :=
  ⟨.unusedVariable d.var.name.text operation.nameText?, [d.span]⟩

namespace Document

theorem map_name_operationUsages (schema : Schema) (document : Document)
    (operation : OperationDefinition) :
    (document.operationUsages schema operation).map (·.name) =
      (document.usedVariables operation).map (·.name.text) := by
  have hplaces := congrArg (List.map Prod.fst)
    (document.map_place_operationUsages schema operation)
  rw [List.map_map, List.map_map] at hplaces
  exact hplaces

theorem errorsOf?_noUndefinedVariables (schema : Schema) (document : Document) :
    document.errorsOf? schema [Rule.noUndefinedVariables] =
      some (document.operations.flatMap fun operation =>
        ((document.usedVariables operation).filter fun v =>
          v.name.text ∉ operation.variableDefinitions.map (·.var.name.text)).map
            (·.undefinedIn operation)) := by
  refine (errorsOf?_onOperation schema document _ _).trans (congrArg some ?_)
  refine congrArg (document.operations.flatMap ·) (funext fun operation => ?_)
  let defined := operation.variableDefinitions.map (·.var.name.text)
  let tell (place : String × Option Span) : Option ValidationError :=
    if place.1 ∈ defined then none
    else some ⟨.undefinedVariable place.1 operation.nameText?, [place.2, operation.span]⟩
  calc (document.operationUsages schema operation).filterMap (tell ∘ VariableUsage.place)
    _ = ((document.operationUsages schema operation).map VariableUsage.place).filterMap tell :=
      List.filterMap_map.symm
    _ = ((document.usedVariables operation).map Variable.place).filterMap tell := by
      rw [map_place_operationUsages]
    _ = (document.usedVariables operation).filterMap (tell ∘ Variable.place) := List.filterMap_map
    _ = _ := filterMap_ite_none _ _ _

theorem errorsOf?_noUnusedVariables (schema : Schema) (document : Document) :
    document.errorsOf? schema [Rule.noUnusedVariables] =
      some (document.operations.flatMap fun operation =>
        (operation.variableDefinitions.filter fun d =>
          d.var.name.text ∉ (document.usedVariables operation).map (·.name.text)).map
            (·.unusedIn operation)) := by
  refine (errorsOf?_onOperation schema document _ _).trans (congrArg some ?_)
  refine congrArg (document.operations.flatMap ·) (funext fun operation => ?_)
  simp only [map_name_operationUsages]
  exact filterMap_ite_none _ _ _

end Document

/-! ## Fragments -/

/-- The error of a fragment that is not reached. -/
def FragmentDefinition.unused (fragment : FragmentDefinition) : ValidationError :=
  ⟨.unusedFragment fragment.name.text, [fragment.span]⟩

namespace Document

/-- Among the listed names are those of fragments that are reached. -/
theorem mem_map_referencedFragments_iff {fragment : FragmentDefinition}
    (hfragment : fragment ∈ document.fragments) :
    fragment.name.text ∈ (document.referencedFragments operation).map (·.name.text) ↔
      document.ReachesName operation fragment.name.text := by
  constructor
  · intro h
    obtain ⟨listed, hlisted, hname⟩ := List.mem_map.mp h
    obtain ⟨name, hreached, hfound⟩ := mem_referencedFragments_iff.mp hlisted
    rw [← hname, name_of_fragment? hfound]
    exact hreached
  · intro h
    -- Of the fragments of the name the first one is listed, be it this one or another.
    have hsome : (document.fragment? fragment.name.text).isSome :=
      List.find?_isSome.mpr ⟨fragment, hfragment, decide_eq_true rfl⟩
    obtain ⟨first, hfirst⟩ := Option.isSome_iff_exists.mp hsome
    exact List.mem_map.mpr ⟨first, mem_referencedFragments_iff.mpr ⟨_, h, hfirst⟩,
      name_of_fragment? hfirst⟩

open Classical in
theorem unusedFragmentErrors_eq (document : Document) :
    Rule.unusedFragmentErrors document =
      (document.fragments.filter fun fragment => ∀ operation ∈ document.operations,
        ¬ document.ReachesName operation fragment.name.text).map (·.unused) := by
  unfold Rule.unusedFragmentErrors
  refine (filterMap_ite_none _ FragmentDefinition.unused _).trans (congrArg (List.map _) ?_)
  refine List.filter_congr fun fragment hfragment => ?_
  have hnames : fragment.name.text ∈
      (document.operations.flatMap document.referencedFragments).map (·.name.text) ↔
        ∃ operation ∈ document.operations,
          document.ReachesName operation fragment.name.text := by
    simp only [List.map_flatMap, List.mem_flatMap, mem_map_referencedFragments_iff hfragment]
  simp [hnames]

end Document

theorem Rule.endures_noUnusedFragments : Rule.noUnusedFragments.Endures := by
  intro scope node memory
  cases node <;> exact ⟨RuleAction.noConfusion, RuleAction.noConfusion⟩

/-- The rule tells of fragments as it leaves the document, and passes over the definitions. -/
theorem Document.errorsOf?_noUnusedFragments (schema : Schema) (document : Document) :
    document.errorsOf? schema [Rule.noUnusedFragments] =
      some (Rule.unusedFragmentErrors document) := by
  obtain ⟨depth, -, herrors⟩ := exists_errorsOf? schema document Rule.noUnusedFragments rfl
  have hdefinitions : ∀ child ∈ (Node.document document).parts, ∀ c' memory,
      TypeContext.SameLists (TypeContext.enter schema (.document document) {}) c' →
      (Rule.noUnusedFragments.alone schema document (depth + 1) child c' memory).errors = [] := by
    intro child hchild c' memory _
    rw [Node.parts_document] at hchild
    obtain ⟨d, -, rfl⟩ := List.mem_map.mp hchild
    rw [Rule.alone_of_skip rfl rfl]
    rfl
  have hleave (types : TypeContext) (memory : RuleMemory) :
      (Rule.noUnusedFragments.leave { schema, document, types } (.document document)
        memory).1.errors = Rule.unusedFragmentErrors document := rfl
  rw [herrors, Rule.errors_of_proceed Rule.endures_noUnusedFragments rfl rfl hleave hdefinitions,
    Node.flatMap_fun_nil]
  rfl

/-! ## Together -/

open Classical in
/-- The fragments that are listed for an operation are the first ones of the names that it reaches,
each once.  Errors are told for the variables that occur there and are not defined, for the
variables that are defined and do not occur there, and for the fragments that no operation reaches.
-/
theorem Document.reached_and_used_exactly (schema : Schema) (document : Document) :
    (∀ operation : OperationDefinition,
      ((document.referencedFragments operation).map (·.name.text)).Nodup ∧
        ∀ fragment, fragment ∈ document.referencedFragments operation ↔
          ∃ name, document.ReachesName operation name ∧
            document.fragment? name = some fragment) ∧
    document.errorsOf? schema [Rule.noUndefinedVariables] =
      some (document.operations.flatMap fun operation =>
        ((document.usedVariables operation).filter fun v =>
          v.name.text ∉ operation.variableDefinitions.map (·.var.name.text)).map
            (·.undefinedIn operation)) ∧
    document.errorsOf? schema [Rule.noUnusedVariables] =
      some (document.operations.flatMap fun operation =>
        (operation.variableDefinitions.filter fun d =>
          d.var.name.text ∉ (document.usedVariables operation).map (·.name.text)).map
            (·.unusedIn operation)) ∧
    document.errorsOf? schema [Rule.noUnusedFragments] =
      some ((document.fragments.filter fun fragment => ∀ operation ∈ document.operations,
        ¬ document.ReachesName operation fragment.name.text).map (·.unused)) := by
  refine ⟨fun operation => ⟨document.nodup_referencedFragments operation,
    fun fragment => mem_referencedFragments_iff⟩, ?_, ?_, ?_⟩
  · exact document.errorsOf?_noUndefinedVariables schema
  · exact document.errorsOf?_noUnusedVariables schema
  · rw [errorsOf?_noUnusedFragments, unusedFragmentErrors_eq]

end GraphQL
