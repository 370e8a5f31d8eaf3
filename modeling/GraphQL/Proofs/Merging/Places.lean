import Mathlib
import GraphQL.Validation.Merging.Conflicts

/-!
# Selection sets by their places

The search tells selection sets apart by their places.  `setAt?` finds a set by its
place, following the indices from the definition inwards, so that a place has one set at
most.  The sets that are checked are the sets that have a place
(`setAt?_of_mem_checkedSets`, `exists_mem_checkedSets`), and what a field of a set selects
is found at the place of that field (`setAt?_of_mem_fieldsOf`).  The types that sets are checked
with go from each set to those right below it (`good_of_mem_checkedSets`).
-/

namespace GraphQL.Merging

/-- The set right below a selection. -/
def innerSet? : Selection → Option SelectionSet
  | .field f => f.selectionSet
  | .inline f => some f.selectionSet
  | .spread _ => none

/-- The selection set at a place. -/
def setAt? (s : Setting) (document : Document) : Place → Option SelectionSet
  | [] => none
  | [index] => (document.definitions[index]?.bind (rootOf? s)).map (·.2)
  | index :: place =>
    (setAt? s document place).bind fun set => set.selections[index]?.bind innerSet?

@[simp] theorem Setting.ofDocument_schema (schema : Schema) (document : Document) :
    (ofDocument schema document).schema = schema := rfl

variable {s : Setting} {document : Document} {place : Place} {set : SelectionSet}

theorem setAt?_cons (h : setAt? s document place = some set) (index : Nat) :
    setAt? s document (index :: place) = set.selections[index]?.bind innerSet? := by
  cases place with
  | nil => simp [setAt?] at h
  | cons first rest => simp [setAt?, h]

/-! ## The sets that are checked -/

theorem setsOf_eq (parent : Option TypeDef) (place : Place) (set : SelectionSet) :
    setsOf s parent place set = ⟨parent, place, set⟩ :: setsOfEach s parent place 0 set.selections := by
  cases set
  rw [setsOf]

section

/-- Each selection from an index on has its inner set at its place. -/
private def Placed (s : Setting) (document : Document) (place : Place) (index : Nat)
    (selections : List Selection) : Prop :=
  ∀ i selection, selections[i]? = some selection →
    setAt? s document ((index + i) :: place) = innerSet? selection

private theorem Placed.head {index : Nat} {selection : Selection} {rest : List Selection}
    (h : Placed s document place index (selection :: rest)) :
    setAt? s document (index :: place) = innerSet? selection :=
  h 0 selection rfl

private theorem Placed.tail {index : Nat} {selection : Selection} {rest : List Selection}
    (h : Placed s document place index (selection :: rest)) :
    Placed s document place (index + 1) rest := by
  intro i found hfound
  have := h (i + 1) found hfound
  rwa [show index + (i + 1) = index + 1 + i by omega] at this

private theorem placed_of_setAt? (h : setAt? s document place = some set) :
    Placed s document place 0 set.selections := by
  intro i selection hselection
  rw [Nat.zero_add, setAt?_cons h, hselection, Option.bind_some]

mutual

private theorem setAt?_of_mem_setsOf {parent : Option TypeDef} {place : Place} {c : CheckedSet} :
    ∀ {set : SelectionSet}, setAt? s document place = some set →
      c ∈ setsOf s parent place set → setAt? s document c.place = some c.set
  | ⟨selections, span⟩, h, hc => by
      rcases List.mem_cons.mp hc with rfl | hc
      · exact h
      · exact setAt?_of_mem_setsOfEach (placed_of_setAt? h) hc

private theorem setAt?_of_mem_setsOfEach {parent : Option TypeDef} {place : Place} {index : Nat}
    {c : CheckedSet} :
    ∀ {selections : List Selection}, Placed s document place index selections →
      c ∈ setsOfEach s parent place index selections → setAt? s document c.place = some c.set
  | [], _, hc => by simp [setsOfEach] at hc
  | selection :: rest, h, hc => by
      rcases List.mem_append.mp hc with hc | hc
      · exact setAt?_of_mem_setsOfSelection h.head hc
      · exact setAt?_of_mem_setsOfEach h.tail hc

private theorem setAt?_of_mem_setsOfSelection {parent : Option TypeDef} {place : Place}
    {c : CheckedSet} :
    ∀ {selection : Selection}, setAt? s document place = innerSet? selection →
      c ∈ setsOfSelection s parent place selection → setAt? s document c.place = some c.set
  | .field ⟨_, _, _, _, some set, _⟩, h, hc => setAt?_of_mem_setsOf h hc
  | .field ⟨_, _, _, _, none, _⟩, _, hc => by simp [setsOfSelection] at hc
  | .inline ⟨_, _, set, _⟩, h, hc => setAt?_of_mem_setsOf h hc
  | .spread _, _, hc => by simp [setsOfSelection] at hc

end

end

/-- A set that is checked is the one at its place. -/
theorem setAt?_of_mem_checkedSets {c : CheckedSet} (h : c ∈ checkedSets s document) :
    setAt? s document c.place = some c.set := by
  obtain ⟨⟨definition, index⟩, hdefinition, hc⟩ := List.mem_flatMap.mp h
  cases hroot : rootOf? s definition with
  | none => simp [hroot] at hc
  | some root =>
      simp only [hroot] at hc
      refine setAt?_of_mem_setsOf ?_ hc
      have hget := List.mem_zipIdx_iff_getElem?.mp hdefinition
      rw [setAt?, hget, Option.bind_some, hroot, Option.map_some]

/-! ### All sets are checked -/

mutual

theorem setsOf_subset {parent : Option TypeDef} {place : Place} {c : CheckedSet} :
    ∀ {set : SelectionSet}, c ∈ setsOf s parent place set →
      setsOf s c.parent c.place c.set ⊆ setsOf s parent place set
  | ⟨selections, span⟩, hc => by
      rcases List.mem_cons.mp hc with rfl | hc
      · exact List.Subset.refl _
      · exact List.Subset.trans (setsOf_subset_each hc) (List.subset_cons_self _ _)

theorem setsOf_subset_each {parent : Option TypeDef} {place : Place} {index : Nat}
    {c : CheckedSet} :
    ∀ {selections : List Selection}, c ∈ setsOfEach s parent place index selections →
      setsOf s c.parent c.place c.set ⊆ setsOfEach s parent place index selections
  | [], hc => by simp [setsOfEach] at hc
  | selection :: rest, hc => by
      rcases List.mem_append.mp hc with hc | hc
      · exact List.Subset.trans (setsOf_subset_selection hc) (List.subset_append_left _ _)
      · exact List.Subset.trans (setsOf_subset_each hc) (List.subset_append_right _ _)

theorem setsOf_subset_selection {parent : Option TypeDef} {place : Place} {c : CheckedSet} :
    ∀ {selection : Selection}, c ∈ setsOfSelection s parent place selection →
      setsOf s c.parent c.place c.set ⊆ setsOfSelection s parent place selection
  | .field ⟨_, _, _, _, some set, _⟩, hc => setsOf_subset hc
  | .field ⟨_, _, _, _, none, _⟩, hc => by simp [setsOfSelection] at hc
  | .inline ⟨_, _, set, _⟩, hc => setsOf_subset hc
  | .spread _, hc => by simp [setsOfSelection] at hc

end

/-- What is nested in a set that is checked is checked. -/
theorem setsOf_subset_checkedSets {c : CheckedSet} (h : c ∈ checkedSets s document) :
    setsOf s c.parent c.place c.set ⊆ checkedSets s document := by
  obtain ⟨⟨definition, index⟩, hdefinition, hc⟩ := List.mem_flatMap.mp h
  intro other hother
  refine List.mem_flatMap.mpr ⟨_, hdefinition, ?_⟩
  cases hroot : rootOf? s definition with
  | none => simp [hroot] at hc
  | some root =>
      simp only [hroot] at hc ⊢
      exact setsOf_subset hc hother

theorem mem_setsOf_self {parent : Option TypeDef} :
    ⟨parent, place, set⟩ ∈ setsOf s parent place set := by
  rw [setsOf_eq]
  exact List.mem_cons_self

/-- The set right below a selection is among the sets of the selections. -/
theorem exists_mem_setsOfEach (parent : Option TypeDef) (place : Place) (index i : Nat)
    {selection : Selection} {inner : SelectionSet} {selections : List Selection}
    (hselection : selections[i]? = some selection) (hinner : innerSet? selection = some inner) :
    ∃ innerParent,
      ⟨innerParent, (index + i) :: place, inner⟩ ∈ setsOfEach s parent place index selections := by
  induction selections generalizing index i with
  | nil => simp at hselection
  | cons first rest ih =>
      rw [setsOfEach]
      cases i with
      | zero =>
          obtain rfl : first = selection := by simpa using hselection
          cases first with
          | field f =>
              obtain ⟨keyAlias, name, arguments, directives, set?, span⟩ := f
              obtain rfl : set? = some inner := hinner
              exact ⟨_, List.mem_append_left _ mem_setsOf_self⟩
          | inline f =>
              obtain ⟨condition, directives, set, span⟩ := f
              obtain rfl : set = inner := Option.some.inj hinner
              exact ⟨_, List.mem_append_left _ mem_setsOf_self⟩
          | spread f => simp [innerSet?] at hinner
      | succ i =>
          obtain ⟨innerParent, hmem⟩ := ih (index + 1) i (by simpa using hselection)
          refine ⟨innerParent, List.mem_append_right _ ?_⟩
          rwa [show index + 1 + i = index + (i + 1) by omega] at hmem

/-- Every set is checked. -/
theorem exists_mem_checkedSets (h : setAt? s document place = some set) :
    ∃ parent, ⟨parent, place, set⟩ ∈ checkedSets s document := by
  induction place generalizing set with
  | nil => simp [setAt?] at h
  | cons index outer ih =>
      cases outer with
      | nil =>
          obtain ⟨⟨parent, root⟩, hroot, rfl⟩ := Option.map_eq_some_iff.mp h
          obtain ⟨definition, hdefinition, hroot⟩ := Option.bind_eq_some_iff.mp hroot
          refine ⟨parent, List.mem_flatMap.mpr
            ⟨(definition, index), List.mem_zipIdx_iff_getElem?.mpr hdefinition, ?_⟩⟩
          simp only [hroot]
          exact mem_setsOf_self
      | cons first rest =>
          obtain ⟨around, haround, hset⟩ := Option.bind_eq_some_iff.mp h
          obtain ⟨selection, hselection, hinner⟩ := Option.bind_eq_some_iff.mp hset
          obtain ⟨parent, hmem⟩ := ih haround
          obtain ⟨innerParent, hnested⟩ :=
            exists_mem_setsOfEach parent (first :: rest) 0 index hselection hinner
          refine ⟨innerParent, setsOf_subset_checkedSets hmem ?_⟩
          rw [Nat.zero_add] at hnested
          rw [setsOf_eq]
          exact List.mem_cons_of_mem _ hnested

/-! ## The types of the sets that are checked -/

/-- The type of the set right below a selection, given that of the set around. -/
def innerParent (s : Setting) (parent : Option TypeDef) : Selection → Option TypeDef
  | .field f => fieldSetParent s parent f.name.text
  | .inline f => inlineSetParent s parent f.typeCondition
  | .spread _ => none

/-- The type that the set at a place is checked with. -/
def typeAt (s : Setting) (document : Document) : Place → Option TypeDef
  | [] => none
  | [index] => (document.definitions[index]?.bind (rootOf? s)).bind (·.1)
  | index :: place =>
    (setAt? s document place).bind fun set =>
      set.selections[index]?.bind (innerParent s (typeAt s document place))

theorem typeAt_cons {i : Nat} {selection : Selection}
    (hset : setAt? s document place = some set) (h : set.selections[i]? = some selection) :
    typeAt s document (i :: place) = innerParent s (typeAt s document place) selection := by
  cases place with
  | nil => simp [setAt?] at hset
  | cons first rest => simp [typeAt, hset, h]

/-- What holds of the type of a set holds of those of the sets right below it. -/
def Descends (s : Setting) (document : Document) (good : Place → Option TypeDef → Prop) : Prop :=
  ∀ place set i selection parent, setAt? s document place = some set →
    set.selections[i]? = some selection → good place parent →
    good (i :: place) (innerParent s parent selection)

section

variable {good : Place → Option TypeDef → Prop}

mutual

private theorem good_of_mem_setsOf (hinner : Descends s document good) {place : Place}
    {parent : Option TypeDef} {c : CheckedSet} :
    ∀ {set : SelectionSet}, setAt? s document place = some set → good place parent →
      c ∈ setsOf s parent place set → good c.place c.parent
  | ⟨selections, span⟩, hset, h, hc => by
      rcases List.mem_cons.mp hc with rfl | hc
      · exact h
      · exact good_of_mem_setsOfEach hinner hset h (fun i found hfound => by rwa [Nat.zero_add]) hc

private theorem good_of_mem_setsOfEach (hinner : Descends s document good) {place : Place}
    {set : SelectionSet} {index : Nat} {parent : Option TypeDef} {c : CheckedSet} (hset : setAt? s document place = some set)
    (hparent : good place parent) :
    ∀ {selections : List Selection},
      (∀ i selection, selections[i]? = some selection →
        set.selections[index + i]? = some selection) →
      c ∈ setsOfEach s parent place index selections → good c.place c.parent
  | [], _, hc => by simp [setsOfEach] at hc
  | selection :: rest, h, hc => by
      rcases List.mem_append.mp hc with hc | hc
      · exact good_of_mem_setsOfSelection hinner hset hparent (h 0 selection rfl) hc
      · refine good_of_mem_setsOfEach hinner hset hparent (fun i found hfound => ?_) hc
        have := h (i + 1) found hfound
        rwa [show index + (i + 1) = index + 1 + i by omega] at this

private theorem good_of_mem_setsOfSelection (hinner : Descends s document good) {place : Place}
    {set : SelectionSet} {index : Nat} {parent : Option TypeDef} {c : CheckedSet} (hset : setAt? s document place = some set)
    (hparent : good place parent) :
    ∀ {selection : Selection}, set.selections[index]? = some selection →
      c ∈ setsOfSelection s parent (index :: place) selection → good c.place c.parent
  | .field ⟨keyAlias, name, arguments, directives, some inner, span⟩, h, hc => by
      have hbelow := setAt?_cons hset index
      rw [h] at hbelow
      exact good_of_mem_setsOf hinner hbelow (hinner _ _ _ _ _ hset h hparent) hc
  | .field ⟨_, _, _, _, none, _⟩, _, hc => by simp [setsOfSelection] at hc
  | .inline ⟨condition, directives, inner, span⟩, h, hc => by
      have hbelow := setAt?_cons hset index
      rw [h] at hbelow
      exact good_of_mem_setsOf hinner hbelow (hinner _ _ _ _ _ hset h hparent) hc
  | .spread _, _, hc => by simp [setsOfSelection] at hc

end

/-- What holds of the types of definitions, and goes from each set to those right below it, holds
of all types that sets are checked with. -/
theorem good_of_mem_checkedSets (hinner : Descends s document good)
    (hroot : ∀ {i definition parent set}, document.definitions[i]? = some definition →
      rootOf? s definition = some (parent, set) → good [i] parent)
    {c : CheckedSet} (h : c ∈ checkedSets s document) : good c.place c.parent := by
  obtain ⟨⟨definition, index⟩, hdefinition, hc⟩ := List.mem_flatMap.mp h
  have hget := List.mem_zipIdx_iff_getElem?.mp hdefinition
  cases hfound : rootOf? s definition with
  | none => simp [hfound] at hc
  | some root =>
      simp only [hfound] at hc
      refine good_of_mem_setsOf hinner ?_ (hroot hget hfound) hc
      rw [setAt?, hget, Option.bind_some, hfound, Option.map_some]

end

theorem parent_eq_typeAt {c : CheckedSet} (h : c ∈ checkedSets s document) :
    c.parent = typeAt s document c.place := by
  have hinner : Descends s document fun place parent => parent = typeAt s document place := by
    intro place set i selection parent hset hselection hparent
    have hparent : parent = typeAt s document place := hparent
    exact hparent ▸ (typeAt_cons hset hselection).symm
  refine good_of_mem_checkedSets hinner (fun hdefinition hroot => ?_) h
  rw [typeAt, hdefinition, Option.bind_some, hroot, Option.bind_some]

/-! ## The sets of fields and fragments -/

mutual

private theorem setAt?_of_mem_fieldsFrom {schema : Schema} {parent : Option TypeDef}
    {place : Place} {index : Nat} {f : SelectedField} :
    ∀ {selections : List Selection}, Placed s document place index selections →
      f ∈ Selected.fieldsOf schema parent place index selections →
      setAt? s document f.place = f.field.selectionSet
  | [], _, hf => by simp [Selected.fieldsOf] at hf
  | selection :: rest, h, hf => by
      rcases List.mem_append.mp hf with hf | hf
      · exact setAt?_of_mem_fieldsOfSelection h.head hf
      · exact setAt?_of_mem_fieldsFrom h.tail hf

private theorem setAt?_of_mem_fieldsOfSelection {schema : Schema} {parent : Option TypeDef}
    {place : Place} {f : SelectedField} :
    ∀ {selection : Selection}, setAt? s document place = innerSet? selection →
      f ∈ Selected.fieldsOfSelection schema parent place selection →
      setAt? s document f.place = f.field.selectionSet
  | .field field, h, hf => by
      obtain rfl := List.mem_singleton.mp hf
      exact h
  | .spread _, _, hf => by simp [Selected.fieldsOfSelection] at hf
  | .inline ⟨_, _, ⟨selections, _⟩, _⟩, h, hf =>
      setAt?_of_mem_fieldsFrom (placed_of_setAt? h) hf

end

/-- What a field selects is the set at its place. -/
theorem setAt?_of_mem_fieldsOf {schema : Schema} {parent : Option TypeDef} {f : SelectedField}
    (h : setAt? s document place = some set)
    (hf : f ∈ Selected.fieldsOf schema parent place 0 set.selections) :
    setAt? s document f.place = f.field.selectionSet :=
  setAt?_of_mem_fieldsFrom (placed_of_setAt? h) hf

/-- The fragments of a document are found at the indices of their definitions. -/
theorem mem_placedFragments_iff {name : String} {fragment : FragmentDefinition} :
    (name, place, fragment) ∈ placedFragments document ↔
      ∃ i, document.definitions[i]? = some (.fragment fragment) ∧ place = [i] ∧
        fragment.name.text = name := by
  rw [placedFragments, List.mem_filterMap]
  constructor
  · rintro ⟨⟨definition, i⟩, hdefinition, hplaced⟩
    cases definition with
    | fragment d =>
        obtain ⟨rfl, rfl, rfl⟩ : d.name.text = name ∧ [i] = place ∧ d = fragment := by
          simpa using hplaced
        exact ⟨i, List.mem_zipIdx_iff_getElem?.mp hdefinition, rfl, rfl⟩
    | _ => simp at hplaced
  · rintro ⟨i, hdefinition, rfl, rfl⟩
    exact ⟨(.fragment fragment, i), List.mem_zipIdx_iff_getElem?.mpr hdefinition, rfl⟩

/-- What a fragment selects is the set at its place. -/
theorem setAt?_of_mem_placedFragments {name : String} {fragment : FragmentDefinition}
    (h : (name, place, fragment) ∈ placedFragments document) :
    setAt? s document place = some fragment.selectionSet := by
  obtain ⟨i, hdefinition, rfl, -⟩ := mem_placedFragments_iff.mp h
  rw [setAt?, hdefinition]
  rfl

/-! ## What selections select -/

section

open Selected (fieldsOf fieldsOfSelection spreadsOf spreadsOfSelection)

variable {schema : Schema} {here : Place} {parent : Option TypeDef} {i : ℕ}

theorem fieldsOfSelection_subset_from {selections : List Selection} {selection : Selection}
    (index : ℕ) (h : selections[i]? = some selection) :
    fieldsOfSelection schema parent ((index + i) :: here) selection ⊆
      fieldsOf schema parent here index selections := by
  induction selections generalizing index i with
  | nil => simp at h
  | cons first rest ih =>
      rw [fieldsOf]
      cases i with
      | zero =>
          obtain rfl : first = selection := by simpa using h
          exact List.subset_append_left _ _
      | succ i =>
          have hrest := ih (i := i) (index + 1) (by simpa using h)
          rw [show index + 1 + i = index + (i + 1) by omega] at hrest
          exact List.Subset.trans hrest (List.subset_append_right _ _)

theorem fieldsOfSelection_subset {selection : Selection}
    (h : set.selections[i]? = some selection) :
    fieldsOfSelection schema parent (i :: here) selection ⊆
      fieldsOf schema parent here 0 set.selections := by
  have hsubset : fieldsOfSelection schema parent ((0 + i) :: here) selection ⊆ _ :=
    fieldsOfSelection_subset_from 0 h
  rwa [Nat.zero_add] at hsubset

theorem spreadsOfSelection_subset {selections : List Selection} {selection : Selection}
    (h : selection ∈ selections) : spreadsOfSelection selection ⊆ spreadsOf selections := by
  induction selections with
  | nil => cases h
  | cons first rest ih =>
      rw [spreadsOf]
      rcases List.mem_cons.mp h with rfl | h
      · exact List.subset_append_left _ _
      · exact List.Subset.trans (ih h) (List.subset_append_right _ _)

end

end GraphQL.Merging
