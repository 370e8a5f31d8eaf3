import Mathlib
import GraphQL.Proofs.Merging.Comparisons
import GraphQL.Proofs.Merging.Places

/-!
# What the search knows

The type that a selection set is first looked at with stays with it.  `Spread` says what a
property of those types has to fulfil so that it holds of all of them: the types that
sets are checked with have it, those of fragments have it, and it goes from a set to what
its fields select.  Then each plan keeps it (`keeps_plan`), and what is compared are
always fields of sets that have a place in the document and that the memory knows
(`Memory.Knows`).
-/

namespace GraphQL.Merging

variable {s : Setting} {document : Document} {memory larger : Memory} {place : Place}
  {parent : Option TypeDef} {exclusive : Bool} {set set₁ set₂ : Selected}
  {good : Place → Option TypeDef → Prop}

/-- The types that the memory knows are good at their places. -/
def Memory.Good (good : Place → Option TypeDef → Prop) (memory : Memory) : Prop :=
  ∀ place known, memory.parent? place = some known → good place known

theorem Memory.Good.look (h : memory.Good good) (hparent : good place parent) :
    (memory.look place parent).2.Good good := by
  intro other known hknown
  unfold Memory.look at hknown
  cases hbefore : memory.parent? place with
  | some before =>
      rw [hbefore] at hknown
      exact h other known hknown
  | none =>
      rw [hbefore] at hknown
      by_cases heq : place = other
      · subst heq
        obtain rfl : parent = known := by simpa [Memory.parent?] using hknown
        exact hparent
      · exact h other known (by simpa [Memory.parent?, heq] using hknown)

/-! ## Fields of known sets -/

/-- The field is one of a set of the document that the memory knows. -/
def Memory.Knows (memory : Memory) (s : Setting) (document : Document) (f : SelectedField) :
    Prop :=
  ∃ place set parent, setAt? s document place = some set ∧
    memory.parent? place = some parent ∧
    f ∈ Selected.fieldsOf s.schema parent place 0 set.selections

/-- A comparison of known fields under their key, or any comparison of fragments. -/
def Memory.KnowsBoth (memory : Memory) (s : Setting) (document : Document) :
    Comparison → Prop
  | .fields _ key f₁ f₂ =>
    f₁.field.responseKey = key ∧ memory.Knows s document f₁ ∧ memory.Knows s document f₂
  | .fragments .. => True

/-- What is selected by a set of the document that the memory knows. -/
def Memory.Shows (memory : Memory) (s : Setting) (document : Document) (set : Selected) : Prop :=
  ∃ place inner, setAt? s document place = some inner ∧
    memory.selected? s place inner = some set

theorem Memory.Knows.mono {f : SelectedField} (h : memory.Knows s document f)
    (hlearns : larger.Learns memory) : larger.Knows s document f := by
  obtain ⟨place, set, parent, hset, hparent, hf⟩ := h
  exact ⟨place, set, parent, hset, hlearns place parent hparent, hf⟩

theorem Memory.KnowsBoth.mono {asked : Comparison} (h : memory.KnowsBoth s document asked)
    (hlearns : larger.Learns memory) : larger.KnowsBoth s document asked := by
  cases asked with
  | fields exclusive key f₁ f₂ => exact ⟨h.1, h.2.1.mono hlearns, h.2.2.mono hlearns⟩
  | fragments exclusive name₁ name₂ => trivial

theorem Memory.Shows.mono (h : memory.Shows s document set) (hextends : larger.Extends memory) :
    larger.Shows s document set := by
  obtain ⟨place, inner, hinner, hset⟩ := h
  exact ⟨place, inner, hinner, hextends.selected? hset⟩

/-- The rows of a known set hold known fields under their keys. -/
theorem Memory.Shows.knows (h : memory.Shows s document set) {key : String}
    {row : List SelectedField} {f : SelectedField} (hrow : (key, row) ∈ set.groups)
    (hf : f ∈ row) : f.field.responseKey = key ∧ memory.Knows s document f := by
  obtain ⟨place, inner, hinner, hset⟩ := h
  obtain ⟨parent, hparent, rfl⟩ := Option.map_eq_some_iff.mp hset
  obtain ⟨rfl, -⟩ := mem_groups_iff.mp hrow
  obtain ⟨hmem, hkey⟩ := List.mem_filter.mp hf
  exact ⟨by simpa using hkey, place, inner, parent, hinner, hparent, hmem⟩

theorem knowsBoth_of_mem_between (h₁ : memory.Shows s document set₁)
    (h₂ : memory.Shows s document set₂) {asked : Comparison}
    (hasked : asked ∈ between exclusive set₁.groups set₂.groups) :
    memory.KnowsBoth s document asked := by
  obtain ⟨key, row₁, row₂, f₁, f₂, rfl, hrow₁, hf₁, hrow₂, hf₂⟩ := mem_between_iff.mp hasked
  obtain ⟨hkey, hknown₁⟩ := h₁.knows hrow₁ hf₁
  exact ⟨hkey, hknown₁, (h₂.knows (Assoc.mem_of_get? hrow₂) hf₂).2⟩

theorem knowsBoth_of_mem_betweenSpreads {names₁ names₂ : List String} {asked : Comparison}
    (hasked : asked ∈ betweenSpreads exclusive names₁ names₂) :
    memory.KnowsBoth s document asked := by
  obtain ⟨name₁, -, name₂, -, rfl⟩ := mem_betweenSpreads_iff.mp hasked
  trivial

theorem mem_withinRow {key : String} {row : List SelectedField} {asked : Comparison}
    (h : asked ∈ withinRow key row) : ∃ f₁ ∈ row, ∃ f₂ ∈ row, asked = .fields false key f₁ f₂ := by
  induction row with
  | nil => simp [withinRow] at h
  | cons first rest ih =>
      rcases List.mem_append.mp h with h | h
      · obtain ⟨f₂, hf₂, rfl⟩ := List.mem_map.mp h
        exact ⟨first, List.mem_cons_self, f₂, List.mem_cons_of_mem _ hf₂, rfl⟩
      · obtain ⟨f₁, hf₁, f₂, hf₂, rfl⟩ := ih h
        exact ⟨f₁, List.mem_cons_of_mem _ hf₁, f₂, List.mem_cons_of_mem _ hf₂, rfl⟩

theorem knowsBoth_of_mem_within (h : memory.Shows s document set) {asked : Comparison}
    (hasked : asked ∈ within set.groups) : memory.KnowsBoth s document asked := by
  obtain ⟨⟨key, row⟩, hrow, hasked⟩ := List.mem_flatMap.mp hasked
  obtain ⟨f₁, hf₁, f₂, hf₂, rfl⟩ := mem_withinRow hasked
  obtain ⟨hkey, hknown₁⟩ := h.knows hrow hf₁
  exact ⟨hkey, hknown₁, (h.knows hrow hf₂).2⟩

theorem shows_of_opens (hs : s.fragments = placedFragments document) {home : Place}
    {names : List String} (h : Opens s memory home names set) :
    memory.Shows s document set := by
  obtain ⟨name, place, fragment, hreached, hselected⟩ := h
  exact ⟨place, fragment.selectionSet,
    setAt?_of_mem_placedFragments (hs ▸ mem_of_mem_reach hreached), hselected⟩

theorem knowsBoth_of_facing (hs : s.fragments = placedFragments document)
    (h₁ : memory.Shows s document set₁) (h₂ : memory.Shows s document set₂) {asked : Comparison}
    (h : Facing s memory exclusive set₁ set₂ asked) : memory.KnowsBoth s document asked := by
  cases h with
  | own h => exact knowsBoth_of_mem_between h₁ h₂ h
  | second hother h => exact knowsBoth_of_mem_between h₁ (shows_of_opens hs hother) h
  | first hother h => exact knowsBoth_of_mem_between h₂ (shows_of_opens hs hother) h
  | spreads h => exact knowsBoth_of_mem_betweenSpreads h

/-- What a field selects is at its place. -/
theorem Memory.Knows.setAt? {f : SelectedField} (h : memory.Knows s document f) :
    setAt? s document f.place = f.field.selectionSet := by
  obtain ⟨place, set, parent, hset, -, hf⟩ := h
  exact setAt?_of_mem_fieldsOf hset hf

/-- Known fields lead to comparisons of known fields. -/
theorem knowsBoth_of_leads (hs : s.fragments = placedFragments document)
    {comparison asked : Comparison} (hknown : memory.KnowsBoth s document comparison)
    (h : Leads s memory comparison asked) : memory.KnowsBoth s document asked := by
  cases h with
  | intro _ hinner₁ hinner₂ hset₁ hset₂ hasked =>
      exact knowsBoth_of_facing hs ⟨_, _, hknown.2.1.setAt?.trans hinner₁, hset₁⟩
        ⟨_, _, hknown.2.2.setAt?.trans hinner₂, hset₂⟩ hasked

/-! ## What all plans keep -/

/-- A property of types at places that goes from the types that sets are checked with to all
types that sets are ever looked at with. -/
structure Spread (s : Setting) (document : Document)
    (good : Place → Option TypeDef → Prop) : Prop where
  checked : ∀ c ∈ checkedSets s document, good c.place c.parent
  fragment : ∀ name place fragment, (name, place, fragment) ∈ s.fragments →
    good place (s.schema.type? fragment.typeCondition.name.text)
  field : ∀ place set parent f inner, setAt? s document place = some set → good place parent →
    f ∈ Selected.fieldsOf s.schema parent place 0 set.selections →
    f.field.selectionSet = some inner → good f.place (subfieldParent s f)

theorem Spread.and {other : Place → Option TypeDef → Prop} (h : Spread s document good)
    (h' : Spread s document other) :
    Spread s document fun place parent => good place parent ∧ other place parent where
  checked c hc := ⟨h.checked c hc, h'.checked c hc⟩
  fragment name place fragment hmem :=
    ⟨h.fragment name place fragment hmem, h'.fragment name place fragment hmem⟩
  field place set parent f inner hset hparent hf hinner :=
    ⟨h.field place set parent f inner hset hparent.1 hf hinner,
      h'.field place set parent f inner hset hparent.2 hf hinner⟩

section

variable {α : Type} {post : α → Memory → Prop}

/-- A plan that starts with a memory asks for comparisons of known fields only and keeps the
types good. -/
abbrev KeepsGood (s : Setting) (document : Document) (good : Place → Option TypeDef → Prop)
    (post : α → Memory → Prop) (plan : Plan α) (memory : Memory) : Prop :=
  plan.Keeps (Memory.Good good) (fun now asked => now.KnowsBoth s document asked) post memory

theorem keeps_selected {inner : SelectionSet} (h : memory.Good good) (hparent : good place parent)
    (hinner : setAt? s document place = some inner) :
    KeepsGood s document good (fun set after => after.Shows s document set)
      (selected s parent place inner) memory := by
  refine ⟨h.look hparent, place, inner, hinner, ?_⟩
  rw [Memory.selected?, Memory.parent?_look, Option.map_some]

theorem keeps_all {comparisons : List Comparison} (h : memory.Good good)
    (hknown : ∀ c ∈ comparisons, ∀ m : Memory, m.Extends memory → m.KnowsBoth s document c) :
    KeepsGood s document good (fun _ _ => True) (Plan.all comparisons) memory :=
  Plan.keeps_each h fun c hc m hm _ => hknown c hc m hm

variable (hspread : Spread s document good) (hs : s.fragments = placedFragments document)
include hspread hs

theorem keeps_selectedOfFragment {name : String} {fragment : FragmentDefinition}
    (h : memory.Good good) (hfragment : (name, place, fragment) ∈ s.fragments) :
    KeepsGood s document good (fun set after => after.Shows s document set)
      (selectedOfFragment s place fragment) memory :=
  keeps_selected h (hspread.fragment name place fragment hfragment)
    (setAt?_of_mem_placedFragments (hs ▸ hfragment))

theorem keeps_againstEach {entries : PlacedFragments} {found : List Conflict}
    (h : memory.Good good) (hset : memory.Shows s document set)
    (hentries : entries ⊆ s.fragments) :
    KeepsGood s document good (fun _ _ => True) (againstEach s exclusive set entries found)
      memory := by
  induction entries generalizing memory found with
  | nil => exact ⟨h, trivial⟩
  | cons entry rest ih =>
      obtain ⟨name, place, fragment⟩ := entry
      rw [againstEach]
      refine (keeps_selectedOfFragment hspread hs h (hentries List.mem_cons_self)).bind
        fun other m₁ hm₁ hgood₁ hother => ?_
      refine (keeps_all hgood₁ fun c hc m hm => ?_).bind fun more m₂ hm₂ hgood₂ _ => ?_
      · exact knowsBoth_of_mem_between (hset.mono (hm.trans hm₁)) (hother.mono hm) hc
      · exact ih hgood₂ (hset.mono (hm₂.trans hm₁)) (List.Subset.trans (List.subset_cons_self _ _) hentries)

theorem keeps_against {names : List String} (h : memory.Good good)
    (hset : memory.Shows s document set) :
    KeepsGood s document good (fun _ _ => True) (against s exclusive set names) memory :=
  keeps_againstEach hspread hs h hset fun _ hentry => mem_of_mem_reach hentry

theorem keeps_betweenSets (h : memory.Good good) (h₁ : memory.Shows s document set₁)
    (h₂ : memory.Shows s document set₂) :
    KeepsGood s document good (fun _ _ => True) (betweenSets s exclusive set₁ set₂) memory := by
  rw [betweenSets]
  refine (keeps_all h fun c hc m hm => ?_).bind fun own m₁ hm₁ hgood₁ _ => ?_
  · exact knowsBoth_of_mem_between (h₁.mono hm) (h₂.mono hm) hc
  refine (keeps_against hspread hs hgood₁ (h₁.mono hm₁)).bind fun more₂ m₂ hm₂ hgood₂ _ => ?_
  refine (keeps_against hspread hs hgood₂ (h₂.mono (hm₂.trans hm₁))).bind
    fun more₁ m₃ _ hgood₃ _ => ?_
  refine (keeps_all hgood₃ fun c hc m _ => knowsBoth_of_mem_betweenSpreads hc).bind
    fun pairs m₄ _ hgood₄ _ => ⟨hgood₄, trivial⟩

theorem keeps_compareFields {key : String} {f₁ f₂ : SelectedField} (h : memory.Good good)
    (h₁ : memory.Knows s document f₁) (h₂ : memory.Knows s document f₂) :
    KeepsGood s document good (fun _ _ => True) (compareFields s exclusive key f₁ f₂) memory := by
  obtain ⟨place₁, around₁, parent₁, haround₁, hparent₁, hf₁⟩ := h₁
  obtain ⟨place₂, around₂, parent₂, haround₂, hparent₂, hf₂⟩ := h₂
  unfold compareFields
  dsimp only
  split
  · exact ⟨h, trivial⟩
  split
  · rename_i inner₁ inner₂ hinner₁ hinner₂
    have hgood₁ := hspread.field place₁ around₁ parent₁ f₁ inner₁ haround₁ (h _ _ hparent₁) hf₁
      hinner₁
    have hgood₂ := hspread.field place₂ around₂ parent₂ f₂ inner₂ haround₂ (h _ _ hparent₂) hf₂
      hinner₂
    have hset₁ := (setAt?_of_mem_fieldsOf haround₁ hf₁).trans hinner₁
    have hset₂ := (setAt?_of_mem_fieldsOf haround₂ hf₂).trans hinner₂
    refine (keeps_selected h hgood₁ hset₁).bind fun set₁ m₁ _ hm₁ hshown₁ => ?_
    refine (keeps_selected hm₁ hgood₂ hset₂).bind fun set₂ m₂ hext hm₂ hshown₂ => ?_
    exact (keeps_betweenSets hspread hs hm₂ (hshown₁.mono hext) hshown₂).bind
      fun conflicts m₃ _ hm₃ _ => ⟨hm₃, trivial⟩
  · exact ⟨h, trivial⟩

theorem keeps_compareFragments {name₁ name₂ : String} (h : memory.Good good) :
    KeepsGood s document good (fun _ _ => True) (compareFragments s exclusive name₁ name₂)
      memory := by
  have hclaimed : (memory.claim exclusive name₁ name₂).2.Good good := by
    unfold Memory.claim
    split
    · exact h
    · exact h
  rw [compareFragments]
  change Plan.Keeps _ _ _ (if (memory.claim exclusive name₁ name₂).1 = true then _ else _) _
  split
  · split
    · rename_i place₁ fragment₁ place₂ fragment₂ hfragment₁ hfragment₂
      refine (keeps_selectedOfFragment hspread hs hclaimed (Assoc.mem_of_get? hfragment₁)).bind
        fun set₁ m₁ _ hm₁ hshown₁ => ?_
      refine (keeps_selectedOfFragment hspread hs hm₁ (Assoc.mem_of_get? hfragment₂)).bind
        fun set₂ m₂ hext hm₂ hshown₂ => ?_
      refine (keeps_all hm₂ fun c hc m hm => ?_).bind fun own m₃ _ hm₃ _ => ?_
      · exact knowsBoth_of_mem_between ((hshown₁.mono hext).mono hm) (hshown₂.mono hm) hc
      refine (keeps_all hm₃ fun c hc m _ => ?_).bind fun more m₄ _ hm₄ _ => ⟨hm₄, trivial⟩
      rcases List.mem_append.mp hc with hc | hc
      · exact knowsBoth_of_mem_betweenSpreads hc
      · exact knowsBoth_of_mem_betweenSpreads hc
    · exact ⟨hclaimed, trivial⟩
  · exact ⟨hclaimed, trivial⟩

/-- What is done for a comparison of known fields keeps the types good. -/
theorem keeps_plan {comparison : Comparison} (h : memory.Good good)
    (hknown : memory.KnowsBoth s document comparison) :
    KeepsGood s document good (fun _ _ => True) (plan s comparison) memory := by
  cases comparison with
  | fields exclusive key f₁ f₂ =>
      exact keeps_compareFields hspread hs h hknown.2.1 hknown.2.2
  | fragments exclusive name₁ name₂ => exact keeps_compareFragments hspread hs h

theorem keeps_withinSpreads {left : PlacedFragments} {names : List String}
    {found : List Conflict} (h : memory.Good good) (hset : memory.Shows s document set)
    (hleft : left ⊆ s.fragments) :
    KeepsGood s document good (fun _ _ => True) (withinSpreads s set left names found) memory := by
  induction names generalizing memory left found with
  | nil => exact ⟨h, trivial⟩
  | cons name rest ih =>
      rw [withinSpreads]
      have hreached : (reach set.place left [name]).1 ⊆ s.fragments :=
        fun _ hentry => hleft (mem_of_mem_reach hentry)
      refine (keeps_againstEach hspread hs h hset hreached).bind fun more m₁ hm₁ hgood₁ _ => ?_
      refine (keeps_all hgood₁ fun c hc m _ => knowsBoth_of_mem_betweenSpreads hc).bind
        fun pairs m₂ hm₂ hgood₂ _ => ?_
      exact ih hgood₂ (hset.mono (hm₂.trans hm₁)) fun _ hentry => hleft (mem_of_mem_still hentry)

/-- Checking some of the sets of the document keeps the types good. -/
theorem keeps_checkEach {sets : List CheckedSet} (h : memory.Good good)
    (hsets : sets ⊆ checkedSets s document) :
    KeepsGood s document good (fun _ _ => True) (checkEach s sets) memory := by
  induction sets generalizing memory with
  | nil => exact ⟨h, trivial⟩
  | cons checked rest ih =>
      rw [checkEach]
      have hchecked := hsets List.mem_cons_self
      refine (keeps_selected h (hspread.checked checked hchecked)
        (setAt?_of_mem_checkedSets hchecked)).bind fun set m₁ _ hm₁ hset => ?_
      have hwithin : KeepsGood s document good (fun _ _ => True) (withinSet s set) m₁ := by
        rw [withinSet]
        refine (keeps_all hm₁ fun c hc m hm => knowsBoth_of_mem_within (hset.mono hm) hc).bind
          fun own m₂ hm₂ hgood₂ _ => ?_
        exact keeps_withinSpreads hspread hs hgood₂ (hset.mono hm₂) (List.Subset.refl _)
      refine hwithin.bind fun conflicts m₂ _ hm₂ _ => ?_
      refine (ih hm₂ (List.Subset.trans (List.subset_cons_self _ _) hsets)).bind
        fun more m₃ _ hm₃ _ => ⟨hm₃, trivial⟩

/-- A comparison of known fields that comes to an end keeps the types good. -/
theorem Settles.good_after {comparison : Comparison} {found : List Conflict} {after : Memory}
    (h : Settles (plan s) comparison memory found after) (hgood : memory.Good good)
    (hknown : memory.KnowsBoth s document comparison) :
    after.Good good ∧ after.Extends memory :=
  h.keeps (fun _ _ => keeps_plan hspread hs) hgood hknown

end

end GraphQL.Merging
