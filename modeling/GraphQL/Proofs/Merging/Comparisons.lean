import Mathlib
import GraphQL.Proofs.Merging.Plans
import GraphQL.Proofs.Merging.Reach

/-!
# What is compared with what

The plans of the search come down to a few rows of comparisons.  For each plan this file
says both ways what those are: all of them are answered when the plan has come to its end
(`answered_of_facing`, `answered_of_leads`), and nothing else is asked for
(`facing_of_asks`, `leads_of_asks`).

What a selection set selects depends on the type that it was first looked at with, so
`Facing` and `Leads` are relative to a memory.  They only grow with it.
-/

namespace GraphQL.Merging

open Plan (yields_bind yields_pure yields_all asks_bind mem_of_asks_each)

variable {s : Setting} {answers : Answers} {memory after now larger : Memory}
  {exclusive : Bool} {key : String} {f₁ f₂ : SelectedField} {set set₁ set₂ other : Selected}
  {found before : List Conflict} {asked : Comparison}

/-! ## Selection sets as they are known -/

/-- What the set at a place selects, if the memory knows the type that it selects of. -/
def Memory.selected? (memory : Memory) (s : Setting) (place : Place) (set : SelectionSet) :
    Option Selected :=
  (memory.parent? place).map (Selected.ofSet s.schema · place set)

/-- A memory that knows at least the types that another one does. -/
def Memory.Learns (larger memory : Memory) : Prop :=
  ∀ place known, memory.parent? place = some known → larger.parent? place = some known

theorem Memory.Extends.learns (h : larger.Extends memory) : larger.Learns memory :=
  fun _ _ => h.parent?

theorem Memory.Learns.selected? (h : larger.Learns memory) {place : Place}
    {set : SelectionSet} {result : Selected} (hset : memory.selected? s place set = some result) :
    larger.selected? s place set = some result := by
  obtain ⟨parent, hparent, rfl⟩ := Option.map_eq_some_iff.mp hset
  rw [Memory.selected?, h place parent hparent, Option.map_some]

theorem Memory.Extends.selected? (h : larger.Extends memory) {place : Place}
    {set : SelectionSet} {result : Selected} (hset : memory.selected? s place set = some result) :
    larger.selected? s place set = some result :=
  h.learns.selected? hset

theorem yields_selected {parent : Option TypeDef} {place : Place} {set : SelectionSet}
    {result : Selected} (h : (selected s parent place set).Yields answers memory result after) :
    after = (memory.look place parent).2 ∧ after.selected? s place set = some result := by
  obtain ⟨rfl, rfl⟩ := h
  refine ⟨rfl, ?_⟩
  rw [Memory.selected?, Memory.parent?_look, Option.map_some]

@[simp] theorem not_asks_selected {parent : Option TypeDef} {place : Place}
    {set : SelectionSet} : ¬ (selected s parent place set).Asks answers memory asked now :=
  id

/-! ## Fields and fragments in rows -/

theorem mem_groups_iff {parent : Option TypeDef} {place : Place} {set : SelectionSet}
    {row : List SelectedField} :
    (key, row) ∈ (Selected.ofSet s.schema parent place set).groups ↔
      row = (Selected.fieldsOf s.schema parent place 0 set.selections).filter
        (·.field.responseKey = key) ∧ row ≠ [] :=
  Assoc.mem_rows_iff

/-- The two fields of a comparison between sets stand one on each side, under the key of the
comparison. -/
theorem mem_between_iff {groups₁ groups₂ : SelectedGroups} :
    asked ∈ between exclusive groups₁ groups₂ ↔
      ∃ key row₁ row₂ f₁ f₂, asked = .fields exclusive key f₁ f₂ ∧ (key, row₁) ∈ groups₁ ∧
        f₁ ∈ row₁ ∧ Assoc.get? groups₂ key = some row₂ ∧ f₂ ∈ row₂ := by
  simp only [between, List.mem_flatMap]
  constructor
  · rintro ⟨⟨key, row₁⟩, hrow₁, h⟩
    cases hrow₂ : Assoc.get? groups₂ key with
    | none => simp [hrow₂] at h
    | some row₂ =>
        simp only [hrow₂, List.mem_flatMap, List.mem_map] at h
        obtain ⟨f₁, hf₁, f₂, hf₂, rfl⟩ := h
        exact ⟨key, row₁, row₂, f₁, f₂, rfl, hrow₁, hf₁, hrow₂, hf₂⟩
  · rintro ⟨key, row₁, row₂, f₁, f₂, rfl, hrow₁, hf₁, hrow₂, hf₂⟩
    refine ⟨(key, row₁), hrow₁, ?_⟩
    simp only [hrow₂, List.mem_flatMap, List.mem_map]
    exact ⟨f₁, hf₁, f₂, hf₂, rfl⟩

theorem mem_betweenSpreads_iff {names₁ names₂ : List String} :
    asked ∈ betweenSpreads exclusive names₁ names₂ ↔
      ∃ name₁ ∈ names₁, ∃ name₂ ∈ names₂, asked = .fragments exclusive name₁ name₂ := by
  simp only [betweenSpreads, List.mem_flatMap, List.mem_map, eq_comm]

/-! ## Against fragments -/

theorem yields_againstEach {entries : PlacedFragments}
    (h : (againstEach s exclusive set entries before).Yields answers memory found after)
    (hanswers : ∀ {c m f m'}, answers c m f m' → m'.Extends m) :
    (found = [] → before = []) ∧
      ∀ name place fragment, (name, place, fragment) ∈ entries →
        ∃ other, after.selected? s place fragment.selectionSet = some other ∧
          ∀ c ∈ between exclusive set.groups other.groups, Answered answers after found c := by
  induction entries generalizing memory before with
  | nil =>
      obtain ⟨rfl, rfl⟩ := yields_pure.mp h
      exact ⟨id, by simp⟩
  | cons entry rest ih =>
      obtain ⟨name, place, fragment⟩ := entry
      obtain ⟨other, looked, hother, h⟩ := yields_bind.mp h
      obtain ⟨more, between, hmore, hrest⟩ := yields_bind.mp h
      obtain ⟨-, hselected⟩ := yields_selected hother
      have hturn := yields_all.mp hmore
      have hbetween : between.Extends looked := hmore.extends hanswers
      have hafter : after.Extends between := hrest.extends hanswers
      obtain ⟨hnil, hanswered⟩ := ih hrest
      have hsplit : found = [] → before = [] ∧ more = [] :=
        fun hfound => List.append_eq_nil_iff.mp (hnil hfound)
      refine ⟨fun hfound => (hsplit hfound).1, ?_⟩
      intro name' place' fragment' hentry
      rcases List.mem_cons.mp hentry with heq | hentry
      · cases heq
        refine ⟨other, (hafter.trans hbetween).selected? hselected, fun c hc => ?_⟩
        exact (hturn.answered hanswers hc).mono hafter fun hfound => (hsplit hfound).2
      · exact hanswered name' place' fragment' hentry

theorem asks_againstEach {entries : PlacedFragments}
    (h : (againstEach s exclusive set entries before).Asks answers memory asked now)
    (hanswers : ∀ {c m f m'}, answers c m f m' → m'.Extends m) :
    ∃ name place fragment other, (name, place, fragment) ∈ entries ∧
      now.selected? s place fragment.selectionSet = some other ∧
      asked ∈ between exclusive set.groups other.groups := by
  induction entries generalizing memory before with
  | nil => exact h.elim
  | cons entry rest ih =>
      obtain ⟨name, place, fragment⟩ := entry
      rcases asks_bind.mp h with h | ⟨other, looked, hother, h⟩
      · exact (not_asks_selected h).elim
      obtain ⟨-, hselected⟩ := yields_selected hother
      rcases asks_bind.mp h with h | ⟨more, between, -, h⟩
      · exact ⟨name, place, fragment, other, List.mem_cons_self,
          (h.extends hanswers).selected? hselected, mem_of_asks_each h⟩
      · obtain ⟨name', place', fragment', other', hentry, hrest⟩ := ih h
        exact ⟨name', place', fragment', other', List.mem_cons_of_mem _ hentry, hrest⟩

/-! ## Two selection sets -/

/-- One of the fragments that some names reach from a set, as the memory knows it. -/
def Opens (s : Setting) (memory : Memory) (home : Place) (names : List String)
    (other : Selected) : Prop :=
  ∃ name place fragment, (name, place, fragment) ∈ (reach home s.fragments names).1 ∧
    memory.selected? s place fragment.selectionSet = some other

/-- The comparisons that two selection sets come down to. -/
inductive Facing (s : Setting) (memory : Memory) (exclusive : Bool) (set₁ set₂ : Selected) :
    Comparison → Prop where
  | own {asked : Comparison} (h : asked ∈ between exclusive set₁.groups set₂.groups) :
    Facing s memory exclusive set₁ set₂ asked
  /-- The first set against a fragment of the second one. -/
  | second {other : Selected} {asked : Comparison}
    (hother : Opens s memory set₁.place set₂.spreads other)
    (h : asked ∈ between exclusive set₁.groups other.groups) :
    Facing s memory exclusive set₁ set₂ asked
  /-- The second set against a fragment of the first one. -/
  | first {other : Selected} {asked : Comparison}
    (hother : Opens s memory set₂.place set₁.spreads other)
    (h : asked ∈ between exclusive set₂.groups other.groups) :
    Facing s memory exclusive set₁ set₂ asked
  | spreads {asked : Comparison} (h : asked ∈ betweenSpreads exclusive set₁.spreads set₂.spreads) :
    Facing s memory exclusive set₁ set₂ asked

theorem Opens.mono {home : Place} {names : List String} (h : Opens s memory home names other)
    (hlearns : larger.Learns memory) : Opens s larger home names other := by
  obtain ⟨name, place, fragment, hreached, hselected⟩ := h
  exact ⟨name, place, fragment, hreached, hlearns.selected? hselected⟩

theorem Facing.mono (h : Facing s memory exclusive set₁ set₂ asked)
    (hlearns : larger.Learns memory) : Facing s larger exclusive set₁ set₂ asked := by
  cases h with
  | own h => exact .own h
  | second hother h => exact .second (hother.mono hlearns) h
  | first hother h => exact .first (hother.mono hlearns) h
  | spreads h => exact .spreads h

/-- All that a set has to be compared with below some names has been. -/
theorem answered_of_opens {names : List String}
    (h : (against s exclusive set names).Yields answers memory found after)
    (hanswers : ∀ {c m f m'}, answers c m f m' → m'.Extends m) (hlarger : larger.Extends after)
    (hother : Opens s larger set.place names other)
    (hasked : asked ∈ between exclusive set.groups other.groups) :
    Answered answers after found asked := by
  obtain ⟨name, place, fragment, hreached, hselected⟩ := hother
  obtain ⟨known, hknown, hanswered⟩ :=
    (yields_againstEach h hanswers).2 name place fragment hreached
  obtain rfl : known = other :=
    Option.some.inj ((hlarger.selected? hknown).symm.trans hselected)
  exact hanswered asked hasked

theorem answered_of_facing
    (h : (betweenSets s exclusive set₁ set₂).Yields answers memory found after)
    (hanswers : ∀ {c m f m'}, answers c m f m' → m'.Extends m) (hlarger : larger.Extends after)
    (hfacing : Facing s larger exclusive set₁ set₂ asked) :
    Answered answers after found asked := by
  obtain ⟨own, m₁, hown, h⟩ := yields_bind.mp h
  obtain ⟨more₂, m₂, hmore₂, h⟩ := yields_bind.mp h
  obtain ⟨more₁, m₃, hmore₁, h⟩ := yields_bind.mp h
  obtain ⟨pairs, m₄, hpairs, h⟩ := yields_bind.mp h
  obtain ⟨rfl, rfl⟩ := yields_pure.mp h
  have h₄ := hpairs.extends hanswers
  have h₃ := h₄.trans (hmore₁.extends hanswers)
  have h₂ := h₃.trans (hmore₂.extends hanswers)
  have hnil : own ++ more₂ ++ more₁ ++ pairs = [] →
      own = [] ∧ more₂ = [] ∧ more₁ = [] ∧ pairs = [] := by
    simp only [List.append_eq_nil_iff, and_assoc, imp_self]
  cases hfacing with
  | own hasked =>
      exact ((yields_all.mp hown).answered hanswers hasked).mono h₂ fun hfound => (hnil hfound).1
  | second hother hasked =>
      exact (answered_of_opens hmore₂ hanswers (hlarger.trans h₃) hother hasked).mono h₃
        fun hfound => (hnil hfound).2.1
  | first hother hasked =>
      exact (answered_of_opens hmore₁ hanswers (hlarger.trans h₄) hother hasked).mono h₄
        fun hfound => (hnil hfound).2.2.1
  | spreads hasked =>
      exact ((yields_all.mp hpairs).answered hanswers hasked).mono (.refl _)
        fun hfound => (hnil hfound).2.2.2

theorem facing_of_asks (h : (betweenSets s exclusive set₁ set₂).Asks answers memory asked now)
    (hanswers : ∀ {c m f m'}, answers c m f m' → m'.Extends m) :
    Facing s now exclusive set₁ set₂ asked := by
  rcases asks_bind.mp h with h | ⟨own, m₁, -, h⟩
  · exact .own (mem_of_asks_each h)
  rcases asks_bind.mp h with h | ⟨more₂, m₂, -, h⟩
  · obtain ⟨name, place, fragment, other, hreached, hselected, hasked⟩ :=
      asks_againstEach h hanswers
    exact .second ⟨name, place, fragment, hreached, hselected⟩ hasked
  rcases asks_bind.mp h with h | ⟨more₁, m₃, -, h⟩
  · obtain ⟨name, place, fragment, other, hreached, hselected, hasked⟩ :=
      asks_againstEach h hanswers
    exact .first ⟨name, place, fragment, hreached, hselected⟩ hasked
  rcases asks_bind.mp h with h | ⟨pairs, m₄, -, h⟩
  · exact .spreads (mem_of_asks_each h)
  · exact h.elim

/-! ## Two fields -/

/-- A comparison of two fields leads to those that the sets of both come down to, if the
fields give no reason against merging themselves. -/
inductive Leads (s : Setting) (memory : Memory) : Comparison → Comparison → Prop where
  | intro {exclusive : Bool} {key : String} {f₁ f₂ : SelectedField} {inner₁ inner₂ : SelectionSet}
    {set₁ set₂ : Selected} {asked : Comparison}
    (hreason : ownReason? s.schema (exclusive || parentsDiffer f₁ f₂) f₁ f₂ = none)
    (hinner₁ : f₁.field.selectionSet = some inner₁)
    (hinner₂ : f₂.field.selectionSet = some inner₂)
    (hset₁ : memory.selected? s f₁.place inner₁ = some set₁)
    (hset₂ : memory.selected? s f₂.place inner₂ = some set₂)
    (hasked : Facing s memory (exclusive || parentsDiffer f₁ f₂) set₁ set₂ asked) :
    Leads s memory (.fields exclusive key f₁ f₂) asked

theorem Leads.mono {comparison : Comparison} (h : Leads s memory comparison asked)
    (hlearns : larger.Learns memory) : Leads s larger comparison asked := by
  cases h with
  | intro hreason hinner₁ hinner₂ hset₁ hset₂ hasked =>
      exact .intro hreason hinner₁ hinner₂ (hlearns.selected? hset₁) (hlearns.selected? hset₂)
        (hasked.mono hlearns)

theorem ofSubfields_eq_nil_iff : ofSubfields key f₁ f₂ found = [] ↔ found = [] := by
  cases found <;> simp [ofSubfields]

/-- What the plan for two fields goes through, if both select something. -/
theorem yields_compareFields {inner₁ inner₂ : SelectionSet}
    (h : (compareFields s exclusive key f₁ f₂).Yields answers memory found after)
    (hreason : ownReason? s.schema (exclusive || parentsDiffer f₁ f₂) f₁ f₂ = none)
    (hinner₁ : f₁.field.selectionSet = some inner₁)
    (hinner₂ : f₂.field.selectionSet = some inner₂) :
    ∃ set₁ set₂ m₁ m₂ conflicts,
      (selected s (subfieldParent s f₁) f₁.place inner₁).Yields answers memory set₁ m₁ ∧
      (selected s (subfieldParent s f₂) f₂.place inner₂).Yields answers m₁ set₂ m₂ ∧
      (betweenSets s (exclusive || parentsDiffer f₁ f₂) set₁ set₂).Yields answers m₂ conflicts
        after ∧
      (found = [] → conflicts = []) := by
  simp only [compareFields, hreason, hinner₁, hinner₂] at h
  obtain ⟨set₁, m₁, hset₁, h⟩ := yields_bind.mp h
  obtain ⟨set₂, m₂, hset₂, h⟩ := yields_bind.mp h
  obtain ⟨conflicts, m₃, hconflicts, h⟩ := yields_bind.mp h
  obtain ⟨rfl, rfl⟩ := yields_pure.mp h
  exact ⟨set₁, set₂, m₁, m₂, conflicts, hset₁, hset₂, hconflicts, ofSubfields_eq_nil_iff.mp⟩

theorem answered_of_leads
    (h : (compareFields s exclusive key f₁ f₂).Yields answers memory found after)
    (hanswers : ∀ {c m f m'}, answers c m f m' → m'.Extends m) (hlarger : larger.Extends after)
    (hleads : Leads s larger (.fields exclusive key f₁ f₂) asked) :
    Answered answers after found asked := by
  cases hleads with
  | intro hreason hinner₁ hinner₂ hset₁ hset₂ hasked =>
      obtain ⟨known₁, known₂, m₁, m₂, conflicts, hknown₁, hknown₂, hconflicts, hnil⟩ :=
        yields_compareFields h hreason hinner₁ hinner₂
      obtain ⟨-, hselected₁⟩ := yields_selected hknown₁
      obtain ⟨-, hselected₂⟩ := yields_selected hknown₂
      have h₂ : larger.Extends m₂ := hlarger.trans (hconflicts.extends hanswers)
      have h₁ : larger.Extends m₁ := h₂.trans (hknown₂.extends hanswers)
      cases (h₁.selected? hselected₁).symm.trans hset₁
      cases (h₂.selected? hselected₂).symm.trans hset₂
      exact (answered_of_facing hconflicts hanswers hlarger hasked).mono (.refl _) hnil

theorem leads_of_asks (h : (compareFields s exclusive key f₁ f₂).Asks answers memory asked now)
    (hanswers : ∀ {c m f m'}, answers c m f m' → m'.Extends m) :
    Leads s now (.fields exclusive key f₁ f₂) asked := by
  unfold compareFields at h
  cases hreason : ownReason? s.schema (exclusive || parentsDiffer f₁ f₂) f₁ f₂ with
  | some reason =>
      simp only [hreason] at h
      exact h.elim
  | none =>
      simp only [hreason] at h
      cases hinner₁ : f₁.field.selectionSet with
      | none =>
          simp only [hinner₁] at h
          exact h.elim
      | some inner₁ =>
          cases hinner₂ : f₂.field.selectionSet with
          | none =>
              simp only [hinner₁, hinner₂] at h
              exact h.elim
          | some inner₂ =>
              simp only [hinner₁, hinner₂] at h
              rcases asks_bind.mp h with h | ⟨set₁, m₁, hset₁, h⟩
              · exact (not_asks_selected h).elim
              rcases asks_bind.mp h with h | ⟨set₂, m₂, hset₂, h⟩
              · exact (not_asks_selected h).elim
              rcases asks_bind.mp h with h | ⟨conflicts, m₃, -, h⟩
              · have h₂ := h.extends hanswers
                exact .intro hreason hinner₁ hinner₂
                  ((h₂.trans (hset₂.extends hanswers)).selected? (yields_selected hset₁).2)
                  (h₂.selected? (yields_selected hset₂).2) (facing_of_asks h hanswers)
              · exact h.elim

/-! ## Two fragments -/

/-- Only fragments that are still to be compared lead to comparisons, and only after they
count as compared. -/
theorem claimed_of_asks {name₁ name₂ : String}
    (h : (compareFragments s exclusive name₁ name₂).Asks answers memory asked now)
    (hanswers : ∀ {c m f m'}, answers c m f m' → m'.Extends m) :
    memory.covers exclusive name₁ name₂ = false ∧
      name₁ ∈ s.fragments.map (·.1) ∧ name₂ ∈ s.fragments.map (·.1) ∧
      now.Extends (memory.note exclusive name₁ name₂) := by
  change Plan.Asks answers (if (memory.claim exclusive name₁ name₂).1 = true then _ else _)
    (memory.claim exclusive name₁ name₂).2 asked now at h
  cases hcovers : memory.covers exclusive name₁ name₂ with
  | true =>
      simp only [Memory.claim, hcovers, if_true, Bool.false_eq_true, if_false] at h
      exact h.elim
  | false =>
      simp only [Memory.claim, hcovers, if_true, Bool.false_eq_true, if_false] at h
      have hextends := h.extends hanswers
      cases hfragment₁ : Assoc.get? s.fragments name₁ with
      | none =>
          simp only [hfragment₁] at h
          exact h.elim
      | some fragment₁ =>
          cases hfragment₂ : Assoc.get? s.fragments name₂ with
          | none =>
              simp only [hfragment₁, hfragment₂] at h
              exact h.elim
          | some fragment₂ =>
              exact ⟨rfl, List.mem_map_of_mem (Assoc.mem_of_get? hfragment₁),
                List.mem_map_of_mem (Assoc.mem_of_get? hfragment₂), hextends⟩

end GraphQL.Merging
