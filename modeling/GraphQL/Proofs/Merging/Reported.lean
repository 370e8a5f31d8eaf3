import Mathlib
import GraphQL.Proofs.Merging.Admitted
import GraphQL.Proofs.Merging.Ending
import GraphQL.Proofs.Merging.Mergeable

/-!
# What the search reports cannot be merged

If a comparison finds a conflict, it does so by itself, or one of those does that it comes down to:
where nothing is answered to a plan, it yields nothing (`Plan.Yields.quiet_or_asks`).  So a conflict
goes back to two fields that give a reason against merging themselves, and from those it is passed
on to the fields around (`clashes_of_leads`), up to a set of the document (`cannotMerge_of_search?`).

The flag of a comparison tells what is passed on: a difference in shape if the objects of both sides
differ, and else that the two fields cannot be merged (`Clashes`).
-/

namespace GraphQL.Merging

open Plan (yields_bind yields_pure yields_all yields_each asks_bind mem_of_asks_each)
open Selected (fieldsOf spreadsOfSet)

variable {schema : Schema} {document : Document} {s : Setting} {answers : Answers}
  {memory after now : Memory} {exclusive : Bool} {set set₁ set₂ : Selected} {key : String}
  {f g : SelectedField} {found before : List Conflict} {asked : Comparison}

/-! ## Plans to which nothing is answered -/

/-- Where a plan gets something for an answer, it asked for it; else it gets nothing for all of its
answers. -/
theorem Plan.Yields.quiet_or_asks {α : Type} {p : Plan α} {result : α}
    (h : p.Yields answers memory result after) :
    p.Yields answers.quiet memory result after ∨
      ∃ asked now found between, p.Asks answers memory asked now ∧
        answers asked now found between ∧ found ≠ [] := by
  induction p generalizing memory with
  | done value => exact .inl h
  | look place parent next ih => exact ih _ h
  | claim exclusive name₁ name₂ next ih => exact ih _ h
  | compare comparison next ih =>
      obtain ⟨found, between, hanswer, hrest⟩ := h
      by_cases hfound : found = []
      · rcases ih found hrest with hquiet | ⟨asked, now, more, later, hasks, hmore⟩
        · exact .inl ⟨found, between, ⟨hfound, hanswer⟩, hquiet⟩
        · exact .inr ⟨asked, now, more, later, .inr ⟨found, between, hanswer, hasks⟩, hmore⟩
      · exact .inr ⟨comparison, memory, found, between, .inl ⟨rfl, rfl⟩, hanswer, hfound⟩

/-- A plan that yields something, though it would yield nothing if nothing were answered, gets
something for an answer. -/
theorem Plan.Yields.exists_asked {α : Type} {p : Plan (List α)} {result : List α}
    (h : p.Yields answers memory result after) (hresult : result ≠ [])
    (hquiet : p.Yields answers.quiet memory result after → result = []) :
    ∃ asked now found between, p.Asks answers memory asked now ∧
      answers asked now found between ∧ found ≠ [] :=
  h.quiet_or_asks.resolve_left fun hnone => hresult (hquiet hnone)

theorem eq_nil_of_quiet_all {comparisons : List Comparison}
    (h : (Plan.all comparisons).Yields answers.quiet memory found after) : found = [] := by
  rw [yields_all] at h
  induction comparisons generalizing memory found with
  | nil => exact h.1
  | cons comparison rest ih =>
      obtain ⟨first, between, more, ⟨rfl, -⟩, hrest, rfl⟩ := h
      exact ih hrest

theorem eq_of_quiet_againstEach {entries : PlacedFragments}
    (h : (againstEach s exclusive set entries before).Yields answers.quiet memory found after) :
    found = before := by
  induction entries generalizing memory before with
  | nil => exact (yields_pure.mp h).1.symm
  | cons entry rest ih =>
      obtain ⟨name, place, fragment⟩ := entry
      obtain ⟨other, looked, -, h⟩ := yields_bind.mp h
      obtain ⟨more, between, hmore, hrest⟩ := yields_bind.mp h
      obtain rfl := eq_nil_of_quiet_all hmore
      rw [ih hrest, List.append_nil]

theorem eq_nil_of_quiet_betweenSets
    (h : (betweenSets s exclusive set₁ set₂).Yields answers.quiet memory found after) :
    found = [] := by
  obtain ⟨own, m₁, hown, h⟩ := yields_bind.mp h
  obtain ⟨more₂, m₂, hmore₂, h⟩ := yields_bind.mp h
  obtain ⟨more₁, m₃, hmore₁, h⟩ := yields_bind.mp h
  obtain ⟨pairs, m₄, hpairs, h⟩ := yields_bind.mp h
  obtain ⟨rfl, -⟩ := yields_pure.mp h
  rw [eq_nil_of_quiet_all hown, eq_of_quiet_againstEach hmore₂, eq_of_quiet_againstEach hmore₁,
    eq_nil_of_quiet_all hpairs]
  rfl

/-- Two fields that give no reason themselves have a conflict only because of what is below. -/
theorem eq_nil_of_quiet_compareFields
    (h : (compareFields s exclusive key f g).Yields answers.quiet memory found after)
    (hreason : ownReason? s.schema (exclusive || parentsDiffer f g) f g = none) : found = [] := by
  simp only [compareFields, hreason] at h
  split at h
  · obtain ⟨set₁, m₁, -, h⟩ := yields_bind.mp h
    obtain ⟨set₂, m₂, -, h⟩ := yields_bind.mp h
    obtain ⟨conflicts, m₃, hconflicts, h⟩ := yields_bind.mp h
    obtain ⟨rfl, -⟩ := yields_pure.mp h
    exact ofSubfields_eq_nil_iff.mpr (eq_nil_of_quiet_betweenSets hconflicts)
  · exact (yields_pure.mp h).1.symm

theorem eq_nil_of_quiet_compareFragments {name₁ name₂ : String}
    (h : (compareFragments s exclusive name₁ name₂).Yields answers.quiet memory found after) :
    found = [] := by
  change Plan.Yields _ (if (memory.claim exclusive name₁ name₂).1 = true then _ else _)
    (memory.claim exclusive name₁ name₂).2 _ _ at h
  split at h
  · split at h
    · obtain ⟨set₁, m₁, -, h⟩ := yields_bind.mp h
      obtain ⟨set₂, m₂, -, h⟩ := yields_bind.mp h
      obtain ⟨own, m₃, hown, h⟩ := yields_bind.mp h
      obtain ⟨more, m₄, hmore, h⟩ := yields_bind.mp h
      obtain ⟨rfl, -⟩ := yields_pure.mp h
      rw [eq_nil_of_quiet_all hown, eq_nil_of_quiet_all hmore]
      rfl
    · exact (yields_pure.mp h).1.symm
  · exact (yields_pure.mp h).1.symm

theorem eq_of_quiet_withinSpreads {left : PlacedFragments} {names : List String}
    (h : (withinSpreads s set left names before).Yields answers.quiet memory found after) :
    found = before := by
  induction names generalizing memory left before with
  | nil => exact (yields_pure.mp h).1.symm
  | cons name rest ih =>
      obtain ⟨more, m₁, hmore, h⟩ := yields_bind.mp h
      obtain ⟨pairs, m₂, hpairs, h⟩ := yields_bind.mp h
      rw [ih h, eq_of_quiet_againstEach hmore, eq_nil_of_quiet_all hpairs, List.append_nil]

theorem eq_nil_of_quiet_checkEach {sets : List CheckedSet}
    (h : (checkEach s sets).Yields answers.quiet memory found after) : found = [] := by
  induction sets generalizing memory found with
  | nil => exact (yields_pure.mp h).1.symm
  | cons checked rest ih =>
      obtain ⟨set, m₁, -, h⟩ := yields_bind.mp h
      obtain ⟨conflicts, m₂, hwithin, h⟩ := yields_bind.mp h
      obtain ⟨more, m₃, hrest, h⟩ := yields_bind.mp h
      obtain ⟨rfl, rfl⟩ := yields_pure.mp h
      obtain ⟨own, m₄, hown, hwithin⟩ := yields_bind.mp hwithin
      rw [eq_of_quiet_withinSpreads hwithin, eq_nil_of_quiet_all hown, ih hrest]
      rfl

/-! ## What else plans ask for -/

/-- What the fragment of a name selects, as the memory knows it. -/
def ShowsFragment (s : Setting) (memory : Memory) (name : String) (set : Selected) : Prop :=
  ∃ place fragment, Assoc.get? s.fragments name = some (place, fragment) ∧
    memory.selected? s place fragment.selectionSet = some set

/-- The comparisons that two fragments come down to. -/
inductive FacingFragments (s : Setting) (memory : Memory) (exclusive : Bool)
    (name₁ name₂ : String) : Comparison → Prop where
  | own {set₁ set₂ : Selected} {asked : Comparison} (h₁ : ShowsFragment s memory name₁ set₁)
    (h₂ : ShowsFragment s memory name₂ set₂) (h : asked ∈ between exclusive set₁.groups set₂.groups) :
    FacingFragments s memory exclusive name₁ name₂ asked
  | second {set₂ : Selected} {name : String} (h₂ : ShowsFragment s memory name₂ set₂)
    (h : name ∈ set₂.spreads) :
    FacingFragments s memory exclusive name₁ name₂ (.fragments exclusive name₁ name)
  | first {set₁ : Selected} {name : String} (h₁ : ShowsFragment s memory name₁ set₁)
    (h : name ∈ set₁.spreads) :
    FacingFragments s memory exclusive name₁ name₂ (.fragments exclusive name name₂)

/-- The comparisons that one set comes down to. -/
inductive FacingSelf (s : Setting) (memory : Memory) (set : Selected) : Comparison → Prop where
  | own {asked : Comparison} (h : asked ∈ within set.groups) : FacingSelf s memory set asked
  | reached {other : Selected} {asked : Comparison}
    (hother : Opens s memory set.place set.spreads other)
    (h : asked ∈ between false set.groups other.groups) : FacingSelf s memory set asked
  | spreads {name₁ name₂ : String} (h₁ : name₁ ∈ set.spreads) (h₂ : name₂ ∈ set.spreads) :
    FacingSelf s memory set (.fragments false name₁ name₂)

section

variable (hanswers : ∀ {c m f m'}, answers c m f m' → m'.Extends m)
include hanswers

theorem facingFragments_of_asks {name₁ name₂ : String}
    (h : (compareFragments s exclusive name₁ name₂).Asks answers memory asked now) :
    FacingFragments s now exclusive name₁ name₂ asked := by
  change Plan.Asks answers (if (memory.claim exclusive name₁ name₂).1 = true then _ else _)
    (memory.claim exclusive name₁ name₂).2 asked now at h
  split at h
  · split at h
    · rename_i place₁ fragment₁ place₂ fragment₂ hfragment₁ hfragment₂
      rcases asks_bind.mp h with h | ⟨set₁, m₁, hset₁, h⟩
      · exact (not_asks_selected h).elim
      rcases asks_bind.mp h with h | ⟨set₂, m₂, hset₂, h⟩
      · exact (not_asks_selected h).elim
      have h₂ := h.extends hanswers
      have h₁ := h₂.trans (hset₂.extends hanswers)
      have hshown₁ : ShowsFragment s now name₁ set₁ :=
        ⟨place₁, fragment₁, hfragment₁, h₁.selected? (yields_selected hset₁).2⟩
      have hshown₂ : ShowsFragment s now name₂ set₂ :=
        ⟨place₂, fragment₂, hfragment₂, h₂.selected? (yields_selected hset₂).2⟩
      rcases asks_bind.mp h with h | ⟨own, m₃, -, h⟩
      · exact .own hshown₁ hshown₂ (mem_of_asks_each h)
      rcases asks_bind.mp h with h | ⟨more, m₄, -, h⟩
      · rcases List.mem_append.mp (mem_of_asks_each h) with h | h
        · obtain ⟨_, hname₁, name, hname, rfl⟩ := mem_betweenSpreads_iff.mp h
          obtain rfl := List.mem_singleton.mp hname₁
          exact .second hshown₂ hname
        · obtain ⟨name, hname, _, hname₂, rfl⟩ := mem_betweenSpreads_iff.mp h
          obtain rfl := List.mem_singleton.mp hname₂
          exact .first hshown₁ hname
      · exact h.elim
    · exact h.elim
  · exact h.elim

theorem asks_withinSpreads {left : PlacedFragments} {names : List String}
    (h : (withinSpreads s set left names before).Asks answers memory asked now) :
    (∃ name place fragment other, (name, place, fragment) ∈ (reach set.place left names).1 ∧
      now.selected? s place fragment.selectionSet = some other ∧
      asked ∈ between false set.groups other.groups) ∨
      ∃ name₁ ∈ names, ∃ name₂ ∈ names, asked = .fragments false name₁ name₂ := by
  induction names generalizing memory left before with
  | nil => exact h.elim
  | cons name rest ih =>
      rw [← List.singleton_append, reach_append]
      rcases asks_bind.mp h with h | ⟨more, m₁, -, h⟩
      · obtain ⟨name, place, fragment, other, hentry, hrest⟩ := asks_againstEach h hanswers
        exact .inl ⟨name, place, fragment, other, List.mem_append_left _ hentry, hrest⟩
      rcases asks_bind.mp h with h | ⟨pairs, m₂, -, h⟩
      · obtain ⟨name₁, hname₁, name₂, hname₂, rfl⟩ := mem_betweenSpreads_iff.mp (mem_of_asks_each h)
        exact .inr ⟨name₁, List.mem_append_left _ hname₁, name₂, List.mem_append_right _ hname₂,
          rfl⟩
      rcases ih h with ⟨name, place, fragment, other, hentry, hrest⟩ |
        ⟨name₁, hname₁, name₂, hname₂, rfl⟩
      · exact .inl ⟨name, place, fragment, other, List.mem_append_right _ hentry, hrest⟩
      · exact .inr ⟨name₁, List.mem_append_right _ hname₁, name₂, List.mem_append_right _ hname₂,
          rfl⟩

theorem facingSelf_of_asks (h : (withinSet s set).Asks answers memory asked now) :
    FacingSelf s now set asked := by
  rcases asks_bind.mp h with h | ⟨own, m₁, -, h⟩
  · exact .own (mem_of_asks_each h)
  rcases asks_withinSpreads hanswers h with
    ⟨name, place, fragment, other, hentry, hother, hasked⟩ | ⟨name₁, h₁, name₂, h₂, rfl⟩
  · exact .reached ⟨name, place, fragment, hentry, hother⟩ hasked
  · exact .spreads h₁ h₂

/-- The search asks only for comparisons that one of the sets comes down to. -/
theorem exists_facingSelf_of_asks {sets : List CheckedSet}
    (h : (checkEach s sets).Asks answers memory asked now) :
    ∃ c ∈ sets, ∃ set, now.selected? s c.place c.set = some set ∧
      FacingSelf s now set asked := by
  induction sets generalizing memory with
  | nil => exact h.elim
  | cons checked rest ih =>
      rcases asks_bind.mp h with h | ⟨set, m₁, hset, h⟩
      · exact (not_asks_selected h).elim
      rcases asks_bind.mp h with hself | ⟨conflicts, m₂, -, h⟩
      · refine ⟨checked, List.mem_cons_self, set, ?_, facingSelf_of_asks hanswers hself⟩
        exact (hself.extends hanswers).selected? (yields_selected hset).2
      rcases asks_bind.mp h with h | ⟨more, m₃, -, h⟩
      · obtain ⟨c, hc, hfacing⟩ := ih h
        exact ⟨c, List.mem_cons_of_mem _ hc, hfacing⟩
      · exact h.elim

end

/-! ## What a conflict tells -/

/-- What a conflict of two fields tells: they differ in shape, and unless that is all that was asked
for, they cannot be merged. -/
def Clashes (schema : Schema) (document : Document) (exclusive : Bool) (f g : SelectedField) :
    Prop :=
  if exclusive then ShapesDiffer schema document f g else CannotMerge schema document {f, g}

theorem ShapesDiffer.clashes (h : ShapesDiffer schema document f g)
    (hkey : f.field.responseKey = g.field.responseKey) (exclusive : Bool) :
    Clashes schema document exclusive f g := by
  cases exclusive with
  | true => exact h
  | false => exact .shapes (Set.mem_insert f {g}) (Set.mem_insert_of_mem f rfl) hkey h

/-- Two of some fields clash that have one key. -/
def ClashAmong (schema : Schema) (document : Document) (exclusive : Bool)
    (fields fields' : Set SelectedField) : Prop :=
  ∃ f ∈ fields, ∃ g ∈ fields', f.field.responseKey = g.field.responseKey ∧
    Clashes schema document exclusive f g

theorem ClashAmong.mono {fields fields' more more' : Set SelectedField}
    (h : ClashAmong schema document exclusive fields fields') (hsubset : fields ⊆ more)
    (hsubset' : fields' ⊆ more') : ClashAmong schema document exclusive more more' := by
  obtain ⟨f, hf, g, hg, hclash⟩ := h
  exact ⟨f, hsubset hf, g, hsubset' hg, hclash⟩

theorem ClashAmong.cannotMerge {fields : Set SelectedField}
    (h : ClashAmong schema document false fields fields) : CannotMerge schema document fields := by
  obtain ⟨f, hf, g, hg, -, hclash⟩ := h
  exact CannotMerge.mono hclash (Set.insert_subset hf (Set.singleton_subset_iff.mpr hg))

/-- What fields select passes its conflicts on to them. -/
theorem clashes_of_inside (hkey : f.field.responseKey = g.field.responseKey)
    (h : ClashAmong schema document (exclusive || parentsDiffer f g)
      (mergedFields schema document f g) (mergedFields schema document f g)) :
    Clashes schema document exclusive f g := by
  cases hflag : exclusive || parentsDiffer f g with
  | true =>
      rw [hflag] at h
      obtain ⟨f', hf', g', hg', hkey', hclash⟩ := h
      exact ShapesDiffer.clashes (.inside hf' hg' hkey' hclash) hkey exclusive
  | false =>
      rw [hflag] at h
      obtain ⟨rfl, hdiffer⟩ := Bool.or_eq_false_iff.mp hflag
      exact .inside (Set.mem_insert f {g}) (Set.mem_insert_of_mem f rfl) hkey
        (parentsDiffer_eq_false_iff.mp hdiffer) h.cannotMerge

/-- A reason that two fields give themselves is one against merging them. -/
theorem clashes_of_ownReason? {reason : ConflictReason}
    (hkey : f.field.responseKey = g.field.responseKey)
    (hnodup : (g.field.arguments.map (·.name.text)).Nodup)
    (h : ownReason? schema (exclusive || parentsDiffer f g) f g = some reason) :
    Clashes schema document exclusive f g := by
  have hmem : f ∈ ({f, g} : Set SelectedField) := Set.mem_insert f {g}
  have hmem' : g ∈ ({f, g} : Set SelectedField) := Set.mem_insert_of_mem f rfl
  unfold ownReason? at h
  dsimp only at h
  split at h
  · rename_i hname
    simp only [Bool.and_eq_true, Bool.not_eq_true', Bool.or_eq_false_iff, bne_iff_ne] at hname
    obtain ⟨⟨rfl, hdiffer⟩, hname⟩ := hname
    exact .names hmem hmem' hkey (parentsDiffer_eq_false_iff.mp hdiffer) hname
  split at h
  · rename_i hsame
    simp only [Bool.and_eq_true, Bool.not_eq_true', Bool.or_eq_false_iff] at hsame
    obtain ⟨⟨rfl, hdiffer⟩, hsame⟩ := hsame
    refine .arguments hmem hmem' hkey (parentsDiffer_eq_false_iff.mp hdiffer) fun hperm => ?_
    rw [sameArguments_of_perm hperm hnodup] at hsame
    cases hsame
  split at h
  · rename_i d d' hd hd'
    split at h
    · rename_i hconflict
      refine ShapesDiffer.clashes (.types hd hd' fun hshape => ?_) hkey exclusive
      rw [typesConflict_eq_false_iff.mpr hshape] at hconflict
      cases hconflict
    · cases h
  · cases h

/-- What it means that a comparison finds a conflict. -/
def Conflicts (schema : Schema) (document : Document) : Comparison → Prop
  | .fields exclusive _ f g =>
    f.field.responseKey = g.field.responseKey → Clashes schema document exclusive f g
  | .fragments exclusive name₁ name₂ =>
    ClashAmong schema document exclusive {f | FragmentSelects schema document name₁ f}
      {g | FragmentSelects schema document name₂ g}

/-- The types that the memory knows are those that sets are checked with. -/
abbrev Memory.KeepsTypes (memory : Memory) (schema : Schema) (document : Document) : Prop :=
  memory.Good fun place parent => parent = typeAt (.ofDocument schema document) document place

/-- The search looks at every set with the type that the set is checked with. -/
abbrev KeepsTypes (schema : Schema) (document : Document) : Prop :=
  Spread (.ofDocument schema document) document fun place parent =>
    parent = typeAt (.ofDocument schema document) document place

/-! ## What sets and fragments pass on -/

/-- What is known of a set is among some fields, its own and those of what it spreads. -/
structure Among (schema : Schema) (document : Document) (set : Selected)
    (fields : Set SelectedField) : Prop where
  own : ∀ key row f, (key, row) ∈ set.groups → f ∈ row → f.field.responseKey = key ∧ f ∈ fields
  spread : ∀ name ∈ set.spreads, ∀ f, FragmentSelects schema document name f → f ∈ fields

section

variable {fields fields' : Set SelectedField} (h₁ : Among schema document set₁ fields)
  (h₂ : Among schema document set₂ fields')
include h₁ h₂

theorem clashAmong_of_mem_between (hasked : asked ∈ between exclusive set₁.groups set₂.groups)
    (h : Conflicts schema document asked) : ClashAmong schema document exclusive fields fields' := by
  obtain ⟨key, row₁, row₂, f, g, rfl, hrow₁, hf, hrow₂, hg⟩ := mem_between_iff.mp hasked
  obtain ⟨rfl, hf⟩ := h₁.own key row₁ f hrow₁ hf
  obtain ⟨hkey, hg⟩ := h₂.own _ row₂ g (Assoc.mem_of_get? hrow₂) hg
  exact ⟨f, hf, g, hg, hkey.symm, h hkey.symm⟩

end

section

variable {place : Place} {inner : SelectionSet} {fields fields' : Set SelectedField}

/-- What a set selects, and what it spreads, is of the type that the set is checked with. -/
theorem among_of_selected?
    (hgood : memory.KeepsTypes schema document)
    (hset : memory.selected? (.ofDocument schema document) place inner = some set) :
    Among schema document set {f | Selects schema document
      (typeAt (.ofDocument schema document) document place) place inner f} := by
  obtain ⟨parent, hparent, rfl⟩ := Option.map_eq_some_iff.mp hset
  obtain rfl := hgood place parent hparent
  refine ⟨fun key row f hrow hf => ?_, fun name hname f hf => selects_of_mem_spreadsOfSet hf hname⟩
  obtain ⟨rfl, -⟩ := mem_groups_iff.mp hrow
  obtain ⟨hmem, hkey⟩ := List.mem_filter.mp hf
  exact ⟨by simpa using hkey, selects_of_mem_fieldsOf hmem⟩

variable (hspread : KeepsTypes schema document) (hgood : memory.KeepsTypes schema document)
include hspread hgood

theorem among_of_showsFragment {name : String}
    (h : ShowsFragment (.ofDocument schema document) memory name set) :
    Among schema document set {f | FragmentSelects schema document name f} := by
  obtain ⟨place, fragment, hfragment, hset⟩ := h
  have hmem := Assoc.mem_of_get? hfragment
  have htype := hspread.fragment name place fragment hmem
  obtain ⟨j, hd, rfl, hname⟩ := mem_placedFragments_iff.mp hmem
  have hselects (f : SelectedField) (hf : Selects schema document
      (typeAt (.ofDocument schema document) document [j]) [j] fragment.selectionSet f) :
      FragmentSelects schema document name f :=
    ⟨j, fragment, hd, hname, by rwa [← htype] at hf⟩
  have hamong := among_of_selected? hgood hset
  exact ⟨fun key row f hrow hf => (hamong.own key row f hrow hf).imp_right (hselects f),
    fun other hother f hf => hselects f (hamong.spread other hother f hf)⟩

/-- Fragments that a set reaches select among its fields. -/
theorem among_of_opens {home : Place} {names : List String}
    (hnames : ∀ name ∈ names, ∀ f, FragmentSelects schema document name f → f ∈ fields)
    (h : Opens (.ofDocument schema document) memory home names set) :
    Among schema document set fields := by
  obtain ⟨name, place, fragment, hreached, hset⟩ := h
  obtain ⟨first, hfirst, hpath, hname⟩ := reaches_of_mem_reach (fun _ _ h => h) hreached
  have hamong := among_of_showsFragment hspread hgood ⟨place, fragment, hname, hset⟩
  have hpath := Relation.ReflTransGen.mono (fun _ _ h => h.spreadsTo) _ _ hpath
  have hselects (f : SelectedField) (hf : FragmentSelects schema document name f) : f ∈ fields :=
    hnames first hfirst f (hf.of_reaches hpath)
  exact ⟨fun key row f hrow hf => (hamong.own key row f hrow hf).imp_right (hselects f),
    fun other hother f hf => hselects f (hamong.spread other hother f hf)⟩

/-- Two sets pass on the conflicts of the comparisons that they come down to. -/
theorem clashAmong_of_facing (h₁ : Among schema document set₁ fields)
    (h₂ : Among schema document set₂ fields')
    (hfacing : Facing (.ofDocument schema document) memory exclusive set₁ set₂ asked)
    (h : Conflicts schema document asked) :
    ClashAmong schema document exclusive (fields ∪ fields') (fields ∪ fields') := by
  have hleft : fields ⊆ fields ∪ fields' := Set.subset_union_left
  have hright : fields' ⊆ fields ∪ fields' := Set.subset_union_right
  cases hfacing with
  | own hasked => exact (clashAmong_of_mem_between h₁ h₂ hasked h).mono hleft hright
  | second hother hasked =>
      have hamong := among_of_opens hspread hgood h₂.spread hother
      exact (clashAmong_of_mem_between h₁ hamong hasked h).mono hleft hright
  | first hother hasked =>
      have hamong := among_of_opens hspread hgood h₁.spread hother
      exact (clashAmong_of_mem_between h₂ hamong hasked h).mono hright hleft
  | spreads hasked =>
      obtain ⟨name₁, hname₁, name₂, hname₂, rfl⟩ := mem_betweenSpreads_iff.mp hasked
      exact ClashAmong.mono h (fun f hf => hleft (h₁.spread name₁ hname₁ f hf))
        fun g hg => hright (h₂.spread name₂ hname₂ g hg)

/-- Two fields pass on the conflicts of what they select. -/
theorem clashes_of_leads (hkey : f.field.responseKey = g.field.responseKey)
    (hf : memory.Knows (.ofDocument schema document) document f)
    (hg : memory.Knows (.ofDocument schema document) document g)
    (hleads : Leads (.ofDocument schema document) memory (.fields exclusive key f g) asked)
    (h : Conflicts schema document asked) : Clashes schema document exclusive f g := by
  have hsubfields {f : SelectedField} {inner : SelectionSet} {set : Selected}
      (hf : memory.Knows (.ofDocument schema document) document f)
      (hinner : f.field.selectionSet = some inner)
      (hset : memory.selected? (.ofDocument schema document) f.place inner = some set) :
      Among schema document set (subfields schema document f) := by
    obtain ⟨place, around, parent, haround, hparent, hmem⟩ := hf
    have htype := hspread.field place around parent f inner haround (hgood _ _ hparent) hmem hinner
    have hamong := among_of_selected? hgood hset
    rw [← htype] at hamong
    exact ⟨fun key row f hrow hf => (hamong.own key row f hrow hf).imp_right fun hf =>
        ⟨inner, hinner, hf⟩,
      fun other hother f hf => ⟨inner, hinner, hamong.spread other hother f hf⟩⟩
  cases hleads with
  | intro _ hinner₁ hinner₂ hset₁ hset₂ hasked =>
      exact clashes_of_inside hkey (clashAmong_of_facing hspread hgood (hsubfields hf hinner₁ hset₁)
        (hsubfields hg hinner₂ hset₂) hasked h)

/-- Two fragments pass on the conflicts of the comparisons that they come down to. -/
theorem conflicts_of_facingFragments {name₁ name₂ : String}
    (hfacing : FacingFragments (.ofDocument schema document) memory exclusive name₁ name₂ asked)
    (h : Conflicts schema document asked) :
    Conflicts schema document (.fragments exclusive name₁ name₂) := by
  cases hfacing with
  | own h₁ h₂ hasked =>
      exact clashAmong_of_mem_between (among_of_showsFragment hspread hgood h₁)
        (among_of_showsFragment hspread hgood h₂) hasked h
  | second h₂ hname =>
      exact ClashAmong.mono h (fun _ hf => hf)
        fun g hg => (among_of_showsFragment hspread hgood h₂).spread _ hname g hg
  | first h₁ hname =>
      exact ClashAmong.mono h
        (fun f hf => (among_of_showsFragment hspread hgood h₁).spread _ hname f hf) fun _ hg => hg

/-- A set cannot be merged if one of the comparisons has a conflict that it comes down to. -/
theorem cannotMerge_of_facingSelf (hset : Among schema document set fields)
    (hfacing : FacingSelf (.ofDocument schema document) memory set asked)
    (h : Conflicts schema document asked) : CannotMerge schema document fields := by
  cases hfacing with
  | own hasked =>
      obtain ⟨⟨key, row⟩, hrow, hasked⟩ := List.mem_flatMap.mp hasked
      obtain ⟨f, hf, g, hg, rfl⟩ := mem_withinRow hasked
      obtain ⟨rfl, hf⟩ := hset.own key row f hrow hf
      obtain ⟨hkey, hg⟩ := hset.own _ row g hrow hg
      exact ClashAmong.cannotMerge ⟨f, hf, g, hg, hkey.symm, h hkey.symm⟩
  | reached hother hasked =>
      have hamong := among_of_opens hspread hgood hset.spread hother
      exact (clashAmong_of_mem_between hset hamong hasked h).cannotMerge
  | spreads h₁ h₂ =>
      exact (ClashAmong.mono h (fun f hf => hset.spread _ h₁ f hf)
        fun g hg => hset.spread _ h₂ g hg).cannotMerge

end

/-! ## All that is reported -/

/-- An answer to a comparison of known fields, if it is not that there is nothing, tells of a
conflict. -/
def Tells (schema : Schema) (document : Document) : Answers :=
  fun comparison memory found _ => memory.KeepsTypes schema document →
    memory.KnowsBoth (.ofDocument schema document) document comparison → found ≠ [] →
    Conflicts schema document comparison

section

variable (hspread : KeepsTypes schema document)
  (hnodup : ∀ place set f, setAt? (.ofDocument schema document) document place = some set →
    .field f ∈ set.selections → (f.arguments.map (·.name.text)).Nodup)
include hnodup

theorem nodup_arguments_of_mem_fieldsOf {place : Place} {inner : SelectionSet}
    {parent : Option TypeDef}
    (hset : setAt? (.ofDocument schema document) document place = some inner)
    (hf : f ∈ fieldsOf schema parent place 0 inner.selections) :
    (f.field.arguments.map (·.name.text)).Nodup := by
  have hinline : DescendsInline schema document fun _ _ => True := fun _ _ _ _ _ _ _ _ => trivial
  obtain ⟨home, around, i, hin⟩ := exists_inSet hinline hset trivial hf
  exact hnodup home around f.field hin.set (List.mem_of_getElem? hin.field)

include hspread

/-- A comparison tells of conflicts if those do that it asks for. -/
theorem tells_of_yields {c : Comparison}
    (h : (plan (.ofDocument schema document) c).Yields
      (fun c m found m' => Settles (plan (.ofDocument schema document)) c m found m' ∧
        Tells schema document c m found m') memory found after) :
    Tells schema document c memory found after := by
  intro hgood hknown hfound
  have hpassed {asked : Comparison} {now between : Memory} {first : List Conflict}
      (hasks : (plan (.ofDocument schema document) c).Asks
        (fun c m found m' => Settles (plan (.ofDocument schema document)) c m found m' ∧
          Tells schema document c m found m') memory asked now)
      (htells : Tells schema document asked now first between) (hfirst : first ≠ []) :
      now.KeepsTypes schema document ∧ Conflicts schema document asked := by
    obtain ⟨hgood', hknown'⟩ := (keeps_plan hspread rfl hgood hknown).ok_of_asks
      (fun hanswer hgood hknown => Settles.good_after hspread rfl hanswer.1 hgood hknown) hasks
    exact ⟨hgood', htells hgood' hknown' hfirst⟩
  cases c with
  | fields exclusive key f g =>
      intro hkey
      cases hreason : ownReason? schema (exclusive || parentsDiffer f g) f g with
      | some reason =>
          obtain ⟨-, -, place, inner, parent, hset, -, hg⟩ := hknown
          exact clashes_of_ownReason? hkey (nodup_arguments_of_mem_fieldsOf hnodup hset hg) hreason
      | none =>
          obtain ⟨asked, now, first, between, hasks, hanswer, hfirst⟩ :=
            h.exists_asked hfound fun hquiet => eq_nil_of_quiet_compareFields hquiet hreason
          obtain ⟨hgood', hconflicts⟩ := hpassed hasks hanswer.2 hfirst
          have hextends := hasks.extends fun hanswer => hanswer.1.extends
          exact clashes_of_leads hspread hgood' hkey (hknown.2.1.mono hextends.learns)
            (hknown.2.2.mono hextends.learns)
            (leads_of_asks hasks fun hanswer => hanswer.1.extends) hconflicts
  | fragments exclusive name₁ name₂ =>
      obtain ⟨asked, now, first, between, hasks, hanswer, hfirst⟩ :=
        h.exists_asked hfound eq_nil_of_quiet_compareFragments
      obtain ⟨hgood', hconflicts⟩ := hpassed hasks hanswer.2 hfirst
      exact conflicts_of_facingFragments hspread hgood'
        (facingFragments_of_asks (fun hanswer => hanswer.1.extends) hasks) hconflicts

theorem tells_of_settles {comparison : Comparison}
    (h : Settles (plan (.ofDocument schema document)) comparison memory found after) :
    Tells schema document comparison memory found after :=
  h.induct (motive := Tells schema document) fun _ _ _ _ hyields =>
    tells_of_yields hspread hnodup hyields

/-- If the search reports something, there are fields that cannot be merged in some set. -/
theorem cannotMerge_of_search? {errors : List ValidationError}
    (h : search? schema document = some errors) (herrors : errors ≠ []) :
    ∃ place, CannotMerge schema document (fieldsAt schema document place) := by
  obtain ⟨⟨conflicts, memory⟩, hrun, rfl⟩ := Option.map_eq_some_iff.mp h
  have hyields := run_eq_some_iff.mp hrun
  have hconflicts : conflicts ≠ [] := fun hnone => herrors (by rw [hnone]; rfl)
  obtain ⟨asked, now, first, between, hasks, hanswer, hfirst⟩ :=
    hyields.exists_asked hconflicts eq_nil_of_quiet_checkEach
  have hstart : Memory.KeepsTypes {} schema document :=
    fun place known h => by simp [Memory.parent?] at h
  obtain ⟨hgood, hknown⟩ := (keeps_checkEach hspread rfl hstart (List.Subset.refl _)).ok_of_asks
    (fun hanswer hgood hknown => Settles.good_after hspread rfl hanswer hgood hknown) hasks
  obtain ⟨c, hc, set, hset, hfacing⟩ := exists_facingSelf_of_asks Settles.extends hasks
  have hamong := among_of_selected? hgood hset
  refine ⟨c.place, CannotMerge.mono (cannotMerge_of_facingSelf hspread hgood hamong hfacing
    (tells_of_settles hspread hnodup hanswer hgood hknown hfirst)) fun f hf => ?_⟩
  exact ⟨c.set, setAt?_of_mem_checkedSets hc, hf⟩

end

end GraphQL.Merging
