import Mathlib
import GraphQL.Proofs.Merging.Known

/-!
# A search that finds nothing

What the memory holds after a search of a document that found no conflict.  All sets are
known, each set was compared with itself and with the fragments that it reaches, and none of
these comparisons found anything (`Searched`).

Two fragments count as compared as soon as that is begun, so a memory can be ahead of what
was found out.  When a comparison has come to its end without conflicts, each pair of
fragments that was added on the way is `Closed`: the fields of both were compared, and the
pairs that it leads to count as compared too (`closes_of_settles`).
-/

namespace GraphQL.Merging

open Plan (yields_bind yields_pure yields_all)

variable {s : Setting} {document : Document} {memory after between larger : Memory}
  {exclusive : Bool} {set set₁ set₂ : Selected} {found before : List Conflict}

/-! ## Comparisons without conflicts -/

/-- The comparison has come to its end and found nothing. -/
abbrev Quiet (s : Setting) (memory : Memory) (comparison : Comparison) : Prop :=
  Answered (Settles (plan s)) memory [] comparison

theorem Quiet.mono {comparison : Comparison} (h : Quiet s memory comparison)
    (hextends : larger.Extends memory) : Quiet s larger comparison :=
  Answered.mono h hextends id

/-- Two fields that were compared give no reason against merging. -/
theorem Quiet.ownReason?_eq_none {key : String} {f₁ f₂ : SelectedField}
    (h : Quiet s memory (.fields exclusive key f₁ f₂)) :
    ownReason? s.schema (exclusive || parentsDiffer f₁ f₂) f₁ f₂ = none := by
  obtain ⟨before, first, between, hsettles, -, hnil⟩ := h
  obtain rfl := hnil rfl
  have hyields := settles_iff.mp hsettles
  cases hreason : ownReason? s.schema (exclusive || parentsDiffer f₁ f₂) f₁ f₂ with
  | none => rfl
  | some reason =>
      simp only [plan, compareFields, hreason] at hyields
      obtain ⟨hfound, -⟩ := yields_pure.mp hyields
      cases hfound

/-- What fields without conflicts lead to has no conflicts. -/
theorem Quiet.of_leads {key : String} {f₁ f₂ : SelectedField} {asked : Comparison}
    (h : Quiet s memory (.fields exclusive key f₁ f₂))
    (hleads : Leads s memory (.fields exclusive key f₁ f₂) asked) : Quiet s memory asked := by
  obtain ⟨before, first, between, hsettles, hextends, hnil⟩ := h
  exact (answered_of_leads (settles_iff.mp hsettles) Settles.extends hextends hleads).mono
    hextends fun _ => hnil rfl

/-- Fragments that were compared count as compared. -/
theorem Quiet.covers {name₁ name₂ : String}
    (h : Quiet s memory (.fragments exclusive name₁ name₂)) :
    memory.covers exclusive name₁ name₂ = true := by
  obtain ⟨before, first, between, hsettles, hextends, -⟩ := h
  refine hextends.covers ?_
  have hyields := settles_iff.mp hsettles
  change Plan.Yields _ (if (before.claim exclusive name₁ name₂).1 = true then _ else _)
    (before.claim exclusive name₁ name₂).2 _ _ at hyields
  exact (hyields.extends Settles.extends).covers (before.covers_claim exclusive name₁ name₂)

/-! ## Pairs of fragments that count as compared -/

/-- What is behind the comparison of two fragments: if both are defined, their fields were
compared, and so was each with what the other one spreads. -/
def Closed (s : Setting) (memory : Memory) (exclusive : Bool) (name₁ name₂ : String) : Prop :=
  ∀ place₁ fragment₁ place₂ fragment₂,
    Assoc.get? s.fragments name₁ = some (place₁, fragment₁) →
    Assoc.get? s.fragments name₂ = some (place₂, fragment₂) →
    ∃ set₁ set₂, memory.selected? s place₁ fragment₁.selectionSet = some set₁ ∧
      memory.selected? s place₂ fragment₂.selectionSet = some set₂ ∧
      (∀ c ∈ Merging.between exclusive set₁.groups set₂.groups, Quiet s memory c) ∧
      (∀ name ∈ set₂.spreads, memory.covers exclusive name₁ name = true) ∧
      ∀ name ∈ set₁.spreads, memory.covers exclusive name name₂ = true

theorem Closed.mono {name₁ name₂ : String} (h : Closed s memory exclusive name₁ name₂)
    (hextends : larger.Extends memory) : Closed s larger exclusive name₁ name₂ := by
  intro place₁ fragment₁ place₂ fragment₂ hfragment₁ hfragment₂
  obtain ⟨set₁, set₂, hset₁, hset₂, hquiet, hspreads₂, hspreads₁⟩ :=
    h _ _ _ _ hfragment₁ hfragment₂
  exact ⟨set₁, set₂, hextends.selected? hset₁, hextends.selected? hset₂,
    fun c hc => (hquiet c hc).mono hextends, fun name hname => hextends.covers (hspreads₂ name hname),
    fun name hname => hextends.covers (hspreads₁ name hname)⟩

/-- Two fragments, in one order or the other, are closed, by a comparison at least as strict. -/
def ClosedPair (s : Setting) (memory : Memory) (exclusive : Bool) (name₁ name₂ : String) : Prop :=
  ∃ strict ≤ exclusive, Closed s memory strict name₁ name₂ ∨ Closed s memory strict name₂ name₁

theorem ClosedPair.mono {name₁ name₂ : String} (h : ClosedPair s memory exclusive name₁ name₂)
    (hextends : larger.Extends memory) : ClosedPair s larger exclusive name₁ name₂ := by
  obtain ⟨strict, hstrict, hclosed⟩ := h
  exact ⟨strict, hstrict, hclosed.imp (·.mono hextends) (·.mono hextends)⟩

/-- From one memory to a later one, only pairs of fragments were added that are closed. -/
def Closes (s : Setting) (memory after : Memory) : Prop :=
  ∀ exclusive name₁ name₂, after.covers exclusive name₁ name₂ = true →
    memory.covers exclusive name₁ name₂ = true ∨ ClosedPair s after exclusive name₁ name₂

theorem Closes.refl (memory : Memory) : Closes s memory memory := fun _ _ _ => Or.inl

theorem Closes.trans (h₁ : Closes s memory between) (h₂ : Closes s between after)
    (hextends : after.Extends between) : Closes s memory after := by
  intro exclusive name₁ name₂ hcovers
  rcases h₂ exclusive name₁ name₂ hcovers with hbetween | hclosed
  · exact (h₁ exclusive name₁ name₂ hbetween).imp_right (·.mono hextends)
  · exact Or.inr hclosed

theorem closes_look (memory : Memory) (place : Place) (parent : Option TypeDef) :
    Closes s memory (memory.look place parent).2 := by
  intro exclusive name₁ name₂ hcovers
  refine Or.inl ?_
  unfold Memory.look at hcovers
  cases h : memory.parent? place with
  | some known =>
      rw [h] at hcovers
      exact hcovers
  | none =>
      rw [h] at hcovers
      exact hcovers

/-- Only the two fragments are new after they were noted. -/
theorem covers_of_covers_note {flag : Bool} {name₁ name₂ other₁ other₂ : String}
    (h : (memory.note exclusive name₁ name₂).covers flag other₁ other₂ = true) :
    memory.covers flag other₁ other₂ = true ∨ exclusive ≤ flag ∧
      ((name₁ = other₁ ∧ name₂ = other₂) ∨ (name₁ = other₂ ∧ name₂ = other₁)) := by
  by_cases hpair : (name₁ = other₁ ∧ name₂ = other₂) ∨ (name₁ = other₂ ∧ name₂ = other₁)
  · by_cases hsame : other₁ = other₂
    · exact Or.inl (hsame ▸ memory.covers_self flag other₁)
    · simp only [Memory.covers, Memory.compared?_note, hpair, if_true, Option.any_some, hsame,
        decide_false, Bool.false_or] at h
      exact Or.inr ⟨by cases exclusive <;> cases flag <;> simp_all, hpair⟩
  · simp only [Memory.covers, Memory.compared?_note, hpair, if_false] at h
    exact Or.inl h

/-- What is known of the answers that were given while a comparison was made: they are those
of the search, and those without conflicts added closed pairs only. -/
structure Answers.Closing (s : Setting) (answers : Answers) : Prop where
  settles : ∀ {c m found m'}, answers c m found m' → Settles (plan s) c m found m'
  closes : ∀ {c m m'}, answers c m [] m' → Closes s m m'

section

variable {answers : Answers}

theorem Answers.Closing.extends (h : answers.Closing s) {c : Comparison} {m m' : Memory}
    {found : List Conflict} (hanswer : answers c m found m') : m'.Extends m :=
  (h.settles hanswer).extends

theorem closes_selected {parent : Option TypeDef} {place : Place} {inner : SelectionSet}
    (h : (selected s parent place inner).Yields answers memory set after) :
    Closes s memory after := by
  obtain ⟨rfl, -⟩ := yields_selected h
  exact closes_look memory place parent

variable (hclosing : answers.Closing s)
include hclosing

theorem closes_all {comparisons : List Comparison}
    (h : (Plan.all comparisons).Yields answers memory [] after) : Closes s memory after := by
  rw [yields_all] at h
  induction comparisons generalizing memory with
  | nil =>
      obtain ⟨-, rfl⟩ := h
      exact .refl memory
  | cons comparison rest ih =>
      obtain ⟨first, between, more, hanswer, hrest, hnil⟩ := h
      obtain ⟨rfl, rfl⟩ := List.append_eq_nil_iff.mp hnil.symm
      exact (hclosing.closes hanswer).trans (ih hrest)
        ((yields_all.mpr hrest).extends hclosing.extends)

theorem closes_againstEach {entries : PlacedFragments}
    (h : (againstEach s exclusive set entries before).Yields answers memory [] after) :
    Closes s memory after := by
  induction entries generalizing memory before with
  | nil =>
      obtain ⟨-, rfl⟩ := yields_pure.mp h
      exact .refl memory
  | cons entry rest ih =>
      obtain ⟨name, place, fragment⟩ := entry
      obtain ⟨other, looked, hother, h⟩ := yields_bind.mp h
      obtain ⟨more, between, hmore, hrest⟩ := yields_bind.mp h
      have hnil := (yields_againstEach hrest hclosing.extends).1 rfl
      obtain ⟨-, rfl⟩ := List.append_eq_nil_iff.mp hnil
      have h₁ := (closes_selected hother).trans (closes_all hclosing hmore)
        (hmore.extends hclosing.extends)
      exact h₁.trans (ih hrest) (hrest.extends hclosing.extends)

theorem closes_betweenSets
    (h : (betweenSets s exclusive set₁ set₂).Yields answers memory [] after) :
    Closes s memory after := by
  obtain ⟨own, m₁, hown, h⟩ := yields_bind.mp h
  obtain ⟨more₂, m₂, hmore₂, h⟩ := yields_bind.mp h
  obtain ⟨more₁, m₃, hmore₁, h⟩ := yields_bind.mp h
  obtain ⟨pairs, m₄, hpairs, h⟩ := yields_bind.mp h
  obtain ⟨hnil, rfl⟩ := yields_pure.mp h
  simp only [List.append_eq_nil_iff, and_assoc] at hnil
  obtain ⟨rfl, rfl, rfl, rfl⟩ := hnil
  have h₂ := (closes_all hclosing hown).trans (closes_againstEach hclosing hmore₂)
    (hmore₂.extends hclosing.extends)
  have h₃ := h₂.trans (closes_againstEach hclosing hmore₁) (hmore₁.extends hclosing.extends)
  exact h₃.trans (closes_all hclosing hpairs) (hpairs.extends hclosing.extends)

theorem closes_compareFields {key : String} {f₁ f₂ : SelectedField}
    (h : (compareFields s exclusive key f₁ f₂).Yields answers memory [] after) :
    Closes s memory after := by
  cases hreason : ownReason? s.schema (exclusive || parentsDiffer f₁ f₂) f₁ f₂ with
  | some reason =>
      simp only [compareFields, hreason] at h
      obtain ⟨-, rfl⟩ := yields_pure.mp h
      exact .refl memory
  | none =>
      by_cases hinner : ∃ inner₁ inner₂, f₁.field.selectionSet = some inner₁ ∧
          f₂.field.selectionSet = some inner₂
      · obtain ⟨inner₁, inner₂, hinner₁, hinner₂⟩ := hinner
        obtain ⟨set₁, set₂, m₁, m₂, conflicts, hset₁, hset₂, hconflicts, hnil⟩ :=
          yields_compareFields h hreason hinner₁ hinner₂
        obtain rfl := hnil rfl
        have h₂ := (closes_selected hset₁).trans (closes_selected hset₂)
          (hset₂.extends hclosing.extends)
        exact h₂.trans (closes_betweenSets hclosing hconflicts)
          (hconflicts.extends hclosing.extends)
      · simp only [compareFields, hreason] at h
        split at h
        · rename_i inner₁ inner₂ hinner₁ hinner₂
          exact absurd ⟨inner₁, inner₂, hinner₁, hinner₂⟩ hinner
        · obtain ⟨-, rfl⟩ := yields_pure.mp h
          exact .refl memory

/-- The comparisons of a row that found nothing. -/
theorem quiet_of_all {comparisons : List Comparison} {c : Comparison}
    (h : (Plan.all comparisons).Yields answers memory [] between) (hafter : after.Extends between)
    (hc : c ∈ comparisons) : Quiet s after c := by
  obtain ⟨before, first, later, hanswer, hextends, hnil⟩ :=
    ((yields_all.mp h).answered hclosing.extends hc).mono hafter id
  exact ⟨before, first, later, hclosing.settles hanswer, hextends, hnil⟩

theorem closed_of_yields {name₁ name₂ : String} {place₁ place₂ : Place}
    {fragment₁ fragment₂ : FragmentDefinition}
    (hfragment₁ : Assoc.get? s.fragments name₁ = some (place₁, fragment₁))
    (hfragment₂ : Assoc.get? s.fragments name₂ = some (place₂, fragment₂)) {m₁ m₂ m₃ : Memory}
    (hset₁ : (selectedOfFragment s place₁ fragment₁).Yields answers memory set₁ m₁)
    (hset₂ : (selectedOfFragment s place₂ fragment₂).Yields answers m₁ set₂ m₂)
    (hown : (Plan.all (Merging.between exclusive set₁.groups set₂.groups)).Yields answers m₂ [] m₃)
    (hmore : (Plan.all (betweenSpreads exclusive [name₁] set₂.spreads ++
      betweenSpreads exclusive set₁.spreads [name₂])).Yields answers m₃ [] after) :
    Closed s after exclusive name₁ name₂ := by
  intro p₁ g₁ p₂ g₂ hg₁ hg₂
  obtain ⟨rfl, rfl⟩ : place₁ = p₁ ∧ fragment₁ = g₁ := by simpa [hfragment₁] using hg₁
  obtain ⟨rfl, rfl⟩ : place₂ = p₂ ∧ fragment₂ = g₂ := by simpa [hfragment₂] using hg₂
  have h₃ := hmore.extends hclosing.extends
  have h₂ := h₃.trans (hown.extends hclosing.extends)
  have h₁ := h₂.trans (hset₂.extends hclosing.extends)
  refine ⟨set₁, set₂, h₁.selected? (yields_selected hset₁).2,
    h₂.selected? (yields_selected hset₂).2,
    fun c hc => quiet_of_all hclosing hown h₃ hc, fun name hname => ?_, fun name hname => ?_⟩
  · refine (quiet_of_all hclosing hmore (.refl after) (List.mem_append_left _ ?_)).covers
    exact mem_betweenSpreads_iff.mpr ⟨name₁, List.mem_singleton_self _, name, hname, rfl⟩
  · refine (quiet_of_all hclosing hmore (.refl after) (List.mem_append_right _ ?_)).covers
    exact mem_betweenSpreads_iff.mpr ⟨name, hname, name₂, List.mem_singleton_self _, rfl⟩

theorem closes_compareFragments {name₁ name₂ : String}
    (h : (compareFragments s exclusive name₁ name₂).Yields answers memory [] after) :
    Closes s memory after := by
  change Plan.Yields _ (if (memory.claim exclusive name₁ name₂).1 = true then _ else _)
    (memory.claim exclusive name₁ name₂).2 _ _ at h
  cases hcovers : memory.covers exclusive name₁ name₂ with
  | true =>
      simp only [Memory.claim, hcovers, if_true, Bool.false_eq_true, if_false] at h
      obtain ⟨-, rfl⟩ := yields_pure.mp h
      exact .refl memory
  | false =>
      simp only [Memory.claim, hcovers, if_true, Bool.false_eq_true, if_false] at h
      -- The two fragments count as compared from the claim on; what follows makes up for it.
      suffices hrest : Closes s (memory.note exclusive name₁ name₂) after ∧
          Closed s after exclusive name₁ name₂ by
        intro flag other₁ other₂ hother
        rcases hrest.1 flag other₁ other₂ hother with hnoted | hclosed
        · rcases covers_of_covers_note hnoted with hbefore | ⟨hstrict, hpair⟩
          · exact Or.inl hbefore
          · rcases hpair with ⟨rfl, rfl⟩ | ⟨rfl, rfl⟩
            · exact Or.inr ⟨exclusive, hstrict, Or.inl hrest.2⟩
            · exact Or.inr ⟨exclusive, hstrict, Or.inr hrest.2⟩
        · exact Or.inr hclosed
      split at h
      · rename_i place₁ fragment₁ place₂ fragment₂ hfragment₁ hfragment₂
        obtain ⟨set₁, m₁, hset₁, h⟩ := yields_bind.mp h
        obtain ⟨set₂, m₂, hset₂, h⟩ := yields_bind.mp h
        obtain ⟨own, m₃, hown, h⟩ := yields_bind.mp h
        obtain ⟨more, m₄, hmore, h⟩ := yields_bind.mp h
        obtain ⟨hnil, rfl⟩ := yields_pure.mp h
        obtain ⟨rfl, rfl⟩ := List.append_eq_nil_iff.mp hnil
        constructor
        · have h₂ := (closes_selected hset₁).trans (closes_selected hset₂)
            (hset₂.extends hclosing.extends)
          have h₃ := h₂.trans (closes_all hclosing hown) (hown.extends hclosing.extends)
          exact h₃.trans (closes_all hclosing hmore) (hmore.extends hclosing.extends)
        · exact closed_of_yields hclosing hfragment₁ hfragment₂ hset₁ hset₂ hown hmore
      · rename_i hnone
        obtain ⟨-, rfl⟩ := yields_pure.mp h
        refine ⟨.refl _, fun place₁ fragment₁ place₂ fragment₂ hfragment₁ hfragment₂ => ?_⟩
        exact (hnone _ _ _ _ hfragment₁ hfragment₂).elim

end

/-- A comparison without conflicts adds only pairs of fragments that are closed. -/
theorem closes_of_settles {comparison : Comparison}
    (h : Settles (plan s) comparison memory [] after) : Closes s memory after := by
  refine h.induct (motive := fun _ m found m' => found = [] → Closes s m m') ?_ rfl
  intro c m found m' hyields hnil
  subst hnil
  have hclosing : Answers.Closing s fun c m found m' =>
      Settles (plan s) c m found m' ∧ (found = [] → Closes s m m') :=
    ⟨And.left, fun hanswer => hanswer.2 rfl⟩
  cases c with
  | fields exclusive key f₁ f₂ => exact closes_compareFields hclosing hyields
  | fragments exclusive name₁ name₂ => exact closes_compareFragments hclosing hyields

theorem closing_settles : Answers.Closing s (Settles (plan s)) := ⟨id, closes_of_settles⟩

/-! ## One set -/

/-- A set that was compared with itself and with the fragments that it reaches, without
conflicts. -/
structure SearchedSet (s : Setting) (memory : Memory) (set : Selected) : Prop where
  within : ∀ c ∈ Merging.within set.groups, Quiet s memory c
  reached : ∀ other, Opens s memory set.place set.spreads other →
    ∀ c ∈ Merging.between false set.groups other.groups, Quiet s memory c
  spreads : set.spreads.Pairwise fun name₁ name₂ => memory.covers false name₁ name₂ = true

/-- What the search of a set goes through below its spreads. -/
theorem yields_withinSpreads {left : PlacedFragments} {names : List String}
    (h : (withinSpreads s set left names before).Yields (Settles (plan s)) memory [] after) :
    before = [] ∧ Closes s memory after ∧
      (∀ name place fragment, (name, place, fragment) ∈ (reach set.place left names).1 →
        ∃ other, after.selected? s place fragment.selectionSet = some other ∧
          ∀ c ∈ Merging.between false set.groups other.groups, Quiet s after c) ∧
      names.Pairwise fun name₁ name₂ => after.covers false name₁ name₂ = true := by
  induction names generalizing memory left before with
  | nil =>
      obtain ⟨rfl, rfl⟩ := yields_pure.mp h
      exact ⟨rfl, .refl memory, by simp [reach], .nil⟩
  | cons name rest ih =>
      obtain ⟨found, m₁, hagainst, h⟩ := yields_bind.mp h
      obtain ⟨pairs, m₂, hpairs, h⟩ := yields_bind.mp h
      obtain ⟨hnil, hcloses, hreached, hcovers⟩ := ih h
      obtain ⟨rfl, rfl⟩ := List.append_eq_nil_iff.mp hnil
      obtain ⟨hbefore, hagainst'⟩ := yields_againstEach hagainst Settles.extends
      have h₂ : after.Extends m₂ := h.extends Settles.extends
      have h₁ : after.Extends m₁ := h₂.trans (hpairs.extends Settles.extends)
      refine ⟨hbefore rfl, ?_, fun other place fragment hentry => ?_, ?_⟩
      · have hfirst := (closes_againstEach closing_settles hagainst).trans
          (closes_all closing_settles hpairs) (hpairs.extends Settles.extends)
        exact hfirst.trans hcloses h₂
      · rw [← List.singleton_append, reach_append] at hentry
        rcases List.mem_append.mp hentry with hentry | hentry
        · obtain ⟨known, hknown, hquiet⟩ := hagainst' other place fragment hentry
          exact ⟨known, h₁.selected? hknown, fun c hc => (hquiet c hc).mono h₁ id⟩
        · exact hreached other place fragment hentry
      · refine List.pairwise_cons.mpr ⟨fun other hother => ?_, hcovers⟩
        refine (quiet_of_all closing_settles hpairs h₂ ?_).covers
        exact mem_betweenSpreads_iff.mpr ⟨name, List.mem_singleton_self _, other, hother, rfl⟩

theorem searchedSet_of_yields
    (h : (withinSet s set).Yields (Settles (plan s)) memory [] after) :
    Closes s memory after ∧ ∀ larger : Memory, larger.Extends after → SearchedSet s larger set := by
  obtain ⟨own, m₁, hown, h⟩ := yields_bind.mp h
  obtain ⟨rfl, hcloses, hreached, hspreads⟩ := yields_withinSpreads h
  have hextends := h.extends Settles.extends
  refine ⟨(closes_all closing_settles hown).trans hcloses hextends, fun larger hlarger => ?_⟩
  refine ⟨fun c hc => quiet_of_all closing_settles hown (hlarger.trans hextends) hc, ?_,
    hspreads.imp hlarger.covers⟩
  rintro other ⟨name, place, fragment, hentry, hother⟩ c hc
  obtain ⟨known, hknown, hquiet⟩ := hreached name place fragment hentry
  obtain rfl : known = other := Option.some.inj ((hlarger.selected? hknown).symm.trans hother)
  exact (hquiet c hc).mono hlarger

/-! ## All sets -/

theorem searchedSets_of_yields {sets : List CheckedSet}
    (h : (checkEach s sets).Yields (Settles (plan s)) memory [] after) :
    Closes s memory after ∧ ∀ c ∈ sets, ∃ set, after.selected? s c.place c.set = some set ∧
      SearchedSet s after set := by
  induction sets generalizing memory with
  | nil =>
      obtain ⟨-, rfl⟩ := yields_pure.mp h
      exact ⟨.refl memory, by simp⟩
  | cons checked rest ih =>
      obtain ⟨set, m₁, hset, h⟩ := yields_bind.mp h
      obtain ⟨conflicts, m₂, hwithin, h⟩ := yields_bind.mp h
      obtain ⟨more, m₃, hrest, h⟩ := yields_bind.mp h
      obtain ⟨hnil, rfl⟩ := yields_pure.mp h
      obtain ⟨rfl, rfl⟩ := List.append_eq_nil_iff.mp hnil
      obtain ⟨hcloses, hsearched⟩ := ih hrest
      obtain ⟨hcloses', hsearched'⟩ := searchedSet_of_yields hwithin
      have h₃ := hrest.extends Settles.extends
      have h₂ := h₃.trans (hwithin.extends Settles.extends)
      constructor
      · have hfirst := (closes_selected hset).trans hcloses' (hwithin.extends Settles.extends)
        exact hfirst.trans hcloses h₃
      · refine List.forall_mem_cons.mpr ⟨⟨set, ?_, hsearched' _ h₃⟩, hsearched⟩
        exact h₂.selected? (yields_selected hset).2

/-- All sets of the document were searched, and what counts as compared has been. -/
structure Searched (s : Setting) (document : Document) (memory : Memory) : Prop where
  set : ∀ place inner, setAt? s document place = some inner →
    ∃ set, memory.selected? s place inner = some set ∧ SearchedSet s memory set
  closed : ∀ exclusive name₁ name₂, memory.covers exclusive name₁ name₂ = true →
    name₁ = name₂ ∨ ClosedPair s memory exclusive name₁ name₂

/-- A search without conflicts leaves a memory of a searched document, where the types are
good as far as that spreads. -/
theorem exists_searched {schema : Schema} {good : Place → Option TypeDef → Prop}
    (h : search? schema document = some [])
    (hspread : Spread (.ofDocument schema document) document good) :
    ∃ memory, Searched (.ofDocument schema document) document memory ∧ memory.Good good := by
  obtain ⟨⟨conflicts, memory⟩, hrun, hnil⟩ := Option.map_eq_some_iff.mp h
  obtain rfl := List.map_eq_nil_iff.mp hnil
  have hyields := run_eq_some_iff.mp hrun
  obtain ⟨hcloses, hsearched⟩ := searchedSets_of_yields hyields
  refine ⟨memory, ⟨fun place inner hinner => ?_, fun exclusive name₁ name₂ hcovers => ?_⟩, ?_⟩
  · obtain ⟨parent, hmem⟩ := exists_mem_checkedSets hinner
    exact hsearched _ hmem
  · refine (hcloses exclusive name₁ name₂ hcovers).imp_left fun hstart => ?_
    simpa [Memory.covers, Memory.compared?] using hstart
  · have hstart : Memory.Good good {} := fun place known h => by simp [Memory.parent?] at h
    have hkeeps := keeps_checkEach hspread rfl hstart (List.Subset.refl _)
    exact (hkeeps.post_of_yields (fun hanswer hgood hknown =>
      hanswer.good_after hspread rfl hgood hknown) hyields).1

end GraphQL.Merging
