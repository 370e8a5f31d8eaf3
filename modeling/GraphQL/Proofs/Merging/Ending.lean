import Mathlib
import GraphQL.Proofs.Merging.Known
import GraphQL.Validation.Basic

/-!
# When the search comes to an end

The comparison of two fields leads to comparisons of the fields that both select
(`Leads`).  Nothing bounds how often: with a fragment that is spread below fields of its
own, a comparison can lead back to itself, and the search goes on for ever.  This is the
only way for that to happen.

* If the search ends, what a comparison leads to ends before it, so no comparison that
  was made leads back to itself (`acc_leads_of_settles`).
* If it goes on, something has to come back.  The search looks at finitely many sets and
  claims finitely many pairs of fragments, so from some point on its memory stands still
  (`unknown`).  Then it compares fields only, and of those there are finitely many
  (`finite_knownComparisons`); without a way back they are used up (`settles_of_made`).
-/

namespace GraphQL.Merging

variable {schema : Schema} {document : Document} {s : Setting} {memory after now larger : Memory}
  {comparison asked : Comparison} {found : List Conflict}

/-! ## The comparisons that are made -/

/-- What the comparisons of the search of a document find. -/
abbrev Finds (schema : Schema) (document : Document) : Answers :=
  Settles (plan (.ofDocument schema document))

/-- The search of a document comes to make a comparison, with a memory. -/
inductive Made (schema : Schema) (document : Document) : Comparison → Memory → Prop where
  | ofDocument {asked : Comparison} {now : Memory}
    (h : (documentPlan schema document).Asks (Finds schema document) {} asked now) :
    Made schema document asked now
  | ofComparison {comparison asked : Comparison} {memory now : Memory}
    (hmade : Made schema document comparison memory)
    (h : (plan (.ofDocument schema document) comparison).Asks (Finds schema document) memory
      asked now) :
    Made schema document asked now

/-- The search has answered every comparison that it made, if it comes to an end. -/
theorem Made.exists_finds
    (h : (documentPlan schema document).Yields (Finds schema document) {} found after)
    (hmade : Made schema document asked now) :
    ∃ first between, Finds schema document asked now first between ∧ after.Extends between := by
  induction hmade with
  | ofDocument hasks => exact h.exists_answer_of_asks hasks
  | ofComparison _ hasks ih =>
      obtain ⟨first, between, hsettles, hafter⟩ := ih
      obtain ⟨inner, within, hinner, hbetween⟩ :=
        (settles_iff.mp hsettles).exists_answer_of_asks hasks
      exact ⟨inner, within, hinner, hafter.trans hbetween⟩

/-- Only known fields are compared, and the memory has what a good property spreads to. -/
theorem Made.good_now {good : Place → Option TypeDef → Prop}
    (hspread : Spread (.ofDocument schema document) document good)
    (hmade : Made schema document asked now) :
    now.Good good ∧ now.KnowsBoth (.ofDocument schema document) document asked := by
  have hfinds {c m f m'} (h : Finds schema document c m f m') (hgood : m.Good good)
      (hknown : m.KnowsBoth (.ofDocument schema document) document c) :=
    h.good_after hspread rfl hgood hknown
  induction hmade with
  | ofDocument hasks =>
      have hstart : Memory.Good good {} := fun place known h => by simp [Memory.parent?] at h
      exact (keeps_checkEach hspread rfl hstart (List.Subset.refl _)).ok_of_asks hfinds hasks
  | ofComparison _ hasks ih =>
      exact (keeps_plan hspread rfl ih.1 ih.2).ok_of_asks hfinds hasks

/-! ## A search that ends has no way back -/

theorem Leads.transGen_mono (hlearns : larger.Learns memory)
    (h : Relation.TransGen (Leads s memory) comparison asked) :
    Relation.TransGen (Leads s larger) comparison asked :=
  Relation.TransGen.mono (fun _ _ h => h.mono hlearns) _ _ h

theorem not_transGen_self_of_acc {α : Type} {r : α → α → Prop} {a : α}
    (h : Acc (fun b a => r a b) a) : ¬ Relation.TransGen r a a := by
  induction h with
  | intro a _ ih =>
      intro hloop
      obtain ⟨b, hab, hba⟩ := Relation.TransGen.head'_iff.mp hloop
      exact ih b hab (Relation.TransGen.tail' hba hab)

theorem acc_leads_of_settles (h : Settles (plan s) comparison memory found after) :
    ∀ larger : Memory, larger.Extends after →
      Acc (fun asked comparison => Leads s larger comparison asked) comparison := by
  refine h.induct (motive := fun comparison _ _ after => ∀ larger : Memory, larger.Extends after →
    Acc (fun asked comparison => Leads s larger comparison asked) comparison) ?_
  intro comparison memory found after hyields larger hlarger
  refine Acc.intro _ fun asked hleads => ?_
  cases comparison with
  | fragments exclusive name₁ name₂ => cases hleads
  | fields exclusive key f₁ f₂ =>
      obtain ⟨before, first, between, ⟨-, hacc⟩, hafter, -⟩ :=
        answered_of_leads hyields (fun hanswer => hanswer.1.extends) hlarger hleads
      exact hacc larger (hlarger.trans hafter)

/-! ## What the search does not know yet -/

/-- The places of selection sets. -/
def places (s : Setting) (document : Document) : Finset Place :=
  ((checkedSets s document).map (·.place)).toFinset

/-- The pairs of fragments, for either kind of comparison. -/
def fragmentPairs (s : Setting) : Finset (Bool × String × String) :=
  let names := (s.fragments.map (·.1)).toFinset
  Finset.univ ×ˢ names ×ˢ names

/-- The places that have not been looked at, with the pairs of fragments that are still to be
compared. -/
def unknown (s : Setting) (document : Document) (memory : Memory) : ℕ :=
  ((places s document).filter fun place => memory.parent? place = none).card +
    ((fragmentPairs s).filter fun pair => memory.covers pair.1 pair.2.1 pair.2.2 = false).card

/-- There is a set at each place that the memory knows. -/
abbrev Memory.InPlace (memory : Memory) (s : Setting) (document : Document) : Prop :=
  memory.Good fun place _ => ∃ set, setAt? s document place = some set

theorem spread_inPlace (hs : s.fragments = placedFragments document) :
    Spread s document fun place _ => ∃ set, setAt? s document place = some set where
  checked c hc := ⟨c.set, setAt?_of_mem_checkedSets hc⟩
  fragment _ _ fragment hfragment :=
    ⟨fragment.selectionSet, setAt?_of_mem_placedFragments (hs ▸ hfragment)⟩
  field _ _ _ _ inner hset _ hf hinner :=
    ⟨inner, (setAt?_of_mem_fieldsOf hset hf).trans hinner⟩

theorem mem_places {place : Place} {set : SelectionSet} (h : setAt? s document place = some set) :
    place ∈ places s document := by
  obtain ⟨parent, hmem⟩ := exists_mem_checkedSets h
  exact List.mem_toFinset.mpr (List.mem_map_of_mem (f := (·.place)) hmem)

theorem filter_places_subset (h : larger.Extends memory) :
    ((places s document).filter fun place => larger.parent? place = none) ⊆
      (places s document).filter fun place => memory.parent? place = none := by
  intro place hplace
  simp only [Finset.mem_filter] at hplace ⊢
  refine ⟨hplace.1, ?_⟩
  cases hknown : memory.parent? place with
  | none => rfl
  | some known =>
      rw [h.parent? hknown] at hplace
      simp at hplace

theorem filter_pairs_subset (h : larger.Extends memory) :
    ((fragmentPairs s).filter fun pair => larger.covers pair.1 pair.2.1 pair.2.2 = false) ⊆
      (fragmentPairs s).filter fun pair => memory.covers pair.1 pair.2.1 pair.2.2 = false := by
  intro pair hpair
  simp only [Finset.mem_filter] at hpair ⊢
  refine ⟨hpair.1, ?_⟩
  cases hcovers : memory.covers pair.1 pair.2.1 pair.2.2 with
  | false => rfl
  | true =>
      rw [h.covers hcovers] at hpair
      simp at hpair

theorem unknown_le (h : larger.Extends memory) :
    unknown s document larger ≤ unknown s document memory :=
  Nat.add_le_add (Finset.card_le_card (filter_places_subset h))
    (Finset.card_le_card (filter_pairs_subset h))

/-- Less is unknown after a pair of fragments was claimed. -/
theorem unknown_lt_of_note {exclusive : Bool} {name₁ name₂ : String}
    (hcovers : memory.covers exclusive name₁ name₂ = false)
    (hname₁ : name₁ ∈ s.fragments.map (·.1)) (hname₂ : name₂ ∈ s.fragments.map (·.1))
    (h : larger.Extends (memory.note exclusive name₁ name₂)) :
    unknown s document larger < unknown s document memory := by
  have hlarger : larger.Extends memory := h.trans (Memory.extends_note hcovers)
  refine Nat.add_lt_add_of_le_of_lt (Finset.card_le_card (filter_places_subset hlarger)) ?_
  refine Finset.card_lt_card (Finset.ssubset_iff_of_subset (filter_pairs_subset hlarger) |>.mpr ?_)
  refine ⟨(exclusive, name₁, name₂), ?_, ?_⟩
  · refine Finset.mem_filter.mpr ⟨?_, hcovers⟩
    simp only [fragmentPairs, Finset.mem_product, Finset.mem_univ, true_and, List.mem_toFinset]
    exact ⟨hname₁, hname₂⟩
  · simp [h.covers (Memory.covers_note memory exclusive name₁ name₂)]

/-- If no less is unknown, then nothing was learned. -/
theorem learns_of_unknown_eq (hlarger : larger.InPlace s document) (h : larger.Extends memory)
    (heq : unknown s document larger = unknown s document memory) : memory.Learns larger := by
  intro place known hknown
  cases hbefore : memory.parent? place with
  | some before =>
      rw [h.parent? hbefore] at hknown
      exact hknown
  | none =>
      -- A place that is new to the larger memory would make less unknown.
      exfalso
      obtain ⟨set, hset⟩ := hlarger place known hknown
      have hlt : ((places s document).filter fun place => larger.parent? place = none).card <
          ((places s document).filter fun place => memory.parent? place = none).card := by
        refine Finset.card_lt_card
          (Finset.ssubset_iff_of_subset (filter_places_subset h) |>.mpr ⟨place, ?_, ?_⟩)
        · simpa [hbefore] using mem_places hset
        · simp [hknown]
      have hle := Finset.card_le_card (filter_pairs_subset (s := s) h)
      unfold unknown at heq
      omega

/-! ## Finitely many comparisons -/

theorem finite_knows (s : Setting) (document : Document) (memory : Memory) :
    {f | memory.Knows s document f}.Finite := by
  refine Set.Finite.subset (List.finite_toSet ((checkedSets s document).flatMap fun c =>
    ((memory.parent? c.place).map fun parent =>
      Selected.fieldsOf s.schema parent c.place 0 c.set.selections).getD [])) ?_
  rintro f ⟨place, set, parent, hset, hparent, hf⟩
  obtain ⟨checkedParent, hchecked⟩ := exists_mem_checkedSets hset
  refine List.mem_flatMap.mpr ⟨_, hchecked, ?_⟩
  simpa only [hparent, Option.map_some, Option.getD_some] using hf

/-- The comparisons of fields that a memory knows. -/
def knownComparisons (s : Setting) (document : Document) (memory : Memory) : Set Comparison :=
  {c | memory.KnowsBoth s document c ∧ ∃ exclusive key f₁ f₂, c = .fields exclusive key f₁ f₂}

theorem finite_knownComparisons (s : Setting) (document : Document) (memory : Memory) :
    (knownComparisons s document memory).Finite := by
  have hknows := finite_knows s document memory
  refine Set.Finite.subset (((Set.finite_univ (α := Bool)).prod (hknows.prod hknows)).image
    fun p => Comparison.fields p.1 p.2.1.field.responseKey p.2.1 p.2.2) ?_
  rintro _ ⟨hknown, exclusive, key, f₁, f₂, rfl⟩
  obtain ⟨rfl, h₁, h₂⟩ := hknown
  exact ⟨(exclusive, f₁, f₂), ⟨Set.mem_univ _, h₁, h₂⟩, rfl⟩

/-- On a finite set in which nothing leads back to itself, everything comes to an end. -/
theorem wellFounded_of_no_loop {α : Type} {r : α → α → Prop} {S : Set α} (hfinite : S.Finite)
    (hloop : ∀ a ∈ S, ¬ Relation.TransGen r a a) :
    WellFounded fun b a : S => Relation.TransGen r a b := by
  have : Finite S := hfinite
  have : IsTrans S fun b a : S => Relation.TransGen r a b :=
    ⟨fun _ _ _ hab hbc => hbc.trans hab⟩
  have : Std.Irrefl fun b a : S => Relation.TransGen r a b := ⟨fun a => hloop a a.2⟩
  exact Finite.wellFounded_of_trans_of_irrefl _

/-! ## A search without a way back ends -/

/-- A comparison of fragments ends if everything does for which less is unknown. -/
theorem exists_finds_of_fragments {exclusive : Bool} {name₁ name₂ : String}
    (hmade : Made schema document (.fragments exclusive name₁ name₂) memory)
    (hless : ∀ asked now, Made schema document asked now →
      unknown (.ofDocument schema document) document now <
        unknown (.ofDocument schema document) document memory →
      ∃ found after, Finds schema document asked now found after) :
    ∃ found after, Finds schema document (.fragments exclusive name₁ name₂) memory found after := by
  obtain ⟨found, after, h⟩ := Plan.exists_yields_of_asks fun asked now hasks => by
    obtain ⟨hcovers, hname₁, hname₂, hnow⟩ := claimed_of_asks hasks Settles.extends
    exact hless asked now (.ofComparison hmade hasks)
      (unknown_lt_of_note hcovers hname₁ hname₂ hnow)
  exact ⟨found, after, settles_iff.mpr h⟩

/-- While the memory stands still, each comparison of fields leads to others that have not been
made, until there are none. -/
theorem exists_finds_of_fields (start : Memory)
    (hloop : ∀ c m, Made schema document c m →
      ¬ Relation.TransGen (Leads (.ofDocument schema document) m) c c)
    (hless : ∀ asked now, Made schema document asked now →
      unknown (.ofDocument schema document) document now <
        unknown (.ofDocument schema document) document start →
      ∃ found after, Finds schema document asked now found after)
    (hmade : Made schema document comparison memory)
    (hfields : comparison ∈ knownComparisons (.ofDocument schema document) document start)
    (hnoLoop : ¬ Relation.TransGen (Leads (.ofDocument schema document) start) comparison
      comparison)
    (hextends : memory.Extends start)
    (hunknown : unknown (.ofDocument schema document) document memory =
      unknown (.ofDocument schema document) document start) :
    ∃ found after, Finds schema document comparison memory found after := by
  let s : Setting := .ofDocument schema document
  let S : Set Comparison :=
    {c | c ∈ knownComparisons s document start ∧ ¬ Relation.TransGen (Leads s start) c c}
  have hwf := wellFounded_of_no_loop (r := Leads s start) (S := S)
    ((finite_knownComparisons s document start).subset fun _ h => h.1) fun _ h => h.2
  suffices key : ∀ (c : S) m, Made schema document c m → m.Extends start →
      unknown s document m = unknown s document start →
      ∃ found after, Finds schema document c m found after from
    key ⟨comparison, hfields, hnoLoop⟩ memory hmade hextends hunknown
  intro c
  induction c using hwf.induction with
  | h c ih =>
      intro m hmade hm hunknown
      obtain ⟨exclusive, key, f₁, f₂, hc⟩ := c.2.1.2
      have hyields : ∃ found after, (plan s c).Yields (Finds schema document) m found after := by
        refine Plan.exists_yields_of_asks fun asked now hasks => ?_
        have hasked := Made.ofComparison hmade hasks
        have hnow := (hasks.extends Settles.extends).trans hm
        have hle : unknown s document now ≤ unknown s document start := unknown_le hnow
        rcases Nat.lt_or_eq_of_le hle with hlt | heq
        · exact hless asked now hasked hlt
        obtain ⟨hplace, hknown⟩ := hasked.good_now (spread_inPlace rfl)
        have hstill := learns_of_unknown_eq hplace hnow heq
        cases asked with
        | fragments exclusive name₁ name₂ =>
            exact exists_finds_of_fragments hasked fun asked now hmade hlt =>
              hless asked now hmade (hlt.trans_eq heq)
        | fields exclusive' key' g₁ g₂ =>
            have hleads : Leads s start c (.fields exclusive' key' g₁ g₂) := by
              rw [hc] at hasks ⊢
              exact (leads_of_asks hasks Settles.extends).mono hstill
            have hback : ¬ Relation.TransGen (Leads s start) (.fields exclusive' key' g₁ g₂)
                (.fields exclusive' key' g₁ g₂) := fun hcycle =>
              hloop _ _ hasked (Leads.transGen_mono hnow.learns hcycle)
            exact ih ⟨_, ⟨hknown.mono hstill, _, _, _, _, rfl⟩, hback⟩ (.single hleads) now hasked
              hnow heq
      obtain ⟨found, after, h⟩ := hyields
      exact ⟨found, after, settles_iff.mpr h⟩

/-- Every comparison that is made ends, unless one leads back to itself. -/
theorem exists_finds_of_made
    (hloop : ∀ c m, Made schema document c m →
      ¬ Relation.TransGen (Leads (.ofDocument schema document) m) c c)
    (hmade : Made schema document comparison memory) :
    ∃ found after, Finds schema document comparison memory found after := by
  obtain ⟨n, hn⟩ : ∃ n, unknown (.ofDocument schema document) document memory = n := ⟨_, rfl⟩
  induction n using Nat.strong_induction_on generalizing comparison memory with
  | h n ih =>
      have hless : ∀ asked now, Made schema document asked now →
          unknown (.ofDocument schema document) document now <
            unknown (.ofDocument schema document) document memory →
          ∃ found after, Finds schema document asked now found after :=
        fun asked now hasked hlt => ih _ (hn ▸ hlt) hasked rfl
      cases comparison with
      | fragments exclusive name₁ name₂ => exact exists_finds_of_fragments hmade hless
      | fields exclusive key f₁ f₂ =>
          obtain ⟨-, hknown⟩ := hmade.good_now (spread_inPlace rfl)
          exact exists_finds_of_fields memory hloop hless hmade ⟨hknown, _, _, _, _, rfl⟩
            (hloop _ _ hmade) (.refl memory) rfl

/-- The search of a document comes to an end exactly if no comparison that it makes leads back
to itself. -/
theorem isSome_search?_iff :
    (search? schema document).isSome ↔ ∀ c m, Made schema document c m →
      ¬ Relation.TransGen (Leads (.ofDocument schema document) m) c c := by
  rw [search?, Option.isSome_map]
  constructor
  · intro h c m hmade
    obtain ⟨⟨found, after⟩, hrun⟩ := Option.isSome_iff_exists.mp h
    obtain ⟨first, between, hfinds, -⟩ := hmade.exists_finds (run_eq_some_iff.mp hrun)
    have hacc := acc_leads_of_settles hfinds between (.refl between)
    intro hcycle
    exact not_transGen_self_of_acc hacc (Leads.transGen_mono hfinds.extends.learns hcycle)
  · intro hloop
    have hyields : ∃ found after,
        (documentPlan schema document).Yields (Finds schema document) {} found after :=
      Plan.exists_yields_of_asks fun asked now hasks =>
        exists_finds_of_made hloop (.ofDocument hasks)
    obtain ⟨found, after, h⟩ := hyields
    exact Option.isSome_iff_exists.mpr ⟨(found, after), run_eq_some_iff.mpr h⟩

end GraphQL.Merging
