import Mathlib
import GraphQL.Proofs.Merging.Ending
import GraphQL.Proofs.Validation.Valid

/-!
# Documents that validation comes to an end on

A selection set lies below another if it is nested in it or belongs to a fragment that is
spread in it (`Below`).  Two fields that are compared because of two others each lie below
one of those.  So if no set lies below itself, no comparison leads back to itself, and the
search ends (`isSome_search?_of_not_below_self`).

Sets that lie below themselves do not make the search go on by themselves.  What exactly
does is in `isSome_validate?_iff`.
-/

namespace GraphQL.Merging

variable {schema : Schema} {document : Document} {s : Setting} {memory : Memory}

/-! ## Sets below sets -/

/-- What is at the second place is nested right in the set at the first one, or it is what a
fragment selects that is spread there. -/
inductive Below (s : Setting) (document : Document) : Place → Place → Prop where
  | nested (outer : Place) (index : ℕ) : Below s document outer (index :: outer)
  | spread {outer place : Place} {set : SelectionSet} {name : String}
    {fragment : FragmentDefinition} (hset : setAt? s document outer = some set)
    (hname : name ∈ Selected.spreadsOfSet set)
    (hfragment : Assoc.get? s.fragments name = some (place, fragment)) :
    Below s document outer place

mutual

/-- A field of a set lies below the set. -/
theorem below_of_mem_fieldsOf {schema : Schema} {parent : Option TypeDef} {place : Place}
    {index : ℕ} {f : SelectedField} :
    ∀ {selections : List Selection}, f ∈ Selected.fieldsOf schema parent place index selections →
      Relation.TransGen (Below s document) place f.place
  | [], hf => by simp [Selected.fieldsOf] at hf
  | selection :: rest, hf => by
      rcases List.mem_append.mp hf with hf | hf
      · exact Relation.TransGen.head' (.nested place index) (below_of_mem_fieldsOfSelection hf)
      · exact below_of_mem_fieldsOf hf

theorem below_of_mem_fieldsOfSelection {schema : Schema} {parent : Option TypeDef}
    {place : Place} {f : SelectedField} :
    ∀ {selection : Selection}, f ∈ Selected.fieldsOfSelection schema parent place selection →
      Relation.ReflTransGen (Below s document) place f.place
  | .field field, hf => by
      obtain rfl := List.mem_singleton.mp hf
      exact .refl
  | .spread _, hf => by simp [Selected.fieldsOfSelection] at hf
  | .inline ⟨_, _, ⟨selections, _⟩, _⟩, hf => (below_of_mem_fieldsOf hf).to_reflTransGen

end

/-- A path of spreads leads further and further below. -/
theorem below_of_reaches (hs : s.fragments = placedFragments document) {home place : Place}
    {first name : String} {fragment : FragmentDefinition} {outer : Place} {set : SelectionSet}
    (hset : setAt? s document outer = some set) (hfirst : first ∈ Selected.spreadsOfSet set)
    (hpath : Relation.ReflTransGen (SpreadsBut s home) first name)
    (hname : Assoc.get? s.fragments name = some (place, fragment)) :
    Relation.TransGen (Below s document) outer place := by
  induction hpath generalizing place fragment with
  | refl => exact .single (.spread hset hfirst hname)
  | tail _ hstep ih =>
      obtain ⟨middlePlace, middle, hmiddle, -, hspread⟩ := hstep
      have hmiddleSet : setAt? s document middlePlace = some middle.selectionSet :=
        setAt?_of_mem_placedFragments (hs ▸ Assoc.mem_of_get? hmiddle)
      exact (ih hmiddle).tail (.spread hmiddleSet hspread hname)

/-! ## Fields below fields -/

/-- The places of the second two fields lie below those of the first two, one below each. -/
def BelowBoth (s : Setting) (document : Document) (place₁ place₂ inner₁ inner₂ : Place) : Prop :=
  (Relation.TransGen (Below s document) place₁ inner₁ ∧
    Relation.TransGen (Below s document) place₂ inner₂) ∨
  (Relation.TransGen (Below s document) place₂ inner₁ ∧
    Relation.TransGen (Below s document) place₁ inner₂)

theorem BelowBoth.trans {place₁ place₂ middle₁ middle₂ inner₁ inner₂ : Place}
    (h : BelowBoth s document place₁ place₂ middle₁ middle₂)
    (h' : BelowBoth s document middle₁ middle₂ inner₁ inner₂) :
    BelowBoth s document place₁ place₂ inner₁ inner₂ := by
  rcases h with ⟨h₁, h₂⟩ | ⟨h₂, h₁⟩ <;> rcases h' with ⟨h₁', h₂'⟩ | ⟨h₂', h₁'⟩
  · exact Or.inl ⟨h₁.trans h₁', h₂.trans h₂'⟩
  · exact Or.inr ⟨h₂.trans h₂', h₁.trans h₁'⟩
  · exact Or.inr ⟨h₂.trans h₁', h₁.trans h₂'⟩
  · exact Or.inl ⟨h₁.trans h₂', h₂.trans h₁'⟩

/-- Two places with themselves below both have one that lies below itself. -/
theorem BelowBoth.self {place₁ place₂ : Place}
    (h : BelowBoth s document place₁ place₂ place₁ place₂) :
    Relation.TransGen (Below s document) place₁ place₁ := by
  rcases h with ⟨h₁, -⟩ | ⟨h₂, h₁⟩
  · exact h₁
  · exact h₁.trans h₂

/-- The fields of what is known to be at a place lie below it. -/
theorem below_of_mem_groups {place : Place} {inner : SelectionSet} {set : Selected}
    (hset : memory.selected? s place inner = some set) {key : String}
    {row : List SelectedField} {f : SelectedField} (hrow : (key, row) ∈ set.groups)
    (hf : f ∈ row) : Relation.TransGen (Below s document) place f.place := by
  obtain ⟨parent, -, rfl⟩ := Option.map_eq_some_iff.mp hset
  obtain ⟨rfl, -⟩ := mem_groups_iff.mp hrow
  exact below_of_mem_fieldsOf (List.mem_of_mem_filter hf)

/-- So do the fields of the fragments that are reached from there. -/
theorem below_of_mem_opened (hs : s.fragments = placedFragments document) {place home : Place}
    {inner : SelectionSet} {set other : Selected} (hinner : setAt? s document place = some inner)
    (hset : memory.selected? s place inner = some set)
    (hother : Opens s memory home set.spreads other) {key : String} {row : List SelectedField}
    {f : SelectedField} (hrow : (key, row) ∈ other.groups) (hf : f ∈ row) :
    Relation.TransGen (Below s document) place f.place := by
  obtain ⟨name, fragmentPlace, fragment, hreached, hfragment⟩ := hother
  obtain ⟨first, hfirst, hpath, hname⟩ := reaches_of_mem_reach (fun _ _ h => h) hreached
  obtain ⟨parent, -, rfl⟩ := Option.map_eq_some_iff.mp hset
  exact (below_of_reaches hs hinner hfirst hpath hname).trans
    (below_of_mem_groups hfragment hrow hf)

/-- The fields of a comparison lie below those of the comparison that leads to it. -/
theorem belowBoth_of_leads (hs : s.fragments = placedFragments document)
    {exclusive exclusive' : Bool} {key key' : String} {f₁ f₂ g₁ g₂ : SelectedField}
    (hset₁ : setAt? s document f₁.place = f₁.field.selectionSet)
    (hset₂ : setAt? s document f₂.place = f₂.field.selectionSet)
    (h : Leads s memory (.fields exclusive key f₁ f₂) (.fields exclusive' key' g₁ g₂)) :
    BelowBoth s document f₁.place f₂.place g₁.place g₂.place := by
  cases h with
  | intro _ hinner₁ hinner₂ hselected₁ hselected₂ hfacing =>
      rw [hinner₁] at hset₁
      rw [hinner₂] at hset₂
      cases hfacing with
      | own hasked =>
          obtain ⟨_, row₁, row₂, _, _, heq, hrow₁, hg₁, hrow₂, hg₂⟩ := mem_between_iff.mp hasked
          cases heq
          exact Or.inl ⟨below_of_mem_groups hselected₁ hrow₁ hg₁,
            below_of_mem_groups hselected₂ (Assoc.mem_of_get? hrow₂) hg₂⟩
      | second hother hasked =>
          obtain ⟨_, row₁, row₂, _, _, heq, hrow₁, hg₁, hrow₂, hg₂⟩ := mem_between_iff.mp hasked
          cases heq
          exact Or.inl ⟨below_of_mem_groups hselected₁ hrow₁ hg₁,
            below_of_mem_opened hs hset₂ hselected₂ hother (Assoc.mem_of_get? hrow₂) hg₂⟩
      | first hother hasked =>
          obtain ⟨_, row₁, row₂, _, _, heq, hrow₁, hg₁, hrow₂, hg₂⟩ := mem_between_iff.mp hasked
          cases heq
          exact Or.inr ⟨below_of_mem_groups hselected₂ hrow₁ hg₁,
            below_of_mem_opened hs hset₁ hselected₁ hother (Assoc.mem_of_get? hrow₂) hg₂⟩
      | spreads hasked =>
          obtain ⟨_, -, _, -, heq⟩ := mem_betweenSpreads_iff.mp hasked
          cases heq

/-- So do those of all comparisons that it leads to in turn. -/
theorem belowBoth_of_leads_transGen (hs : s.fragments = placedFragments document)
    {exclusive exclusive' : Bool} {key key' : String} {f₁ f₂ g₁ g₂ : SelectedField}
    (hknown : memory.KnowsBoth s document (.fields exclusive key f₁ f₂))
    (h : Relation.TransGen (Leads s memory) (.fields exclusive key f₁ f₂)
      (.fields exclusive' key' g₁ g₂)) :
    BelowBoth s document f₁.place f₂.place g₁.place g₂.place := by
  generalize hasked : Comparison.fields exclusive' key' g₁ g₂ = asked at h
  have hall : ∀ asked, Relation.TransGen (Leads s memory) (.fields exclusive key f₁ f₂) asked →
      memory.KnowsBoth s document asked := by
    intro asked h
    induction h with
    | single h => exact knowsBoth_of_leads hs hknown h
    | tail _ h ih => exact knowsBoth_of_leads hs ih h
  induction h generalizing exclusive' key' g₁ g₂ with
  | single h =>
      subst hasked
      exact belowBoth_of_leads hs hknown.2.1.setAt? hknown.2.2.setAt? h
  | @tail middle last hmiddle h ih =>
      subst hasked
      cases middle with
      | fragments _ _ _ => cases h
      | fields exclusive key e₁ e₂ =>
          have hmiddle := hall _ hmiddle
          exact (ih rfl).trans (belowBoth_of_leads hs hmiddle.2.1.setAt? hmiddle.2.2.setAt? h)

/-! ## No set below itself -/

/-- The search ends if no selection set lies below itself. -/
theorem isSome_search?_of_not_below_self
    (h : ∀ place set, setAt? (.ofDocument schema document) document place = some set →
      ¬ Relation.TransGen (Below (.ofDocument schema document) document) place place) :
    (search? schema document).isSome := by
  refine isSome_search?_iff.mpr fun c m hmade hloop => ?_
  obtain ⟨-, hknown⟩ := hmade.good_now (spread_inPlace rfl)
  obtain ⟨first, hfirst, -⟩ := Relation.TransGen.head'_iff.mp hloop
  cases hfirst with
  | @intro exclusive key f₁ f₂ inner₁ _ _ _ _ _ hinner₁ _ _ _ _ =>
      have hplace := hknown.2.1.setAt?.trans hinner₁
      exact h f₁.place inner₁ hplace (belowBoth_of_leads_transGen rfl hknown hloop).self

end GraphQL.Merging

namespace GraphQL

open Merging

variable {schema : Schema} {document : Document}

/-! ## Validation -/

/-- Validation comes to an end when the search for fields that cannot be merged does. -/
theorem Document.isSome_validate?_iff_search? :
    (document.validate? schema).isSome ↔ (search? schema document).isSome := by
  rw [validate?, Option.isSome_map, errorsOf?]
  have hlanes : (Rule.all.mapM (document.lane? schema)).isSome ↔
      (search? schema document).isSome := by
    rw [isSome_mapM_iff]
    constructor
    · intro h
      have hrule := h Rule.overlappingFieldsCanBeMerged (by simp [Rule.all])
      obtain ⟨lane, hlane⟩ := Option.isSome_iff_exists.mp hrule
      obtain ⟨found, hfound, -⟩ := Option.bind_eq_some_iff.mp hlane
      exact Option.isSome_iff_exists.mpr ⟨found, hfound⟩
    · intro h rule hrule
      obtain ⟨found, hfound⟩ := Option.isSome_iff_exists.mp h
      rcases Rule.survey?_of_mem_all rule hrule with hsurvey | hsurvey
      · simp [lane?, hsurvey]
      · simp [lane?, hsurvey, hfound]
  rw [← hlanes]
  cases Rule.all.mapM (document.lane? schema) <;> simp

/-- Validation comes to an end exactly if no comparison of fields that it makes leads back to
itself.  In particular it does if no selection set lies below itself. -/
theorem Document.isSome_validate?_iff (schema : Schema) (document : Document) :
    ((document.validate? schema).isSome ↔ ∀ c m, Made schema document c m →
      ¬ Relation.TransGen (Leads (.ofDocument schema document) m) c c) ∧
    ((∀ place set, setAt? (.ofDocument schema document) document place = some set →
        ¬ Relation.TransGen (Below (.ofDocument schema document) document) place place) →
      (document.validate? schema).isSome) := by
  rw [isSome_validate?_iff_search?]
  exact ⟨isSome_search?_iff, isSome_search?_of_not_below_self⟩

end GraphQL

