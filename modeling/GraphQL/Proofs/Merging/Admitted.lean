import Mathlib
import GraphQL.Execution.Grouping
import GraphQL.Proofs.Merging.Known
import GraphQL.Proofs.Schema.Built

/-!
# The objects that a set selects of

`Admits` says which objects the set at a place may select of when the document is executed.
The search looks at a set with the type that it finds for the set first, which need not be
the one that validation finds.  Unless a field of introspection hides a declared one, all
of those types fit all objects that the place admits (`spread_fits`).
-/

namespace GraphQL.Merging

open Grouping (applies)
open Selected (fieldsOf fieldsOfSelection conditionType)

/-- Objects of the named type may be what the set at the place selects of. -/
inductive Admits (schema : Schema) (document : Document) : Place → String → Prop where
  | operation {i : ℕ} {d : OperationDefinition} {t : TypeDef}
      (hd : document.definitions[i]? = some (.operation d))
      (ht : schema.rootType? d.operation = some t) : Admits schema document [i] t.name
  | fragment {i : ℕ} {d : FragmentDefinition} {object : String}
      (hd : document.definitions[i]? = some (.fragment d))
      (happlies : applies schema object (some d.typeCondition)) : Admits schema document [i] object
  | inline {place : Place} {set : SelectionSet} {i : ℕ} {f : InlineFragment} {object : String}
      (hset : setAt? (.ofDocument schema document) document place = some set)
      (hf : set.selections[i]? = some (.inline f)) (h : Admits schema document place object)
      (happlies : applies schema object f.typeCondition) :
      Admits schema document (i :: place) object
  | field {place : Place} {set : SelectionSet} {i : ℕ} {f : Field} {outer object : String}
      {d : FieldDef} (hset : setAt? (.ofDocument schema document) document place = some set)
      (hf : set.selections[i]? = some (.field f)) (h : Admits schema document place outer)
      (hd : (schema.type? outer).bind (schema.fieldDef? · f.name.text) = some d)
      (hobject : schema.Occupies object d.type) : Admits schema document (i :: place) object

variable {schema : Schema} {document : Document} {place : Place} {set : SelectionSet} {i : ℕ}
  {object : String} {parent : Option TypeDef}

/-! ## Where objects come from -/

theorem Admits.of_inline {f : InlineFragment} (h : Admits schema document (i :: place) object)
    (hset : setAt? (.ofDocument schema document) document place = some set)
    (hf : set.selections[i]? = some (.inline f)) :
    Admits schema document place object ∧ applies schema object f.typeCondition := by
  cases h with
  | operation hd ht => simp [setAt?] at hset
  | fragment hd happlies => simp [setAt?] at hset
  | inline hset' hf' h happlies =>
      obtain rfl := Option.some.inj (hset'.symm.trans hset)
      obtain rfl : _ = f := by simpa using hf'.symm.trans hf
      exact ⟨h, happlies⟩
  | field hset' hf' h hd hobject =>
      obtain rfl := Option.some.inj (hset'.symm.trans hset)
      simp [hf] at hf'

theorem Admits.of_field {f : Field} (h : Admits schema document (i :: place) object)
    (hset : setAt? (.ofDocument schema document) document place = some set)
    (hf : set.selections[i]? = some (.field f)) :
    ∃ outer d, Admits schema document place outer ∧
      (schema.type? outer).bind (schema.fieldDef? · f.name.text) = some d ∧
      schema.Occupies object d.type := by
  cases h with
  | operation hd ht => simp [setAt?] at hset
  | fragment hd happlies => simp [setAt?] at hset
  | inline hset' hf' h happlies =>
      obtain rfl := Option.some.inj (hset'.symm.trans hset)
      simp [hf] at hf'
  | field hset' hf' h hd hobject =>
      obtain rfl := Option.some.inj (hset'.symm.trans hset)
      obtain rfl : _ = f := by simpa using hf'.symm.trans hf
      exact ⟨_, _, h, hd, hobject⟩

theorem Admits.of_fragment {d : FragmentDefinition} (h : Admits schema document [i] object)
    (hd : document.definitions[i]? = some (.fragment d)) :
    applies schema object (some d.typeCondition) := by
  cases h with
  | operation hd' ht => simp [hd] at hd'
  | fragment hd' happlies =>
      obtain rfl : _ = d := by simpa using hd'.symm.trans hd
      exact happlies
  | inline hset => simp [setAt?] at hset
  | field hset => simp [setAt?] at hset

/-! ## Types that fit -/

/-- The type fits all objects that the place admits. -/
def FitsAt (schema : Schema) (document : Document) (place : Place) (parent : Option TypeDef) :
    Prop :=
  ∀ object, Admits schema document place object → schema.Fits parent object

theorem fits_filter {keep : TypeDef → Bool} (h : schema.Fits parent object) :
    schema.Fits (parent.filter keep) object :=
  fun t ht => h t (Option.filter_eq_some_iff.mp ht).1

section

variable (hcoherent : schema.Coherent)
include hcoherent

theorem fits_of_applies {condition : NamedType} (h : applies schema object (some condition)) :
    schema.Fits (schema.type? condition.name.text) object := by
  intro t ht
  refine ⟨by rw [hcoherent.name_of_type? ht]; exact ht, fun _ => ?_⟩
  simp only [applies, ht, Bool.or_eq_true, decide_eq_true_eq, Bool.and_eq_true] at h
  exact h.imp_right And.right

theorem fits_conditionType {condition : Option NamedType} (h : schema.Fits parent object)
    (happlies : applies schema object condition) :
    schema.Fits (conditionType schema parent condition) object := by
  cases condition with
  | none => exact h
  | some condition => exact fits_of_applies hcoherent happlies

theorem FitsAt.inline {f : InlineFragment} (h : FitsAt schema document place parent)
    (hset : setAt? (.ofDocument schema document) document place = some set)
    (hf : set.selections[i]? = some (.inline f)) :
    FitsAt schema document (i :: place) (conditionType schema parent f.typeCondition) := by
  intro object hadmits
  obtain ⟨hadmits, happlies⟩ := hadmits.of_inline hset hf
  exact fits_conditionType hcoherent (h object hadmits) happlies

end

/-! ## Fields in their sets -/

section

variable {good : Place → Option TypeDef → Prop} {f : SelectedField}

/-- A selected field is in a set, possibly one of an inline fragment, and what goes from sets
to those of inline fragments holds there. -/
structure InSet (schema : Schema) (document : Document) (good : Place → Option TypeDef → Prop)
    (f : SelectedField) (home : Place) (around : SelectionSet) (i : ℕ) : Prop where
  set : setAt? (.ofDocument schema document) document home = some around
  field : around.selections[i]? = some (.field f.field)
  place : f.place = i :: home
  good : good home f.parent
  definition : f.definition = f.parent.bind (·.field? f.field.name.text)

/-- What holds of the type of a set holds of those of its inline fragments. -/
abbrev DescendsInline (schema : Schema) (document : Document)
    (good : Place → Option TypeDef → Prop) : Prop :=
  ∀ place set i f parent, setAt? (.ofDocument schema document) document place = some set →
    set.selections[i]? = some (.inline f) → good place parent →
    good (i :: place) (conditionType schema parent f.typeCondition)

mutual

private theorem exists_inSet_from (hinline : DescendsInline schema document good) {place : Place} {set : SelectionSet} {index : ℕ}
    {parent : Option TypeDef}
    (hset : setAt? (.ofDocument schema document) document place = some set)
    (hparent : good place parent) :
    ∀ {selections : List Selection},
      (∀ i selection, selections[i]? = some selection →
        set.selections[index + i]? = some selection) →
      f ∈ fieldsOf schema parent place index selections →
      ∃ home set i, InSet schema document good f home set i
  | [], _, hf => by simp [fieldsOf] at hf
  | selection :: rest, h, hf => by
      rcases List.mem_append.mp hf with hf | hf
      · exact exists_inSet_selection hinline hset hparent (h 0 selection rfl) hf
      · refine exists_inSet_from hinline hset hparent (fun i found hfound => ?_) hf
        have := h (i + 1) found hfound
        rwa [show index + (i + 1) = index + 1 + i by omega] at this

private theorem exists_inSet_selection (hinline : DescendsInline schema document good) {place : Place} {set : SelectionSet} {index : ℕ}
    {parent : Option TypeDef}
    (hset : setAt? (.ofDocument schema document) document place = some set)
    (hparent : good place parent) :
    ∀ {selection : Selection}, set.selections[index]? = some selection →
      f ∈ fieldsOfSelection schema parent (index :: place) selection →
      ∃ home set i, InSet schema document good f home set i
  | .field field, h, hf => by
      obtain rfl := List.mem_singleton.mp hf
      exact ⟨place, set, index, hset, h, rfl, hparent, rfl⟩
  | .spread _, _, hf => by simp [fieldsOfSelection] at hf
  | .inline ⟨condition, directives, ⟨selections, span⟩, inlineSpan⟩, h, hf => by
      have hinner := setAt?_cons hset index
      rw [h] at hinner
      exact exists_inSet_from hinline hinner (hinline _ _ _ _ _ hset h hparent)
        (fun i found hfound => by rwa [Nat.zero_add]) hf

end

theorem exists_inSet (hinline : DescendsInline schema document good)
    (hset : setAt? (.ofDocument schema document) document place = some set)
    (hparent : good place parent) (hf : f ∈ fieldsOf schema parent place 0 set.selections) :
    ∃ home set i, InSet schema document good f home set i :=
  exists_inSet_from hinline hset hparent (fun i found hfound => by rwa [Nat.zero_add]) hf

end

/-! ## Types that the search looks with -/

section

variable (hcoherent : schema.Coherent) (hunshadowed : schema.Unshadowed)
include hcoherent hunshadowed

theorem FitsAt.fieldSet {f : Field} (h : FitsAt schema document place parent)
    (hset : setAt? (.ofDocument schema document) document place = some set)
    (hf : set.selections[i]? = some (.field f)) :
    FitsAt schema document (i :: place)
      (fieldSetParent (.ofDocument schema document) parent f.name.text) := by
  intro object hadmits
  obtain ⟨outer, found, hadmits, hfound, hobject⟩ := hadmits.of_field hset hf
  refine fits_filter fun target htarget => ?_
  obtain ⟨d, hselected, htype⟩ := Option.bind_eq_some_iff.mp htarget
  obtain ⟨t, ht, hd⟩ := Option.bind_eq_some_iff.mp hselected
  have hfits := h outer hadmits
  rw [ht] at hfits
  exact hfits.selected hcoherent hunshadowed hd hfound hobject target htype

omit hunshadowed in
theorem fitsAt_root {definition : Definition} (hd : document.definitions[i]? = some definition)
    (hroot : rootOf? (.ofDocument schema document) definition = some (parent, set)) :
    FitsAt schema document [i] parent := by
  intro object hadmits
  cases definition with
  | operation d =>
      obtain ⟨rfl, -⟩ : (schema.rootType? d.operation).bind (schema.type? ·.name) = parent ∧ _ := by
        simpa [rootOf?, Setting.ofDocument] using hroot
      cases hadmits with
      | operation hd' ht =>
          obtain rfl : _ = d := by simpa using hd'.symm.trans hd
          intro t htype
          rw [ht, Option.bind_some] at htype
          have hname := hcoherent.name_of_type? htype
          exact ⟨hname ▸ htype, fun _ => Or.inl hname⟩
      | fragment hd' => simp [hd] at hd'
      | inline hset => simp [setAt?] at hset
      | field hset => simp [setAt?] at hset
  | fragment d =>
      obtain ⟨rfl, -⟩ : (schema.type? d.typeCondition.name.text).filter (·.isCompositeType) =
          parent ∧ _ := by
        simpa [rootOf?, Setting.ofDocument] using hroot
      exact fits_filter (fits_of_applies hcoherent (hadmits.of_fragment hd))
  | _ => simp [rootOf?] at hroot

/-- The types that sets are looked at with fit all objects that their places admit. -/
theorem spread_fits :
    Spread (.ofDocument schema document) document (FitsAt schema document) where
  checked c hc := by
    refine good_of_mem_checkedSets (fun _ _ _ selection _ hset hselection hparent => ?_)
      (fitsAt_root hcoherent) hc
    cases selection with
    | field f => exact hparent.fieldSet hcoherent hunshadowed hset hselection
    | inline f =>
        exact fun object hobject =>
          fits_filter (hparent.inline hcoherent hset hselection object hobject)
    | spread f => exact fun object _ t ht => nomatch ht
  fragment name place fragment hmem := by
    obtain ⟨i, hget, rfl, -⟩ := mem_placedFragments_iff.mp hmem
    exact fun object hadmits => fits_of_applies hcoherent (hadmits.of_fragment hget)
  field place set parent f inner hset hparent hf _ := by
    obtain ⟨home, around, i, hin⟩ := exists_inSet
      (fun _ _ _ _ _ hset hf h => FitsAt.inline hcoherent h hset hf) hset hparent hf
    intro object hadmits
    rw [hin.place] at hadmits
    obtain ⟨outer, found, hadmits, hfound, hobject⟩ := hadmits.of_field hin.set hin.field
    intro target htarget
    obtain ⟨declared, hdeclared, htarget⟩ := Option.bind_eq_some_iff.mp htarget
    rw [hin.definition] at hdeclared
    obtain ⟨t, ht, hdeclared⟩ := Option.bind_eq_some_iff.mp hdeclared
    have hfits := hin.good outer hadmits
    rw [ht] at hfits
    exact hfits.declared hcoherent hunshadowed hdeclared hfound hobject target htarget

end

end GraphQL.Merging
