import Mathlib
import GraphQL.Proofs.Merging.Reported
import GraphQL.Proofs.Typing.Places
import GraphQL.Proofs.Validation.Cycles
import GraphQL.Proofs.Validation.Independence

/-!
# The search for fields that cannot be merged is exact

The search compares fields two by two, keeps in mind which fragments it has compared, and inherits
from above that objects differ.  If no other rule finds anything, and no field of introspection is
selected, it reports something exactly if the fields of some selection set cannot be merged as it is
specified (`Document.reports_iff_not_canMerge`).

That it reports nothing else is in `Merging.cannotMerge_of_search?`.  That it misses nothing is shown
here: fields of one key that are selected by one set agree after a search without conflicts, so do
those that are merged below them (`Merging.agree_of_mem_mergedFields`), and fields that agree are of
one shape and can be merged.
-/

namespace GraphQL

namespace Merging

variable {schema : Schema} {document : Document} {memory : Memory} {place home home' : Place}
  {set : SelectionSet} {f g f' g' : SelectedField} {exclusive : Bool}

/-! ## Nothing is missed -/

section

variable (hnames : ((placedFragments document).map (·.1)).Nodup)
  (hspread : KeepsTypes schema document)
  (hsearched : Searched (.ofDocument schema document) document memory)
  (hgood : memory.KeepsTypes schema document)
include hsearched hgood

theorem parent?_of_setAt? (hset : setAt? (.ofDocument schema document) document place = some set) :
    memory.parent? place = some (typeAt (.ofDocument schema document) document place) := by
  obtain ⟨selected, hselected, -⟩ := hsearched.set place set hset
  obtain ⟨parent, hparent, -⟩ := Option.map_eq_some_iff.mp hselected
  rw [hparent, hgood place parent hparent]

include hnames hspread

/-- What a set selects can be seen from it. -/
theorem visible_of_selects
    (hset : setAt? (.ofDocument schema document) document place = some set)
    (h : Selects schema document (typeAt (.ofDocument schema document) document place) place set g) :
    Visible (.ofDocument schema document) document memory place g := by
  rcases h.own_or_reached hnames with hg | ⟨first, hfirst, name, other, fragment, hpath, hname, hg⟩
  · exact .own ⟨set, _, hset, parent?_of_setAt? hsearched hgood hset, hg⟩
  · have hmem := Assoc.mem_of_get? hname
    have hother := setAt?_of_mem_placedFragments (s := .ofDocument schema document) hmem
    refine .reached hset hfirst hpath hname
      ⟨fragment.selectionSet, _, hother, parent?_of_setAt? hsearched hgood hother, ?_⟩
    rwa [← hspread.fragment name other fragment hmem]

theorem visible_of_mem_subfields
    (hf : Holds (.ofDocument schema document) document memory home f)
    (hg : g ∈ subfields schema document f) :
    ∃ inner, f.field.selectionSet = some inner ∧
      setAt? (.ofDocument schema document) document f.place = some inner ∧
      Visible (.ofDocument schema document) document memory f.place g := by
  obtain ⟨around, parent, haround, hparent, hmem⟩ := hf
  obtain ⟨inner, hinner, hg⟩ := hg
  have hset := (setAt?_of_mem_fieldsOf haround hmem).trans hinner
  have htype := hspread.field home around parent f inner haround (hgood _ _ hparent) hmem hinner
  refine ⟨inner, hinner, hset, visible_of_selects hnames hspread hsearched hgood hset ?_⟩
  rw [← htype]
  exact hg

omit hnames hspread hsearched hgood in
theorem exists_holds_of_visible
    (h : Visible (.ofDocument schema document) document memory place f) :
    ∃ home, Holds (.ofDocument schema document) document memory home f := by
  cases h with
  | own h => exact ⟨place, h⟩
  | reached _ _ _ _ h => exact ⟨_, h⟩

theorem exists_holds_of_mem_mergedFields
    (hf : Holds (.ofDocument schema document) document memory home f)
    (hg : Holds (.ofDocument schema document) document memory home' g)
    (h : f' ∈ mergedFields schema document f g) :
    ∃ home, Holds (.ofDocument schema document) document memory home f' := by
  rcases h with h | h
  · obtain ⟨_, -, -, h⟩ := visible_of_mem_subfields hnames hspread hsearched hgood hf h
    exact exists_holds_of_visible h
  · obtain ⟨_, -, -, h⟩ := visible_of_mem_subfields hnames hspread hsearched hgood hg h
    exact exists_holds_of_visible h

/-- Where two fields agree, so do the fields that they select together, as strictly as their objects
allow. -/
theorem agree_of_mem_mergedFields
    (hf : Holds (.ofDocument schema document) document memory home f)
    (hg : Holds (.ofDocument schema document) document memory home' g)
    (h : Agree (.ofDocument schema document) memory exclusive f g)
    (hf' : f' ∈ mergedFields schema document f g) (hg' : g' ∈ mergedFields schema document f g)
    (hkey : f'.field.responseKey = g'.field.responseKey) :
    Agree (.ofDocument schema document) memory (exclusive || parentsDiffer f g) f' g' := by
  have hvisible {home : Place} {f f' : SelectedField}
      (hf : Holds (.ofDocument schema document) document memory home f)
      (hf' : f' ∈ subfields schema document f) :=
    visible_of_mem_subfields hnames hspread hsearched hgood hf hf'
  have hacross {f' g' : SelectedField} (hf' : f' ∈ subfields schema document f)
      (hg' : g' ∈ subfields schema document g)
      (hkey : f'.field.responseKey = g'.field.responseKey) :
      Agree (.ofDocument schema document) memory (exclusive || parentsDiffer f g) f' g' := by
    obtain ⟨inner, hinner, hset, hf'⟩ := hvisible hf hf'
    obtain ⟨inner', hinner', hset', hg'⟩ := hvisible hg hg'
    obtain ⟨flag, hflag, hlinked⟩ := exists_linked_of_agree hsearched h hinner hinner' hset hset'
    exact (agree_of_linked rfl hsearched hlinked hf' hg' hkey).mono hflag
  have hwithin {home : Place} {f f' g' : SelectedField}
      (hf : Holds (.ofDocument schema document) document memory home f)
      (hf' : f' ∈ subfields schema document f) (hg' : g' ∈ subfields schema document f)
      (hkey : f'.field.responseKey = g'.field.responseKey) {flag : Bool} :
      Agree (.ofDocument schema document) memory flag f' g' := by
    obtain ⟨-, -, -, hf'⟩ := hvisible hf hf'
    obtain ⟨-, -, -, hg'⟩ := hvisible hf hg'
    exact agree_of_linked rfl hsearched (.inl rfl) hf' hg' hkey
  rcases hf' with hf' | hf' <;> rcases hg' with hg' | hg'
  · exact hwithin hf hf' hg' hkey
  · exact hacross hf' hg' hkey
  · exact (hacross hg' hf' hkey.symm).symm
  · exact hwithin hg hf' hg' hkey

/-- Fields that agree are of one shape. -/
theorem sameResponseShape_of_agree
    (hf : Holds (.ofDocument schema document) document memory home f)
    (hg : Holds (.ofDocument schema document) document memory home' g)
    (h : Agree (.ofDocument schema document) memory exclusive f g) :
    SameResponseShape schema document f g := by
  intro hdiffer
  induction hdiffer generalizing home home' exclusive with
  | types hd hd' hshape =>
      rcases h.typesConflict_eq_false hd hd' with rfl | hsame | hsame
      · obtain rfl := Option.some.inj (hd.symm.trans hd')
        exact hshape (.refl _)
      · exact hshape (typesConflict_eq_false_iff.mp hsame)
      · exact hshape (typesConflict_eq_false_iff.mp hsame).symm
  | inside hf' hg' hkey _ ih =>
      obtain ⟨_, hheld⟩ :=
        exists_holds_of_mem_mergedFields hnames hspread hsearched hgood hf hg hf'
      obtain ⟨_, hheld'⟩ :=
        exists_holds_of_mem_mergedFields hnames hspread hsearched hgood hf hg hg'
      exact ih hheld hheld'
        (agree_of_mem_mergedFields hnames hspread hsearched hgood hf hg h hf' hg' hkey)

variable (hnodup : ∀ place set f, setAt? (.ofDocument schema document) document place = some set →
    .field f ∈ set.selections → (f.arguments.map (·.name.text)).Nodup)
include hnodup

/-- Fields that agree wherever they have one key can be merged. -/
theorem canMerge_of_agree {fields : Set SelectedField}
    (hheld : ∀ f ∈ fields, ∃ home, Holds (.ofDocument schema document) document memory home f)
    (hagree : ∀ f ∈ fields, ∀ g ∈ fields, f.field.responseKey = g.field.responseKey →
      Agree (.ofDocument schema document) memory false f g) :
    CanMerge schema document fields := by
  have hsame {f g : SelectedField} {home home' : Place}
      (hf : Holds (.ofDocument schema document) document memory home f)
      (hg : Holds (.ofDocument schema document) document memory home' g)
      (h : Agree (.ofDocument schema document) memory false f g) (hobject : OfOneObject f g) :
      f.field.name.text = g.field.name.text ∧
        (printedArguments f.field.arguments).Perm (printedArguments g.field.arguments) := by
    obtain ⟨_, _, hset, -, hmem⟩ := hf
    obtain ⟨_, _, hset', -, hmem'⟩ := hg
    exact h.same (parentsDiffer_eq_false_iff.mpr hobject)
      (nodup_arguments_of_mem_fieldsOf hnodup hset hmem)
      (nodup_arguments_of_mem_fieldsOf hnodup hset' hmem')
  intro hcannot
  induction hcannot with
  | shapes hf hg hkey hdiffer =>
      obtain ⟨_, hheldf⟩ := hheld _ hf
      obtain ⟨_, hheldg⟩ := hheld _ hg
      exact sameResponseShape_of_agree hnames hspread hsearched hgood hheldf hheldg
        (hagree _ hf _ hg hkey) hdiffer
  | names hf hg hkey hobject hname =>
      obtain ⟨_, hheldf⟩ := hheld _ hf
      obtain ⟨_, hheldg⟩ := hheld _ hg
      exact hname (hsame hheldf hheldg (hagree _ hf _ hg hkey) hobject).1
  | arguments hf hg hkey hobject harguments =>
      obtain ⟨_, hheldf⟩ := hheld _ hf
      obtain ⟨_, hheldg⟩ := hheld _ hg
      exact harguments (hsame hheldf hheldg (hagree _ hf _ hg hkey) hobject).2
  | @inside fields f g hf hg hkey hobject _ ih =>
      obtain ⟨_, hheldf⟩ := hheld f hf
      obtain ⟨_, hheldg⟩ := hheld g hg
      refine ih (fun f' hf' =>
          exists_holds_of_mem_mergedFields hnames hspread hsearched hgood hheldf hheldg hf')
        fun f' hf' g' hg' hkey' => ?_
      have hbelow := agree_of_mem_mergedFields hnames hspread hsearched hgood hheldf hheldg
        (hagree f hf g hg hkey) hf' hg' hkey'
      rwa [parentsDiffer_eq_false_iff.mpr hobject, Bool.or_false] at hbelow

end

/-- If the search reports nothing, all sets can be merged. -/
theorem canMerge_of_search? (hnames : ((placedFragments document).map (·.1)).Nodup)
    (hspread : KeepsTypes schema document)
    (hnodup : ∀ place set f, setAt? (.ofDocument schema document) document place = some set →
      .field f ∈ set.selections → (f.arguments.map (·.name.text)).Nodup)
    (h : search? schema document = some []) (place : Place) :
    CanMerge schema document (fieldsAt schema document place) := by
  obtain ⟨memory, hsearched, hgood⟩ := exists_searched h hspread
  have hvisible {f : SelectedField} (hf : f ∈ fieldsAt schema document place) :
      Visible (.ofDocument schema document) document memory place f := by
    obtain ⟨set, hset, hf⟩ := hf
    exact visible_of_selects hnames hspread hsearched hgood hset hf
  refine canMerge_of_agree hnames hspread hsearched hgood hnodup
    (fun f hf => exists_holds_of_visible (hvisible hf)) fun f hf g hg hkey => ?_
  exact agree_of_linked rfl hsearched (.inl rfl) (hvisible hf) (hvisible hg) hkey

end Merging

open Merging

variable {schema : Schema} {document : Document}

/-! ## What the rule reports -/

/-- All rules but the one for fields that cannot be merged. -/
def Rule.allButMerging : List Rule :=
  Rule.all.filter (·.name ≠ Rule.overlappingFieldsCanBeMerged.name)

namespace Document

/-- Each of the other rules finds nothing on its own. -/
theorem satisfies_of_others (h : document.validate? schema Rule.allButMerging = some [])
    {rule : Rule} (hrule : rule ∈ Rule.all)
    (hname : rule.name ≠ Rule.overlappingFieldsCanBeMerged.name) :
    document.Satisfies schema rule := by
  obtain ⟨found, hfound, hnone⟩ := Option.map_eq_some_iff.mp h
  obtain rfl := List.map_eq_nil_iff.mp hnone
  exact satisfies_of_errorsOf? hfound (List.mem_filter.mpr ⟨hrule, decide_eq_true hname⟩)

/-- The rule reports what the search finds. -/
theorem validate?_overlappingFieldsCanBeMerged :
    document.validate? schema [Rule.overlappingFieldsCanBeMerged] =
      (search? schema document).map (·.map document.respond) := by
  obtain ⟨depth, hdepth⟩ := Nat.exists_eq_succ_of_ne_zero
    (show (Node.document document).height + Traversal.growth ≠ 0 by simp [Traversal.growth])
  have halone (surveyed : List ValidationError) : (Rule.overlappingFieldsCanBeMerged.alone schema
      document (depth + 1) (.document document) {} { surveyed }).errors = surveyed := by
    rw [Rule.alone_of_stop rfl rfl]
    rfl
  rw [validate?_singleton, alone?]
  simp only [hdepth, halone]
  exact congrArg _ (bind_pure _)

/-- The rule for fields that cannot be merged reports something exactly if there are some, provided
that all other rules report nothing. -/
theorem reports_iff_not_canMerge {draft : Schema.Draft} (hbuild : draft.build = .ok schema)
    (hplain : document.SelectsNoMetaField schema)
    (hothers : document.validate? schema Rule.allButMerging = some []) :
    ∃ reported, document.validate? schema [Rule.overlappingFieldsCanBeMerged] = some reported ∧
      (reported ≠ [] ↔ ∃ place, ¬ CanMerge schema document (fieldsAt schema document place)) := by
  have hnames : ((placedFragments document).map (·.1)).Nodup :=
    nodup_fragmentNames (satisfies_of_others hothers (by simp [Rule.all]) (by decide))
      (satisfies_of_others hothers (by simp [Rule.all]) (by decide))
  have hspread : KeepsTypes schema document :=
    spread_typeAt (Schema.typesFields_of_build hbuild)
      (satisfies_of_others hothers (by simp [Rule.all]) (by decide))
      (satisfies_of_others hothers (by simp [Rule.all]) (by decide)) hplain
  have hnodup (place : Place) (set : SelectionSet) (f : Field)
      (hset : setAt? (.ofDocument schema document) document place = some set)
      (hf : .field f ∈ set.selections) : (f.arguments.map (·.name.text)).Nodup :=
    nodup_argumentNames (satisfies_of_others hothers (by simp [Rule.all]) (by decide)) hset hf
  obtain ⟨errors, herrors⟩ := Option.isSome_iff_exists.mp <| isSome_search?_of_satisfies hnames
    (satisfies_of_others hothers (by simp [Rule.all]) (by decide))
  refine ⟨errors.map document.respond, ?_, ?_⟩
  · rw [validate?_overlappingFieldsCanBeMerged, herrors, Option.map_some]
  · rw [Ne, List.map_eq_nil_iff]
    constructor
    · intro hne
      obtain ⟨place, hcannot⟩ := cannotMerge_of_search? hspread hnodup herrors hne
      exact ⟨place, not_not.mpr hcannot⟩
    · rintro ⟨place, hcannot⟩ rfl
      exact hcannot (canMerge_of_search? hnames hspread hnodup herrors place)

/-- Whether a document selects no field of introspection can be evaluated. -/
theorem selectsNoMetaField_of_all
    (h : ((checkedSets (.ofDocument schema document) document).all fun c =>
      c.set.selections.all fun
        | .field f => f.name.text ∉ [Introspection.schemaFieldName, Introspection.typeFieldName,
            Introspection.typenameFieldName]
        | _ => true) = true) : document.SelectsNoMetaField schema := by
  intro place set f hset hf
  obtain ⟨parent, hmem⟩ := exists_mem_checkedSets hset
  exact of_decide_eq_true (List.all_eq_true.mp (List.all_eq_true.mp h _ hmem) _ hf)

/-- Whether all other rules find nothing can be evaluated. -/
theorem validate?_allButMerging_of_all
    (h : (Rule.allButMerging.all fun rule => (rule.alone schema document
      ((Node.document document).height + Traversal.growth) (.document document) {}
        {}).errors.isEmpty) = true) :
    document.validate? schema Rule.allButMerging = some [] := by
  have hsurvey : ∀ rule ∈ Rule.all, rule.name = Rule.overlappingFieldsCanBeMerged.name ∨
      rule.survey? = fun _ _ => some [] := by
    simp only [Rule.all, List.forall_mem_cons, List.not_mem_nil, false_imp_iff, implies_true,
      and_true]
    and_intros
    all_goals first | exact .inr rfl | exact .inl trivial
  refine validate?_of_satisfies fun rule hrule => ?_
  obtain ⟨hmem, hname⟩ := List.mem_filter.mp hrule
  have hnone := List.isEmpty_iff.mp (List.all_eq_true.mp h rule hrule)
  rw [Satisfies, alone?, (hsurvey rule hmem).resolve_left (of_decide_eq_true hname)]
  exact congrArg some hnone

/-- Whether the rule reports something can be evaluated, by a search of limited depth. -/
theorem validate?_ne_nil_of_any (depth : ℕ) {reported : List ResponseError}
    (hreported : document.validate? schema [Rule.overlappingFieldsCanBeMerged] = some reported)
    (h : ((answerWithin (plan (.ofDocument schema document)) depth).carryOut
      (documentPlan schema document) {}).any (!·.1.isEmpty) = true) : reported ≠ [] := by
  obtain ⟨⟨conflicts, memory⟩, hrun, hconflicts⟩ := (Option.any_eq_true _ _).mp h
  rw [validate?_overlappingFieldsCanBeMerged, search?, run_of_carryOut depth hrun] at hreported
  obtain rfl := Option.some.inj hreported
  cases conflicts with
  | nil => cases hconflicts
  | cons conflict rest => exact List.cons_ne_nil _ _

end Document

/-- Animals with sounds that are told in different ways. -/
def animalDraft : Schema.Draft where
  query := {
    name := "Query"
    origin := .host 0
    body := .object { fields := FieldDef.table [{ name := "pet", type := .named "Pet" true }] } }
  types := [
    { name := "Pet"
      origin := .host 1
      body := .interface {
        fields := FieldDef.table [{ name := "name", type := .named "String" true }] } },
    { name := "Dog"
      origin := .host 2
      body := .object {
        fields := FieldDef.table [
          { name := "name", type := .named "String" true },
          { name := "barks", type := .named "Boolean" true }]
        interfaces := ["Pet"] } },
    { name := "Cat"
      origin := .host 3
      body := .object {
        fields := FieldDef.table [
          { name := "name", type := .named "String" true },
          { name := "meows", type := .named "Int" true }]
        interfaces := ["Pet"] } }]

@[irreducible] def animalSchema : Schema := animalDraft.built (by decide +kernel)

/-- The sound of a pet is asked for under one key, whatever it is. -/
@[irreducible] def soundDocument : Document :=
  .ofText <|
    "{ pet { ...Bark ... on Cat { sound: meows } } }" ++
    "fragment Bark on Dog { sound: barks }"

set_option maxRecDepth 3000 in
/-- Pets of different kinds have different fields, but the shapes of their sounds differ. -/
theorem not_canMerge_soundDocument :
    animalDraft.build = .ok animalSchema ∧ soundDocument.SelectsNoMetaField animalSchema ∧
      soundDocument.validate? animalSchema Rule.allButMerging = some [] ∧
      ∃ place, ¬ CanMerge animalSchema soundDocument
        (fieldsAt animalSchema soundDocument place) := by
  have hbuild : animalDraft.build = .ok animalSchema := by
    unfold animalSchema
    exact Schema.Draft.build_eq_ok_built _ _
  have hplain : soundDocument.SelectsNoMetaField animalSchema :=
    Document.selectsNoMetaField_of_all (by decide +kernel)
  have hothers : soundDocument.validate? animalSchema Rule.allButMerging = some [] :=
    Document.validate?_allButMerging_of_all (by decide +kernel)
  obtain ⟨reported, hreported, hiff⟩ :=
    Document.reports_iff_not_canMerge hbuild hplain hothers
  exact ⟨hbuild, hplain, hothers,
    hiff.mp (Document.validate?_ne_nil_of_any 6 hreported (by decide +kernel))⟩

end GraphQL
