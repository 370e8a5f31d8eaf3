import Mathlib
import GraphQL.Proofs.Merging.Admitted
import GraphQL.Proofs.Merging.Agreement

/-!
# What is gathered for an object

The fields that execution gathers from selection sets for an object can all be seen from one
of the sets, and the types that the search knows for them fit the object
(`offers_of_mem_groupFields`).  Gathering keeps this of the groups so far
(`keeps_gather`), and of what it goes through (`Gone`): inline fragments, which the search
opens as well, and fragments, which it reaches by their spreads.
-/

namespace GraphQL

open Merging

/-! ## Gathering step by step -/

namespace Grouping

variable {table : FragmentTable} {ok : Field → Prop} {α β : Type}

/-- The groups hold fields of their keys that have a property, and the fragments that are
left are of the table. -/
structure Sound (table : FragmentTable) (ok : Field → Prop) (gathered : Gathered) : Prop where
  groups : ∀ key row, (key, row) ∈ gathered.groups → ∀ f ∈ row, f.responseKey = key ∧ ok f
  unfollowed : gathered.unfollowed ⊆ table

/-- A step keeps the groups sound. -/
def Keeps (table : FragmentTable) (ok : Field → Prop) (step : StateM Gathered α) : Prop :=
  ∀ gathered, Sound table ok gathered → Sound table ok (step gathered).2

theorem keeps_pure (value : α) : Keeps table ok (pure value) := fun _ h => h

theorem Keeps.bind {step : StateM Gathered α} {next : α → StateM Gathered β}
    (h : Keeps table ok step) (hnext : ∀ value, Keeps table ok (next value)) :
    Keeps table ok (step >>= next) :=
  fun gathered hgathered => hnext _ _ (h gathered hgathered)

theorem keeps_forM {items : List α} {step : α → StateM Gathered Unit}
    (h : ∀ item ∈ items, Keeps table ok (step item)) : Keeps table ok (items.forM step) := by
  induction items with
  | nil => exact keeps_pure ()
  | cons item rest ih =>
      obtain ⟨hitem, hrest⟩ := List.forall_mem_cons.mp h
      exact hitem.bind fun _ => ih hrest

theorem keeps_add {f : Field} (hok : ok f) : Keeps table ok (add f) := by
  intro gathered h
  refine ⟨fun key row hrow other hother => ?_, h.unfollowed⟩
  rcases Assoc.mem_push hrow hother with ⟨rfl, rfl⟩ | ⟨before, hbefore, hother⟩
  · exact ⟨rfl, hok⟩
  · exact h.groups key before hbefore other hother

theorem keeps_claim? {name : String} {next : Option FragmentDefinition → StateM Gathered Unit}
    (hnone : Keeps table ok (next none))
    (hsome : ∀ fragment, (name, fragment) ∈ table → Keeps table ok (next (some fragment))) :
    Keeps table ok (claim? name >>= next) := by
  intro gathered h
  cases hfind : Assoc.get? gathered.unfollowed name with
  | none =>
      have hclaim : (claim? name).run gathered = (none, gathered) := by simp [claim?, hfind]; rfl
      show Sound table ok ((claim? name).run gathered |> fun p => next p.1 p.2).2
      rw [hclaim]
      exact hnone gathered h
  | some fragment =>
      have hclaim : (claim? name).run gathered = (some fragment,
          { gathered with unfollowed := gathered.unfollowed.filter (·.1 ≠ name) }) := by
        simp [claim?, hfind]; rfl
      show Sound table ok ((claim? name).run gathered |> fun p => next p.1 p.2).2
      rw [hclaim]
      refine hsome fragment (h.unfollowed (Assoc.mem_of_get? hfind)) _ ⟨h.groups, ?_⟩
      exact fun entry hentry => h.unfollowed (List.mem_of_mem_filter hentry)

end Grouping

/-! ## What is gone through -/

section

open Selected (fieldsOf fieldsOfSelection spreadsOf spreadsOfSelection spreadsOfSet conditionType)

variable {schema : Schema} {document : Document} {memory : Memory} {object : String}
  {start home here : Place} {around set : SelectionSet} {parent : Option TypeDef} {i : ℕ}

/-- A set that is seen from another: the same, or that of a fragment which it reaches. -/
inductive Reached (schema : Schema) (document : Document) (start : Place) : Place → Prop where
  | start : Reached schema document start start
  | fragment {inner : SelectionSet} {first name : String} {place : Place}
      {fragment : FragmentDefinition}
      (hinner : setAt? (.ofDocument schema document) document start = some inner)
      (hfirst : first ∈ spreadsOfSet inner)
      (hpath : Relation.ReflTransGen (SpreadsTo (.ofDocument schema document)) first name)
      (hname : Assoc.get? (placedFragments document) name = some (place, fragment)) :
      Reached schema document start place

theorem Reached.spread {spread : String} {place : Place} {fragment : FragmentDefinition}
    (h : Reached schema document start home)
    (haround : setAt? (.ofDocument schema document) document home = some around)
    (hspread : spread ∈ spreadsOfSet around)
    (hplaced : Assoc.get? (placedFragments document) spread = some (place, fragment)) :
    Reached schema document start place := by
  cases h with
  | start => exact .fragment haround hspread .refl hplaced
  | @fragment inner first name _ before hinner hfirst hpath hname =>
      refine .fragment hinner hfirst (hpath.tail ⟨home, before, hname, ?_⟩) hplaced
      have hset := setAt?_of_mem_placedFragments (s := .ofDocument schema document)
        (Assoc.mem_of_get? hname)
      rwa [Option.some.inj (hset.symm.trans haround)]

theorem Reached.visible {f : SelectedField} (h : Reached schema document start home)
    (hf : Holds (.ofDocument schema document) document memory home f) :
    Visible (.ofDocument schema document) document memory start f := by
  cases h with
  | start => exact .own hf
  | fragment hinner hfirst hpath hname => exact .reached hinner hfirst hpath hname hf

/-- A field that an object has because of the set at `start`. -/
structure Offers (schema : Schema) (document : Document) (memory : Memory) (object : String)
    (start : Place) (f : SelectedField) : Prop where
  visible : Visible (.ofDocument schema document) document memory start f
  fits : schema.Fits f.parent object
  /-- The field is selected in a set that admits the object. -/
  found : ∃ home around i, setAt? (.ofDocument schema document) document home = some around ∧
    around.selections[i]? = some (.field f.field) ∧ f.place = i :: home ∧
    Admits schema document home object

/-- A set that is gone through for an object: it is that at the place `home` or one of its inline
fragments, and the search knows its fields with a type that fits the object. -/
structure Gone (schema : Schema) (document : Document) (memory : Memory) (object : String)
    (start home : Place) (around : SelectionSet) (here : Place) (set : SelectionSet)
    (parent : Option TypeDef) : Prop where
  reached : Reached schema document start home
  homeSet : setAt? (.ofDocument schema document) document home = some around
  hereSet : setAt? (.ofDocument schema document) document here = some set
  admits : Admits schema document here object
  fits : schema.Fits parent object
  fields : ∃ known, memory.parent? home = some known ∧
    fieldsOf schema parent here 0 set.selections ⊆ fieldsOf schema known home 0 around.selections
  spreads : spreadsOf set.selections ⊆ spreadsOf around.selections

theorem Gone.inline {f : InlineFragment} (hcoherent : schema.Coherent)
    (h : Gone schema document memory object start home around here set parent)
    (hf : set.selections[i]? = some (.inline f))
    (happlies : Grouping.applies schema object f.typeCondition) :
    Gone schema document memory object start home around (i :: here) f.selectionSet
      (conditionType schema parent f.typeCondition) := by
  obtain ⟨condition, directives, ⟨selections, span⟩, inlineSpan⟩ := f
  have hinner := setAt?_cons h.hereSet i
  rw [hf] at hinner
  obtain ⟨known, hknown, hfields⟩ := h.fields
  refine ⟨h.reached, h.homeSet, hinner, h.admits.inline h.hereSet hf happlies,
    fits_conditionType hcoherent h.fits happlies, ⟨known, hknown, ?_⟩, ?_⟩
  · exact List.Subset.trans (fieldsOfSelection_subset hf) hfields
  · exact List.Subset.trans (spreadsOfSelection_subset (List.mem_of_getElem? hf)) h.spreads

theorem Gone.offers {f : Field}
    (h : Gone schema document memory object start home around here set parent)
    (hf : set.selections[i]? = some (.field f)) :
    ∃ selected, Offers schema document memory object start selected ∧ selected.field = f := by
  obtain ⟨known, hknown, hfields⟩ := h.fields
  have hmem := hfields (fieldsOfSelection_subset hf (List.mem_singleton_self _))
  refine ⟨_, ⟨h.reached.visible ⟨around, known, h.homeSet, hknown, hmem⟩, h.fits, ?_⟩, rfl⟩
  exact ⟨here, set, i, h.hereSet, hf, rfl, h.admits⟩

/-- A set that admits the object and that the search has looked at is gone through. -/
theorem gone_of_admits
    (hsearched : Searched (.ofDocument schema document) document memory)
    (hgood : memory.Good (FitsAt schema document)) (hreached : Reached schema document start home)
    (haround : setAt? (.ofDocument schema document) document home = some around)
    (hadmits : Admits schema document home object) :
    ∃ known, Gone schema document memory object start home around home around known := by
  obtain ⟨_, hset, -⟩ := hsearched.set home around haround
  obtain ⟨known, hknown, -⟩ := Option.map_eq_some_iff.mp hset
  exact ⟨known, hreached, haround, haround, hadmits, hgood home known hknown object hadmits,
    ⟨known, hknown, List.Subset.refl _⟩, List.Subset.refl _⟩

/-! ## Gathering from sets -/

/-- Where fragments have different names, execution finds the same ones as validation. -/
theorem exists_placed_of_mem_fragmentTable {name : String} {fragment : FragmentDefinition}
    (hnodup : ((placedFragments document).map (·.1)).Nodup)
    (h : (name, fragment) ∈ document.fragmentTable) :
    ∃ i, document.definitions[i]? = some (.fragment fragment) ∧
      Assoc.get? (placedFragments document) name = some ([i], fragment) := by
  obtain ⟨d, hd, heq⟩ := List.mem_map.mp (Assoc.ofList_subset _ h)
  obtain ⟨rfl, rfl⟩ := Prod.mk.inj heq
  obtain ⟨definition, hdefinition, hfragment⟩ := List.mem_filterMap.mp hd
  obtain ⟨i, hi⟩ := List.mem_iff_getElem?.mp hdefinition
  cases definition with
  | fragment other =>
      obtain rfl := Option.some.inj hfragment
      exact ⟨i, hi, Assoc.get?_of_mem hnodup (mem_placedFragments_iff.mpr ⟨i, hi, rfl, rfl⟩)⟩
  | _ => cases hfragment

section

variable {bindings : Json.Members} {table : FragmentTable} {ok : Field → Prop}
  {follow : SelectionSet → StateM Grouping.Gathered Unit}

mutual

theorem keeps_gather (hcoherent : schema.Coherent)
    (hok : ∀ f, Offers schema document memory object start f → ok f.field)
    (hfollow : ∀ name fragment, name ∈ spreadsOf around.selections → (name, fragment) ∈ table →
      Grouping.applies schema object (some fragment.typeCondition) →
      Grouping.Keeps table ok (follow fragment.selectionSet))
    {here : Place} {parent : Option TypeDef} :
    ∀ {set : SelectionSet},
      Gone schema document memory object start home around here set parent →
      Grouping.Keeps table ok (Grouping.gather ⟨schema, bindings, object⟩ follow set)
  | ⟨selections, span⟩, h => by
      rw [Grouping.gather]
      exact keeps_gatherEach hcoherent hok hfollow h fun _ => id

theorem keeps_gatherEach (hcoherent : schema.Coherent)
    (hok : ∀ f, Offers schema document memory object start f → ok f.field)
    (hfollow : ∀ name fragment, name ∈ spreadsOf around.selections → (name, fragment) ∈ table →
      Grouping.applies schema object (some fragment.typeCondition) →
      Grouping.Keeps table ok (follow fragment.selectionSet))
    {here : Place} {set : SelectionSet} {parent : Option TypeDef}
    (h : Gone schema document memory object start home around here set parent) :
    ∀ {selections : List Selection}, selections ⊆ set.selections →
      Grouping.Keeps table ok (Grouping.gatherEach ⟨schema, bindings, object⟩ follow selections)
  | [], _ => by
      rw [Grouping.gatherEach]
      exact Grouping.keeps_pure ()
  | .field f :: rest, hsubset => by
      obtain ⟨hfirst, hrest⟩ := List.cons_subset.mp hsubset
      obtain ⟨i, hi⟩ := List.mem_iff_getElem?.mp hfirst
      obtain ⟨selected, hoffers, rfl⟩ := h.offers hi
      rw [Grouping.gatherEach]
      split
      · exact (Grouping.keeps_add (hok selected hoffers)).bind fun _ =>
          keeps_gatherEach hcoherent hok hfollow h hrest
      · exact keeps_gatherEach hcoherent hok hfollow h hrest
  | .inline ⟨condition, directives, inner, span⟩ :: rest, hsubset => by
      obtain ⟨hfirst, hrest⟩ := List.cons_subset.mp hsubset
      obtain ⟨i, hi⟩ := List.mem_iff_getElem?.mp hfirst
      rw [Grouping.gatherEach]
      split
      · rename_i htaken
        have happlies := (Bool.and_eq_true_iff.mp htaken).2
        exact (keeps_gather hcoherent hok hfollow (h.inline hcoherent hi happlies)).bind fun _ =>
          keeps_gatherEach hcoherent hok hfollow h hrest
      · exact keeps_gatherEach hcoherent hok hfollow h hrest
  | .spread spread :: rest, hsubset => by
      obtain ⟨hfirst, hrest⟩ := List.cons_subset.mp hsubset
      have hspread : spread.name.text ∈ spreadsOf around.selections :=
        h.spreads (spreadsOfSelection_subset hfirst (List.mem_singleton_self _))
      rw [Grouping.gatherEach]
      split
      · refine Grouping.keeps_claim? (keeps_gatherEach hcoherent hok hfollow h hrest) fun fragment hfragment => ?_
        dsimp only
        split
        · rename_i happlies
          exact (hfollow _ fragment hspread hfragment happlies).bind fun _ =>
            keeps_gatherEach hcoherent hok hfollow h hrest
        · exact keeps_gatherEach hcoherent hok hfollow h hrest
      · exact keeps_gatherEach hcoherent hok hfollow h hrest

end

theorem keeps_gatherThrough (hcoherent : schema.Coherent)
    (hnodup : ((placedFragments document).map (·.1)).Nodup)
    (hsearched : Searched (.ofDocument schema document) document memory)
    (hgood : memory.Good (FitsAt schema document))
    (hok : ∀ f, Offers schema document memory object start f → ok f.field) (depth : ℕ)
    (hreached : Reached schema document start home)
    (haround : setAt? (.ofDocument schema document) document home = some around)
    (hadmits : Admits schema document home object) :
    Grouping.Keeps document.fragmentTable ok
      (Grouping.gatherThrough ⟨schema, bindings, object⟩ depth around) := by
  obtain ⟨known, hgone⟩ := gone_of_admits hsearched hgood hreached haround hadmits
  induction depth generalizing home around known with
  | zero =>
      rw [Grouping.gatherThrough]
      exact keeps_gather hcoherent hok (fun _ _ _ _ _ => Grouping.keeps_pure ()) hgone
  | succ depth ih =>
      rw [Grouping.gatherThrough]
      refine keeps_gather hcoherent hok (fun name fragment hspread hfragment happlies => ?_) hgone
      obtain ⟨i, hi, hplaced⟩ := exists_placed_of_mem_fragmentTable hnodup hfragment
      have hset := setAt?_of_mem_placedFragments (s := .ofDocument schema document)
        (Assoc.mem_of_get? hplaced)
      have hspread : name ∈ spreadsOfSet around := List.mem_eraseDups.mpr hspread
      have hreached := hreached.spread haround hspread hplaced
      have hadmits : Admits schema document [i] object := .fragment hi happlies
      obtain ⟨known, hgone⟩ := gone_of_admits hsearched hgood hreached hset hadmits
      exact ih hreached hset hadmits known hgone

/-- What is gathered from some sets for an object they admit: fields of their keys that the
sets offer. -/
theorem offers_of_mem_groupFields {sets : List SelectionSet} {places : Place → Prop}
    {key : String} {row : List Field} {f : Field} (hcoherent : schema.Coherent)
    (hnodup : ((placedFragments document).map (·.1)).Nodup)
    (hsearched : Searched (.ofDocument schema document) document memory)
    (hgood : memory.Good (FitsAt schema document))
    (hsets : ∀ set ∈ sets, ∃ place, places place ∧ Admits schema document place object ∧
      setAt? (.ofDocument schema document) document place = some set)
    (hrow : (key, row) ∈ groupFields schema bindings document.fragmentTable object sets)
    (hf : f ∈ row) :
    f.responseKey = key ∧ ∃ place selected, places place ∧
      Offers schema document memory object place selected ∧ selected.field = f := by
  let ok (f : Field) : Prop := ∃ place selected, places place ∧
    Offers schema document memory object place selected ∧ selected.field = f
  have hkeeps : Grouping.Keeps document.fragmentTable ok (sets.forM
      (Grouping.gatherThrough ⟨schema, bindings, object⟩ document.fragmentTable.length)) := by
    refine Grouping.keeps_forM fun set hset => ?_
    obtain ⟨place, hplace, hadmits, hset⟩ := hsets set hset
    exact keeps_gatherThrough hcoherent hnodup hsearched hgood
      (fun selected hoffers => ⟨place, selected, hplace, hoffers, rfl⟩) _ .start hset hadmits
  have hstart : Grouping.Sound document.fragmentTable ok
      { unfollowed := document.fragmentTable } := ⟨by simp, List.Subset.refl _⟩
  exact (hkeeps _ hstart).groups key row hrow f hf

end

end

end GraphQL
