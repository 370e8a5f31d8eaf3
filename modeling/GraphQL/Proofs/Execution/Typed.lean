import Mathlib
import GraphQL.Proofs.Execution.FieldMaps
import GraphQL.Proofs.Typing.Parents

/-!
# Fields that the search knows

The search for fields that cannot be merged looks fields up by their names alone, and so it does
not know the fields of introspection, nor the types of what they select.  Everywhere else it knows
what validation knows: unless a field of introspection is on the way (`Clear`), a set is looked at
with the type that it is checked with (`spread_typed`), and each field that is offered to an object
has a definition there, of a type that covers the object (`Offers.exists_definition`).
-/

namespace GraphQL

open Merging

variable {schema : Schema} {document : Document} {memory : Memory} {place : Place}
  {set : SelectionSet} {object : String} {u : TypeDef} {parent : Option TypeDef}

/-! ## Places without introspection -/

/-- No field on the way to the place has a name that is kept for introspection. -/
def Clear (schema : Schema) (document : Document) : Place → Prop
  | [] => True
  | i :: place => Clear schema document place ∧
    ∀ set f, setAt? (.ofDocument schema document) document place = some set →
      set.selections[i]? = some (.field f) → Schema.isReservedName f.name.text = false

theorem clear_root (schema : Schema) (document : Document) (i : ℕ) : Clear schema document [i] :=
  ⟨trivial, fun _ _ h => by simp [setAt?] at h⟩

theorem Clear.inline {i : ℕ} {f : InlineFragment} (h : Clear schema document place)
    (hset : setAt? (.ofDocument schema document) document place = some set)
    (hf : set.selections[i]? = some (.inline f)) : Clear schema document (i :: place) := by
  refine ⟨h, fun set' f' hset' hf' => ?_⟩
  obtain rfl := Option.some.inj (hset'.symm.trans hset)
  cases hf'.symm.trans hf

theorem Clear.field {i : ℕ} {f : Field} (h : Clear schema document place)
    (hset : setAt? (.ofDocument schema document) document place = some set)
    (hf : set.selections[i]? = some (.field f)) (hname : Schema.isReservedName f.name.text = false) :
    Clear schema document (i :: place) := by
  refine ⟨h, fun set' f' hset' hf' => ?_⟩
  obtain rfl := Option.some.inj (hset'.symm.trans hset)
  obtain rfl : f' = f := by simpa using hf'.symm.trans hf
  exact hname

/-! ## Types that the search looks with -/

/-- Unless a field of introspection is on the way, the type is the one that the set at the place
is checked with. -/
def TypedAt (schema : Schema) (document : Document) (place : Place) (parent : Option TypeDef) :
    Prop :=
  Clear schema document place → ∀ object u, Admits schema document place object →
    schema.type? object = some u → u.isCompositeType →
    parent = typeAt (.ofDocument schema document) document place

section

variable (hcoherent : schema.Coherent) (himplements : schema.Implements)
  (hreserves : schema.ReservesNames) (hvalid : document.IsValid schema)
include hcoherent himplements hreserves hvalid

/-- A set is checked with a type that covers the objects which the place admits. -/
theorem exists_typeAt (hset : setAt? (.ofDocument schema document) document place = some set)
    (hadmits : Admits schema document place object) (hu : schema.type? object = some u)
    (hcomposite : u.isCompositeType) :
    ∃ t, typeAt (.ofDocument schema document) document place = some t ∧ schema.Covers t object ∧
      ∀ f, .field f ∈ set.selections → ∃ field, schema.fieldDef? t f.name.text = some field := by
  obtain ⟨d, c, hseen⟩ := exists_seen hcoherent hvalid himplements hreserves hset
  obtain ⟨t, ht, htcomposite, hcovers, htype⟩ := hseen.covers object u hadmits hu hcomposite
  refine ⟨t, htype, hcovers, fun f hf => ?_⟩
  obtain ⟨t', field, hparent, -, hfield, -⟩ :=
    hseen.exists_field hvalid hf hadmits hu hcomposite
  obtain rfl : t = t' := Option.some.inj
    ((TypeContext.parentType?_enter_selectionSet ht htcomposite).symm.trans hparent)
  exact ⟨field, hfield⟩

theorem TypedAt.inline {i : ℕ} {f : InlineFragment} (h : TypedAt schema document place parent)
    (hset : setAt? (.ofDocument schema document) document place = some set)
    (hf : set.selections[i]? = some (.inline f)) :
    TypedAt schema document (i :: place)
      (Selected.conditionType schema parent f.typeCondition) := by
  intro hclear object u hadmits hu hcomposite
  have hinner := setAt?_cons hset i
  rw [hf] at hinner
  obtain ⟨t, htype, -⟩ :=
    exists_typeAt hcoherent himplements hreserves hvalid hinner hadmits hu hcomposite
  have hparent := h hclear.1 object u (hadmits.of_inline hset hf).1 hu hcomposite
  rw [htype]
  rw [typeAt_cons hset hf, innerParent, ← hparent] at htype
  exact (Option.filter_eq_some_iff.mp htype).1

theorem TypedAt.field {f : SelectedField} {around inner : SelectionSet} {home : Place} {i : ℕ}
    (hin : InSet schema document (TypedAt schema document) f home around i)
    (hinner : f.field.selectionSet = some inner) :
    TypedAt schema document (i :: home) (subfieldParent (.ofDocument schema document) f) := by
  intro hclear object u hadmits hu hcomposite
  have hset := setAt?_cons hin.set i
  rw [hin.field] at hset
  obtain ⟨t, htype, -⟩ := exists_typeAt hcoherent himplements hreserves hvalid (hset.trans hinner)
    hadmits hu hcomposite
  obtain ⟨outer, found, houter, hfound, -⟩ := hadmits.of_field hin.set hin.field
  obtain ⟨v, hv, hfound⟩ := Option.bind_eq_some_iff.mp hfound
  have hvcomposite := Schema.isCompositeType_of_fieldDef? hcoherent
    ((hcoherent.name_of_type? hv).symm ▸ hv) hfound
  have hparent := hin.good hclear.1 outer v houter hv hvcomposite
  have hname := hclear.2 around f.field hin.set hin.field
  rw [htype]
  rw [typeAt_cons hin.set hin.field, innerParent, ← hparent] at htype
  have hselected := (Option.filter_eq_some_iff.mp htype).1
  simp only [Setting.ofDocument_schema, Schema.fieldDef?_of_not_isReservedName hname] at hselected
  rwa [subfieldParent, hin.definition]

/-- A field that a set holds is in a set which is as clear as that. -/
theorem exists_inSet_of_holds {f : SelectedField} (hgood : memory.Good (TypedAt schema document))
    (hf : Holds (.ofDocument schema document) document memory place f)
    (hclear : Clear schema document place) :
    ∃ home around i, InSet schema document
      (fun home parent => Clear schema document home ∧ TypedAt schema document home parent)
      f home around i := by
  obtain ⟨inner, parent, hset, hparent, hf⟩ := hf
  exact exists_inSet (fun _ _ _ _ _ hset hf h => ⟨h.1.inline hset hf,
    TypedAt.inline hcoherent himplements hreserves hvalid h.2 hset hf⟩) hset
    ⟨hclear, hgood place parent hparent⟩ hf

/-- A field that is offered to an object is in a set that admits the object, which is as clear as
the set that it is seen from. -/
theorem Offers.exists_inSet {f : SelectedField} {start : Place}
    (hgood : memory.Good (TypedAt schema document))
    (hf : Offers schema document memory object start f) (hclear : Clear schema document start) :
    ∃ home around i, InSet schema document
      (fun home parent => Clear schema document home ∧ TypedAt schema document home parent)
      f home around i ∧ Admits schema document home object := by
  obtain ⟨found, around', i', -, -, hfound, hadmits⟩ := hf.found
  obtain ⟨home, around, i, hin⟩ : ∃ home around i, InSet schema document
      (fun home parent => Clear schema document home ∧ TypedAt schema document home parent)
      f home around i := by
    cases hf.visible with
    | own hholds =>
        exact exists_inSet_of_holds hcoherent himplements hreserves hvalid hgood hholds hclear
    | @reached _ _ _ other fragment _ _ _ hname hholds =>
        have hroot : Clear schema document other := by
          obtain ⟨i, -, rfl, -⟩ := mem_placedFragments_iff.mp (Assoc.mem_of_get? hname)
          exact clear_root schema document i
        exact exists_inSet_of_holds hcoherent himplements hreserves hvalid hgood hholds hroot
  obtain ⟨-, rfl⟩ := List.cons.inj (hfound.symm.trans hin.place)
  exact ⟨found, around, i, hin, hadmits⟩

/-- The place of a field that is offered is clear, if it is not one of introspection. -/
theorem Offers.clear {f : SelectedField} {start : Place}
    (hgood : memory.Good (TypedAt schema document))
    (hf : Offers schema document memory object start f) (hclear : Clear schema document start)
    (hname : Schema.isReservedName f.field.name.text = false) : Clear schema document f.place := by
  obtain ⟨home, around, i, hin, -⟩ :=
    hf.exists_inSet hcoherent himplements hreserves hvalid hgood hclear
  exact hin.place ▸ hin.good.1.field hin.set hin.field hname

/-- The search knows the field that is offered, if it is not one of introspection: it is one of a
type that covers the object. -/
theorem Offers.exists_definition {f : SelectedField} {start : Place}
    (hgood : memory.Good (TypedAt schema document))
    (hf : Offers schema document memory object start f) (hclear : Clear schema document start)
    (hname : Schema.isReservedName f.field.name.text = false) (hu : schema.type? object = some u)
    (hcomposite : u.isCompositeType) :
    ∃ t field, schema.Covers t object ∧ schema.fieldDef? t f.field.name.text = some field ∧
      f.definition = some field := by
  obtain ⟨home, around, i, hin, hadmits⟩ :=
    hf.exists_inSet hcoherent himplements hreserves hvalid hgood hclear
  obtain ⟨t, htype, hcovers, hfields⟩ :=
    exists_typeAt hcoherent himplements hreserves hvalid hin.set hadmits hu hcomposite
  obtain ⟨field, hfield⟩ := hfields f.field (List.mem_of_getElem? hin.field)
  refine ⟨t, field, hcovers, hfield, ?_⟩
  rw [hin.definition, hin.good.2 hin.good.1 object u hadmits hu hcomposite, htype, Option.bind_some,
    ← Schema.fieldDef?_of_not_isReservedName hname, hfield]

end

end GraphQL
