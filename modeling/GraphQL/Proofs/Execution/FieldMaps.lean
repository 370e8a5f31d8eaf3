import Mathlib
import GraphQL.Execution.Basic
import GraphQL.Proofs.Execution.Grouping
import GraphQL.Proofs.Validation.Valid

/-!
# Fields under one key

When execution resolves a group of fields under one response key, it takes the name and the
arguments of the first one.  For a valid document nothing is lost by that: all fields of a
group have one name and the same arguments (`same_of_fieldMap`).

The sets that a field map is gathered from are a `Level`: they admit the object, and every
two of them were compared by the search.  The sets of a whole operation are one, and what
the fields of a group select is the next one (`Level.next`).
-/

namespace GraphQL

open Merging

namespace Setting

/-- The setting is one for an operation of the document. -/
structure Executes (setting : Setting) (document : Document) : Prop where
  fragments : setting.fragments = document.fragmentTable
  operation : setting.operation ∈ document.operations

/-- The groups of fields that are formed for objects of a type: for the root type those of
the operation, and for the objects that may be the value of a group those of its fields
together. -/
inductive FieldMap (setting : Setting) : TypeDef → FieldGroups → Prop where
  | root {t : TypeDef} (ht : setting.schema.rootType? setting.operation.operation = some t) :
      FieldMap setting t (setting.groupsOf t [setting.operation.selectionSet])
  | next {outer object : TypeDef} {groups : FieldGroups} {key : String} {node : Field}
      {nodes : List Field} {d : FieldDef} (h : FieldMap setting outer groups)
      (hgroup : (key, node :: nodes) ∈ groups) (hd : setting.definition? outer node = some d)
      (hobject : setting.schema.Occupies object.name d.type) :
      FieldMap setting object
        (setting.groupsOf object ((node :: nodes).filterMap (·.selectionSet)))

end Setting

variable {schema : Schema} {document : Document} {memory : Memory} {object : String}

/-- What is known of a valid document, and of the memory of the search. -/
structure Examined (schema : Schema) (document : Document) (memory : Memory) : Prop where
  coherent : schema.Coherent
  valid : document.IsValid schema
  searched : Searched (.ofDocument schema document) document memory
  good : memory.Good (FitsAt schema document)

theorem exists_examined (hcoherent : schema.Coherent) (hunshadowed : schema.Unshadowed)
    (hvalid : document.IsValid schema) : ∃ memory, Examined schema document memory := by
  obtain ⟨memory, hsearched, hgood⟩ :=
    exists_searched (Document.search?_of_isValid hvalid) (spread_fits hcoherent hunshadowed)
  exact ⟨memory, hcoherent, hvalid, hsearched, hgood⟩

/-! ## Levels -/

/-- The sets that are gathered from for an object, at their places: they admit it, and every
two of them were compared. -/
structure Level (schema : Schema) (document : Document) (memory : Memory) (object : String)
    (sets : List SelectionSet) (places : Place → Prop) : Prop where
  sets : ∀ set ∈ sets, ∃ place, places place ∧ Admits schema document place object ∧
    setAt? (.ofDocument schema document) document place = some set
  linked : ∀ place₁ place₂, places place₁ → places place₂ →
    Linked (.ofDocument schema document) document memory false place₁ place₂

/-- Types that fit one object are not those of objects that differ. -/
theorem parentsDiffer_of_fits {f g : SelectedField} (hf : schema.Fits f.parent object)
    (hg : schema.Fits g.parent object) : parentsDiffer f g = false := by
  have hname {t : TypeDef} (hfits : schema.Fits (some t) object) (hobject : t.isObjectType) :
      t.name = object :=
    ((hfits t rfl).2 (Schema.isCompositeType_of_isObjectType hobject)).resolve_right
      (Schema.not_isPossibleType_of_isObjectType hobject)
  unfold parentsDiffer
  split
  · rename_i a b ha hb
    rw [ha] at hf
    rw [hb] at hg
    by_contra hdiffer
    simp only [Bool.not_eq_false, Bool.and_eq_true, bne_iff_ne] at hdiffer
    exact hdiffer.1.1 ((hname hf hdiffer.1.2).trans (hname hg hdiffer.2).symm)
  · rfl

section

variable {sets : List SelectionSet} {places : Place → Prop} {start₁ start₂ : Place}
  {f g : SelectedField} (hexamined : Examined schema document memory)
include hexamined

theorem Level.agree (hlevel : Level schema document memory object sets places)
    (hstart₁ : places start₁) (hstart₂ : places start₂)
    (hf : Offers schema document memory object start₁ f)
    (hg : Offers schema document memory object start₂ g)
    (hkey : f.field.responseKey = g.field.responseKey) :
    Agree (.ofDocument schema document) memory false f g :=
  agree_of_linked rfl hexamined.searched (hlevel.linked _ _ hstart₁ hstart₂) hf.visible hg.visible
    hkey

theorem Offers.nodup_arguments {start : Place}
    (hf : Offers schema document memory object start f) :
    (f.field.arguments.map (·.name.text)).Nodup := by
  obtain ⟨home, around, i, hset, hmem, -, -⟩ := hf.found
  exact Document.nodup_argumentNames
    (Document.satisfies_of_isValid hexamined.valid (by simp [Rule.all])) hset
    (List.mem_of_getElem? hmem)

/-- Fields of one key that a level offers have one name and the same arguments. -/
theorem Level.same (hlevel : Level schema document memory object sets places)
    (hstart₁ : places start₁) (hstart₂ : places start₂)
    (hf : Offers schema document memory object start₁ f)
    (hg : Offers schema document memory object start₂ g)
    (hkey : f.field.responseKey = g.field.responseKey) :
    f.field.name.text = g.field.name.text ∧
      (printedArguments f.field.arguments).Perm (printedArguments g.field.arguments) :=
  (hlevel.agree hexamined hstart₁ hstart₂ hf hg hkey).same (parentsDiffer_of_fits hf.fits hg.fits)
    (hf.nodup_arguments hexamined) (hg.nodup_arguments hexamined)

end

/-- The places of the sets of fields that a level offers. -/
def Level.Below (schema : Schema) (document : Document) (memory : Memory) (object : String)
    (places : Place → Prop) (row : List Field) (place : Place) : Prop :=
  ∃ start f inner, places start ∧ Offers schema document memory object start f ∧
    f.field ∈ row ∧ f.field.selectionSet = some inner ∧ f.place = place

theorem Offers.setAt?_place {start : Place} {f : SelectedField}
    (hf : Offers schema document memory object start f) :
    setAt? (.ofDocument schema document) document f.place = f.field.selectionSet := by
  obtain ⟨home, around, i, hset, hmem, hplace, -⟩ := hf.found
  rw [hplace, setAt?_cons hset, hmem]
  rfl

/-! ## Field maps -/

section

variable {setting : Setting} {places : Place → Prop} {t : TypeDef} {groups : FieldGroups}
  {sets : List SelectionSet} {key : String} {row : List Field}
  (hexamined : Examined setting.schema document memory) (hexecutes : setting.Executes document)
include hexamined hexecutes

theorem Level.offers (hlevel : Level setting.schema document memory t.name sets places)
    {f : Field} (hrow : (key, row) ∈ setting.groupsOf t sets) (hf : f ∈ row) :
    f.responseKey = key ∧ ∃ place selected, places place ∧
      Offers setting.schema document memory t.name place selected ∧ selected.field = f := by
  rw [Setting.groupsOf, hexecutes.fragments] at hrow
  exact offers_of_mem_groupFields hexamined.coherent
    (Document.nodup_fragmentNames_of_isValid hexamined.valid) hexamined.searched hexamined.good hlevel.sets
    hrow hf

/-- Fields of one group have one name and the same arguments. -/
theorem Level.same_of_mem (hlevel : Level setting.schema document memory t.name sets places)
    {f g : Field} (hrow : (key, row) ∈ setting.groupsOf t sets) (hf : f ∈ row) (hg : g ∈ row) :
    f.name.text = g.name.text ∧
      (printedArguments f.arguments).Perm (printedArguments g.arguments) := by
  obtain ⟨hkey₁, start₁, selected₁, hstart₁, hoffers₁, rfl⟩ :=
    hlevel.offers hexamined hexecutes hrow hf
  obtain ⟨hkey₂, start₂, selected₂, hstart₂, hoffers₂, rfl⟩ :=
    hlevel.offers hexamined hexecutes hrow hg
  exact hlevel.same hexamined hstart₁ hstart₂ hoffers₁ hoffers₂ (hkey₁.trans hkey₂.symm)

omit hexamined in
theorem exists_level_root (ht : setting.schema.rootType? setting.operation.operation = some t) :
    ∃ i, document.definitions[i]? = some (.operation setting.operation) ∧
      Level setting.schema document memory t.name [setting.operation.selectionSet] (· = [i]) := by
  obtain ⟨definition, hdefinition, hoperation⟩ := List.mem_filterMap.mp hexecutes.operation
  obtain ⟨i, hi⟩ := List.mem_iff_getElem?.mp hdefinition
  cases definition with
  | operation d =>
      obtain rfl : d = setting.operation := Option.some.inj hoperation
      refine ⟨i, hi, fun set hset => ⟨[i], rfl, .operation hi ht, ?_⟩, ?_⟩
      · obtain rfl := List.mem_singleton.mp hset
        rw [setAt?, hi]
        rfl
      · rintro _ _ rfl rfl
        exact Or.inl rfl
  | _ => cases hoperation

/-- What the fields of a group select is a level. -/
theorem Level.next {node : Field} {nodes : List Field} {d : FieldDef} {object : String}
    (hlevel : Level setting.schema document memory t.name sets places)
    (hrow : (key, node :: nodes) ∈ setting.groupsOf t sets)
    (hd : setting.definition? t node = some d) (hobject : setting.schema.Occupies object d.type) :
    Level setting.schema document memory object ((node :: nodes).filterMap (·.selectionSet))
      (Level.Below setting.schema document memory t.name places (node :: nodes)) where
  sets set hset := by
    obtain ⟨f, hf, hinner⟩ := List.mem_filterMap.mp hset
    obtain ⟨-, start, selected, hstart, hoffers, rfl⟩ :=
      hlevel.offers hexamined hexecutes hrow hf
    refine ⟨selected.place, ⟨start, selected, set, hstart, hoffers, hf, hinner, rfl⟩, ?_,
      hoffers.setAt?_place.trans hinner⟩
    obtain ⟨home, around, i, hhome, hmem, hplace, hadmits⟩ := hoffers.found
    -- The definition is that of the first field, which has the same name.
    have hname := (hlevel.same_of_mem hexamined hexecutes hrow hf List.mem_cons_self).1
    rw [hplace]
    exact .field hhome hmem hadmits (hname ▸ hd) hobject
  linked := by
    rintro _ _ ⟨start₁, f, inner₁, hstart₁, hf, hmem₁, hinner₁, rfl⟩
      ⟨start₂, g, inner₂, hstart₂, hg, hmem₂, hinner₂, rfl⟩
    have hkey₁ := (hlevel.offers hexamined hexecutes hrow hmem₁).1
    have hkey₂ := (hlevel.offers hexamined hexecutes hrow hmem₂).1
    have hagree := hlevel.agree hexamined hstart₁ hstart₂ hf hg (hkey₁.trans hkey₂.symm)
    exact linked_of_agree hexamined.searched hagree (parentsDiffer_of_fits hf.fits hg.fits) hinner₁
      hinner₂ (hf.setAt?_place.trans hinner₁) (hg.setAt?_place.trans hinner₂)

theorem exists_level (h : setting.FieldMap t groups) :
    ∃ sets places, groups = setting.groupsOf t sets ∧
      Level setting.schema document memory t.name sets places := by
  induction h with
  | root ht =>
      obtain ⟨i, -, hlevel⟩ := exists_level_root hexecutes ht
      exact ⟨_, _, rfl, hlevel⟩
  | next _ hgroup hd hobject ih =>
      obtain ⟨sets, places, rfl, hlevel⟩ := ih
      exact ⟨_, _, rfl, hlevel.next hexamined hexecutes hgroup hd hobject⟩

end

/-- In every group of every field map of a valid document, the fields have one name and the
same arguments, if no field of introspection hides a declared one. -/
theorem same_of_fieldMap {draft : Schema.Draft} {setting : Setting} {t : TypeDef}
    {groups : FieldGroups} {key : String} {row : List Field} {f g : Field}
    (hbuild : draft.build = .ok setting.schema) (hunshadowed : setting.schema.Unshadowed)
    (hvalid : document.validate? setting.schema = some []) (hexecutes : setting.Executes document)
    (hmap : setting.FieldMap t groups) (hrow : (key, row) ∈ groups) (hf : f ∈ row) (hg : g ∈ row) :
    f.name.text = g.name.text ∧
      (printedArguments f.arguments).Perm (printedArguments g.arguments) := by
  obtain ⟨memory, hexamined⟩ :=
    exists_examined (Schema.coherent_of_build hbuild) hunshadowed hvalid
  obtain ⟨sets, places, rfl, hlevel⟩ := exists_level hexamined hexecutes hmap
  exact hlevel.same_of_mem hexamined hexecutes hrow hf hg

/-! ## An example -/

/-- Persons who have friends. -/
def personType : TypeDef where
  name := "Person"
  origin := .host 1
  body := .object { fields := FieldDef.table [
    { name := "name", type := .named Scalar.stringName true },
    { name := "friend", type := .named "Person" true }] }

/-- A schema in which a person can be asked for. -/
def peopleDraft : Schema.Draft where
  query := {
    name := "Query"
    origin := .host 0
    body := .object { fields := FieldDef.table [
      { name := "person"
        type := .named "Person" true
        arguments := InputDef.table [{ name := "id", type := .named "Int" false }] }] } }
  types := [personType]

@[irreducible] def peopleSchema : Schema := peopleDraft.built (by decide +kernel)

theorem build_peopleDraft : peopleDraft.build = .ok peopleSchema := by
  unfold peopleSchema
  exact Schema.Draft.build_eq_ok_built _ _

theorem unshadowed_peopleSchema : peopleSchema.Unshadowed :=
  Schema.unshadowed_of_reserved (Schema.coherent_of_build build_peopleDraft) (by decide +kernel)

/-- A person is asked for twice, once in a fragment. -/
@[irreducible] def peopleDocument : Document :=
  .ofText <|
    "{ person(id: 1) { name } ...More }" ++
    "fragment More on Query { person(id: 1) { friend { name } } }"

set_option maxRecDepth 3000 in
theorem isValid_peopleDocument : peopleDocument.IsValid peopleSchema :=
  Document.isValid_of_all 6 (by decide +kernel) (by decide +kernel)

set_option maxRecDepth 3000 in
@[irreducible] def peopleOperation : OperationDefinition :=
  peopleDocument.operations.head (by decide +kernel)

theorem peopleOperation_mem : peopleOperation ∈ peopleDocument.operations := by
  unfold peopleOperation
  exact List.head_mem _

def peopleSetting : Setting where
  schema := peopleSchema
  fragments := peopleDocument.fragmentTable
  operation := peopleOperation
  bindings := []
  rootValue := .null
  context := none

def peopleGroups : FieldGroups :=
  peopleSetting.groupsOf peopleSchema.queryType [peopleOperation.selectionSet]

theorem fieldMap_peopleGroups : peopleSetting.FieldMap peopleSchema.queryType peopleGroups := by
  have hkind : peopleOperation.operation = .query := by decide +kernel
  exact .root (congrArg peopleSchema.rootType? hkind)

/-- Both fields that select a person are in one group. -/
theorem exists_person_row :
    ∃ row, Assoc.get? peopleGroups "person" = some row ∧ row.length = 2 := by
  have hrow : (Assoc.get? peopleGroups "person").any (·.length = 2) = true := by decide +kernel
  have ⟨row, hget, hlength⟩ := (Option.any_eq_true _ _).mp hrow
  exact ⟨row, hget, of_decide_eq_true hlength⟩

theorem same_of_person_row :
    peopleDraft.build = .ok peopleSetting.schema ∧ peopleSetting.schema.Unshadowed ∧
      peopleDocument.validate? peopleSetting.schema = some [] ∧
      peopleSetting.Executes peopleDocument ∧
      peopleSetting.FieldMap peopleSchema.queryType peopleGroups ∧
      ∃ row, ("person", row) ∈ peopleGroups ∧ row.length = 2 ∧
        ∀ f ∈ row, ∀ g ∈ row, f.name.text = g.name.text ∧
          (printedArguments f.arguments).Perm (printedArguments g.arguments) := by
  have hbuild : peopleDraft.build = .ok peopleSetting.schema := build_peopleDraft
  have hvalid : peopleDocument.validate? peopleSetting.schema = some [] := isValid_peopleDocument
  have hexecutes : peopleSetting.Executes peopleDocument := ⟨rfl, peopleOperation_mem⟩
  obtain ⟨row, hget, hlength⟩ := exists_person_row
  have hmem := Assoc.mem_of_get? hget
  exact ⟨hbuild, unshadowed_peopleSchema, hvalid, hexecutes, fieldMap_peopleGroups, row, hmem,
    hlength, fun f hf g hg => same_of_fieldMap hbuild unshadowed_peopleSchema hvalid hexecutes
      fieldMap_peopleGroups hmem hf hg⟩

end GraphQL
