import Mathlib
import GraphQL.Proofs.Execution.FieldMaps
import GraphQL.Proofs.Validation.Given
import GraphQL.Proofs.Validation.References

/-!
# Where executed fields are selected

Every field that execution finds for an object is selected somewhere in a definition that the
operation reaches, and there validation has looked at it: as a field of a type that covers the
object (`FieldSite`, `exists_fieldSite`).  So what validation has made sure of the arguments of
a field holds of the arguments that execution reads: they are known to the field of the object,
with the types that they were checked with (`FieldSite.exists_input`,
`Schema.Provides.exists_argument`), and the variables in them are among those that were looked at
(`FieldSite.exists_usage`).
-/

namespace GraphQL

open Merging

variable {schema : Schema} {document : Document} {memory : Memory} {object : String}
  {operation : OperationDefinition}

/-! ## Places that an operation reaches -/

/-- A place is reached if it is in the definition of one that is. -/
theorem Document.ReachesPlace.of_getLast? {place other : Place}
    (h : document.ReachesPlace operation place) (hlast : other.getLast? = place.getLast?) :
    document.ReachesPlace operation other := by
  obtain ⟨i, d, hi, hd, hreaches⟩ := h
  exact ⟨i, d, hlast.trans hi, hd, hreaches⟩

/-- The field that a set holds stands in the same definition. -/
theorem getLast?_of_holds {place : Place} {f : SelectedField}
    (h : Holds (.ofDocument schema document) document memory place f) :
    f.place.getLast? = place.getLast? := by
  obtain ⟨inner, parent, hset, -, hf⟩ := h
  have hcons {other : Place} (i : ℕ) (hne : other ≠ []) :
      (i :: other).getLast? = other.getLast? := by
    rw [List.getLast?_cons]
    rw [List.getLast?_eq_getLast_of_ne_nil hne]
    rfl
  have hne {other : Place} {set : SelectionSet}
      (hset : setAt? (.ofDocument schema document) document other = some set) : other ≠ [] := by
    rintro rfl
    simp [setAt?] at hset
  let good (other : Place) (_ : Option TypeDef) : Prop := other.getLast? = place.getLast?
  have hinline (other : Place) (set : SelectionSet) (i : ℕ) (f : InlineFragment)
      (parent : Option TypeDef)
      (hset : setAt? (.ofDocument schema document) document other = some set)
      (_ : set.selections[i]? = some (.inline f)) (hgood : good other parent) :
      good (i :: other) (Selected.conditionType schema parent f.typeCondition) :=
    (hcons i (hne hset)).trans hgood
  have hplace : good place parent := rfl
  obtain ⟨home, around, i, hin⟩ := exists_inSet hinline hset hplace hf
  rw [hin.place, hcons i (hne hin.set)]
  exact hin.good

/-- What fragments spread, one after another, is reached. -/
theorem reachesPlace_of_path {place other : Place} {set : SelectionSet} {first name : String}
    {fragment : FragmentDefinition} (hnodup : ((placedFragments document).map (·.1)).Nodup)
    (h : document.ReachesPlace operation place)
    (hset : setAt? (.ofDocument schema document) document place = some set)
    (hfirst : first ∈ Selected.spreadsOfSet set)
    (hpath : Relation.ReflTransGen (SpreadsTo (.ofDocument schema document)) first name)
    (hplaced : Assoc.get? (placedFragments document) name = some (other, fragment)) :
    document.ReachesPlace operation other := by
  induction hpath generalizing other fragment with
  | refl => exact h.of_spread hnodup hset hfirst hplaced
  | tail _ hspread ih =>
      obtain ⟨between, before, hbefore, hmem⟩ := hspread
      have hset := setAt?_of_mem_placedFragments (s := .ofDocument schema document)
        (Assoc.mem_of_get? hbefore)
      exact (ih hbefore).of_spread hnodup hset hmem hplaced

theorem Offers.reachesPlace {start : Place} {f : SelectedField}
    (hf : Offers schema document memory object start f)
    (hnodup : ((placedFragments document).map (·.1)).Nodup)
    (h : document.ReachesPlace operation start) : document.ReachesPlace operation f.place := by
  cases hf.visible with
  | own hholds => exact h.of_getLast? (getLast?_of_holds hholds)
  | reached hinner hfirst hpath hname hholds =>
      exact (reachesPlace_of_path hnodup h hinner hfirst hpath hname).of_getLast?
        (getLast?_of_holds hholds)

/-- Every field map is gathered from a level at places that the operation reaches. -/
theorem exists_level_reached {setting : Setting} {t : TypeDef} {groups : FieldGroups}
    (hexamined : Examined setting.schema document memory) (hexecutes : setting.Executes document)
    (h : setting.FieldMap t groups) :
    ∃ sets places, groups = setting.groupsOf t sets ∧
      Level setting.schema document memory t.name sets places ∧
      ∀ place, places place → document.ReachesPlace setting.operation place := by
  induction h with
  | root ht =>
      obtain ⟨i, hi, hlevel⟩ := exists_level_root hexecutes ht
      refine ⟨_, _, rfl, hlevel, ?_⟩
      rintro _ rfl
      exact ⟨i, _, rfl, hi, .operation⟩
  | next _ hgroup hd hobject ih =>
      obtain ⟨sets, places, rfl, hlevel, hreached⟩ := ih
      refine ⟨_, _, rfl, hlevel.next hexamined hexecutes hgroup hd hobject, ?_⟩
      rintro _ ⟨start, f, inner, hstart, hoffers, -, -, rfl⟩
      exact hoffers.reachesPlace (Document.nodup_fragmentNames_of_isValid hexamined.valid)
        (hreached start hstart)

/-! ## Sites -/

/-- A field is selected of an object in a definition that the operation reaches, where validation
knows it as the `field` of `parent`. -/
structure FieldSite (schema : Schema) (document : Document) (operation : OperationDefinition)
    (node : Field) (object : String) (d : Definition) (c : TypeContext) (parent : TypeDef)
    (field : FieldDef) : Prop where
  reaches : document.Reaches operation d
  mem : d ∈ document.definitions
  stands : Stands schema d (.selection (.field node)) c
  parentType : c.parentType? = some parent
  covers : schema.Covers parent object
  fieldDef : schema.fieldDef? parent node.name.text = some field
  fieldType : (c.enter schema (.selection (.field node))).field? = some field

theorem exists_fieldSite {setting : Setting} {t u : TypeDef} {groups : FieldGroups} {key : String}
    {row : List Field} {node : Field}
    (hexamined : Examined setting.schema document memory) (hexecutes : setting.Executes document)
    (himplements : setting.schema.Implements) (hreserves : setting.schema.ReservesNames)
    (hmap : setting.FieldMap t groups) (hrow : (key, row) ∈ groups) (hnode : node ∈ row)
    (hu : setting.schema.type? t.name = some u) (hcomposite : u.isCompositeType) :
    ∃ d c parent field, FieldSite setting.schema document setting.operation node t.name d c parent
      field := by
  obtain ⟨sets, places, rfl, hlevel, hreached⟩ := exists_level_reached hexamined hexecutes hmap
  obtain ⟨-, start, selected, hstart, hoffers, rfl⟩ :=
    hlevel.offers hexamined hexecutes hrow hnode
  have hreaches := hoffers.reachesPlace (Document.nodup_fragmentNames_of_isValid hexamined.valid)
    (hreached start hstart)
  obtain ⟨home, around, i, hset, hi, hplace, hadmits⟩ := hoffers.found
  have hmem := List.mem_of_getElem? hi
  obtain ⟨d, c, hseen⟩ :=
    exists_seen hexamined.coherent hexamined.valid himplements hreserves hset
  obtain ⟨parent, field, hparent, hcovers, hfield, hinside⟩ :=
    hseen.exists_field hexamined.valid hmem hadmits hu hcomposite
  refine ⟨d, _, parent, field, ?_, hseen.mem, hseen.stands_selection hmem, hparent, hcovers, hfield,
    hinside⟩
  obtain ⟨last, hlast, hd⟩ := hseen.definition
  obtain ⟨last', d', hlast', hd', hreaches⟩ := hreaches
  rw [hplace, List.getLast?_cons, hlast] at hlast'
  obtain rfl : last = last' := Option.some.inj hlast'
  obtain rfl := Option.some.inj (hd.symm.trans hd')
  exact hreaches

namespace FieldSite

variable {node : Field} {object : String} {found : FieldDef} {d : Definition} {c : TypeContext}
  {parent : TypeDef} {field : FieldDef} {a : Argument} {input : InputDef} {name : String}
  (h : FieldSite schema document operation node object d c parent field)
include h

theorem stands_argument (ha : a ∈ node.arguments) :
    Stands schema d (.argument a) (c.enter schema (.selection (.field node))) :=
  h.stands.child trivial (.argument ha)

/-- An argument that is given is known to validation, and its literal is a value of the type. -/
theorem exists_input (hvalid : document.IsValid schema) (ha : a ∈ node.arguments) :
    ∃ input, Assoc.get? field.arguments a.name.text = some input ∧
      Literal.problems schema a.value input.type = [] := by
  obtain ⟨input, hinput⟩ :=
    exists_input_of_stands hvalid h.mem (h.stands_argument ha) h.fieldType h.parentType
  exact ⟨input, hinput,
    problems_eq_nil_of_stands hvalid h.mem (h.stands_argument ha) h.fieldType hinput⟩

/-- An argument that is required where validation has looked is given. -/
theorem exists_given (hvalid : document.IsValid schema) (hinput : input ∈ field.arguments.map (·.2))
    (hrequired : input.isRequired) : ∃ a ∈ node.arguments, a.name.text = input.name :=
  exists_given_of_stands hvalid h.mem h.stands h.fieldType hinput hrequired

/-- Where an argument uses a variable, the operation uses it. -/
theorem exists_usage {expected : TypeRef} (hrefs : schema.FieldsAreInputs)
    (harguments : schema.ArgumentsAreInputs) (ha : a ∈ node.arguments)
    (hinput : Assoc.get? field.arguments a.name.text = some input)
    (huses : Literal.Uses schema a.value input.type name expected) :
    ∃ usage ∈ document.operationUsages schema operation, usage.name = name ∧
      usage.inputType = some expected := by
  have href := harguments h.covers.known h.fieldDef _ (Assoc.mem_of_get? hinput)
  obtain ⟨usage, husage, hname, hexpected⟩ :=
    (h.stands_argument ha).exists_usage h.fieldType hinput href hrefs huses
  exact ⟨usage, h.reaches.usages_subset husage, hname, hexpected⟩

end FieldSite

/-- An object has the arguments of the field that it provides, with the same types. -/
theorem Schema.Provides.exists_argument {expected found : FieldDef} {input : InputDef}
    {name : String} (h : schema.Provides expected found)
    (hinput : Assoc.get? expected.arguments name = some input) :
    ∃ given, Assoc.get? found.arguments name = some given ∧ given.type = input.type := by
  rcases h with rfl | hfaults
  · exact ⟨input, hinput, rfl⟩
  · exact Schema.exists_argument_of_implements hfaults (Assoc.mem_of_get? hinput)

end GraphQL
