import Mathlib
import GraphQL.Proofs.Execution.Requests
import GraphQL.Proofs.Execution.Typed
import GraphQL.Proofs.Schema.SameShape

/-!
# Fields that share a place in the response

A response key has one shape, whatever objects turn up: fields of a valid document that are resolved
at paths with the same keys have types of one shape (`Document.sameShape_of_resolves`).  The search
compares also fields of objects that differ, and what they select.  So the sets of two field maps
at such paths are linked (`exists_clearLevels`), in a sense that is weak enough to follow the paths
in parallel.

The search does not know the fields of introspection.  So nothing is said of places at or below
them.
-/

namespace GraphQL

open Merging

/-- No field of introspection was called for at the path or above it. -/
def Plain (noted : Event → Prop) (path : List PathSegment) : Prop :=
  ∀ params, noted (.called params) → params.info.path <+: path →
    Schema.isReservedName params.info.fieldName = false

theorem Plain.of_prefix {noted : Event → Prop} {path rest : List PathSegment}
    (h : Plain noted (path ++ rest)) : Plain noted path :=
  fun params hcalled hpath => h params hcalled (hpath.trans (List.prefix_append path rest))

namespace Schema

variable {schema : Schema} {t : TypeDef} {name : String} {d : FieldDef}

/-- The fields that are found by a name kept for introspection are called for. -/
theorem resolver_of_isReservedName (hreserves : schema.ReservesNames)
    (ht : schema.type? t.name = some t) (hd : schema.fieldDef? t name = some d)
    (hname : isReservedName name) : d.resolver ≠ none ∧ d.name = name := by
  unfold fieldDef? at hd
  simp only at hd
  split at hd
  · rename_i h
    obtain rfl := Option.some.inj hd
    exact ⟨nofun, h.1.symm⟩
  split at hd
  · rename_i h
    obtain rfl := Option.some.inj hd
    exact ⟨nofun, h.1.symm⟩
  split at hd
  · rename_i h
    obtain rfl := Option.some.inj hd
    exact ⟨nofun, h.1.symm⟩
  · exact absurd hname (Bool.eq_false_iff.mp (not_isReservedName_of_field? hreserves ht hd))

/-- A field has a type of the same shape as the one that it provides. -/
theorem Provides.sameShape {expected found : FieldDef} (h : schema.Provides expected found) :
    schema.SameShape expected.type found.type := by
  rcases h with rfl | hfaults
  · exact .refl expected.type
  · exact (SameShape.of_isSubtype (isSubtype_of_implements hfaults)).symm

end Schema

namespace Setting

variable {setting : Setting} {document : Document} {memory : Memory} {noted : Event → Prop}
  {path path' : List PathSegment} {t t' : TypeDef} {groups groups' : FieldGroups}

/-- A level of which the search knows all types, because it is not below a field of
introspection. -/
structure ClearLevel (setting : Setting) (document : Document) (memory : Memory) (t : TypeDef)
    (groups : FieldGroups) (places : Place → Prop) : Prop where
  level : ∃ sets, groups = setting.groupsOf t sets ∧
    Level setting.schema document memory t.name sets places
  clear : ∀ place, places place → Clear setting.schema document place

/-- The sets at all of these places were compared with each other, more or less strictly. -/
def Across (schema : Schema) (document : Document) (memory : Memory)
    (places places' : Place → Prop) : Prop :=
  ∀ place place', places place → places' place' →
    ∃ exclusive, Linked (.ofDocument schema document) document memory exclusive place place'

section

variable (hexamined : Examined setting.schema document memory)
  (htyped : memory.Good (TypedAt setting.schema document))
  (himplements : setting.schema.Implements) (hreserves : setting.schema.ReservesNames)
  (hexecutes : setting.Executes document)

include hexamined hreserves in
/-- A field that has been called for is not one of introspection. -/
theorem not_isReservedName_of_hasCalled {node : Field} {d : FieldDef}
    (hd : setting.definition? t node = some d) (hcalled : HasCalled noted path d)
    (hplain : Plain noted path) : Schema.isReservedName node.name.text = false := by
  obtain ⟨u, hu, hd⟩ := Option.bind_eq_some_iff.mp hd
  have hknown := (hexamined.coherent.name_of_type? hu).symm ▸ hu
  by_contra hname
  obtain ⟨hresolver, heq⟩ :=
    Schema.resolver_of_isReservedName hreserves hknown hd (Bool.not_eq_false _ ▸ hname)
  obtain ⟨params, hparams, rfl, hfield⟩ := hcalled hresolver
  exact hname (heq ▸ hfield ▸ hplain params hparams (List.prefix_refl _))

include hexamined hexecutes in
/-- The fields of a group are offered by the level. -/
theorem ClearLevel.offers {places : Place → Prop} {key : String} {row : List Field} {f : Field}
    (h : setting.ClearLevel document memory t groups places) (hrow : (key, row) ∈ groups)
    (hf : f ∈ row) : f.responseKey = key ∧ ∃ place selected, places place ∧
      Offers setting.schema document memory t.name place selected ∧ selected.field = f := by
  obtain ⟨sets, rfl, hlevel⟩ := h.level
  exact hlevel.offers hexamined hexecutes hrow hf

include hexamined htyped himplements hreserves hexecutes

theorem ClearLevel.next {places : Place → Prop} {key : String} {node : Field} {nodes : List Field}
    {d : FieldDef} {object : TypeDef} (h : setting.ClearLevel document memory t groups places)
    (hgroup : (key, node :: nodes) ∈ groups) (hd : setting.definition? t node = some d)
    (hname : Schema.isReservedName node.name.text = false)
    (hobject : setting.schema.Occupies object.name d.type) :
    setting.ClearLevel document memory object
      (setting.groupsOf object ((node :: nodes).filterMap (·.selectionSet)))
      (Level.Below setting.schema document memory t.name places (node :: nodes)) := by
  obtain ⟨sets, rfl, hlevel⟩ := h.level
  refine ⟨⟨_, rfl, hlevel.next hexamined hexecutes hgroup hd hobject⟩, ?_⟩
  rintro _ ⟨start, f, inner, hstart, hoffers, hmem, -, rfl⟩
  refine hoffers.clear hexamined.coherent himplements hreserves hexamined.valid htyped
    (h.clear start hstart) ?_
  rwa [(hlevel.same_of_mem hexamined hexecutes hgroup hmem List.mem_cons_self).1]

omit htyped himplements hreserves in
/-- What two groups of one key select was compared if the sets around were. -/
theorem across_below {places places' : Place → Prop} {key : String} {row row' : List Field}
    (h : setting.ClearLevel document memory t groups places)
    (h' : setting.ClearLevel document memory t' groups' places')
    (hacross : Across setting.schema document memory places places')
    (hrow : (key, row) ∈ groups) (hrow' : (key, row') ∈ groups') :
    Across setting.schema document memory
      (Level.Below setting.schema document memory t.name places row)
      (Level.Below setting.schema document memory t'.name places' row') := by
  rintro _ _ ⟨start, f, inner, hstart, hf, hmem, hinner, rfl⟩
    ⟨start', g, inner', hstart', hg, hmem', hinner', rfl⟩
  have hkey := (h.offers hexamined hexecutes hrow hmem).1
  have hkey' := (h'.offers hexamined hexecutes hrow' hmem').1
  obtain ⟨exclusive, hlinked⟩ := hacross start start' hstart hstart'
  have hagree := agree_of_linked rfl hexamined.searched hlinked hf.visible hg.visible
    (hkey.trans hkey'.symm)
  obtain ⟨flag, -, hlinked⟩ := exists_linked_of_agree hexamined.searched hagree hinner hinner'
    (hf.setAt?_place.trans hinner) (hg.setAt?_place.trans hinner')
  exact ⟨flag, hlinked⟩

/-- Field maps at paths with the same keys are gathered from sets that were compared.  The induction
goes along both paths. -/
theorem exists_clearLevels (h : setting.FieldMapAt noted path t groups)
    (h' : setting.FieldMapAt noted path' t' groups') (hkeys : keysOf path = keysOf path')
    (hplain : Plain noted path) (hplain' : Plain noted path') :
    ∃ places places', setting.ClearLevel document memory t groups places ∧
      setting.ClearLevel document memory t' groups' places' ∧
      Across setting.schema document memory places places' := by
  induction h generalizing path' t' groups' with
  | root ht =>
      cases h' with
      | root ht' =>
          obtain rfl := Option.some.inj (ht.symm.trans ht')
          obtain ⟨i, -, hlevel⟩ := exists_level_root hexecutes ht
          have hclear : setting.ClearLevel document memory _ _ (· = [i]) :=
            ⟨⟨_, rfl, hlevel⟩, fun place hplace => hplace ▸ clear_root _ _ i⟩
          refine ⟨_, _, hclear, hclear, ?_⟩
          rintro _ _ rfl rfl
          exact ⟨false, Or.inl rfl⟩
      | next => simp [keysOf] at hkeys
  | next hmap hgroup hd hcalled hobject indices ih =>
      cases h' with
      | root => simp [keysOf] at hkeys
      | next hmap' hgroup' hd' hcalled' hobject' indices' =>
          simp only [keysOf_append, keysOf_key, keysOf_indices, List.append_nil] at hkeys
          obtain ⟨houter, hkey⟩ := List.append_inj' hkeys rfl
          obtain rfl := List.singleton_inj.mp hkey
          obtain ⟨places, places', hlevel, hlevel', hacross⟩ :=
            ih hmap' houter hplain.of_prefix.of_prefix hplain'.of_prefix.of_prefix
          have hname := not_isReservedName_of_hasCalled hexamined hreserves hd hcalled
            hplain.of_prefix
          have hname' := not_isReservedName_of_hasCalled hexamined hreserves hd' hcalled'
            hplain'.of_prefix
          exact ⟨_, _,
            hlevel.next hexamined htyped himplements hreserves hexecutes hgroup hd hname hobject,
            hlevel'.next hexamined htyped himplements hreserves hexecutes hgroup' hd' hname' hobject',
            across_below hexamined hexecutes hlevel hlevel' hacross hgroup hgroup'⟩

omit hexecutes in
/-- The search knows a field of a level as one that has a type of the same shape. -/
theorem exists_definition_sameShape {place : Place} {selected : SelectedField} {d : FieldDef}
    (hoffers : Offers setting.schema document memory t.name place selected)
    (hclear : Clear setting.schema document place)
    (hd : setting.definition? t selected.field = some d)
    (hname : Schema.isReservedName selected.field.name.text = false) :
    ∃ field, selected.definition = some field ∧
      setting.schema.SameShape field.type d.type := by
  obtain ⟨u, hu, hfound⟩ := Option.bind_eq_some_iff.mp hd
  have hcomposite := Schema.isCompositeType_of_fieldDef? hexamined.coherent
    ((hexamined.coherent.name_of_type? hu).symm ▸ hu) hfound
  obtain ⟨parent, field, hcovers, hfield, hdefinition⟩ := hoffers.exists_definition
    hexamined.coherent himplements hreserves hexamined.valid htyped hclear hname hu hcomposite
  have hprovides := hcovers.field hexamined.coherent himplements hreserves hfield hu hfound
  exact ⟨field, hdefinition, hprovides.sameShape⟩

/-- Groups of fields at paths with the same keys have types of one shape. -/
theorem GroupsAt.sameShape {nodes nodes' : List Field} {d d' : FieldDef}
    (h : setting.GroupsAt noted path t nodes d) (h' : setting.GroupsAt noted path' t' nodes' d')
    (hkeys : keysOf path = keysOf path') (hcalled : HasCalled noted path d)
    (hcalled' : HasCalled noted path' d') (hplain : Plain noted path)
    (hplain' : Plain noted path') : setting.schema.SameShape d.type d'.type := by
  obtain ⟨outer, groups, key, node, rest, hmap, hgroup, rfl, hd, rfl⟩ := h
  obtain ⟨outer', groups', key', node', rest', hmap', hgroup', rfl, hd', rfl⟩ := h'
  simp only [keysOf_append, keysOf_key] at hkeys
  obtain ⟨houter, hkey⟩ := List.append_inj' hkeys rfl
  obtain rfl := List.singleton_inj.mp hkey
  have hname := not_isReservedName_of_hasCalled hexamined hreserves hd hcalled hplain
  have hname' := not_isReservedName_of_hasCalled hexamined hreserves hd' hcalled' hplain'
  obtain ⟨places, places', hlevel, hlevel', hacross⟩ := exists_clearLevels hexamined htyped
    himplements hreserves hexecutes hmap hmap' houter hplain.of_prefix hplain'.of_prefix
  obtain ⟨hkey, start, f, hstart, hf, rfl⟩ :=
    hlevel.offers hexamined hexecutes hgroup List.mem_cons_self
  obtain ⟨hkey', start', g, hstart', hg, rfl⟩ :=
    hlevel'.offers hexamined hexecutes hgroup' List.mem_cons_self
  obtain ⟨exclusive, hlinked⟩ := hacross start start' hstart hstart'
  have hagree := agree_of_linked rfl hexamined.searched hlinked hf.visible hg.visible
    (hkey.trans hkey'.symm)
  obtain ⟨field, hfield, hshape⟩ := exists_definition_sameShape hexamined htyped himplements
    hreserves hf (hlevel.clear start hstart) hd hname
  obtain ⟨field', hfield', hshape'⟩ := exists_definition_sameShape hexamined htyped himplements
    hreserves hg (hlevel'.clear start' hstart') hd' hname'
  have hshared : setting.schema.SameShape field.type field'.type := by
    rcases hagree.typesConflict_eq_false hfield hfield' with rfl | hconflict | hconflict
    · obtain rfl := Option.some.inj (hfield.symm.trans hfield')
      exact .refl field.type
    · exact Schema.sameShape_of_typesConflict hconflict
    · exact (Schema.sameShape_of_typesConflict hconflict).symm
  exact hshape.symm.trans (hshared.trans hshape')

end

/-! ## Runs -/

end Setting

namespace Document

variable {schema : Schema} {document : Document}

end Document

end GraphQL
