import Mathlib
import GraphQL.Proofs.Schema.Guarantees
import GraphQL.Proofs.Typing.Parents

/-!
# One type for each selection set

The search for fields that cannot be merged looks at a selection set with the type that it finds
for it first.  Two rules see to it that there is only one to find (`Merging.spread_typeAt`): the
conditions of fragments are composite types (`Rule.fragmentsOnCompositeTypes`), and nothing is
selected of a leaf (`Rule.scalarLeafs`).  They need not hold for the fields of introspection, which
the search does not know.

The types that validation has at hand are the same (`exists_stands_typeAt`).
-/

namespace GraphQL

open Merging (setAt? rootOf? innerSet? typeAt typeAt_cons)

variable {schema : Schema} {document : Document}

/-- No selection set of the document selects a field of introspection. -/
def Document.SelectsNoMetaField (schema : Schema) (document : Document) : Prop :=
  ∀ place set f, setAt? (.ofDocument schema document) document place = some set →
    .field f ∈ set.selections → f.name.text ∉ [Introspection.schemaFieldName,
      Introspection.typeFieldName, Introspection.typenameFieldName]

theorem filter_eq_self {α : Type} {keep : α → Bool} {value? : Option α}
    (h : ∀ value, value? = some value → keep value) : value?.filter keep = value? := by
  cases value? with
  | none => rfl
  | some value => rw [Option.filter_some, if_pos (h value rfl)]

namespace Schema

variable {draft : Draft} {t : TypeDef}

theorem fieldDef?_of_not_meta {name : String} (h : name ∉ [Introspection.schemaFieldName,
    Introspection.typeFieldName, Introspection.typenameFieldName]) :
    schema.fieldDef? t name = t.field? name := by
  simp only [List.mem_cons, List.not_mem_nil, or_false, not_or] at h
  simp [fieldDef?, h]

/-- What validation relies on in a schema to find the types of selection sets. -/
structure TypesFields (schema : Schema) : Prop where
  coherent : schema.Coherent
  root : ∀ {kind root t}, schema.rootType? kind = some root →
    schema.type? root.name = some t → t.isCompositeType
  output : ∀ {typeName name t d}, schema.type? typeName = some t → t.field? name = some d →
    schema.isOutputRef d.type

theorem typesFields_of_build (h : draft.build = .ok schema) : schema.TypesFields where
  coherent := coherent_of_build h
  root hroot ht := by
    obtain ⟨u, hu, hobject⟩ := exists_root_of_build h hroot
    obtain rfl := Option.some.inj (hu.symm.trans ht)
    exact isCompositeType_of_isObjectType hobject
  output {typeName name t d} ht hd := by
    obtain ⟨fields, hfields, hget⟩ := Option.bind_eq_some_iff.mp hd
    obtain ⟨reached, hbuilt⟩ := exists_isBuilt h
    have hbody := hbuilt.bodyIsSound (hbuilt.type?_eq_some_iff.mp ht).1
    have hsound : schema.FieldsAreSound fields := by
      unfold TypeDef.fields? at hfields
      split at hfields
      · rename_i object hobject
        rw [hobject] at hbody
        exact Option.some.inj hfields ▸ hbody.1
      · rename_i interface hinterface
        rw [hinterface] at hbody
        exact Option.some.inj hfields ▸ hbody
      · cases hfields
    exact hsound.output (name, d) (Assoc.mem_of_get? hget)

theorem isCompositeType_of_not_isLeafType (houtput : t.isOutputType)
    (hleaf : t.isLeafType = false) : t.isCompositeType := by
  cases hbody : t.body <;>
    simp_all [TypeDef.isOutputType, TypeDef.isLeafType, TypeDef.isCompositeType]

/-- Composite types are the same among all types and among those of fields. -/
theorem filter_namedType?_of_isOutputRef (type? : Option TypeRef) :
    ((type?.filter schema.isOutputRef).bind schema.namedType?).filter (·.isCompositeType) =
      (type?.bind schema.namedType?).filter (·.isCompositeType) := by
  cases type? with
  | none => rfl
  | some type =>
      by_cases href : schema.isOutputRef type
      · rw [Option.filter_some, if_pos href]
      · rw [Option.filter_some, if_neg href, Option.bind_none, Option.filter_none,
          Option.bind_some]
        symm
        refine Option.filter_eq_none_iff.mpr fun t ht hcomposite => href ?_
        rw [isOutputRef, ht]
        exact isOutputType_of_isCompositeType hcomposite

end Schema

/-! ## The types at hand -/

namespace TypeContext

variable {c : TypeContext} {type? : Option TypeRef}

/-- Within a selection set, the composite type of what is around it is at hand. -/
theorem parentType?_enter_set (set : SelectionSet) :
    (c.enter schema (.selectionSet set)).parentType? =
      (c.namedOutputType? schema).filter (·.isCompositeType) := by
  simp only [enter, parentType?, List.head?_cons, Option.join_some]

theorem parentType?_of_filter {set : SelectionSet}
    (h : c.outputType? = type?.filter schema.isOutputRef) :
    (c.enter schema (.selectionSet set)).parentType? =
      (type?.bind schema.namedType?).filter (·.isCompositeType) := by
  rw [parentType?_enter_set, namedOutputType?, h, Schema.filter_namedType?_of_isOutputRef]

theorem outputType?_enter_field (f : Field) :
    (c.enter schema (.selection (.field f))).outputType? =
      ((c.parentType?.bind (schema.fieldDef? · f.name.text)).map (·.type)).filter
        schema.isOutputRef := by
  simp only [enter, enterSelection, outputType?, List.head?_cons, Option.join_some]

/-- Below a field, the composite type of the field is at hand. -/
theorem parentType?_below_field (f : Field) (set : SelectionSet) :
    ((c.enter schema (.selection (.field f))).enter schema (.selectionSet set)).parentType? =
      ((c.parentType?.bind (schema.fieldDef? · f.name.text)).bind fun d =>
        schema.namedType? d.type).filter (·.isCompositeType) := by
  rw [parentType?_of_filter (outputType?_enter_field f), Option.bind_map]
  rfl

/-- Below an inline fragment, its condition is at hand, or else the type around it. -/
theorem parentType?_below_inline (hcoherent : schema.Coherent) {outer set : SelectionSet}
    (f : InlineFragment) :
    (((c.enter schema (.selectionSet outer)).enter schema (.selection (.inline f))).enter schema
      (.selectionSet set)).parentType? =
      (Selected.conditionType schema (c.enter schema (.selectionSet outer)).parentType?
        f.typeCondition).filter (·.isCompositeType) := by
  obtain ⟨condition, directives, inner, span⟩ := f
  cases condition with
  | some condition =>
      have houtput : ((c.enter schema (.selectionSet outer)).enter schema
          (.selection (.inline ⟨some condition, directives, inner, span⟩))).outputType? =
            (some (TypeRef.ofName condition.name.text)).filter schema.isOutputRef := rfl
      exact parentType?_of_filter houtput
  | none =>
      have hinside : (c.enter schema (.selectionSet outer)).namedOutputType? schema =
          c.namedOutputType? schema := rfl
      have hnamed : ((c.namedOutputType? schema).map TypeDef.name).bind schema.type? =
          c.namedOutputType? schema := by
        cases ht : c.namedOutputType? schema with
        | none => rfl
        | some t =>
            obtain ⟨type, -, ht⟩ := Option.bind_eq_some_iff.mp ht
            rw [Option.map_some, Option.bind_some, hcoherent.name_of_type? ht]
            exact ht
      have houtput : ((c.enter schema (.selectionSet outer)).enter schema
          (.selection (.inline ⟨none, directives, inner, span⟩))).outputType? =
            ((c.namedOutputType? schema).map fun t => TypeRef.ofName t.name).filter
              schema.isOutputRef := by
        simp only [enter, enterSelection, pushOutput, outputType?, List.head?_cons,
          Option.join_some, Option.map_map]
        rfl
      rw [parentType?_of_filter houtput, Selected.conditionType, parentType?_enter_set,
        Option.filter_filter]
      rw [Option.bind_map] at hnamed ⊢
      rw [show ((c.namedOutputType? schema).bind
        (schema.namedType? ∘ fun t => TypeRef.ofName t.name)) = _ from hnamed]
      simp

end TypeContext

theorem typeAt_root {i : ℕ} {d : Definition} {parent : Option TypeDef} {set : SelectionSet}
    {s : Merging.Setting} (hd : document.definitions[i]? = some d)
    (hroot : rootOf? s d = some (parent, set)) : typeAt s document [i] = parent := by
  rw [typeAt, hd, Option.bind_some, hroot, Option.bind_some]

section

variable (htypes : schema.TypesFields)
include htypes

/-- The types that sets are checked with are composite. -/
theorem isCompositeType_typeAt {place : Place} {t : TypeDef}
    (h : typeAt (.ofDocument schema document) document place = some t) : t.isCompositeType := by
  cases place with
  | nil => cases h
  | cons index outer =>
      cases outer with
      | nil =>
          obtain ⟨⟨parent, set⟩, hroot, rfl⟩ := Option.bind_eq_some_iff.mp h
          obtain ⟨d, -, hroot⟩ := Option.bind_eq_some_iff.mp hroot
          cases d with
          | operation d =>
              obtain ⟨hparent, -⟩ : (schema.rootType? d.operation).bind (schema.type? ·.name) =
                  some t ∧ _ := by simpa [rootOf?, Merging.Setting.ofDocument] using hroot
              obtain ⟨root, hkind, ht⟩ := Option.bind_eq_some_iff.mp hparent
              exact htypes.root hkind ht
          | fragment d =>
              obtain ⟨hparent, -⟩ : (schema.type? d.typeCondition.name.text).filter
                  (·.isCompositeType) = some t ∧ _ := by
                simpa [rootOf?, Merging.Setting.ofDocument] using hroot
              exact (Option.filter_eq_some_iff.mp hparent).2
          | _ => simp [rootOf?] at hroot
      | cons first rest =>
          obtain ⟨set, -, hset⟩ := Option.bind_eq_some_iff.mp h
          obtain ⟨selection, -, hparent⟩ := Option.bind_eq_some_iff.mp hset
          cases selection with
          | field f => exact (Option.filter_eq_some_iff.mp hparent).2
          | inline f => exact (Option.filter_eq_some_iff.mp hparent).2
          | spread f => cases hparent

theorem filter_typeAt (place : Place) :
    (typeAt (.ofDocument schema document) document place).filter (·.isCompositeType) =
      typeAt (.ofDocument schema document) document place :=
  filter_eq_self fun _ h => isCompositeType_typeAt htypes h

/-- Every selection set stands where validation has the type at hand that the set is checked
with. -/
theorem exists_stands_typeAt {place : Place} {set : SelectionSet}
    (h : setAt? (.ofDocument schema document) document place = some set) :
    ∃ d ∈ document.definitions, ∃ c, Stands schema d (.selectionSet set) c ∧
      (c.enter schema (.selectionSet set)).parentType? =
        typeAt (.ofDocument schema document) document place := by
  induction place generalizing set with
  | nil => simp [setAt?] at h
  | cons index outer ih =>
      cases outer with
      | nil =>
          obtain ⟨⟨parent, root⟩, hroot, rfl⟩ := Option.map_eq_some_iff.mp h
          obtain ⟨d, hd, hroot⟩ := Option.bind_eq_some_iff.mp hroot
          refine ⟨d, List.mem_of_getElem? hd, _, .child .root trivial (.root hroot), ?_⟩
          rw [← filter_typeAt htypes, typeAt_root hd hroot]
          cases d with
          | operation d =>
              obtain ⟨rfl, -⟩ : (schema.rootType? d.operation).bind (schema.type? ·.name) =
                  parent ∧ _ := by simpa [rootOf?, Merging.Setting.ofDocument] using hroot
              rw [TypeContext.parentType?_enter_set]
              simp only [TypeContext.namedOutputType?, TypeContext.outputType?, TypeContext.enter,
                TypeContext.enterDefinition, TypeContext.pushOutput, List.head?_cons,
                Option.join_some, Option.bind_map]
              rfl
          | fragment d =>
              obtain ⟨rfl, -⟩ : (schema.type? d.typeCondition.name.text).filter
                  (·.isCompositeType) = parent ∧ _ := by
                simpa [rootOf?, Merging.Setting.ofDocument] using hroot
              have houtput : (({} : TypeContext).enter schema
                  (.definition (.fragment d))).outputType? =
                    (some (TypeRef.ofName d.typeCondition.name.text)).filter
                      schema.isOutputRef := rfl
              rw [TypeContext.parentType?_of_filter houtput, Option.filter_filter]
              simp only [Bool.and_self]
              rfl
          | _ => simp [rootOf?] at hroot
      | cons first rest =>
          obtain ⟨around, haround, hset⟩ := Option.bind_eq_some_iff.mp h
          obtain ⟨selection, hselection, hinner⟩ := Option.bind_eq_some_iff.mp hset
          obtain ⟨d, hd, c, hstands, hparent⟩ := ih haround
          have hmem := List.mem_of_getElem? hselection
          refine ⟨d, hd, _, (hstands.child trivial (.selection hmem)).child trivial (.inner hinner),
            ?_⟩
          rw [typeAt_cons haround hselection, ← hparent]
          cases selection with
          | field f => exact TypeContext.parentType?_below_field f set
          | inline f => exact TypeContext.parentType?_below_inline htypes.coherent f
          | spread f => cases hinner

end

/-! ## What the rules rule out -/

namespace Rule

theorem descends_fragmentsOnCompositeTypes :
    fragmentsOnCompositeTypes.Descends schema document fun _ => True := by
  have haction (scope : Scope) (node : Node) :
      (fragmentsOnCompositeTypes.enter scope node {}).1.action = .proceed := by
    cases node with
    | selection s => cases s <;> rfl
    | definition d => cases d <;> rfl
    | _ => rfl
  refine descends_of_onEnter (fun scope node => ?_) fun scope node _ => haction scope node
  exact (haction scope node).trans_ne RuleAction.noConfusion

theorem descends_scalarLeafs : scalarLeafs.Descends schema document fun _ => True := by
  have haction (scope : Scope) (node : Node) :
      (scalarLeafs.enter scope node {}).1.action = .proceed := by
    cases node with
    | selection s =>
        cases s with
        | field f =>
            simp only [scalarLeafs, onEnter, pure, StateT.pure]
            split
            · split <;> rfl
            · rfl
        | _ => rfl
    | _ => rfl
  refine descends_of_onEnter (fun scope node => ?_) fun scope node _ => haction scope node
  exact (haction scope node).trans_ne RuleAction.noConfusion

theorem isCompositeType_of_conditionErrors {fragment : Option String} {condition : NamedType}
    {t : TypeDef} (h : conditionErrors schema fragment condition = [])
    (ht : schema.type? condition.name.text = some t) : t.isCompositeType := by
  rw [conditionErrors, ht] at h
  by_contra hcomposite
  simp [hcomposite] at h

end Rule

section

variable {d : Definition} {c : TypeContext} {t : TypeDef}

/-- The condition of an inline fragment is a composite type. -/
theorem isCompositeType_of_stands_inline {f : InlineFragment} {condition : NamedType}
    (h : document.Satisfies schema Rule.fragmentsOnCompositeTypes) (hd : d ∈ document.definitions)
    (hstands : Stands schema d (.selection (.inline f)) c) (hf : f.typeCondition = some condition)
    (ht : schema.type? condition.name.text = some t) : t.isCompositeType := by
  have hquiet := Rule.quietAt_of_stands h Rule.descends_fragmentsOnCompositeTypes
    (fun _ => trivial) hd hstands
  have hheight : 0 < (Node.selection (.inline f)).height := by
    obtain ⟨condition, directives, set, span⟩ := f
    simp [Node.height, Selection.height, SelectionSet.heightSelections]
  obtain ⟨c', memory, -, -, hnone⟩ := hquiet.exists_enter hheight
  simp only [Rule.fragmentsOnCompositeTypes, Rule.onEnter, hf, Option.toList_some,
    List.flatMap_cons, List.flatMap_nil, List.append_nil] at hnone
  exact Rule.isCompositeType_of_conditionErrors hnone ht

/-- The condition of a fragment is a composite type. -/
theorem isCompositeType_of_fragment {fragment : FragmentDefinition}
    (h : document.Satisfies schema Rule.fragmentsOnCompositeTypes)
    (hd : .fragment fragment ∈ document.definitions)
    (ht : schema.type? fragment.typeCondition.name.text = some t) : t.isCompositeType := by
  have hquiet := Rule.quietAt_of_stands h Rule.descends_fragmentsOnCompositeTypes
    (fun _ => trivial) hd .root
  obtain ⟨c', memory, -, -, hnone⟩ := hquiet.exists_enter (by
    simp [Node.height, Definition.height])
  exact Rule.isCompositeType_of_conditionErrors hnone ht

/-- A field whose type is known has a composite one if it selects something. -/
theorem isCompositeType_of_stands_field {f : Field} {set : SelectionSet} {parent : TypeDef}
    {field : FieldDef} (h : document.Satisfies schema Rule.scalarLeafs)
    (hd : d ∈ document.definitions) (hstands : Stands schema d (.selection (.field f)) c)
    (hset : f.selectionSet = some set) (hparent : c.parentType? = some parent)
    (hfield : schema.fieldDef? parent f.name.text = some field)
    (houtput : schema.isOutputRef field.type) (ht : schema.namedType? field.type = some t) :
    t.isCompositeType := by
  have hquiet := Rule.quietAt_of_stands h Rule.descends_scalarLeafs (fun _ => trivial) hd hstands
  have hheight : 0 < (Node.selection (.field f)).height := by
    obtain ⟨keyAlias, name, arguments, directives, set?, span⟩ := f
    simp [Node.height, Selection.height, SelectionSet.heightSelections]
  obtain ⟨c', memory, halike, -, hnone⟩ := hquiet.exists_enter hheight
  have htype : (c'.enter schema (.selection (.field f))).outputType? = some field.type := by
    rw [TypeContext.outputType?_enter_field, halike.parentType?, hparent, Option.bind_some, hfield,
      Option.map_some, Option.filter_some, if_pos houtput]
  have hnamed : (c'.enter schema (.selection (.field f))).namedOutputType? schema = some t := by
    rw [TypeContext.namedOutputType?, htype, Option.bind_some, ht]
  have hleaf : t.isLeafType = false := by
    by_contra hleaf
    rw [Bool.not_eq_false] at hleaf
    simp [Rule.scalarLeafs, Rule.onEnter, pure, StateT.pure, htype, hnamed, hset, hleaf,
      Finding.andProceed] at hnone
  refine Schema.isCompositeType_of_not_isLeafType ?_ hleaf
  simpa [Schema.isOutputRef, ht] using houtput

end

/-! ## Types that the search looks with -/

namespace Merging

variable {place : Place} {set : SelectionSet} {i : ℕ} {parent : Option TypeDef}

section

variable (htypes : schema.TypesFields)
  (hconditions : document.Satisfies schema Rule.fragmentsOnCompositeTypes)
  (hleaves : document.Satisfies schema Rule.scalarLeafs)
  (hplain : document.SelectsNoMetaField schema)
include htypes hconditions

/-- The type of an inline fragment is the one that its set is checked with. -/
theorem conditionType_typeAt {f : InlineFragment}
    (hset : setAt? (.ofDocument schema document) document place = some set)
    (hf : set.selections[i]? = some (.inline f)) :
    Selected.conditionType schema (typeAt (.ofDocument schema document) document place)
      f.typeCondition = typeAt (.ofDocument schema document) document (i :: place) := by
  rw [typeAt_cons hset hf, innerParent, inlineSetParent, Setting.ofDocument_schema]
  cases hcondition : f.typeCondition with
  | none => exact (filter_typeAt htypes place).symm
  | some condition =>
      obtain ⟨d, hd, c, hstands, -⟩ := exists_stands_typeAt htypes hset
      have hstands := hstands.child trivial (.selection (List.mem_of_getElem? hf))
      rw [Selected.conditionType]
      symm
      refine filter_eq_self fun t ht => ?_
      exact isCompositeType_of_stands_inline hconditions hd hstands hcondition ht

omit htypes in
/-- The type of a fragment is the one that its set is checked with. -/
theorem type?_typeAt {fragment : FragmentDefinition}
    (h : document.definitions[i]? = some (.fragment fragment)) :
    schema.type? fragment.typeCondition.name.text =
      typeAt (.ofDocument schema document) document [i] := by
  rw [typeAt_root h rfl, Setting.ofDocument_schema]
  symm
  refine filter_eq_self fun t ht => ?_
  exact isCompositeType_of_fragment hconditions (List.mem_of_getElem? h) ht

omit hconditions
include hleaves hplain

/-- What a field selects is of the type that its set is checked with. -/
theorem namedType?_typeAt {f : Field} {inner : SelectionSet}
    (hset : setAt? (.ofDocument schema document) document place = some set)
    (hf : set.selections[i]? = some (.field f)) (hinner : f.selectionSet = some inner) :
    (((typeAt (.ofDocument schema document) document place).bind (·.field? f.name.text)).bind
      fun d => schema.namedType? d.type) =
        typeAt (.ofDocument schema document) document (i :: place) := by
  have hmem := List.mem_of_getElem? hf
  obtain ⟨d, hd, c, hstands, hparent⟩ := exists_stands_typeAt htypes hset
  have hstands := hstands.child trivial (.selection hmem)
  rw [typeAt_cons hset hf, innerParent, fieldSetParent, Setting.ofDocument_schema]
  simp only [Schema.fieldDef?_of_not_meta (hplain place set f hset hmem)]
  symm
  refine filter_eq_self fun t ht => ?_
  obtain ⟨field, hfield, ht⟩ := Option.bind_eq_some_iff.mp ht
  obtain ⟨parent, htype, hfield⟩ := Option.bind_eq_some_iff.mp hfield
  rw [htype] at hparent
  obtain ⟨type, -, hknown⟩ : ∃ type, c.outputType? = some type ∧
      schema.namedType? type = some parent := by
    rw [TypeContext.parentType?_enter_set] at hparent
    exact Option.bind_eq_some_iff.mp (Option.filter_eq_some_iff.mp hparent).1
  refine isCompositeType_of_stands_field hleaves hd hstands hinner hparent ?_
    (htypes.output hknown hfield) ht
  rw [Schema.fieldDef?_of_not_meta (hplain place set f hset hmem)]
  exact hfield

include hconditions

/-- The search looks at every set with the type that the set is checked with. -/
theorem spread_typeAt : Spread (.ofDocument schema document) document fun place parent =>
    parent = typeAt (.ofDocument schema document) document place where
  checked c hc := parent_eq_typeAt hc
  fragment name place fragment hmem := by
    obtain ⟨i, hget, rfl, -⟩ := mem_placedFragments_iff.mp hmem
    exact type?_typeAt hconditions hget
  field place set parent f inner hset hparent hf hinner := by
    have hinline : DescendsInline schema document fun place parent =>
        parent = typeAt (.ofDocument schema document) document place :=
      fun _ _ _ _ _ hset hf hparent => hparent ▸ conditionType_typeAt htypes hconditions hset hf
    obtain ⟨home, around, i, hin⟩ := exists_inSet hinline hset hparent hf
    rw [hin.place, subfieldParent, hin.definition, hin.good]
    exact namedType?_typeAt htypes hleaves hplain hin.set hin.field hinner

end

end Merging

end GraphQL
