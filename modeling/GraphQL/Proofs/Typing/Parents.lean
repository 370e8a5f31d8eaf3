import Mathlib
import GraphQL.Proofs.Merging.Admitted
import GraphQL.Proofs.Typing.Contexts

/-!
# The types that validation knows

In a valid document validation knows a type for every selection set that admits an object, and
the type covers the object (`exists_stands_of_setAt?`).  So it knows a field wherever one is
selected (`exists_field_of_stands`), and the field that the object has is the same one, or
implements it (`Covers.field`).
-/

namespace GraphQL

open Merging (Admits setAt? rootOf? innerSet? typeAt typeAt_cons)
open TypeContext (Alike)

variable {schema : Schema} {document : Document}

/-! ## Types that cover an object -/

namespace Schema

/-- No field of the schema has a name that is kept for introspection. -/
def ReservesNames (schema : Schema) : Prop :=
  ∀ entry ∈ schema.types, ∀ field ∈ entry.2.fields?.getD [], isReservedName field.1 = false

/-- Where an abstract type has a field, its object types have one that is as it should be. -/
def Implements (schema : Schema) : Prop :=
  ∀ {t u name d}, schema.type? t.name = some t → u ∈ schema.possibleTypes t →
    t.field? name = some d →
    ∃ d', u.field? name = some d' ∧ schema.fieldImplementationFaults d d' = []

theorem implements_of_build {draft : Draft} (h : draft.build = .ok schema) : schema.Implements :=
  have ⟨_, hbuilt⟩ := exists_isBuilt h
  hbuilt.implements

/-- The type is one of the schema, and objects of the named type are of it. -/
structure Covers (schema : Schema) (t : TypeDef) (object : String) : Prop where
  known : schema.type? t.name = some t
  object : t.name = object ∨ schema.isPossibleType t object

variable {t u : TypeDef} {object name : String} {d found : FieldDef}

theorem not_isReservedName_of_field? (hreserves : schema.ReservesNames)
    (ht : schema.type? t.name = some t) (hd : t.field? name = some d) :
    isReservedName name = false := by
  obtain ⟨fields, hfields, hget⟩ := Option.bind_eq_some_iff.mp hd
  exact hreserves _ (Assoc.mem_of_get? ht) (name, d) (by
    rw [hfields]
    exact Assoc.mem_of_get? hget)

theorem fieldDef?_of_not_isReservedName (h : isReservedName name = false) :
    schema.fieldDef? t name = t.field? name := by
  have hne (reserved : String) (hreserved : isReservedName reserved = true) : name ≠ reserved := by
    rintro rfl
    exact Bool.false_ne_true (h.symm.trans hreserved)
  simp [fieldDef?, hne Introspection.schemaFieldName (by decide),
    hne Introspection.typeFieldName (by decide),
    hne Introspection.typenameFieldName (by decide)]

theorem isOutputType_of_isCompositeType (h : t.isCompositeType) : t.isOutputType := by
  unfold TypeDef.isCompositeType at h
  unfold TypeDef.isOutputType
  split at h <;> simp_all

theorem Covers.isCompositeType (h : schema.Covers t object) (hu : schema.type? object = some u)
    (hcomposite : u.isCompositeType) : t.isCompositeType := by
  obtain ⟨ht, rfl | hpossible⟩ := h
  · rwa [Option.some.inj (ht.symm.trans hu)]
  · exact isCompositeType_of_isAbstractType (isAbstractType_of_isPossibleType hpossible)

/-- The field that an object has, where another one of its type or of an abstract type around it is
known: the same one, or one that implements it. -/
def Provides (schema : Schema) (expected found : FieldDef) : Prop :=
  expected = found ∨ schema.fieldImplementationFaults expected found = []

/-- A field of a type that covers an object is one of the object. -/
theorem Covers.exists_field (hcoherent : schema.Coherent) (himplements : schema.Implements)
    (hreserves : schema.ReservesNames) (h : schema.Covers t object)
    (hd : schema.fieldDef? t name = some d) (hu : schema.type? object = some u) :
    ∃ found, schema.fieldDef? u name = some found ∧ schema.Provides d found := by
  obtain ⟨ht, rfl | hpossible⟩ := h
  · obtain rfl := Option.some.inj (ht.symm.trans hu)
    exact ⟨d, hd, Or.inl rfl⟩
  obtain ⟨u', hmem, hobject, hu', -⟩ := exists_mem_possibleTypes hcoherent ht hpossible
  obtain rfl := Option.some.inj (hu'.symm.trans hu)
  -- The root of queries is an object type, so `t` has neither of its two fields.
  have hroot : t.name ≠ schema.queryType.name := fun hname =>
    not_isPossibleType_of_isObjectType (hcoherent.query (hname ▸ ht)) hpossible
  unfold fieldDef? at hd
  simp only [hroot, and_false, if_false] at hd
  split at hd
  · rename_i htypename
    obtain ⟨rfl, -⟩ := htypename
    refine ⟨d, ?_, Or.inl rfl⟩
    simpa [fieldDef?, isCompositeType_of_isObjectType hobject, Introspection.typenameFieldName,
      Introspection.schemaFieldName, Introspection.typeFieldName] using hd
  · obtain ⟨d', hd', hfaults⟩ := himplements ht hmem hd
    refine ⟨d', ?_, Or.inr hfaults⟩
    rw [fieldDef?_of_not_isReservedName (not_isReservedName_of_field? hreserves ht hd), hd']

/-- A field of an object is the one that a type which covers the object has, or implements it. -/
theorem Covers.field (hcoherent : schema.Coherent) (himplements : schema.Implements)
    (hreserves : schema.ReservesNames) (h : schema.Covers t object)
    (hd : schema.fieldDef? t name = some d) (hu : schema.type? object = some u)
    (hfound : schema.fieldDef? u name = some found) : schema.Provides d found := by
  obtain ⟨other, hother, hprovides⟩ := h.exists_field hcoherent himplements hreserves hd hu
  rwa [Option.some.inj (hother.symm.trans hfound)] at hprovides

/-- What occupies the place of a field occupies that of the field which it implements. -/
theorem Occupies.of_isSubtype {sub super : TypeRef}
    (h : schema.Occupies object sub) (hsub : schema.isSubtype sub super) :
    schema.Occupies object super := by
  induction sub generalizing super with
  | list item nullable ih =>
      cases super with
      | named superName superNullable => simp [isSubtype] at hsub
      | list superItem superNullable =>
          simp only [isSubtype, Bool.and_eq_true] at hsub
          have hitem : schema.Occupies object superItem := ih h hsub.2
          exact hitem
  | named subName nullable =>
      cases super with
      | list superItem superNullable => simp [isSubtype] at hsub
      | named superName superNullable =>
          simp only [isSubtype, Bool.and_eq_true, Bool.or_eq_true, decide_eq_true_eq] at hsub
          rcases hsub.2 with rfl | hpossible
          · exact h
          obtain ⟨t, ht, hobject⟩ := h
          have ht : schema.type? subName = some t := ht
          unfold isPossibleName at hpossible
          cases hu : schema.type? superName with
          | none => simp [ht, hu] at hpossible
          | some u =>
              simp only [ht, hu, Bool.and_eq_true] at hpossible
              refine ⟨u, hu, Or.inr ?_⟩
              rcases hobject with ⟨-, rfl⟩ | hbelow
              · exact hpossible.2
              · exact absurd hbelow (not_isPossibleType_of_isObjectType hpossible.1)

/-- The named type of a place that objects occupy covers them. -/
theorem Occupies.covers {type : TypeRef} (hcoherent : schema.Coherent)
    (h : schema.Occupies object type) :
    ∃ t, schema.namedType? type = some t ∧ t.isCompositeType ∧ schema.Covers t object := by
  obtain ⟨t, ht, hobject⟩ := h
  have hknown : schema.type? t.name = some t := by
    rw [hcoherent.name_of_type? ht]
    exact ht
  rcases hobject with ⟨hobject, hname⟩ | hpossible
  · exact ⟨t, ht, isCompositeType_of_isObjectType hobject, hknown, Or.inl hname⟩
  · exact ⟨t, ht, isCompositeType_of_isAbstractType (isAbstractType_of_isPossibleType hpossible),
      hknown, Or.inr hpossible⟩

end Schema

/-! ## Fields are known -/

namespace Rule

theorem descends_of_onEnter {name : String} {check : Scope → Node → Finding}
    (hstop : ∀ scope node, (check scope node).action ≠ .stop)
    (hpasses : ∀ scope (node : Node), node.IsFrame → (check scope node).action = .proceed) :
    (onEnter name check).Descends schema document fun _ => True where
  endures scope node _ := ⟨hstop scope node, RuleAction.noConfusion⟩
  passes node hframe scope _ := hpasses scope node hframe
  enter _ _ _ _ _ := trivial
  alone _ _ _ _ _ := trivial

theorem descends_fieldsOnCorrectType :
    fieldsOnCorrectType.Descends schema document fun _ => True := by
  have haction (scope : Scope) (node : Node) :
      (fieldsOnCorrectType.enter scope node {}).1.action = .proceed := by
    cases node with
    | selection s =>
        cases s with
        | field f =>
            simp only [fieldsOnCorrectType, onEnter, pure, StateT.pure]
            split <;> rfl
        | _ => rfl
    | _ => rfl
  refine descends_of_onEnter (fun scope node => ?_) fun scope node _ => haction scope node
  have h := haction scope node
  simp only [fieldsOnCorrectType, onEnter, pure, StateT.pure] at h
  simp only [h]
  exact RuleAction.noConfusion

end Rule

/-- Where validation knows the type that a field is selected of, it knows the field. -/
theorem exists_field_of_stands {d : Definition} {f : Field} {c : TypeContext} {t : TypeDef}
    (hvalid : document.IsValid schema) (hd : d ∈ document.definitions)
    (h : Stands schema d (.selection (.field f)) c) (ht : c.parentType? = some t) :
    ∃ definition, schema.fieldDef? t f.name.text = some definition ∧
      (c.enter schema (.selection (.field f))).field? = some definition := by
  have hquiet := Rule.quietAt_of_stands (Document.satisfies_of_isValid hvalid (by simp [Rule.all]))
    Rule.descends_fieldsOnCorrectType (fun _ => trivial) hd h
  have hheight : 0 < (Node.selection (.field f)).height := by
    obtain ⟨keyAlias, name, arguments, directives, set?, span⟩ := f
    simp [Node.height, Selection.height, SelectionSet.heightSelections]
  obtain ⟨c', memory, halike, -, hnone⟩ := hquiet.exists_enter hheight
  have hfield : (c.enter schema (.selection (.field f))).field? =
      schema.fieldDef? t f.name.text := by
    simp [TypeContext.enter, TypeContext.enterSelection, TypeContext.field?, ht]
  have hinside := halike.enter schema
    (show (Node.selection (.field f)).kind ≠ .directive from NodeKind.noConfusion)
  have hparent : (c'.enter schema (.selection (.field f))).parentType? = some t :=
    halike.parentType?.trans ht
  simp only [Rule.fieldsOnCorrectType, Rule.onEnter, pure, StateT.pure] at hnone
  rw [hparent, hinside.field?, hfield] at hnone
  cases hdefinition : schema.fieldDef? t f.name.text with
  | none => simp [hdefinition, Finding.andProceed] at hnone
  | some definition => exact ⟨definition, rfl, hfield.trans hdefinition⟩

/-! ## Types are known -/

namespace TypeContext

variable {c : TypeContext} {t : TypeDef}

/-- Within a selection set, validation knows the composite type from around. -/
theorem parentType?_enter_selectionSet {set : SelectionSet}
    (ht : c.namedOutputType? schema = some t) (hcomposite : t.isCompositeType) :
    (c.enter schema (.selectionSet set)).parentType? = some t := by
  simp [enter, parentType?, ht, Option.filter, hcomposite]

/-- A type that has a composite named type is known. -/
theorem namedOutputType?_of_filter {type : TypeRef}
    (h : c.outputTypes.head?.join = (some type).filter schema.isOutputRef)
    (ht : schema.namedType? type = some t) (hcomposite : t.isCompositeType) :
    c.namedOutputType? schema = some t := by
  have href : schema.isOutputRef type = true := by
    rw [Schema.isOutputRef, ht]
    exact Schema.isOutputType_of_isCompositeType hcomposite
  rw [namedOutputType?, outputType?, h, Option.filter_some, if_pos href]
  exact ht

end TypeContext

/-- A selection set of a definition, with the types that validation has at hand there: the type
that it knows for the set, the same that the set is checked with when fields are merged, covers
the objects that the place admits. -/
structure Seen (schema : Schema) (document : Document) (place : Place)
    (set : SelectionSet) (d : Definition) (c : TypeContext) : Prop where
  definition : ∃ i, place.getLast? = some i ∧ document.definitions[i]? = some d
  stands : Stands schema d (.selectionSet set) c
  covers : ∀ object u, Admits schema document place object → schema.type? object = some u →
    u.isCompositeType → ∃ t, c.namedOutputType? schema = some t ∧ t.isCompositeType ∧
      schema.Covers t object ∧ typeAt (.ofDocument schema document) document place = some t

section

variable {place : Place} {set : SelectionSet} {i : ℕ} {d : Definition} {c : TypeContext}

theorem Seen.mem (h : Seen schema document place set d c) : d ∈ document.definitions := by
  obtain ⟨i, -, hd⟩ := h.definition
  exact List.mem_of_getElem? hd

theorem Seen.stands_selection {selection : Selection} (h : Seen schema document place set d c)
    (hmem : selection ∈ set.selections) :
    Stands schema d (.selection selection) (c.enter schema (.selectionSet set)) :=
  h.stands.child trivial (.selection hmem)

variable (hcoherent : schema.Coherent)
include hcoherent

/-- A type that applies to an object which is known covers it. -/
theorem Schema.covers_of_applies {condition : NamedType} {object : String} {u : TypeDef}
    (h : Grouping.applies schema object (some condition)) (hu : schema.type? object = some u)
    (hcomposite : u.isCompositeType) :
    ∃ t, schema.type? condition.name.text = some t ∧ t.isCompositeType ∧
      schema.Covers t object := by
  simp only [Grouping.applies] at h
  split at h
  · cases h
  · rename_i t ht
    have hknown : schema.type? t.name = some t := by rwa [hcoherent.name_of_type? ht]
    have hcovers : schema.Covers t object := ⟨hknown, by
      simp only [Bool.or_eq_true, decide_eq_true_eq, Bool.and_eq_true] at h
      exact h.imp_right And.right⟩
    exact ⟨t, ht, hcovers.isCompositeType hu hcomposite, hcovers⟩

theorem seen_root (hd : document.definitions[i]? = some d)
    {parent : Option TypeDef} (hroot : rootOf? (.ofDocument schema document) d = some (parent, set)) :
    Seen schema document [i] set d (({} : TypeContext).enter schema (.definition d)) := by
  refine ⟨⟨i, rfl, hd⟩, .child .root trivial (.root hroot), fun object u hadmits hu hcomposite => ?_⟩
  cases d with
  | operation operation =>
      cases hadmits with
      | @operation _ _ root hd' hrootType =>
          obtain rfl : _ = operation := by simpa using hd'.symm.trans hd
          refine ⟨u, ?_, hcomposite, ⟨?_, Or.inl (hcoherent.name_of_type? hu)⟩, ?_⟩
          · simp only [TypeContext.enter, TypeContext.enterDefinition, TypeContext.pushOutput,
              TypeContext.namedOutputType?, TypeContext.outputType?, hrootType, Option.map_some,
              List.head?_cons, Option.join_some, Option.bind_some]
            exact hu
          · rwa [hcoherent.name_of_type? hu]
          · rw [typeAt, hd, Option.bind_some, hroot, Option.bind_some]
            rw [rootOf?, Merging.Setting.ofDocument_schema, hrootType, Option.bind_some, hu] at hroot
            exact (congrArg Prod.fst (Option.some.inj hroot)).symm
      | fragment hd' => simp [hd] at hd'
      | inline hset => simp [setAt?] at hset
      | field hset => simp [setAt?] at hset
  | fragment fragment =>
      obtain ⟨t, ht, htcomposite, hcovers⟩ :=
        Schema.covers_of_applies hcoherent (hadmits.of_fragment hd) hu hcomposite
      refine ⟨t, TypeContext.namedOutputType?_of_filter rfl ht htcomposite, htcomposite, hcovers, ?_⟩
      rw [typeAt, hd, Option.bind_some, hroot, Option.bind_some]
      rw [rootOf?, Merging.Setting.ofDocument_schema, ht, Option.filter_some, if_pos htcomposite]
        at hroot
      exact (congrArg Prod.fst (Option.some.inj hroot)).symm
  | _ => simp [rootOf?] at hroot

theorem Seen.inline {f : InlineFragment} (h : Seen schema document place set d c)
    (hset : setAt? (.ofDocument schema document) document place = some set)
    (hf : set.selections[i]? = some (.inline f)) :
    Seen schema document (i :: place) f.selectionSet d
      ((c.enter schema (.selectionSet set)).enter schema (.selection (.inline f))) := by
  obtain ⟨last, hlast, hd⟩ := h.definition
  have hstands := h.stands_selection (List.mem_of_getElem? hf)
  refine ⟨⟨last, ?_, hd⟩, hstands.child trivial (.inner rfl),
    fun object u hadmits hu hcomposite => ?_⟩
  · rw [List.getLast?_cons, hlast]
    rfl
  obtain ⟨hadmits, happlies⟩ := hadmits.of_inline hset hf
  rw [typeAt_cons hset hf, Merging.innerParent, Merging.inlineSetParent]
  cases hcondition : f.typeCondition with
  | none =>
      obtain ⟨t, ht, htcomposite, hcovers, htype⟩ := h.covers object u hadmits hu hcomposite
      have hnamed : schema.namedType? (.ofName t.name) = some t := hcovers.known
      refine ⟨t, TypeContext.namedOutputType?_of_filter ?_ hnamed htcomposite, htcomposite, hcovers,
        by simp [Selected.conditionType, htype, htcomposite]⟩
      have hinside : (c.enter schema (.selectionSet set)).namedOutputType? schema = some t := ht
      simp only [TypeContext.enter, TypeContext.enterSelection, TypeContext.pushOutput,
        hcondition, List.head?_cons, Option.join_some]
      rw [TypeContext.enter] at hinside
      rw [hinside]
      rfl
  | some condition =>
      rw [hcondition] at happlies
      obtain ⟨t, ht, htcomposite, hcovers⟩ :=
        Schema.covers_of_applies hcoherent happlies hu hcomposite
      have hnamed : schema.namedType? (.ofName condition.name.text) = some t := ht
      refine ⟨t, TypeContext.namedOutputType?_of_filter ?_ hnamed htcomposite, htcomposite, hcovers,
        by simp [Selected.conditionType, ht, htcomposite]⟩
      simp only [TypeContext.enter, TypeContext.enterSelection, TypeContext.pushOutput,
        hcondition, List.head?_cons, Option.join_some]
      rfl

omit hcoherent in
/-- Validation knows a field that is selected, as one of a type that covers the objects it is
selected of. -/
theorem Seen.exists_field {f : Field} {object : String} {u : TypeDef}
    (hvalid : document.IsValid schema) (h : Seen schema document place set d c)
    (hf : .field f ∈ set.selections) (hadmits : Admits schema document place object)
    (hu : schema.type? object = some u) (hcomposite : u.isCompositeType) :
    ∃ t field, (c.enter schema (.selectionSet set)).parentType? = some t ∧
      schema.Covers t object ∧ schema.fieldDef? t f.name.text = some field ∧
      ((c.enter schema (.selectionSet set)).enter schema (.selection (.field f))).field? =
        some field := by
  obtain ⟨t, ht, htcomposite, hcovers, -⟩ := h.covers object u hadmits hu hcomposite
  have hparent : (c.enter schema (.selectionSet set)).parentType? = some t :=
    TypeContext.parentType?_enter_selectionSet ht htcomposite
  obtain ⟨field, hfield, hcontext⟩ :=
    exists_field_of_stands hvalid h.mem (h.stands_selection hf) hparent
  exact ⟨t, field, hparent, hcovers, hfield, hcontext⟩

theorem Seen.field {f : Field} {inner : SelectionSet} (hvalid : document.IsValid schema)
    (himplements : schema.Implements) (hreserves : schema.ReservesNames)
    (h : Seen schema document place set d c)
    (hset : setAt? (.ofDocument schema document) document place = some set)
    (hf : set.selections[i]? = some (.field f)) (hinner : f.selectionSet = some inner) :
    Seen schema document (i :: place) inner d
      ((c.enter schema (.selectionSet set)).enter schema (.selection (.field f))) := by
  obtain ⟨last, hlast, hd⟩ := h.definition
  have hmem := List.mem_of_getElem? hf
  have hstands := h.stands_selection hmem
  refine ⟨⟨last, ?_, hd⟩, hstands.child trivial (.inner hinner),
    fun object u hadmits hu hcomposite => ?_⟩
  · rw [List.getLast?_cons, hlast]
    rfl
  obtain ⟨outer, found, hadmits, hfound, hobject⟩ := hadmits.of_field hset hf
  obtain ⟨v, hv, hfound⟩ := Option.bind_eq_some_iff.mp hfound
  have hname := hcoherent.name_of_type? hv
  have hcomposite := Schema.isCompositeType_of_fieldDef? hcoherent (hname.symm ▸ hv) hfound
  obtain ⟨t, field, hparent, hcovers, hfield, hcontext⟩ :=
    h.exists_field hvalid hmem hadmits hv hcomposite
  have hoccupies : schema.Occupies object field.type := by
    rcases hcovers.field hcoherent himplements hreserves hfield hv hfound with rfl | hfaults
    · exact hobject
    · exact hobject.of_isSubtype (Schema.isSubtype_of_implements hfaults)
  obtain ⟨target, htarget, htcomposite, hcovers⟩ := hoccupies.covers hcoherent
  refine ⟨target, TypeContext.namedOutputType?_of_filter ?_ htarget htcomposite, htcomposite,
    hcovers, ?_⟩
  rotate_left
  · obtain ⟨t', ht', htcomposite', -, htype⟩ := h.covers outer v hadmits hv hcomposite
    have hparent' := @TypeContext.parentType?_enter_selectionSet _ _ _ set ht' htcomposite'
    obtain rfl : t' = t := Option.some.inj (hparent'.symm.trans hparent)
    simp [typeAt_cons hset hf, Merging.innerParent, Merging.fieldSetParent, htype, hfield, htarget,
      htcomposite]
  have hdefinition : (c.enter schema (.selectionSet set)).parentType?.bind
      (schema.fieldDef? · f.name.text) = some field := by
    rw [hparent]
    exact hfield
  simp only [TypeContext.enter, TypeContext.enterSelection, List.head?_cons, Option.join_some]
  rw [TypeContext.enter] at hdefinition
  rw [hdefinition]
  rfl

/-- Validation sees every selection set of a valid document, with a type that covers the objects
that the set may select of. -/
theorem exists_seen (hvalid : document.IsValid schema) (himplements : schema.Implements)
    (hreserves : schema.ReservesNames)
    (h : setAt? (.ofDocument schema document) document place = some set) :
    ∃ d c, Seen schema document place set d c := by
  induction place generalizing set with
  | nil => simp [setAt?] at h
  | cons index outer ih =>
      cases outer with
      | nil =>
          obtain ⟨⟨parent, root⟩, hroot, rfl⟩ := Option.map_eq_some_iff.mp h
          obtain ⟨d, hd, hroot⟩ := Option.bind_eq_some_iff.mp hroot
          exact ⟨d, _, seen_root hcoherent hd hroot⟩
      | cons first rest =>
          obtain ⟨around, haround, hset⟩ := Option.bind_eq_some_iff.mp h
          obtain ⟨selection, hselection, hinner⟩ := Option.bind_eq_some_iff.mp hset
          obtain ⟨d, c, hseen⟩ := ih haround
          cases selection with
          | field f =>
              exact ⟨d, _, hseen.field hcoherent hvalid himplements hreserves haround hselection
                hinner⟩
          | inline f =>
              obtain rfl : f.selectionSet = set := Option.some.inj hinner
              exact ⟨d, _, hseen.inline hcoherent haround hselection⟩
          | spread f => cases hinner

end

end GraphQL
