import Mathlib
import GraphQL.Execution.Field
import GraphQL.Proofs.Schema.Guarantees

/-!
# Descriptions fit the introspection types

A schema describes itself by JSON values, and these are completed by the introspection types like
any other values: a description has what its type asks for, however deep one looks
(`Schema.Describes`).  That holds of the value of every introspection field, whatever it is a
field of and whichever arguments are given (`Schema.SelfDescribing.describes_value`): the types
that a built schema refers to are types of the schema, and its introspection types are the ones
that every schema has (`Schema.selfDescribing_of_build`).
-/

namespace GraphQL

/-! ## The fields of introspection -/

namespace Introspection

/-- All fields of the introspection system, under their names. -/
def fields : List (String × FieldDef) :=
  [(schemaFieldName, schemaField), (typeFieldName, typeField),
    (typenameFieldName, typenameField)] ++ types.flatMap fun t => t.fields?.getD []

/-- The fields of a type that read members of descriptions, with their types. -/
def plainFields (t : TypeDef) : List (String × TypeRef) :=
  ((t.fields?.getD []).filter (·.2.resolver.isNone)).map fun (_, d) => (d.name, d.type)

theorem plainFields_typeType : plainFields typeType =
    [("kind", .required typeKindTypeName), ("name", .ofName Scalar.stringName),
      ("description", .ofName Scalar.stringName), ("ofType", .ofName typeTypeName)] :=
  rfl

end Introspection

namespace MetaResolver

open Introspection

/-- The type of the fields with the resolver. -/
def type : MetaResolver → TypeRef
  | schema => .required schemaTypeName
  | typeByName | mutationType | subscriptionType => .ofName typeTypeName
  | typeName => .required Scalar.stringName
  | types => .requiredList typeTypeName
  | queryType => .required typeTypeName
  | directives => .requiredList directiveTypeName
  | fields => .list (.required fieldTypeName) true
  | interfaces | possibleTypes => .list (.required typeTypeName) true
  | enumValues => .list (.required enumValueTypeName) true
  | inputFields => .list (.required inputValueTypeName) true

/-- Whether a field with a resolver has one of introspection, and its type. -/
def resolves (d : FieldDef) : Bool :=
  match d.resolver with
  | some (.introspection resolver) => d.type = resolver.type
  | some (.host _) => false
  | none => true

end MetaResolver

namespace Introspection

theorem exists_of_resolver {entry : String × FieldDef} {resolver : Resolver} (h : entry ∈ fields)
    (hresolver : entry.2.resolver = some resolver) :
    ∃ field, resolver = .introspection field ∧ entry.2.type = field.type := by
  have hall : ∀ entry ∈ fields, MetaResolver.resolves entry.2 := by decide +kernel
  have hentry := hall entry h
  rw [MetaResolver.resolves, hresolver] at hentry
  cases resolver with
  | introspection field => exact ⟨field, rfl, by simpa using hentry⟩
  | host call => cases hentry

theorem nodup_typeNames : (Schema.builtinTypes.map (·.name)).Nodup := by decide +kernel

/-- No introspection type tells whether a value belongs to it: all do. -/
theorem accepts?_eq_none {t : TypeDef} (ht : t ∈ types) (value : Json) (info : ResolveInfo) :
    t.accepts? value info = none := by
  have hall : ∀ t ∈ types, (t.object?.bind (·.isTypeOf)).isNone := by decide +kernel
  rw [TypeDef.accepts?, Option.isNone_iff_eq_none.mp (hall t ht), Option.map_none]

end Introspection

/-! ## Values that can be completed -/

namespace Schema

open Introspection

/-- The value can be completed by the type, whatever is selected of it. -/
inductive Describes (schema : Schema) : TypeRef → Json → Prop where
  | null {type : TypeRef} (h : type.isNullable) : Describes schema type .null
  | list {item : TypeRef} {nullable : Bool} {values : List Json}
      (h : ∀ value ∈ values, Describes schema item value) :
      Describes schema (.list item nullable) (.array values)
  | leaf {name : String} {nullable : Bool} {t : TypeDef} {value found : Json}
      (ht : schema.type? name = some t) (hleaf : t.isLeafType) (hnull : value ≠ .null)
      (h : Setting.completeLeaf t value = .ok found) : Describes schema (.named name nullable) value
  | object {nullable : Bool} {t : TypeDef} {members : Json.Members} (ht : t ∈ Introspection.types)
      (hobject : t.isObjectType)
      (h : ∀ field ∈ plainFields t,
        Describes schema field.2 ((Assoc.get? members field.1).getD .null)) :
      Describes schema (.named t.name nullable) (.object members)

/-- All that the descriptions of a schema rely on: its introspection types are those of every
schema, its texts and flags are written as they are, and what it refers to is known. -/
structure SelfDescribing (schema : Schema) : Prop where
  type : ∀ t ∈ Introspection.types, schema.type? t.name = some t
  string : schema.type? Scalar.stringName = some Scalar.string
  boolean : schema.type? Scalar.booleanName = some Scalar.boolean
  field : ∀ {name t fields}, schema.type? name = some t → t.fields? = some fields →
    schema.FieldsAreSound fields
  input : ∀ {name t d}, schema.type? name = some t → t.inputObject? = some d →
    ∀ entry ∈ d.fields, schema.isInputRef entry.2.type
  directive : ∀ directive ∈ schema.directives, ∀ argument ∈ directive.2.arguments,
    schema.isInputRef argument.2.type

/-! ### Schemas that are built -/

section

variable {schema : Schema} {draft : Draft}

/-- The definitions of every schema are known by their origin. -/
theorem eq_of_isSameDefinition {all : List TypeDef} {t u : TypeDef} (hidentifies : draft.Identifies)
    (hall : pool draft.allTypes = .ok all) (ht : t ∈ all) (hu : u ∈ builtinTypes)
    (hsame : t.isSameDefinition u) : t = u := by
  rcases reserved_of_pool hall ht with hbuiltin | ⟨hgiven, -⟩
  · exact List.inj_on_of_nodup_map nodup_typeNames hbuiltin hu (name_of_isSameDefinition hsame)
  · exact (hidentifies t hgiven u (List.mem_append_right _ hu) (isSameDefinition_symm hsame)).symm

theorem type?_eq_of_isSameDefinition {name : String} {u : TypeDef} (h : draft.build = .ok schema)
    (hidentifies : draft.Identifies) (hu : u ∈ builtinTypes)
    (hsame : (schema.type? name).any (·.isSameDefinition u)) : schema.type? name = some u := by
  obtain ⟨all, reached, hall, hreached, hbuilt⟩ := exists_reached_of_build h
  obtain ⟨t, ht, hsame⟩ := (Option.any_eq_true _ _).mp hsame
  have hmem := mem_of_mem_reachable hreached (hbuilt.type?_eq_some_iff.mp ht).1
  rw [ht, eq_of_isSameDefinition hidentifies hall (hmem.resolve_left List.not_mem_nil) hu hsame]

/-- Under the name of an introspection type nothing else is reached. -/
theorem eq_of_mem_reached {all reached : List TypeDef} {references : List (String × SchemaSite)}
    {t u : TypeDef} (hidentifies : draft.Identifies) (hall : pool draft.allTypes = .ok all)
    (hreached : reachable all [] references = .ok reached) (hu : u ∈ reached)
    (ht : t ∈ Introspection.types) (hname : u.name = t.name) : u = t := by
  have hmem : u ∈ all := (mem_of_mem_reachable hreached hu).resolve_left List.not_mem_nil
  have ht' : t ∈ builtinTypes := List.mem_append_right _ ht
  have hreserved : isReservedName u.name := by
    have hnames : ∀ t ∈ Introspection.types, isReservedName t.name := by decide +kernel
    rw [hname]
    exact hnames t ht
  -- What the pool has under a reserved name is a builtin type, or has the origin of one.
  rcases reserved_of_pool hall hmem with hbuiltin | ⟨-, hbuiltin⟩
  · exact List.inj_on_of_nodup_map nodup_typeNames hbuiltin ht' hname
  · obtain ⟨builtin, hbuiltin, hsame⟩ := hbuiltin hreserved
    obtain rfl : builtin = t := List.inj_on_of_nodup_map nodup_typeNames hbuiltin ht'
      ((name_of_isSameDefinition hsame).trans hname)
    exact eq_of_isSameDefinition hidentifies hall hmem ht' (isSameDefinition_symm hsame)

/-- The introspection types refer to each other, and the draft refers to the first of them. -/
theorem mem_reached_of_build {reached all : List TypeDef} (hidentifies : draft.Identifies)
    (hall : pool draft.allTypes = .ok all)
    (hreached : reachable all [] (draft.references schema.directives) = .ok reached) :
    ∀ t ∈ Introspection.types, t ∈ reached := by
  have hfirst : schemaType ∈ reached := by
    have hreference : (schemaTypeName, .schema) ∈ draft.references schema.directives := by
      simp [Draft.references]
    obtain ⟨u, hu, hname⟩ := exists_of_reachable hreached hreference
    have heq : u = schemaType :=
      eq_of_mem_reached hidentifies hall hreached hu (by simp [Introspection.types]) hname
    exact heq ▸ hu
  have hnext {t u : TypeDef} (ht : t ∈ reached) (hu : u ∈ Introspection.types)
      (href : u.name ∈ t.references.map (·.1)) : u ∈ reached := by
    obtain ⟨reference, hreference, hname⟩ := List.mem_map.mp href
    obtain ⟨v, hv, hv'⟩ :=
      references_of_reachable hreached ht List.not_mem_nil reference hreference
    exact eq_of_mem_reached hidentifies hall hreached hv hu (hv'.trans hname) ▸ hv
  -- From `__Schema` one comes to the types of its fields, and from these to the others.
  have htype : typeType ∈ reached :=
    hnext hfirst (by simp [Introspection.types]) (by decide +kernel)
  have hdirective : directiveType ∈ reached :=
    hnext hfirst (by simp [Introspection.types]) (by decide +kernel)
  have hfield : fieldType ∈ reached :=
    hnext htype (by simp [Introspection.types]) (by decide +kernel)
  have hinput : inputValueType ∈ reached :=
    hnext htype (by simp [Introspection.types]) (by decide +kernel)
  have henum : enumValueType ∈ reached :=
    hnext htype (by simp [Introspection.types]) (by decide +kernel)
  have hkind : typeKindType ∈ reached :=
    hnext htype (by simp [Introspection.types]) (by decide +kernel)
  have hlocation : directiveLocationType ∈ reached :=
    hnext hdirective (by simp [Introspection.types]) (by decide +kernel)
  simp [Introspection.types, hfirst, htype, hdirective, hfield, hinput, henum, hkind, hlocation]

theorem selfDescribing_of_build (h : draft.build = .ok schema) (hidentifies : draft.Identifies)
    (hstring : schema.type? Scalar.stringName = some Scalar.string)
    (hboolean : schema.type? Scalar.booleanName = some Scalar.boolean) :
    schema.SelfDescribing := by
  obtain ⟨all, reached, hall, hreached, hbuilt⟩ := exists_reached_of_build h
  have hbody {name : String} {t : TypeDef} (ht : schema.type? name = some t) :
      schema.BodyIsSound t.body := hbuilt.bodyIsSound (hbuilt.type?_eq_some_iff.mp ht).1
  refine ⟨fun t ht => hbuilt.type?_eq_some_iff.mpr ⟨?_, rfl⟩, hstring, hboolean,
    fun {name t fields} ht hfields => ?_, fun ht hd => ?_,
    fun directive hdirective argument hargument => ?_⟩
  · exact mem_reached_of_build hidentifies hall hreached t ht
  · have hbody := hbody ht
    unfold TypeDef.fields? at hfields
    split at hfields
    · rename_i object hobject
      rw [hobject] at hbody
      exact Option.some.inj hfields ▸ hbody.1
    · rename_i interface hinterface
      rw [hinterface] at hbody
      exact Option.some.inj hfields ▸ hbody
    · cases hfields
  · have hbody := hbody ht
    unfold TypeDef.inputObject? at hd
    split at hd
    · rename_i object hobject
      rw [hobject] at hbody
      exact Option.some.inj hd ▸ hbody.2
    · cases hd
  · have hfaults := (List.append_eq_nil_iff.mp hbuilt.faults).2
    have hdirective := List.flatMap_eq_nil_iff.mp hfaults directive hdirective
    exact isInputRef_of_inputFaults (List.flatMap_eq_nil_iff.mp hdirective argument hargument)

end

/-! ### Descriptions -/

section

variable {schema : Schema}

namespace SelfDescribing

variable (hschema : schema.SelfDescribing) {nullable : Bool}
include hschema

theorem describes_string (text : String) :
    schema.Describes (.named Scalar.stringName nullable) (.string text) :=
  .leaf hschema.string rfl (by simp) (show Setting.completeLeaf Scalar.string (.string text) =
    .ok (.string text) from rfl)

theorem describes_textOrNull (text : Option String) :
    schema.Describes (.ofName Scalar.stringName) (textOrNull text) := by
  cases text with
  | none => exact .null rfl
  | some text => exact hschema.describes_string text

theorem describes_bool (b : Bool) :
    schema.Describes (.named Scalar.booleanName nullable) (.bool b) :=
  .leaf hschema.boolean rfl (by simp) (show Setting.completeLeaf Scalar.boolean (.bool b) =
    .ok (.bool b) from rfl)

theorem describes_kind (kind : TypeKind) :
    schema.Describes (.named typeKindTypeName nullable) (.string kind.text) := by
  have hvalue : Setting.completeLeaf typeKindType (.string kind.text) =
      .ok (.string kind.text) := by
    cases kind <;> rfl
  exact .leaf (hschema.type typeKindType (by simp [Introspection.types])) rfl (by simp) hvalue

theorem describes_location (location : DirectiveLocation) :
    schema.Describes (.named directiveLocationTypeName nullable) (.string location.text) := by
  have hvalue : Setting.completeLeaf directiveLocationType (.string location.text) =
      .ok (.string location.text) := by
    cases location <;> rfl
  exact .leaf (hschema.type directiveLocationType (by simp [Introspection.types])) rfl (by simp)
    hvalue

omit hschema in
theorem describes_array {α : Type} {item : TypeRef} {describe : α → Json} {parts : List α}
    (h : ∀ part ∈ parts, schema.Describes item (describe part)) :
    schema.Describes (.list item nullable) (.array (parts.map describe)) :=
  .list (List.forall_mem_map.mpr h)

/-- A named type is described by its kind and its name, with no type in it. -/
theorem describes_type (t : TypeDef) :
    schema.Describes (.named typeTypeName nullable) (describeType t) := by
  refine .object (t := typeType) (by simp [Introspection.types]) rfl ?_
  rw [plainFields_typeType]
  simp only [List.forall_mem_cons]
  exact ⟨hschema.describes_kind t.kind, hschema.describes_string t.name,
    hschema.describes_textOrNull t.description, .null rfl, by simp⟩

theorem describes_optionalType (t : Option TypeDef) :
    schema.Describes (.ofName typeTypeName) (describeOptionalType t) := by
  cases t with
  | none => exact .null rfl
  | some t => exact hschema.describes_type t

/-- A type around another is described by its kind and that other one, without a name. -/
theorem describes_wrapper {inner : Json} (kind : TypeKind)
    (h : schema.Describes (.ofName typeTypeName) inner) :
    schema.Describes (.named typeTypeName nullable) (wrapper kind inner) := by
  refine .object (t := typeType) (by simp [Introspection.types]) rfl ?_
  rw [plainFields_typeType]
  simp only [List.forall_mem_cons]
  exact ⟨hschema.describes_kind kind, .null rfl, .null rfl, h, by simp⟩

/-- A reference to a type that is known is described layer by layer. -/
theorem describes_ref {type : TypeRef} (h : (schema.namedType? type).isSome) :
    schema.Describes (.named typeTypeName nullable) (schema.describeRef type) := by
  have hmark {inner : Json} (wrapped : Bool) (nullable : Bool)
      (h : ∀ nullable, schema.Describes (.named typeTypeName nullable) inner) :
      schema.Describes (.named typeTypeName nullable) (mark wrapped inner) := by
    cases wrapped with
    | true => exact h nullable
    | false => exact hschema.describes_wrapper .nonNull (h true)
  -- Layer by layer; what may not be null has one layer more, and fits with or without it.
  induction type generalizing nullable with
  | named name wrapped =>
      obtain ⟨t, ht⟩ := Option.isSome_iff_exists.mp h
      have ht : schema.type? name = some t := ht
      rw [describeRef, ht]
      exact hmark wrapped nullable fun nullable => hschema.describes_type t
  | list item wrapped ih =>
      rw [describeRef]
      exact hmark wrapped nullable fun nullable => hschema.describes_wrapper .list (ih h)

theorem describes_input {d : InputDef} (h : schema.isInputRef d.type) :
    schema.Describes (.required inputValueTypeName) (schema.describeInput d) := by
  refine .object (t := inputValueType) (by simp [Introspection.types]) rfl ?_
  have hfields : plainFields inputValueType =
      [("name", .required Scalar.stringName), ("description", .ofName Scalar.stringName),
        ("type", .required typeTypeName), ("defaultValue", .ofName Scalar.stringName)] := rfl
  rw [hfields]
  simp only [List.forall_mem_cons]
  exact ⟨hschema.describes_string d.name, hschema.describes_textOrNull d.description,
    hschema.describes_ref (Option.isSome_of_any h), hschema.describes_textOrNull _,
    by simp⟩

theorem describes_inputs {table : List (String × InputDef)}
    (h : ∀ argument ∈ table, schema.isInputRef argument.2.type) :
    schema.Describes (.requiredList inputValueTypeName) (schema.describeInputs table) :=
  describes_array fun argument hargument => hschema.describes_input (h argument hargument)

theorem describes_field {d : FieldDef} (htype : schema.isOutputRef d.type)
    (harguments : ∀ argument ∈ d.arguments, schema.isInputRef argument.2.type) :
    schema.Describes (.required fieldTypeName) (schema.describeField d) := by
  refine .object (t := fieldType) (by simp [Introspection.types]) rfl ?_
  have hfields : plainFields fieldType =
      [("name", .required Scalar.stringName), ("description", .ofName Scalar.stringName),
        ("args", .requiredList inputValueTypeName), ("type", .required typeTypeName),
        ("isDeprecated", .required Scalar.booleanName),
        ("deprecationReason", .ofName Scalar.stringName)] := rfl
  rw [hfields]
  simp only [List.forall_mem_cons]
  exact ⟨hschema.describes_string d.name, hschema.describes_textOrNull d.description,
    hschema.describes_inputs harguments,
    hschema.describes_ref (Option.isSome_of_any htype),
    hschema.describes_bool d.isDeprecated, hschema.describes_textOrNull d.deprecationReason,
    by simp⟩

theorem describes_enumValue (d : EnumValueDef) :
    schema.Describes (.required enumValueTypeName) (describeEnumValue d) := by
  refine .object (t := enumValueType) (by simp [Introspection.types]) rfl ?_
  have hfields : plainFields enumValueType =
      [("name", .required Scalar.stringName), ("description", .ofName Scalar.stringName),
        ("isDeprecated", .required Scalar.booleanName),
        ("deprecationReason", .ofName Scalar.stringName)] := rfl
  rw [hfields]
  simp only [List.forall_mem_cons]
  exact ⟨hschema.describes_string d.name, hschema.describes_textOrNull d.description,
    hschema.describes_bool _, hschema.describes_textOrNull d.deprecationReason, by simp⟩

theorem describes_directive {d : DirectiveDef}
    (h : ∀ argument ∈ d.arguments, schema.isInputRef argument.2.type) :
    schema.Describes (.required directiveTypeName) (schema.describeDirective d) := by
  refine .object (t := directiveType) (by simp [Introspection.types]) rfl ?_
  have hfields : plainFields directiveType =
      [("name", .required Scalar.stringName), ("description", .ofName Scalar.stringName),
        ("locations", .requiredList directiveLocationTypeName),
        ("args", .requiredList inputValueTypeName)] := rfl
  rw [hfields]
  simp only [List.forall_mem_cons]
  exact ⟨hschema.describes_string d.name, hschema.describes_textOrNull d.description,
    describes_array fun location _ => hschema.describes_location location,
    hschema.describes_inputs h, by simp⟩

/-! ### Values of introspection fields -/

omit hschema in
theorem exists_of_describedType? {description : Json} {t : TypeDef}
    (h : schema.describedType? description = some t) : ∃ name, schema.type? name = some t := by
  obtain ⟨value, -, h⟩ := Option.bind_eq_some_iff.mp h
  obtain ⟨name, -, h⟩ := Option.bind_eq_some_iff.mp h
  exact ⟨name, h⟩

omit hschema in
theorem describes_optionalArray {α : Type} {name : String} {describe : α → Json}
    {parts? : Option (List α)}
    (h : ∀ parts, parts? = some parts → ∀ part ∈ parts,
      schema.Describes (.required name) (describe part)) :
    schema.Describes (.list (.required name) true)
      (MetaResolver.optionalArray describe parts?) := by
  cases parts? with
  | none => exact .null rfl
  | some parts => exact describes_array (h parts rfl)

omit hschema in
theorem mem_of_mem_listed {α : Type} {args : Json.Members} {deprecation : α → Option String}
    {parts : List α} {part : α} (h : part ∈ MetaResolver.listed args deprecation parts) :
    part ∈ parts := by
  unfold MetaResolver.listed at h
  split at h
  · exact h
  · exact List.mem_of_mem_filter h

/-- The value of an introspection field fits its type, whatever it is a field of and whichever
arguments it has. -/
theorem describes_value (resolver : MetaResolver) (params : ResolveParams) :
    schema.Describes resolver.type (resolver.value schema params) := by
  cases resolver with
  | schema =>
      -- The schema has no members to read: all that is asked of it is computed.
      have hfields : plainFields schemaType = [] := rfl
      exact .object (t := schemaType) (by simp [Introspection.types]) rfl (by simp [hfields])
  | typeByName => exact hschema.describes_optionalType _
  | typeName => exact hschema.describes_string _
  | types => exact describes_array fun entry _ => hschema.describes_type entry.2
  | queryType => exact hschema.describes_type schema.queryType
  | mutationType => exact hschema.describes_optionalType schema.mutationType
  | subscriptionType => exact hschema.describes_optionalType schema.subscriptionType
  | directives =>
      exact describes_array fun entry hentry =>
        hschema.describes_directive (hschema.directive entry hentry)
  | fields =>
      refine describes_optionalArray fun parts hparts d hd => ?_
      obtain ⟨table, htable, rfl⟩ := Option.map_eq_some_iff.mp hparts
      obtain ⟨t, ht, hfields⟩ := Option.bind_eq_some_iff.mp htable
      obtain ⟨name, ht⟩ := exists_of_describedType? ht
      obtain ⟨field, hfield, rfl⟩ := List.mem_map.mp (mem_of_mem_listed hd)
      have hsound := hschema.field ht hfields
      exact hschema.describes_field (hsound.output field hfield) (hsound.input field hfield)
  | interfaces =>
      exact describes_optionalArray fun _ _ t _ => hschema.describes_type t
  | possibleTypes =>
      exact describes_optionalArray fun _ _ t _ => hschema.describes_type t
  | enumValues =>
      exact describes_optionalArray fun _ _ d _ => hschema.describes_enumValue d
  | inputFields =>
      refine describes_optionalArray fun parts hparts d hd => ?_
      obtain ⟨object, hobject, rfl⟩ := Option.map_eq_some_iff.mp hparts
      obtain ⟨t, ht, hinput⟩ := Option.bind_eq_some_iff.mp hobject
      obtain ⟨name, ht⟩ := exists_of_describedType? ht
      obtain ⟨entry, hentry, rfl⟩ := List.mem_map.mp hd
      exact hschema.describes_input (hschema.input ht hinput entry hentry)

end SelfDescribing

end

end Schema

end GraphQL
