import GraphQL.Coercion.Variables
import GraphQL.Execution.Grouping
import GraphQL.Execution.RuntimeType
import GraphQL.Proofs.Rows
import GraphQL.Schema.Description

/-!
# Schemas that differ in their calls

The functions of the host by which fields are resolved are the only part of a schema that
executes something.  When each of them is replaced by another (`Schema.mapCalls`), nothing
changes in what the schema says: its types and fields, the values that they accept, the fields
that are selected of an object, and the answers of introspection stay the same.
-/

namespace GraphQL

/-- A function of the host that resolves a field. -/
abbrev HostCall := ResolveParams → Json → Reply × Json

variable (h : HostCall → HostCall)

def Resolver.mapCalls : Resolver → Resolver
  | .host call => .host (h call)
  | .introspection field => .introspection field

def FieldDef.mapCalls (d : FieldDef) : FieldDef :=
  { d with resolver := d.resolver.map (·.mapCalls h) }

/-- The fields of a type with their calls replaced. -/
def FieldDef.mapTable (table : List (String × FieldDef)) : List (String × FieldDef) :=
  table.map fun entry => (entry.1, entry.2.mapCalls h)

def TypeBody.mapCalls : TypeBody → TypeBody
  | .object d => .object { d with fields := FieldDef.mapTable h d.fields }
  | .interface d => .interface { d with fields := FieldDef.mapTable h d.fields }
  | body => body

def TypeDef.mapCalls (t : TypeDef) : TypeDef := { t with body := t.body.mapCalls h }

/-- The schema with every call of the host replaced. -/
def Schema.mapCalls (schema : Schema) : Schema where
  directives := schema.directives
  queryType := schema.queryType.mapCalls h
  mutationType := schema.mutationType.map (·.mapCalls h)
  subscriptionType := schema.subscriptionType.map (·.mapCalls h)
  types := schema.types.map fun entry => (entry.1, entry.2.mapCalls h)
  possible := schema.possible.map fun entry => (entry.1, entry.2.map (·.mapCalls h))

theorem FieldDef.mapCalls_id (d : FieldDef) : d.mapCalls id = d := by
  cases d with | mk _ _ _ _ _ resolver =>
  cases resolver with
  | none => rfl
  | some resolver => cases resolver <;> rfl

theorem FieldDef.mapTable_id (table : List (String × FieldDef)) :
    FieldDef.mapTable id table = table := by
  refine List.map_id'' (fun entry => ?_) table
  rw [FieldDef.mapCalls_id]

theorem TypeDef.mapCalls_id (t : TypeDef) : t.mapCalls id = t := by
  cases t with | mk _ _ _ body =>
  cases body <;> simp [mapCalls, TypeBody.mapCalls, FieldDef.mapTable_id]

theorem Schema.mapCalls_id (schema : Schema) : schema.mapCalls id = schema := by
  cases schema
  simp [mapCalls, TypeDef.mapCalls_id]

/-! ## Types and fields -/

namespace TypeDef

variable (t : TypeDef)

@[simp] theorem name_mapCalls : (t.mapCalls h).name = t.name := rfl

@[simp] theorem isObjectType_mapCalls : (t.mapCalls h).isObjectType = t.isObjectType := by
  cases t with | mk _ _ _ body => cases body <;> rfl

@[simp] theorem isAbstractType_mapCalls : (t.mapCalls h).isAbstractType = t.isAbstractType := by
  cases t with | mk _ _ _ body => cases body <;> rfl

@[simp] theorem isCompositeType_mapCalls :
    (t.mapCalls h).isCompositeType = t.isCompositeType := by
  cases t with | mk _ _ _ body => cases body <;> rfl

@[simp] theorem isInputType_mapCalls : (t.mapCalls h).isInputType = t.isInputType := by
  cases t with | mk _ _ _ body => cases body <;> rfl

@[simp] theorem inputObject?_mapCalls : (t.mapCalls h).inputObject? = t.inputObject? := by
  cases t with | mk _ _ _ body => cases body <;> rfl

@[simp] theorem enum?_mapCalls : (t.mapCalls h).enum? = t.enum? := by
  cases t with | mk _ _ _ body => cases body <;> rfl

@[simp] theorem interfaceNames_mapCalls : (t.mapCalls h).interfaceNames = t.interfaceNames := by
  cases t with | mk _ _ _ body => cases body <;> rfl

@[simp] theorem ofLiteral?_mapCalls : (t.mapCalls h).ofLiteral? = t.ofLiteral? := by
  cases t with | mk _ _ _ body => cases body <;> rfl

@[simp] theorem accepts?_mapCalls : (t.mapCalls h).accepts? = t.accepts? := by
  cases t with | mk _ _ _ body => cases body <;> rfl

@[simp] theorem resolveType?_mapCalls : (t.mapCalls h).resolveType? = t.resolveType? := by
  cases t with | mk _ _ _ body => cases body <;> rfl

@[simp] theorem fields?_mapCalls :
    (t.mapCalls h).fields? = t.fields?.map (FieldDef.mapTable h) := by
  cases t with | mk _ _ _ body => cases body <;> rfl

@[simp] theorem field?_mapCalls (name : String) :
    (t.mapCalls h).field? name = (t.field? name).map (·.mapCalls h) := by
  rw [field?, field?, fields?_mapCalls]
  cases t.fields? with
  | none => rfl
  | some table => exact Assoc.get?_map _ table name

@[simp] theorem describeType_mapCalls :
    Schema.describeType (t.mapCalls h) = Schema.describeType t := by
  cases t with | mk _ _ _ body => cases body <;> rfl

end TypeDef

namespace Schema

variable (schema : Schema)

@[simp] theorem type?_mapCalls (name : String) :
    (schema.mapCalls h).type? name = (schema.type? name).map (·.mapCalls h) :=
  Assoc.get?_map _ schema.types name

@[simp] theorem rootType?_mapCalls (kind : OperationKind) :
    (schema.mapCalls h).rootType? kind = (schema.rootType? kind).map (·.mapCalls h) := by
  cases kind <;> rfl

@[simp] theorem possibleTypes_mapCalls (t : TypeDef) :
    (schema.mapCalls h).possibleTypes (t.mapCalls h) =
      (schema.possibleTypes t).map (·.mapCalls h) := by
  have hget : Assoc.get? (schema.mapCalls h).possible t.name =
      (Assoc.get? schema.possible t.name).map (·.map (·.mapCalls h)) :=
    Assoc.get?_map (List.map (TypeDef.mapCalls h)) schema.possible t.name
  simp only [possibleTypes, TypeDef.isAbstractType_mapCalls, TypeDef.name_mapCalls, hget]
  split
  · cases Assoc.get? schema.possible t.name <;> rfl
  · rfl

@[simp] theorem isPossibleType_mapCalls (t : TypeDef) (name : String) :
    (schema.mapCalls h).isPossibleType (t.mapCalls h) name = schema.isPossibleType t name := by
  rw [isPossibleType, isPossibleType, possibleTypes_mapCalls, List.any_map]
  rfl

@[simp] theorem inputObject?_mapCalls (name : String) :
    (schema.mapCalls h).inputObject? name = schema.inputObject? name := by
  rw [inputObject?, inputObject?, type?_mapCalls, Option.bind_map]
  congr 1
  funext t
  exact t.inputObject?_mapCalls h

@[simp] theorem isInputRef_mapCalls (type : TypeRef) :
    (schema.mapCalls h).isInputRef type = schema.isInputRef type := by
  rw [isInputRef, isInputRef, namedType?, namedType?, type?_mapCalls, Option.any_map]
  congr 1
  funext t
  exact t.isInputType_mapCalls h

@[simp] theorem resolve?_mapCalls (expr : TypeExpr) :
    (schema.mapCalls h).resolve? expr = schema.resolve? expr := by
  simp only [resolve?, type?_mapCalls, Option.isSome_map]

theorem fieldDef?_mapCalls (t : TypeDef) (name : String) :
    (schema.mapCalls h).fieldDef? (t.mapCalls h) name =
      (schema.fieldDef? t name).map (·.mapCalls h) := by
  have hquery : (schema.mapCalls h).queryType.name = schema.queryType.name := rfl
  simp only [fieldDef?, TypeDef.name_mapCalls, TypeDef.isCompositeType_mapCalls,
    TypeDef.field?_mapCalls, hquery]
  split
  · rfl
  split
  · rfl
  split <;> rfl

theorem claimants_mapCalls (t : TypeDef) (value : Json) (info : ResolveInfo) :
    (schema.mapCalls h).claimants (t.mapCalls h) value info =
      (schema.claimants t value info).map (·.mapCalls h) := by
  rw [claimants, claimants, possibleTypes_mapCalls, List.filter_map]
  congr 1
  refine List.filter_congr fun object _ => ?_
  simp only [Function.comp, TypeDef.accepts?_mapCalls]

theorem runtimeTypeName?_mapCalls (t : TypeDef) (value : Json) (info : ResolveInfo) :
    (schema.mapCalls h).runtimeTypeName? (t.mapCalls h) value info =
      schema.runtimeTypeName? t value info := by
  simp only [runtimeTypeName?, TypeDef.resolveType?_mapCalls, claimants_mapCalls]
  split
  · rfl
  split
  · rfl
  cases schema.claimants t value info with
  | nil => rfl
  | cons first rest => cases rest <;> rfl

theorem runtimeType_mapCalls (t : TypeDef) (value : Json) (info : ResolveInfo) :
    (schema.mapCalls h).runtimeType (t.mapCalls h) value info =
      (schema.runtimeType t value info).map (·.mapCalls h) := by
  simp only [runtimeType, runtimeTypeName?_mapCalls]
  cases schema.runtimeTypeName? t value info with
  | error fault => rfl
  | ok name? =>
      have hfound : ((name?.bind (schema.mapCalls h).type?).filter (·.isObjectType)) =
          ((name?.bind schema.type?).filter (·.isObjectType)).map (·.mapCalls h) := by
        cases name? with
        | none => rfl
        | some name =>
            simp only [Option.bind_some, type?_mapCalls]
            cases schema.type? name with
            | none => rfl
            | some t => simp [Option.filter, apply_ite]
      simp only [bind, Except.bind, hfound]
      cases (name?.bind schema.type?).filter (·.isObjectType) with
      | none => rfl
      | some object =>
          simp only [Option.map_some, isPossibleType_mapCalls, TypeDef.name_mapCalls]
          split <;> rfl

end Schema

/-! ## Values -/

section

variable (schema : Schema)

@[simp] theorem Literal.readLeaf_mapCalls (literal : Value) (name : String) :
    readLeaf (schema.mapCalls h) literal name = readLeaf schema literal name := by
  rw [readLeaf, readLeaf, Schema.type?_mapCalls, Option.bind_map]
  simp only [Function.comp_def, TypeDef.ofLiteral?_mapCalls]

mutual

theorem Literal.read_mapCalls (bindings : Option Json.Members) (literal : Value) (type : TypeRef) :
    read (schema.mapCalls h) bindings literal type = read schema bindings literal type := by
  cases literal with
  | list items span =>
      cases type with
      | list item nullable => rw [read, read, readItems_mapCalls bindings items item]
      | named name nullable => simp only [read, readLeaf_mapCalls]
  | object fields span =>
      simp only [read, Schema.inputObject?_mapCalls, readLeaf_mapCalls]
      cases schema.inputObject? type.innermostName with
      | none => rfl
      | some d => simp only [readFields_mapCalls bindings fields d.fields]
  | _ => simp only [read, readLeaf_mapCalls]

theorem Literal.readItems_mapCalls (bindings : Option Json.Members) (items : List Value)
    (type : TypeRef) :
    readItems (schema.mapCalls h) bindings items type = readItems schema bindings items type := by
  cases items with
  | nil => rfl
  | cons item rest =>
      rw [readItems, readItems, read_mapCalls bindings item type,
        readItems_mapCalls bindings rest type]

theorem Literal.readFields_mapCalls (bindings : Option Json.Members) (given : List ObjectField)
    (fields : List (String × InputDef)) :
    readFields (schema.mapCalls h) bindings given fields =
      readFields schema bindings given fields := by
  match given with
  | [] => rfl
  | ⟨name, value, span⟩ :: rest =>
      rw [readFields, readFields, readFields_mapCalls bindings rest fields]
      cases Assoc.get? fields name.text with
      | none => rfl
      | some field => simp only [read_mapCalls bindings value field.type]

end

@[simp] theorem Literal.coerce?_mapCalls (bindings : Option Json.Members) (literal : Value)
    (type : TypeRef) :
    coerce? (schema.mapCalls h) bindings literal type = coerce? schema bindings literal type := by
  rw [coerce?, coerce?, read_mapCalls]

theorem Arguments.coerce_mapCalls (bindings : Json.Members) (given : List Argument)
    (definitions : List (String × InputDef)) :
    coerce (schema.mapCalls h) bindings given definitions =
      coerce schema bindings given definitions := by
  have hvalue (d : InputDef) (argument : Option Argument) :
      value? (schema.mapCalls h) bindings d argument = value? schema bindings d argument := by
    simp only [value?, Literal.coerce?_mapCalls]
  induction definitions with
  | nil => rfl
  | cons entry rest ih => simp only [coerce, hvalue, ih]

@[simp] theorem Input.coerceLeaf_mapCalls (path : List PathSegment) (value : Json) (name : String) :
    coerceLeaf (schema.mapCalls h) path value name = coerceLeaf schema path value name := by
  simp only [coerceLeaf, Schema.type?_mapCalls]
  cases schema.type? name with
  | none => rfl
  | some t => cases t with | mk _ _ _ body => cases body <;> rfl

mutual

theorem Input.coerceAt_mapCalls (path : List PathSegment) (value : Json) (type : TypeRef) :
    coerceAt (schema.mapCalls h) path value type = coerceAt schema path value type := by
  cases value with
  | array items =>
      cases type with
      | list item nullable => rw [coerceAt, coerceAt, coerceItems_mapCalls path 0 items item]
      | named name nullable => simp only [coerceAt, coerceLeaf_mapCalls]
  | object members =>
      simp only [coerceAt, Schema.inputObject?_mapCalls, coerceLeaf_mapCalls]
      cases schema.inputObject? type.innermostName with
      | none => rfl
      | some d => simp only [coerceMembers_mapCalls path members d.fields]
  | _ => simp only [coerceAt, coerceLeaf_mapCalls]

theorem Input.coerceItems_mapCalls (path : List PathSegment) (index : Nat) (items : List Json)
    (type : TypeRef) :
    coerceItems (schema.mapCalls h) path index items type =
      coerceItems schema path index items type := by
  cases items with
  | nil => rfl
  | cons item rest =>
      rw [coerceItems, coerceItems, coerceAt_mapCalls _ item type,
        coerceItems_mapCalls path (index + 1) rest type]

theorem Input.coerceMembers_mapCalls (path : List PathSegment) (members : List (String × Json))
    (fields : List (String × InputDef)) :
    coerceMembers (schema.mapCalls h) path members fields =
      coerceMembers schema path members fields := by
  match members with
  | [] => rfl
  | (name, value) :: rest =>
      rw [coerceMembers, coerceMembers, coerceMembers_mapCalls path rest fields]
      cases Assoc.get? fields name with
      | none => rfl
      | some field => simp only [coerceAt_mapCalls _ value field.type]

end

theorem Variables.coerce_mapCalls (definitions : List VariableDefinition) (inputs : Json.Members) :
    coerce (schema.mapCalls h) definitions inputs = coerce schema definitions inputs := by
  have hvalue (d : VariableDefinition) :
      value? (schema.mapCalls h) inputs d = value? schema inputs d := by
    have hinput : (schema.mapCalls h).isInputRef = schema.isInputRef :=
      funext (schema.isInputRef_mapCalls h)
    simp only [value?, Schema.resolve?_mapCalls, hinput, Literal.coerce?_mapCalls, Input.coerce,
      Input.coerceAt_mapCalls]
  simp only [coerce, hvalue]

end

/-! ## Selections -/

namespace Grouping

variable (schema : Schema) (bindings : Json.Members) (object : String)

@[simp] theorem takesPart_mapCalls (directives : List Directive) :
    takesPart (schema.mapCalls h) bindings directives = takesPart schema bindings directives := by
  have hcondition (definition : DirectiveDef) :
      condition? (schema.mapCalls h) bindings definition directives =
        condition? schema bindings definition directives := by
    simp only [condition?, Literal.coerce?_mapCalls]
  rw [takesPart, takesPart, hcondition, hcondition]

@[simp] theorem applies_mapCalls (condition : Option NamedType) :
    applies (schema.mapCalls h) object condition = applies schema object condition := by
  cases condition with
  | none => rfl
  | some condition =>
      simp only [applies, Schema.type?_mapCalls]
      cases schema.type? condition.name.text with
      | none => rfl
      | some t =>
          simp only [Option.map_some, Schema.isPossibleType_mapCalls,
            TypeDef.isAbstractType_mapCalls]
          rfl

mutual

theorem gather_mapCalls (follow : SelectionSet → StateM Gathered Unit) (set : SelectionSet) :
    gather ⟨schema.mapCalls h, bindings, object⟩ follow set =
      gather ⟨schema, bindings, object⟩ follow set := by
  match set with
  | ⟨selections, span⟩ => rw [gather, gather, gatherEach_mapCalls follow selections]

theorem gatherEach_mapCalls (follow : SelectionSet → StateM Gathered Unit)
    (selections : List Selection) :
    gatherEach ⟨schema.mapCalls h, bindings, object⟩ follow selections =
      gatherEach ⟨schema, bindings, object⟩ follow selections := by
  match selections with
  | [] => rfl
  | .field field :: rest =>
      simp only [gatherEach, takesPart_mapCalls, gatherEach_mapCalls follow rest]
  | .inline ⟨condition, directives, set, span⟩ :: rest =>
      simp only [gatherEach, takesPart_mapCalls, applies_mapCalls, gather_mapCalls follow set,
        gatherEach_mapCalls follow rest]
  | .spread spread :: rest =>
      simp only [gatherEach, takesPart_mapCalls, applies_mapCalls, gatherEach_mapCalls follow rest]

end

theorem gatherThrough_mapCalls (depth : Nat) (set : SelectionSet) :
    gatherThrough ⟨schema.mapCalls h, bindings, object⟩ depth set =
      gatherThrough ⟨schema, bindings, object⟩ depth set := by
  induction depth generalizing set with
  | zero => exact gather_mapCalls h schema bindings object _ set
  | succ depth ih =>
      have hfollow : gatherThrough ⟨schema.mapCalls h, bindings, object⟩ depth =
          gatherThrough ⟨schema, bindings, object⟩ depth := funext ih
      rw [gatherThrough, gatherThrough, hfollow, gather_mapCalls]

end Grouping

@[simp] theorem groupFields_mapCalls (schema : Schema) (bindings : Json.Members)
    (fragments : FragmentTable) (object : String) (sets : List SelectionSet) :
    groupFields (schema.mapCalls h) bindings fragments object sets =
      groupFields schema bindings fragments object sets := by
  simp only [groupFields, Grouping.gatherThrough_mapCalls]

/-! ## Introspection -/

section

variable (schema : Schema)

@[simp] theorem Literal.ofLeaf?_mapCalls (value : Json) (name : String) :
    ofLeaf? (schema.mapCalls h) value name = ofLeaf? schema value name := by
  simp only [ofLeaf?, Schema.type?_mapCalls]
  cases schema.type? name with
  | none => rfl
  | some t => cases t with | mk _ _ _ body => cases body <;> rfl

mutual

theorem Literal.ofJson?_mapCalls (value : Json) (type : TypeRef) :
    ofJson? (schema.mapCalls h) value type = ofJson? schema value type := by
  cases value with
  | array items =>
      cases type with
      | list item nullable => rw [ofJson?, ofJson?, ofItems_mapCalls items item]
      | named name nullable => simp only [ofJson?, ofLeaf?_mapCalls]
  | object members =>
      simp only [ofJson?, Schema.inputObject?_mapCalls, ofLeaf?_mapCalls]
      cases schema.inputObject? type.innermostName with
      | none => rfl
      | some d => simp only [ofMembers_mapCalls members d.fields]
  | _ => simp only [ofJson?, ofLeaf?_mapCalls]

theorem Literal.ofItems_mapCalls (items : List Json) (type : TypeRef) :
    ofItems (schema.mapCalls h) items type = ofItems schema items type := by
  cases items with
  | nil => rfl
  | cons item rest =>
      rw [ofItems, ofItems, ofJson?_mapCalls item type, ofItems_mapCalls rest type]

theorem Literal.ofMembers_mapCalls (members : List (String × Json))
    (fields : List (String × InputDef)) :
    ofMembers (schema.mapCalls h) members fields = ofMembers schema members fields := by
  match members with
  | [] => rfl
  | (name, value) :: rest =>
      rw [ofMembers, ofMembers, ofMembers_mapCalls rest fields]
      cases Assoc.get? fields name with
      | none => rfl
      | some field => simp only [Option.bind_some, ofJson?_mapCalls value field.type]

end

namespace Schema

@[simp] theorem describeRef_mapCalls (type : TypeRef) :
    (schema.mapCalls h).describeRef type = schema.describeRef type := by
  induction type with
  | named name nullable =>
      simp only [describeRef, type?_mapCalls, describeOptionalType, Option.map_map]
      congr 3
      funext t
      exact t.describeType_mapCalls h
  | list item nullable ih => rw [describeRef, describeRef, ih]

@[simp] theorem describeInput_mapCalls (d : InputDef) :
    (schema.mapCalls h).describeInput d = schema.describeInput d := by
  simp only [describeInput, describeRef_mapCalls, Literal.ofJson?_mapCalls]

end Schema

@[simp] theorem Schema.describeInputs_mapCalls (table : List (String × InputDef)) :
    (schema.mapCalls h).describeInputs table = schema.describeInputs table := by
  simp only [describeInputs, describeInput_mapCalls]

@[simp] theorem Schema.describeField_mapCalls (d : FieldDef) :
    (schema.mapCalls h).describeField (d.mapCalls h) = schema.describeField d := by
  simp only [describeField, describeInputs_mapCalls, describeRef_mapCalls]
  rfl

theorem Schema.describedType?_mapCalls (description : Json) :
    (schema.mapCalls h).describedType? description =
      (schema.describedType? description).map (·.mapCalls h) := by
  simp only [describedType?, type?_mapCalls, Option.map_bind, bind, Function.comp_def]

theorem MetaResolver.listed_map {α β : Type} (f : α → β) (args : Json.Members)
    (deprecation : α → Option String) (deprecation' : β → Option String)
    (hsame : ∀ part, deprecation' (f part) = deprecation part) (parts : List α) :
    listed args deprecation' (parts.map f) = (listed args deprecation parts).map f := by
  unfold listed
  split
  · rfl
  · simp only [List.filter_map, Function.comp_def, hsame]

/-- The answers of introspection do not depend on the calls. -/
theorem MetaResolver.value_mapCalls (params : ResolveParams) (resolver : MetaResolver) :
    resolver.value (schema.mapCalls h) params = resolver.value schema params := by
  have hdescribe (t? : Option TypeDef) :
      Schema.describeOptionalType (t?.map (·.mapCalls h)) = Schema.describeOptionalType t? := by
    cases t? <;> simp [Schema.describeOptionalType]
  have htypes (ts : List TypeDef) :
      (ts.map (·.mapCalls h)).map Schema.describeType = ts.map Schema.describeType := by
    simp
  cases resolver with
  | schema | typeName => rfl
  | typeByName => simp only [value, Schema.type?_mapCalls, hdescribe]
  | types =>
      simp only [value, Schema.mapCalls, List.map_map, Function.comp_def,
        TypeDef.describeType_mapCalls]
  | queryType => exact TypeDef.describeType_mapCalls h _
  | mutationType | subscriptionType => exact hdescribe _
  | directives =>
      simp only [value, Schema.describeDirective, Schema.describeInputs_mapCalls]
      rfl
  | fields =>
      simp only [value, Schema.describedType?_mapCalls]
      cases schema.describedType? params.source with
      | none => rfl
      | some t =>
          simp only [Option.map_some, Option.bind_some, TypeDef.fields?_mapCalls]
          cases t.fields? with
          | none => rfl
          | some table =>
              have htable : (FieldDef.mapTable h table).map (·.2) =
                  (table.map (·.2)).map (·.mapCalls h) := by simp [FieldDef.mapTable]
              simp only [Option.map_some, htable, optionalArray]
              rw [listed_map (FieldDef.mapCalls h) _ FieldDef.deprecationReason FieldDef.deprecationReason
                fun _ => rfl]
              simp
  | interfaces =>
      simp only [value, Schema.describedType?_mapCalls]
      cases schema.describedType? params.source with
      | none => rfl
      | some t =>
          simp only [Option.map_some, Option.filter_some, TypeDef.isObjectType_mapCalls]
          split
          · simp only [Option.map_some, optionalArray, TypeDef.interfaceNames_mapCalls,
              Schema.type?_mapCalls, ← List.map_filterMap, htypes]
          · rfl
  | possibleTypes =>
      simp only [value, Schema.describedType?_mapCalls]
      cases schema.describedType? params.source with
      | none => rfl
      | some t =>
          simp only [Option.map_some, Option.filter_some, TypeDef.isAbstractType_mapCalls]
          split
          · simp only [Option.map_some, optionalArray, Schema.possibleTypes_mapCalls, htypes]
          · rfl
  | enumValues =>
      simp only [value, Schema.describedType?_mapCalls]
      cases schema.describedType? params.source with
      | none => rfl
      | some t => simp
  | inputFields =>
      have hinput : (schema.mapCalls h).describeInput = schema.describeInput :=
        funext (schema.describeInput_mapCalls h)
      simp only [value, Schema.describedType?_mapCalls, hinput]
      cases schema.describedType? params.source with
      | none => rfl
      | some t => simp only [Option.map_some, Option.bind_some, TypeDef.inputObject?_mapCalls]

end

end GraphQL
