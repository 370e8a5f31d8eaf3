import GraphQL.Schema.Fault
import GraphQL.Schema.Subtype

/-!
# From definitions to a schema

A draft holds what a host defines.  Its schema has the types that can be reached from
the roots, from all types of the draft, and from the arguments of the directives; the
types of every schema need not be in the draft.  `Schema.Draft.build` refuses a draft
at the first thing that is wrong with it.
-/

namespace GraphQL

/-- The definitions a schema is made of. -/
structure Schema.Draft where
  query : TypeDef
  mutation : Option TypeDef := none
  subscription : Option TypeDef := none
  types : List TypeDef := []
  directives : List DirectiveDef := []

/-! ## References -/

namespace TypeDef

/-- The types that a type refers to, with the places where it does: those of its
declaration first, then those of each field, with its arguments after it. -/
def references (t : TypeDef) : List (String × SchemaSite) :=
  match t.body with
  | .object d => d.interfaces.map (·, .type t.name) ++ ofFields d.fields
  | .interface d => ofFields d.fields
  | .union d => d.members.map (·, .type t.name)
  | .inputObject d =>
    d.fields.map fun (_, field) => (field.type.innermostName, .field t.name field.name)
  | .scalar _ | .enum _ => []
where
  ofFields (fields : List (String × FieldDef)) : List (String × SchemaSite) :=
    fields.flatMap fun (_, field) =>
      (field.type.innermostName, .field t.name field.name) ::
        field.arguments.map fun (_, argument) =>
          (argument.type.innermostName, .argument t.name field.name argument.name)

end TypeDef

namespace Schema

/-! ## The types within reach -/

/-- Whether names of this form are kept for introspection. -/
def isReservedName (name : String) : Bool := ['_', '_'].isPrefixOf name.toList

/-- The types of every schema. -/
def builtinTypes : List TypeDef := Scalar.all ++ Introspection.types

/-- Adds a type to the definitions to draw from. -/
def addToPool (pool : List TypeDef) (t : TypeDef) : Except SchemaFault (List TypeDef) :=
  if isReservedName t.name && !builtinTypes.any (·.isSameDefinition t) then
    .error (.reservedName t.name)
  else
    match pool.find? (·.name = t.name) with
    | some other =>
      if other.isSameDefinition t then .ok pool else .error (.duplicateType t.name)
    | none => .ok (pool ++ [t])

/-- The definitions to draw from: those given, and those of every schema that are not
replaced. -/
def pool (given : List TypeDef) : Except SchemaFault (List TypeDef) := do
  let pool ← given.foldlM addToPool []
  return pool ++ builtinTypes.filter fun t => !pool.any (·.name = t.name)

/-- The definitions under other names. -/
def without (pool : List TypeDef) (name : String) : List TypeDef := pool.filter (·.name ≠ name)

/-- The number of definitions and of their references. -/
def weight (pool : List TypeDef) : Nat :=
  pool.foldr (fun t total => t.references.length + 1 + total) 0

theorem weight_cons (t : TypeDef) (pool : List TypeDef) :
    weight (t :: pool) = t.references.length + 1 + weight pool := rfl

theorem without_cons (t : TypeDef) (pool : List TypeDef) (name : String) :
    without (t :: pool) name =
      if t.name = name then without pool name else t :: without pool name := by
  by_cases h : t.name = name <;> simp [without, h]

theorem weight_without_le (pool : List TypeDef) (name : String) :
    weight (without pool name) ≤ weight pool := by
  induction pool with
  | nil => exact Nat.le_refl _
  | cons t rest ih =>
    rw [without_cons]
    split
    · rw [weight_cons]
      omega
    · rw [weight_cons, weight_cons]
      omega

theorem weight_without_lt {pool : List TypeDef} {name : String} {t : TypeDef}
    (h : pool.find? (·.name = name) = some t) :
    weight (without pool name) + t.references.length < weight pool := by
  induction pool with
  | nil => simp at h
  | cons first rest ih =>
    rw [without_cons, weight_cons]
    by_cases hname : first.name = name
    · obtain rfl : first = t := by simpa [hname] using h
      rw [if_pos hname]
      have := weight_without_le rest name
      omega
    · have := ih (by simpa [hname] using h)
      rw [if_neg hname, weight_cons]
      omega

/-- The types that can be reached from the given references, in the order in which a
walk from each of them in turn comes to them first.  A type that has been reached is
taken out of the pool, so the walk ends. -/
def reachable (pool done : List TypeDef) :
    List (String × SchemaSite) → Except SchemaFault (List TypeDef)
  | [] => .ok done
  | (name, site) :: rest =>
    if done.any (·.name = name) then reachable pool done rest
    else
      match _h : pool.find? (·.name = name) with
      | none => .error (.danglingReference name site)
      | some t => reachable (without pool name) (done ++ [t]) (t.references ++ rest)
termination_by references => weight pool + references.length
decreasing_by
  · simp
  · have := weight_without_lt _h
    simp only [List.length_append, List.length_cons]
    omega

/-- Adds the object types that an abstract type has because of the type `t`. -/
def addPossible (types : List (String × TypeDef)) (possible : List (String × List TypeDef))
    (t : TypeDef) : List (String × List TypeDef) :=
  match t.body with
  | .union d =>
    Assoc.insert possible t.name
      (d.members.filterMap fun name => (Assoc.get? types name).filter (·.isObjectType))
  | .interface _ => Assoc.insert possible t.name ((Assoc.get? possible t.name).getD [])
  | .object d =>
    d.interfaces.foldl
      (fun possible name =>
        Assoc.insert possible name ((Assoc.get? possible name).getD [] ++ [t]))
      possible
  | _ => possible

/-! ## Checks -/

variable (schema : Schema)

/-- The fault at a place that needs an input type. -/
def inputFaults (site : SchemaSite) (type : TypeRef) : List SchemaFault :=
  if schema.isInputRef type then [] else [.inputTypeExpected site type]

/-- The faults of the fields of an object or an interface. -/
def fieldFaults (typeName : String) (fields : List (String × FieldDef)) : List SchemaFault :=
  if fields.isEmpty then [.noMembers typeName .fields]
  else
    fields.flatMap fun (_, field) =>
      (if schema.isOutputRef field.type then []
        else [.outputTypeExpected (.field typeName field.name) field.type]) ++
      field.arguments.flatMap fun (_, argument) =>
        schema.inputFaults (.argument typeName field.name argument.name) argument.type

/-- The faults of a field of an object against the one of an interface. -/
def fieldImplementationFaults (expected provided : FieldDef) : List ImplementationFault :=
  let field := expected.name
  (if schema.isSubtype provided.type expected.type then []
    else [.fieldType field expected.type provided.type]) ++
  (expected.arguments.flatMap fun (name, argument) =>
    match Assoc.get? provided.arguments name with
    | none => [.missingArgument field name]
    | some given =>
      if argument.type = given.type then []
      else [.argumentType field name argument.type given.type]) ++
  provided.arguments.flatMap fun (name, argument) =>
    if !Assoc.contains expected.arguments name && argument.type.isNonNull then
      [.requiredArgument field name argument.type]
    else []

/-- The faults of an object against an interface that it declares. -/
def implementationFaults (object : ObjectDef) (interface : String) : List ImplementationFault :=
  match (schema.type? interface).bind (·.interface?) with
  | none => [.notAnInterface]
  | some d =>
    (if 1 < object.interfaces.count interface then [.declaredAgain] else []) ++
    d.fields.flatMap fun (name, expected) =>
      match Assoc.get? object.fields name with
      | none => [.missingField name]
      | some provided => schema.fieldImplementationFaults expected provided

/-- The faults of a type within the schema. -/
def typeFaults (t : TypeDef) : List SchemaFault :=
  match t.body with
  | .object d =>
    schema.fieldFaults t.name d.fields ++
    d.interfaces.flatMap fun interface =>
      (schema.implementationFaults d interface).map (.badImplementation t.name interface)
  | .interface d => schema.fieldFaults t.name d.fields
  | .union d =>
    if d.members.isEmpty then [.noMembers t.name .memberTypes]
    else
      d.members.flatMap fun member =>
        if (schema.type? member).any (·.isObjectType) then []
        else [.badUnionMember t.name member]
  | .inputObject d =>
    if d.fields.isEmpty then [.noMembers t.name .fields]
    else
      d.fields.flatMap fun (_, field) =>
        schema.inputFaults (.field t.name field.name) field.type
  | .enum d => if d.values.isEmpty then [.noMembers t.name .values] else []
  | .scalar _ => []

/-- All faults of a schema: of its types in turn, then of its directives. -/
def faults : List SchemaFault :=
  (schema.types.flatMap fun (_, t) => schema.typeFaults t) ++
  schema.directives.flatMap fun (_, directive) =>
    directive.arguments.flatMap fun (_, argument) =>
      schema.inputFaults (.directiveArgument directive.name argument.name) argument.type

/-! ## Building -/

/-- Refuses a root that is no object type. -/
def checkRoot (operation : OperationKind) (root : TypeDef) : Except SchemaFault Unit :=
  if root.isObjectType then .ok () else .error (.badRoot operation root.name)

/-- Adds a directive under a name that is not taken. -/
def addDirective (directives : List (String × DirectiveDef)) (directive : DirectiveDef) :
    Except SchemaFault (List (String × DirectiveDef)) :=
  if Assoc.contains directives directive.name then .error (.duplicateDirective directive.name)
  else .ok (directives ++ [(directive.name, directive)])

namespace Draft

/-- All types of the draft, the roots first. -/
def allTypes (draft : Draft) : List TypeDef :=
  draft.query :: draft.mutation.toList ++ draft.subscription.toList ++ draft.types

/-- The references from which the types of the schema are reached. -/
def references (draft : Draft) (directives : List (String × DirectiveDef)) :
    List (String × SchemaSite) :=
  (draft.allTypes.map fun t => (t.name, .schema)) ++
  (Introspection.schemaTypeName, .schema) ::
  directives.flatMap fun (_, directive) =>
    directive.arguments.map fun (_, argument) =>
      (argument.type.innermostName, .directiveArgument directive.name argument.name)

/-- The schema of the draft, or the first thing that is wrong with it. -/
def build (draft : Draft) : Except SchemaFault Schema := do
  checkRoot .query draft.query
  draft.mutation.forM (checkRoot .mutation)
  draft.subscription.forM (checkRoot .subscription)
  let directives ← (DirectiveDef.builtins ++ draft.directives).foldlM addDirective []
  let pool ← pool draft.allTypes
  let reached ← reachable pool [] (draft.references directives)
  let types := reached.map fun t => (t.name, t)
  let schema : Schema :=
    { directives
      queryType := draft.query
      mutationType := draft.mutation
      subscriptionType := draft.subscription
      types
      possible := reached.foldl (addPossible types) [] }
  match schema.faults with
  | [] => return schema
  | fault :: _ => throw fault

end Draft

end Schema

end GraphQL
