import GraphQL.Document.DirectiveLocation
import GraphQL.Schema.Resolver

/-!
# Definitions of types

What a schema knows about its types: their members, with the functions that a host
supplies for them.  Members are kept in order under their names; one that is given
again keeps its place and takes the later definition.
-/

namespace GraphQL

/-- An argument of a field or a directive, or a field of an input object. -/
structure InputDef where
  name : String
  description : Option String := none
  type : TypeRef
  defaultValue : Option Json := none

/-- A field of an object or an interface.  A field without a resolver has the value
that the object holds under its name. -/
structure FieldDef where
  name : String
  description : Option String := none
  type : TypeRef
  arguments : List (String × InputDef) := []
  deprecationReason : Option String := none
  resolver : Option Resolver := none

/-- A value of an enum.  Within the program it is represented by `value`. -/
structure EnumValueDef where
  name : String
  description : Option String := none
  value : Json
  deprecationReason : Option String := none

/-- A directive that a schema accepts. -/
structure DirectiveDef where
  name : String
  description : Option String := none
  locations : List DirectiveLocation
  arguments : List (String × InputDef) := []

/-- Turns a value into another, or says why it cannot. -/
abbrev Coercion := Json → Except String Json

/-- The functions of a scalar type; one that is left out changes nothing. -/
structure ScalarDef where
  /-- From a value of a resolver to one of a response. -/
  serialize : Option Coercion := none
  /-- From a value of a request to one for a resolver. -/
  parseValue : Option Coercion := none
  /-- From a literal in a document to a value for a resolver. -/
  parseLiteral : Option (Value → Except String Json) := none

structure ObjectDef where
  fields : List (String × FieldDef)
  interfaces : List String := []
  /-- Whether a value belongs to the type. -/
  isTypeOf : Option (Json → ResolveInfo → Bool) := none

/-- Names the object type of a value of an abstract type. -/
abbrev TypeResolver := Json → ResolveInfo → Option String

structure InterfaceDef where
  fields : List (String × FieldDef)
  resolveType : Option TypeResolver := none

structure UnionDef where
  members : List String
  resolveType : Option TypeResolver := none

structure EnumDef where
  values : List (String × EnumValueDef)

structure InputObjectDef where
  fields : List (String × InputDef)

/-- What a type consists of. -/
inductive TypeBody where
  | scalar (d : ScalarDef)
  | object (d : ObjectDef)
  | interface (d : InterfaceDef)
  | union (d : UnionDef)
  | enum (d : EnumDef)
  | inputObject (d : InputObjectDef)

/-- Where a definition comes from.  Two definitions of a name are the same one only
if they have the same origin. -/
inductive Origin where
  /-- One of the types that every schema has. -/
  | builtin
  /-- A definition of the host, told from others by a number. -/
  | host (serial : Nat)
  deriving DecidableEq, Repr

/-- A named type. -/
structure TypeDef where
  name : String
  description : Option String := none
  origin : Origin
  body : TypeBody

/-- The kinds of types, with those of the layers around a named type. -/
inductive TypeKind where
  | scalar | object | interface | union | enum | inputObject | list | nonNull
  deriving DecidableEq, Repr

/-! ## Members by name -/

namespace InputDef

/-- Whether a value has to be given. -/
def isRequired (d : InputDef) : Bool := d.type.isNonNull && d.defaultValue.isNone

/-- The definitions under their names. -/
def table (ds : List InputDef) : List (String × InputDef) :=
  Assoc.ofList (ds.map fun d => (d.name, d))

end InputDef

namespace FieldDef

def isDeprecated (d : FieldDef) : Bool := d.deprecationReason.isSome

/-- The definitions under their names. -/
def table (ds : List FieldDef) : List (String × FieldDef) :=
  Assoc.ofList (ds.map fun d => (d.name, d))

end FieldDef

namespace EnumValueDef

/-- A value that is represented by its name. -/
def named (name : String) (description : Option String) : EnumValueDef where
  name
  description
  value := .string name

/-- The definitions under their names. -/
def table (ds : List EnumValueDef) : List (String × EnumValueDef) :=
  Assoc.ofList (ds.map fun d => (d.name, d))

end EnumValueDef

namespace DirectiveDef

def isAllowedAt (d : DirectiveDef) (location : DirectiveLocation) : Bool :=
  location ∈ d.locations

end DirectiveDef

/-! ## Classes of types -/

namespace TypeKind

/-- The name of the kind in introspection. -/
def text : TypeKind → String
  | scalar => "SCALAR"
  | object => "OBJECT"
  | interface => "INTERFACE"
  | union => "UNION"
  | enum => "ENUM"
  | inputObject => "INPUT_OBJECT"
  | list => "LIST"
  | nonNull => "NON_NULL"

end TypeKind

namespace TypeBody

def kind : TypeBody → TypeKind
  | scalar _ => .scalar
  | object _ => .object
  | interface _ => .interface
  | union _ => .union
  | enum _ => .enum
  | inputObject _ => .inputObject

end TypeBody

namespace TypeDef

def kind (t : TypeDef) : TypeKind := t.body.kind

/-- Whether two values are the very same definition. -/
def isSameDefinition (a b : TypeDef) : Bool :=
  a.name = b.name && a.origin = b.origin && a.kind = b.kind

/-- Scalars, enums and input objects: the types of arguments and variables. -/
def isInputType (t : TypeDef) : Bool :=
  match t.body with
  | .scalar _ | .enum _ | .inputObject _ => true
  | _ => false

/-- All types but input objects: the types of fields. -/
def isOutputType (t : TypeDef) : Bool :=
  match t.body with
  | .inputObject _ => false
  | _ => true

/-- Scalars and enums, which have no fields. -/
def isLeafType (t : TypeDef) : Bool :=
  match t.body with
  | .scalar _ | .enum _ => true
  | _ => false

/-- Objects, interfaces and unions, of which something is selected. -/
def isCompositeType (t : TypeDef) : Bool :=
  match t.body with
  | .object _ | .interface _ | .union _ => true
  | _ => false

/-- Interfaces and unions, whose values belong to object types. -/
def isAbstractType (t : TypeDef) : Bool :=
  match t.body with
  | .interface _ | .union _ => true
  | _ => false

def isObjectType (t : TypeDef) : Bool :=
  match t.body with
  | .object _ => true
  | _ => false

def object? (t : TypeDef) : Option ObjectDef :=
  match t.body with
  | .object d => some d
  | _ => none

def interface? (t : TypeDef) : Option InterfaceDef :=
  match t.body with
  | .interface d => some d
  | _ => none

def enum? (t : TypeDef) : Option EnumDef :=
  match t.body with
  | .enum d => some d
  | _ => none

def inputObject? (t : TypeDef) : Option InputObjectDef :=
  match t.body with
  | .inputObject d => some d
  | _ => none

/-- The fields of an object or an interface. -/
def fields? (t : TypeDef) : Option (List (String × FieldDef)) :=
  match t.body with
  | .object d => some d.fields
  | .interface d => some d.fields
  | _ => none

/-- A field of an object or an interface by its name. -/
def field? (t : TypeDef) (name : String) : Option FieldDef :=
  t.fields?.bind (Assoc.get? · name)

/-- The names of the interfaces that an object type declares. -/
def interfaceNames (t : TypeDef) : List String :=
  match t.body with
  | .object d => d.interfaces
  | _ => []

end TypeDef

end GraphQL
