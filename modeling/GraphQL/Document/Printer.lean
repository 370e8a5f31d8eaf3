import GraphQL.Document.Node
import GraphQL.Text.Characters

/-!
# The text of a document

Every node has one text, which reads back as the same node.  Selection sets and the
bodies of types are indented by two blanks, one item a line; all else is on one
line.  Every string is written in single quotes, whatever it was read from.
-/

namespace GraphQL

namespace Printer

/-! ## Layout -/

/-- The texts with `separator` between them. -/
def joinWith (separator : String) (texts : List (List Char)) : List Char :=
  separator.toList.intercalate texts

/-- The texts that are not empty, with a blank between them. -/
def words (texts : List (List Char)) : List Char :=
  joinWith " " (texts.filter (!·.isEmpty))

/-- A text with two blanks at the start of every line but the first. -/
def indent (text : List Char) : List Char :=
  text.flatMap fun c => if c = '\n' then ['\n', ' ', ' '] else [c]

/-- The items in braces, each on a line of its own; nothing if there are none. -/
def block (items : List (List Char)) : List Char :=
  if items.isEmpty then []
  else "\x7b\n  ".toList ++ indent (joinWith "\n" items) ++ "\n\x7d".toList

/-- The items between parentheses; nothing if there are none. -/
def parenthesized (items : List (List Char)) : List Char :=
  if items.isEmpty then [] else '(' :: joinWith ", " items ++ [')']

/-! ## Strings -/

/-- A character within quotes. -/
def escapeChar (c : Char) : List Char :=
  match c with
  | '"' => ['\\', '"']
  | '\\' => ['\\', '\\']
  | '\n' => ['\\', 'n']
  | '\r' => ['\\', 'r']
  | '\t' => ['\\', 't']
  | '\x08' => ['\\', 'b']
  | '\x0c' => ['\\', 'f']
  | c =>
    if c.toNat < 0x20 ∨ c.toNat = 0x7f then '\\' :: 'u' :: (hexDigits4 c.toNat).map Char.toUpper
    else [c]

/-- A string in single quotes. -/
def string (value : String) : List Char := '"' :: value.toList.flatMap escapeChar ++ ['"']

/-- A definition with the description above it, if it has one. -/
def described (description : Option String) (body : List Char) : List Char :=
  match description with
  | some text => string text ++ '\n' :: body
  | none => body

/-! ## Types and values -/

def name (n : Name) : List Char := n.text.toList

def namedType (t : NamedType) : List Char := name t.name

def typeExpr : TypeExpr → List Char
  | .named t => namedType t
  | .list t _ => '[' :: typeExpr t ++ [']']
  | .nonNull t _ => typeExpr t ++ ['!']

def variableUse (v : Variable) : List Char := '$' :: name v.name

mutual

def value : Value → List Char
  | .var v => variableUse v
  | .int text _ | .float text _ => text.toList
  | .string s _ _ => string s
  | .boolean true _ => "true".toList
  | .boolean false _ => "false".toList
  | .null _ => "null".toList
  | .enum name _ => name.toList
  | .list items _ => '[' :: joinWith ", " (values items) ++ [']']
  | .object fields _ => '{' :: joinWith ", " (objectFields fields) ++ ['}']

def values : List Value → List (List Char)
  | [] => []
  | item :: rest => value item :: values rest

def objectFields : List ObjectField → List (List Char)
  | [] => []
  | ⟨n, v, _⟩ :: rest => (name n ++ ": ".toList ++ value v) :: objectFields rest

end

def argument (a : Argument) : List Char := name a.name ++ ": ".toList ++ value a.value

def arguments (as : List Argument) : List Char := parenthesized (as.map argument)

def directive (d : Directive) : List Char := '@' :: name d.name ++ arguments d.arguments

def directives (ds : List Directive) : List Char := joinWith " " (ds.map directive)

/-! ## Selections -/

/-- The alias of a field, with a colon. -/
def aliasPart : Option Name → List Char
  | some a => name a ++ ": ".toList
  | none => []

def fragmentSpread (s : FragmentSpread) : List Char :=
  words ["...".toList ++ name s.name, directives s.directives]

/-- The type condition of an inline fragment. -/
def conditionPart : Option NamedType → List Char
  | some t => "on ".toList ++ namedType t
  | none => []

mutual

def selectionSet : SelectionSet → List Char
  | ⟨items, _⟩ => block (selections items)

def selections : List Selection → List (List Char)
  | [] => []
  | item :: rest => selection item :: selections rest

def selection : Selection → List Char
  | .field f => field f
  | .spread s => fragmentSpread s
  | .inline f => inlineFragment f

def field : Field → List Char
  | ⟨responseName, n, args, dirs, below, _⟩ =>
    words [aliasPart responseName ++ name n ++ arguments args, directives dirs, optionalSet below]

def optionalSet : Option SelectionSet → List Char
  | some set => selectionSet set
  | none => []

def inlineFragment : InlineFragment → List Char
  | ⟨condition, dirs, below, _⟩ =>
    words ["...".toList, conditionPart condition, directives dirs, selectionSet below]

end

/-! ## Executable definitions -/

/-- A default value with the mark in front of it. -/
def defaultPart : Option Value → List Char
  | some v => " = ".toList ++ value v
  | none => []

def variableDefinition (d : VariableDefinition) : List Char :=
  variableUse d.var ++ ": ".toList ++ typeExpr d.type ++ defaultPart d.defaultValue

/-- Whether an operation is written as its selection set alone. -/
def isShorthand (d : OperationDefinition) : Bool :=
  d.operation = .query && d.name.isNone && d.variableDefinitions.isEmpty && d.directives.isEmpty

def operationDefinition (d : OperationDefinition) : List Char :=
  if isShorthand d then selectionSet d.selectionSet
  else
    words [d.operation.keyword.toList,
      (d.name.map name).getD [] ++ parenthesized (d.variableDefinitions.map variableDefinition),
      directives d.directives, selectionSet d.selectionSet]

def fragmentDefinition (d : FragmentDefinition) : List Char :=
  words ["fragment ".toList ++ name d.name ++ " on ".toList ++ namedType d.typeCondition,
    directives d.directives, selectionSet d.selectionSet]

/-! ## Definitions of a type system -/

def operationTypeDefinition (d : OperationTypeDefinition) : List Char :=
  d.operation.keyword.toList ++ ": ".toList ++ namedType d.type

def schemaDefinition (d : SchemaDefinition) : List Char :=
  words ["schema".toList, directives d.directives,
    block (d.operationTypes.map operationTypeDefinition)]

/-- A keyword and a name. -/
def headed (keyword : String) (n : Name) : List Char := keyword.toList ++ ' ' :: name n

def scalarTypeDefinition (d : ScalarTypeDefinition) : List Char :=
  described d.description (words [headed "scalar" d.name, directives d.directives])

/-- An input value; its description stands in front of it on the same line. -/
def inputValueDefinition (d : InputValueDefinition) : List Char :=
  let line := words [name d.name ++ ": ".toList ++ typeExpr d.type ++ defaultPart d.defaultValue,
    directives d.directives]
  match d.description with
  | some text => string text ++ ' ' :: line
  | none => line

def argumentsDefinition (as : List InputValueDefinition) : List Char :=
  parenthesized (as.map inputValueDefinition)

def fieldDefinition (d : FieldDefinition) : List Char :=
  described d.description (words [
    name d.name ++ argumentsDefinition d.arguments ++ ": ".toList ++ typeExpr d.type,
    directives d.directives])

/-- The interfaces of an object type. -/
def interfacesPart (interfaces : List NamedType) : List Char :=
  if interfaces.isEmpty then []
  else "implements ".toList ++ joinWith " & " (interfaces.map namedType)

def objectTypeDefinition (d : ObjectTypeDefinition) : List Char :=
  described d.description (words [headed "type" d.name, interfacesPart d.interfaces,
    directives d.directives, block (d.fields.map fieldDefinition)])

def interfaceTypeDefinition (d : InterfaceTypeDefinition) : List Char :=
  described d.description (words [headed "interface" d.name, directives d.directives,
    block (d.fields.map fieldDefinition)])

/-- The members of a union. -/
def membersPart (members : List NamedType) : List Char :=
  if members.isEmpty then [] else "= ".toList ++ joinWith " | " (members.map namedType)

def unionTypeDefinition (d : UnionTypeDefinition) : List Char :=
  described d.description (words [headed "union" d.name, directives d.directives,
    membersPart d.types])

def enumValueDefinition (d : EnumValueDefinition) : List Char :=
  described d.description (words [name d.name, directives d.directives])

def enumTypeDefinition (d : EnumTypeDefinition) : List Char :=
  described d.description (words [headed "enum" d.name, directives d.directives,
    block (d.values.map enumValueDefinition)])

def inputObjectTypeDefinition (d : InputObjectTypeDefinition) : List Char :=
  described d.description (words [headed "input" d.name, directives d.directives,
    block (d.fields.map inputValueDefinition)])

def typeExtensionDefinition (d : TypeExtensionDefinition) : List Char :=
  "extend ".toList ++ objectTypeDefinition d.definition

def directiveDefinition (d : DirectiveDefinition) : List Char :=
  described d.description ("directive @".toList ++ name d.name ++
    argumentsDefinition d.arguments ++ " on ".toList ++ joinWith " | " (d.locations.map name))

/-! ## Documents -/

def definition : Definition → List Char
  | .operation d => operationDefinition d
  | .fragment d => fragmentDefinition d
  | .schema d => schemaDefinition d
  | .scalarType d => scalarTypeDefinition d
  | .objectType d => objectTypeDefinition d
  | .interfaceType d => interfaceTypeDefinition d
  | .unionType d => unionTypeDefinition d
  | .enumType d => enumTypeDefinition d
  | .inputObjectType d => inputObjectTypeDefinition d
  | .typeExtension d => typeExtensionDefinition d
  | .directive d => directiveDefinition d

/-- The definitions with an empty line between them, and a line end. -/
def document (d : Document) : List Char :=
  joinWith "\n\n" (d.definitions.map definition) ++ ['\n']

def node : Node → List Char
  | .name n => name n
  | .document d => document d
  | .definition d => definition d
  | .variableDefinition d => variableDefinition d
  | .selectionSet s => selectionSet s
  | .selection s => selection s
  | .argument a => argument a
  | .value v => value v
  | .objectField f => name f.name ++ ": ".toList ++ value f.value
  | .directive d => directive d
  | .type t => typeExpr t
  | .operationTypeDefinition d => operationTypeDefinition d
  | .fieldDefinition d => fieldDefinition d
  | .inputValueDefinition d => inputValueDefinition d
  | .enumValueDefinition d => enumValueDefinition d

end Printer

/-- The text of a node. -/
def Node.text (node : Node) : String := .ofList (Printer.node node)

/-- The text of a document. -/
def Document.text (document : Document) : String := .ofList (Printer.document document)

/-- The text of a value. -/
def Value.text (value : Value) : String := .ofList (Printer.value value)

/-- The text of a type. -/
def TypeExpr.text (type : TypeExpr) : String := .ofList (Printer.typeExpr type)

end GraphQL
