import Mathlib
import GraphQL.Document.Parser
import GraphQL.Proofs.Document.Bare

/-!
# The grammar of documents

A `Grammar` says which sequences of tokens belong to a part of the language, and as which
trees they read.  Grammars are put together the way the language is described: one after
another, one or the other, a row of items.  The trees are bare, since a sequence of tokens
has no positions in it.

The levels that are left for selection sets, values and types within one another are an
argument, as they are of the reader.
-/

namespace GraphQL

/-- A part of the language: the sequences of tokens in it, each with what it reads as. -/
def Grammar (β : Type) := List TokenKind → β → Prop

namespace Grammar

variable {α β : Type}

/-! ## Putting grammars together -/

/-- First one grammar, then one that may depend on what was read. -/
instance : Monad Grammar where
  pure b := fun kinds c => kinds = [] ∧ c = b
  bind g f := fun kinds c => ∃ first b rest, g first b ∧ f b rest c ∧ kinds = first ++ rest

/-- One grammar or the other. -/
instance : OrElse (Grammar β) where
  orElse g h := fun kinds b => g kinds b ∨ h () kinds b

/-- Any of many grammars. -/
def oneOf {ι : Type} (g : ι → Grammar β) : Grammar β := fun kinds b => ∃ i, g i kinds b

/-- No sequence at all. -/
def never : Grammar β := fun _ _ => False

/-- A single token of which `read?` makes something. -/
def token (read? : TokenKind → Option β) : Grammar β :=
  fun kinds b => ∃ kind, kinds = [kind] ∧ read? kind = some b

/-- The mark `p`. -/
def mark (p : Punctuator) : Grammar Unit :=
  token fun kind => if kind = .punctuator p then some () else none

/-- The word `word`. -/
def keyword (word : String) : Grammar Unit :=
  token fun kind => if kind = .name word then some () else none

/-- Any number of items. -/
inductive many (item : Grammar β) : List TokenKind → List β → Prop where
  | nil : many item [] []
  | cons {first rest : List TokenKind} {b : β} {others : List β} :
      item first b → many item rest others → many item (first ++ rest) (b :: others)

/-- Any number of items, where `F` says which tokens may come right after an item. -/
inductive manyApart (F : β → TokenKind → Prop) (item : Grammar β) :
    List TokenKind → List β → Prop where
  | nil : manyApart F item [] []
  | cons {first rest : List TokenKind} {b : β} {others : List β} :
      item first b → manyApart F item rest others → (∀ next ∈ rest.head?, F b next) →
      manyApart F item (first ++ rest) (b :: others)

/-- A row of items up to the mark `close`. -/
def row (close : Punctuator) (item : Grammar β) : Grammar (List β) := do
  let items ← (many item : Grammar (List β))
  mark close
  return items

/-- A row of at least one item up to the mark `close`. -/
def nonemptyRow (close : Punctuator) (item : Grammar β) : Grammar (List β) := do
  let first ← item
  return first :: (← row close item)

/-- A row of items each of which has the mark `p` in front of it. -/
def rowAfter (p : Punctuator) (item : Grammar β) : Grammar (List β) :=
  many do
    mark p
    item

/-- At least one item, with the mark `p` between them and possibly in front. -/
def separated (p : Punctuator) (item : Grammar β) : Grammar (List β) := do
  mark p <|> return ()
  let first ← item
  return first :: (← rowAfter p item)

/-! ## Names and types -/

def name : Grammar Name :=
  token fun kind => (Parser.nameText? kind).map ({ text := · })

/-- A name with none of the excluded texts. -/
def nameBut (excluded : String → Prop) [DecidablePred excluded] : Grammar Name :=
  token fun kind => (Parser.nameText? kind).bind fun text =>
    if excluded text then none else some { text }

def namedType : Grammar NamedType := return { name := ← name }

/-- A type, with `depth` levels left. -/
def typeExpr : (depth : Nat) → Grammar TypeExpr
  | 0 => never
  | depth + 1 => do
    let type ←
      (do
        mark .bracketOpen
        let item ← typeExpr depth
        mark .bracketClose
        return .list item none) <|>
      (return .named (← namedType))
    (do
      mark .bang
      return .nonNull type none) <|>
    (return type)

/-! ## Values -/

def variableUse : Grammar Variable := do
  mark .dollar
  return { name := ← name }

/-- A value that is one token. -/
def literal? : TokenKind → Option Value
  | .int text => some (.int text none)
  | .float text => some (.float text none)
  | .string text | .blockString text => some (.string text false none)
  | .boolean b => some (.boolean b none)
  | .null => some (.null none)
  | .name text => some (.enum text none)
  | _ => none

def listValue (item : Grammar Value) : Grammar Value := do
  mark .bracketOpen
  return .list (← row .bracketClose item) none

def objectField (value : Grammar Value) : Grammar ObjectField := do
  let name ← name
  mark .colon
  return { name, value := ← value }

def objectValue (value : Grammar Value) : Grammar Value := do
  mark .braceOpen
  return .object (← row .braceClose (objectField value)) none

/-- A value, with `depth` levels left; a constant has no variables in it. -/
def value (constant : Bool) : (depth : Nat) → Grammar Value
  | 0 => never
  | depth + 1 =>
    token literal? <|>
    (if constant then never else return .var (← variableUse)) <|>
    listValue (value constant depth) <|>
    objectValue (value constant depth)

def argument (constant : Bool) (depth : Nat) : Grammar Argument := do
  let name ← name
  mark .colon
  return { name, value := ← value constant depth }

/-- A row in parentheses, if there is one. -/
def parenthesized (item : Grammar β) : Grammar (List β) :=
  (do
    mark .parenOpen
    nonemptyRow .parenClose item) <|>
  (return [])

/-- A row in braces, if there is one. -/
def braced (item : Grammar β) : Grammar (List β) :=
  (do
    mark .braceOpen
    nonemptyRow .braceClose item) <|>
  (return [])

def arguments (constant : Bool) (depth : Nat) : Grammar (List Argument) :=
  parenthesized (argument constant depth)

def directives (constant : Bool) (depth : Nat) : Grammar (List Directive) :=
  rowAfter .atSign do
    let name ← name
    return { name, arguments := ← arguments constant depth }

/-! ## Selections -/

/-- A field, given the grammar of the selection set below it. -/
def field (depth : Nat) (selectionSet : Grammar SelectionSet) : Grammar Field := do
  let first ← name
  let (responseName, name) ←
    (do
      mark .colon
      return (some first, ← name)) <|>
    (return (none, first))
  let arguments ← arguments false depth
  let directives ← directives false depth
  let below ← (return some (← selectionSet)) <|> (return none)
  return { responseName, name, arguments, directives, selectionSet := below }

/-- The name of a fragment. -/
def fragmentName : Grammar Name := nameBut (· = "on")

/-- One selection, given the grammar of the selection set below it. -/
def selection (depth : Nat) (selectionSet : Grammar SelectionSet) : Grammar Selection :=
  (return .field (← field depth selectionSet)) <|>
  (do
    mark .ellipsis
    (do
      let name ← fragmentName
      return .spread { name, directives := ← directives false depth }) <|>
    (do
      let typeCondition ←
        (do
          keyword "on"
          return some (← namedType)) <|>
        (return none)
      let directives ← directives false depth
      return .inline { typeCondition, directives, selectionSet := ← selectionSet }))

/-- A selection set, with `depth` levels left. -/
def selectionSet : (depth : Nat) → Grammar SelectionSet
  | 0 => never
  | depth + 1 => do
    mark .braceOpen
    return { selections := ← nonemptyRow .braceClose (selection depth (selectionSet depth)) }

/-! ## Executable definitions -/

/-- The kind of operations that a keyword stands for. -/
def operationKind? : TokenKind → Option OperationKind
  | .name word => OperationKind.ofKeyword? word
  | _ => none

def operationKind : Grammar OperationKind := token operationKind?

def defaultValue : Grammar (Option Value) :=
  (do
    mark .equals
    return some (← value true Parser.maxDepth)) <|>
  (return none)

def variableDefinition : Grammar VariableDefinition := do
  let var ← variableUse
  mark .colon
  let type ← typeExpr Parser.maxDepth
  return { var, type, defaultValue := ← defaultValue }

def operationDefinition : Grammar OperationDefinition :=
  (do
    let selectionSet ← selectionSet Parser.maxDepth
    return {
      operation := .query, name := none, variableDefinitions := [], directives := [],
      selectionSet }) <|>
  (do
    let operation ← operationKind
    let name ← (return some (← name)) <|> (return none)
    let variableDefinitions ← parenthesized variableDefinition
    let directives ← directives false Parser.maxDepth
    return {
      operation, name, variableDefinitions, directives,
      selectionSet := ← selectionSet Parser.maxDepth })

def fragmentDefinition : Grammar FragmentDefinition := do
  keyword "fragment"
  let name ← fragmentName
  keyword "on"
  let typeCondition ← namedType
  let directives ← directives false Parser.maxDepth
  return { name, typeCondition, directives, selectionSet := ← selectionSet Parser.maxDepth }

/-! ## Definitions of a type system -/

/-- The value of a string, in whichever quotes. -/
def stringValue? : TokenKind → Option String
  | .string text | .blockString text => some text
  | _ => none

/-- A string in front of a definition. -/
def description : Grammar (Option String) :=
  (return some (← token stringValue?)) <|> (return none)

def operationTypeDefinition : Grammar OperationTypeDefinition := do
  let operation ← operationKind
  mark .colon
  return { operation, type := ← namedType }

def schemaDefinition : Grammar SchemaDefinition := do
  keyword "schema"
  let directives ← directives true Parser.maxDepth
  mark .braceOpen
  return { directives, operationTypes := ← nonemptyRow .braceClose operationTypeDefinition }

def scalarTypeDefinition (description : Option String) : Grammar ScalarTypeDefinition := do
  keyword "scalar"
  let name ← name
  return { description, name, directives := ← directives true Parser.maxDepth }

def inputValueDefinition : Grammar InputValueDefinition := do
  let description ← description
  let name ← name
  mark .colon
  let type ← typeExpr Parser.maxDepth
  let defaultValue ← defaultValue
  return {
    description, name, type, defaultValue, directives := ← directives true Parser.maxDepth }

def argumentsDefinition : Grammar (List InputValueDefinition) := parenthesized inputValueDefinition

def fieldDefinition : Grammar FieldDefinition := do
  let description ← description
  let name ← name
  let arguments ← argumentsDefinition
  mark .colon
  let type ← typeExpr Parser.maxDepth
  return { description, name, arguments, type, directives := ← directives true Parser.maxDepth }

def implementsInterfaces : Grammar (List NamedType) :=
  (do
    keyword "implements"
    separated .ampersand namedType) <|>
  (return [])

def objectTypeDefinition (description : Option String) : Grammar ObjectTypeDefinition := do
  keyword "type"
  let name ← name
  let interfaces ← implementsInterfaces
  let directives ← directives true Parser.maxDepth
  return { description, name, interfaces, directives, fields := ← braced fieldDefinition }

def interfaceTypeDefinition (description : Option String) : Grammar InterfaceTypeDefinition := do
  keyword "interface"
  let name ← name
  let directives ← directives true Parser.maxDepth
  return { description, name, directives, fields := ← braced fieldDefinition }

def unionTypeDefinition (description : Option String) : Grammar UnionTypeDefinition := do
  keyword "union"
  let name ← name
  let directives ← directives true Parser.maxDepth
  let types ←
    (do
      mark .equals
      separated .pipe namedType) <|>
    (return [])
  return { description, name, directives, types }

/-- The name of an enum value. -/
def enumValueName : Grammar Name :=
  nameBut fun text => text = "true" ∨ text = "false" ∨ text = "null"

def enumValueDefinition : Grammar EnumValueDefinition := do
  let description ← description
  let name ← enumValueName
  return { description, name, directives := ← directives true Parser.maxDepth }

def enumTypeDefinition (description : Option String) : Grammar EnumTypeDefinition := do
  keyword "enum"
  let name ← name
  let directives ← directives true Parser.maxDepth
  return { description, name, directives, values := ← braced enumValueDefinition }

def inputObjectTypeDefinition (description : Option String) :
    Grammar InputObjectTypeDefinition := do
  keyword "input"
  let name ← name
  let directives ← directives true Parser.maxDepth
  return { description, name, directives, fields := ← braced inputValueDefinition }

def typeExtensionDefinition : Grammar TypeExtensionDefinition := do
  keyword "extend"
  return { definition := ← objectTypeDefinition none }

/-- The name of a place that a directive may be applied at. -/
def directiveLocation : Grammar Name :=
  nameBut fun text => (DirectiveLocation.ofText? text).isNone

def directiveDefinition (description : Option String) : Grammar DirectiveDefinition := do
  keyword "directive"
  mark .atSign
  let name ← name
  let arguments ← argumentsDefinition
  keyword "on"
  return { description, name, arguments, locations := ← separated .pipe directiveLocation }

/-- A definition of a type system with the given first word.  The definition of a schema and
an extension have no description. -/
def definitionOf (description : Option String) : (word : String) → Grammar Definition
  | "schema" => if description.isNone then return .schema (← schemaDefinition) else never
  | "extend" =>
    if description.isNone then return .typeExtension (← typeExtensionDefinition) else never
  | "scalar" => return .scalarType (← scalarTypeDefinition description)
  | "type" => return .objectType (← objectTypeDefinition description)
  | "interface" => return .interfaceType (← interfaceTypeDefinition description)
  | "union" => return .unionType (← unionTypeDefinition description)
  | "enum" => return .enumType (← enumTypeDefinition description)
  | "input" => return .inputObjectType (← inputObjectTypeDefinition description)
  | "directive" => return .directive (← directiveDefinition description)
  | _ => never

def typeSystemDefinition : Grammar Definition := do
  let description ← description
  oneOf (definitionOf description)

/-! ## Documents -/

def definition : Grammar Definition :=
  (return .operation (← operationDefinition)) <|>
  (return .fragment (← fragmentDefinition)) <|>
  typeSystemDefinition

/-- Whether a definition is written without a body that it could have. -/
def OpenEnded : Definition → Prop
  | .objectType d => d.fields = []
  | .interfaceType d => d.fields = []
  | .enumType d => d.values = []
  | .inputObjectType d => d.fields = []
  | .typeExtension d => d.definition.fields = []
  | _ => False

/-- The definitions of a document.  A brace right after a definition that could have a body
is its body, so there is none after one without. -/
def definitions : Grammar (List Definition) :=
  manyApart (fun d next => OpenEnded d → next ≠ .punctuator .braceOpen) definition

end Grammar

end GraphQL
