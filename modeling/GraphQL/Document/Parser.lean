import GraphQL.Document.DirectiveLocation
import GraphQL.Document.SyntaxError
import GraphQL.Token.Lexer

/-!
# From tokens to documents

A reader of the grammar by recursive descent over the list of tokens.  It never
goes back: the next token decides what is read, and the first token that does not
fit is the error.

Two things bound the recursion.  Selection sets, values and types may be nested
up to `Parser.maxDepth` levels in one another; the levels that are left are an
argument of the functions that read them.  A row of items ends at a mark or
before the first token that starts no item, and each item takes at least one
token, so the number of tokens that are left bounds the number of items.
-/

namespace GraphQL

/-- What a document keeps of the text it was read from. -/
structure ParseOptions where
  /-- Leave out the spans of all parts. -/
  noLocation : Bool := false
  /-- Leave out the text itself. -/
  noSource : Bool := false
  deriving DecidableEq, Repr

namespace Parser

/-- Where a reader stands. -/
structure State where
  /-- The tokens that are left; the last one is the end of the text. -/
  tokens : List Token
  /-- The end of the token read last. -/
  lastEnd : Option Position
  options : ParseOptions
  deriving Repr

end Parser

/-- A reader of some part of the grammar. -/
abbrev Parser := StateT Parser.State (Except SyntaxError)

namespace Parser

/-- How many selection sets, values and types may be nested in one another. -/
def maxDepth : Nat := 64

/-! ## Single tokens -/

def fail {α : Type} (fault : SyntaxFault) (span : Span) : Parser α :=
  throw { fault, span }

/-- The next token.  A stretch of text that is no token is an error. -/
def peek : Parser Token := do
  let state ← get
  match state.tokens with
  | [] => fail (.unexpectedEnd []) (.emptyAt (state.lastEnd.getD .origin))
  | token :: _ =>
    match token.kind with
    | .error fault => fail (.lexical fault) token.span
    | _ => return token

/-- Reads the next token, whatever it is. -/
def advance : Parser Token := do
  let token ← peek
  modify fun state => { state with tokens := state.tokens.tail, lastEnd := some token.span.stop }
  return token

/-- The error that the next token is not what is called for. -/
def unexpected {α : Type} (expected : Expectation) : Parser α := do
  let token ← peek
  match token.kind with
  | .eof => fail (.unexpectedEnd [expected]) token.span
  | kind => fail (.unexpected expected kind) token.span

/-- Whether the next token is the mark `p`. -/
def peekIs (p : Punctuator) : Parser Bool := return (← peek).kind = .punctuator p

/-- Whether the next token is the word `word`. -/
def peekIsKeyword (word : String) : Parser Bool := return (← peek).kind = .name word

/-- The text of a token that can serve as a name. -/
def nameText? : TokenKind → Option String
  | .name text => some text
  | .boolean true => some "true"
  | .boolean false => some "false"
  | .null => some "null"
  | _ => none

def peekIsName : Parser Bool := return (nameText? (← peek).kind).isSome

/-- Reads the mark `p` if it comes next, and says whether it did. -/
def skipIf (p : Punctuator) : Parser Bool := do
  if ← peekIs p then
    let _ ← advance
    return true
  else return false

/-- Reads with `item` after the mark `p`, if that comes next, and with `otherwise` if not. -/
def afterMark {α : Type} (p : Punctuator) (item otherwise : Parser α) : Parser α := do
  if ← skipIf p then item else otherwise

/-- Reads with `item` if the mark `p` comes next, and with `otherwise` if not. -/
def atMark {α : Type} (p : Punctuator) (item otherwise : Parser α) : Parser α := do
  if ← peekIs p then item else otherwise

def expect (p : Punctuator) : Parser Token := do
  if ← peekIs p then advance else unexpected (.punctuator p)

def expectKeyword (word : String) : Parser Token := do
  if ← peekIsKeyword word then advance else unexpected (.keyword word)

def expectEnd : Parser Unit := do
  match (← peek).kind with
  | .eof => let _ ← advance
  | _ => unexpected .endOfInput

/-! ## Spans -/

/-- The span of a part that is one token. -/
def tokenSpan (span : Span) : Parser (Option Span) := do
  return if (← get).options.noLocation then none else some span

/-- The span from the token `first` up to the token read last. -/
def spanFrom (first : Span) : Parser (Option Span) := do
  let state ← get
  return if state.options.noLocation then none
    else some ⟨first.start, state.lastEnd.getD first.stop⟩

/-! ## Rows -/

/-- The most items that can be left. -/
def limit : Parser Nat := return (← get).tokens.length

/-- Reads items until the mark `close`, and that mark; `fuel` bounds their number. -/
def itemsUntil {α : Type} (close : Punctuator) (item : Parser α) : (fuel : Nat) → Parser (List α)
  | 0 => unexpected (.punctuator close)
  | fuel + 1 => do
    if ← skipIf close then return []
    let first ← item
    return first :: (← itemsUntil close item fuel)

/-- Reads a row of items that may be empty, up to and with the mark `close`. -/
def row {α : Type} (close : Punctuator) (item : Parser α) : Parser (List α) := do
  itemsUntil close item ((← limit) + 1)

/-- Reads a row of at least one item, up to and with the mark `close`. -/
def nonemptyRow {α : Type} (close : Punctuator) (item : Parser α) : Parser (List α) := do
  let first ← item
  return first :: (← row close item)

/-- Reads items as long as the mark `mark` is in front of them. -/
def itemsAfter {α : Type} (mark : Punctuator) (item : Parser α) : (fuel : Nat) → Parser (List α)
  | 0 => return []
  | fuel + 1 => do
    if ← peekIs mark then
      let first ← item
      return first :: (← itemsAfter mark item fuel)
    else return []

/-- Reads a row of items each of which starts with the mark `mark`. -/
def rowAfter {α : Type} (mark : Punctuator) (item : Parser α) : Parser (List α) := do
  itemsAfter mark item (← limit)

/-- Reads a row of at least one item, with marks between them and possibly one in
front. -/
def separated {α : Type} (mark : Punctuator) (item : Parser α) : Parser (List α) := do
  let _ ← skipIf mark
  let first ← item
  return first :: (← rowAfter mark (do let _ ← advance; item))

/-! ## Names and types -/

def name : Parser Name := do
  let token ← peek
  match nameText? token.kind with
  | none => unexpected .name
  | some text =>
    let _ ← advance
    return { text, span := ← tokenSpan token.span }

def namedType : Parser NamedType := do
  let start := (← peek).span
  let name ← name
  return { name, span := ← spanFrom start }

/-- A type, with `depth` levels left. -/
def typeExpr : (depth : Nat) → Parser TypeExpr
  | 0 => do fail .tooDeep (← peek).span
  | depth + 1 => do
    let start := (← peek).span
    let type ← afterMark .bracketOpen
      (do
        let item ← typeExpr depth
        let _ ← expect .bracketClose
        return .list item (← spanFrom start))
      (return .named (← namedType))
    afterMark .bang (return .nonNull type (← spanFrom start)) (return type)

/-! ## Values -/

def variableUse : Parser Variable := do
  let start := (← expect .dollar).span
  let name ← name
  return { name, span := ← spanFrom start }

/-- A value, with `depth` levels left; a constant has no variables in it. -/
def value (constant : Bool) : (depth : Nat) → Parser Value
  | 0 => do fail .tooDeep (← peek).span
  | depth + 1 => do
    let token ← peek
    match token.kind with
    | .punctuator .dollar =>
      if constant then fail .variableInConstant token.span else return .var (← variableUse)
    | .punctuator .bracketOpen =>
      let _ ← advance
      let items ← row .bracketClose (value constant depth)
      return .list items (← spanFrom token.span)
    | .punctuator .braceOpen =>
      let _ ← advance
      let fields ← row .braceClose do
        let start := (← peek).span
        let name ← name
        let _ ← expect .colon
        let value ← value constant depth
        return { name, value, span := ← spanFrom start : ObjectField }
      return .object fields (← spanFrom token.span)
    | .int text => let _ ← advance; return .int text (← tokenSpan token.span)
    | .float text => let _ ← advance; return .float text (← tokenSpan token.span)
    | .string text => let _ ← advance; return .string text false (← tokenSpan token.span)
    | .blockString text => let _ ← advance; return .string text true (← tokenSpan token.span)
    | .boolean b => let _ ← advance; return .boolean b (← tokenSpan token.span)
    | .null => let _ ← advance; return .null (← tokenSpan token.span)
    | .name text => let _ ← advance; return .enum text (← tokenSpan token.span)
    | _ => unexpected .value

def argument (constant : Bool) (depth : Nat) : Parser Argument := do
  let start := (← peek).span
  let name ← name
  let _ ← expect .colon
  let value ← value constant depth
  return { name, value, span := ← spanFrom start }

/-- A row in parentheses, if there is one. -/
def parenthesized {α : Type} (item : Parser α) : Parser (List α) :=
  afterMark .parenOpen (nonemptyRow .parenClose item) (return [])

/-- The arguments of a field or a directive, if there are any. -/
def arguments (constant : Bool) (depth : Nat) : Parser (List Argument) :=
  parenthesized (argument constant depth)

def directives (constant : Bool) (depth : Nat) : Parser (List Directive) :=
  rowAfter .atSign do
    let start := (← advance).span
    let name ← name
    let arguments ← arguments constant depth
    return { name, arguments, span := ← spanFrom start }

/-! ## Selections -/

/-- A field, given how to read the selection set below it. -/
def field (depth : Nat) (selectionSet : Parser SelectionSet) : Parser Field := do
  let start := (← peek).span
  let first ← name
  let (responseName, name) ← afterMark .colon (return (some first, ← name)) (return (none, first))
  let arguments ← arguments false depth
  let directives ← directives false depth
  let below ← atMark .braceOpen (return some (← selectionSet)) (return none)
  return {
    responseName, name, arguments, directives, selectionSet := below, span := ← spanFrom start }

/-- One selection, given how to read the selection set below it. -/
def selection (depth : Nat) (selectionSet : Parser SelectionSet) : Parser Selection := do
  if !(← peekIs .ellipsis) then return .field (← field depth selectionSet)
  let start := (← advance).span
  if ← peekIsKeyword "on" then
    let _ ← advance
    inline start (some (← namedType))
  else if ← peekIsName then
    let name ← name
    let directives ← directives false depth
    return .spread { name, directives, span := ← spanFrom start }
  else inline start none
where
  inline (start : Span) (typeCondition : Option NamedType) : Parser Selection := do
    let directives ← directives false depth
    let below ← selectionSet
    return .inline { typeCondition, directives, selectionSet := below, span := ← spanFrom start }

/-- The selections up to the brace that closes a selection set.  There is at least one. -/
def selections (item : Parser Selection) : Parser (List Selection) := do
  let next ← peek
  if next.kind = .punctuator .braceClose then fail .emptySelectionSet next.span
  else row .braceClose item

/-- A selection set, with `depth` levels left. -/
def selectionSet : (depth : Nat) → Parser SelectionSet
  | 0 => do fail .tooDeep (← peek).span
  | depth + 1 => do
    let start := (← expect .braceOpen).span
    let selections ← selections (selection depth (selectionSet depth))
    return { selections, span := ← spanFrom start }

/-! ## Executable definitions -/

def operationKind : Parser OperationKind := do
  let kind? := match (← peek).kind with
    | .name word => OperationKind.ofKeyword? word
    | _ => none
  match kind? with
  | some kind => let _ ← advance; return kind
  | none => unexpected .operationKeyword

def defaultValue : Parser (Option Value) :=
  afterMark .equals (return some (← value true maxDepth)) (return none)

def variableDefinition : Parser VariableDefinition := do
  let start := (← peek).span
  let var ← variableUse
  let _ ← expect .colon
  let type ← typeExpr maxDepth
  let defaultValue ← defaultValue
  return { var, type, defaultValue, span := ← spanFrom start }

/-- A name, if one comes next. -/
def optionalName : Parser (Option Name) := do
  if ← peekIsName then return some (← name) else return none

def operationDefinition : Parser OperationDefinition := do
  let start := (← peek).span
  atMark .braceOpen
    (do
      let selectionSet ← selectionSet maxDepth
      return {
        operation := .query, name := none, variableDefinitions := [], directives := [],
        selectionSet, span := ← spanFrom start })
    (do
      let operation ← operationKind
      let name ← optionalName
      let variableDefinitions ← parenthesized variableDefinition
      let directives ← directives false maxDepth
      let selectionSet ← selectionSet maxDepth
      return {
        operation, name, variableDefinitions, directives, selectionSet, span := ← spanFrom start })

/-- The name that a fragment is defined with. -/
def fragmentName : Parser Name := do
  let next ← peek
  if next.kind = .name "on" then fail .fragmentNamedOn next.span else name

def fragmentDefinition : Parser FragmentDefinition := do
  let start := (← expectKeyword "fragment").span
  let name ← fragmentName
  let _ ← expectKeyword "on"
  let typeCondition ← namedType
  let directives ← directives false maxDepth
  let selectionSet ← selectionSet maxDepth
  return { name, typeCondition, directives, selectionSet, span := ← spanFrom start }

/-! ## Definitions of a type system -/

/-- A string in front of a definition. -/
def description : Parser (Option String) := do
  match (← peek).kind with
  | .string text | .blockString text => let _ ← advance; return some text
  | _ => return none

/-- A row in braces, if there is one. -/
def braced {α : Type} (item : Parser α) : Parser (List α) :=
  afterMark .braceOpen (nonemptyRow .braceClose item) (return [])

def operationTypeDefinition : Parser OperationTypeDefinition := do
  let start := (← peek).span
  let operation ← operationKind
  let _ ← expect .colon
  let type ← namedType
  return { operation, type, span := ← spanFrom start }

def schemaDefinition (start : Span) : Parser SchemaDefinition := do
  let _ ← expectKeyword "schema"
  let directives ← directives true maxDepth
  let _ ← expect .braceOpen
  let operationTypes ← nonemptyRow .braceClose operationTypeDefinition
  return { directives, operationTypes, span := ← spanFrom start }

def scalarTypeDefinition (start : Span) (description : Option String) :
    Parser ScalarTypeDefinition := do
  let _ ← expectKeyword "scalar"
  let name ← name
  let directives ← directives true maxDepth
  return { description, name, directives, span := ← spanFrom start }

def inputValueDefinition : Parser InputValueDefinition := do
  let start := (← peek).span
  let description ← description
  let name ← name
  let _ ← expect .colon
  let type ← typeExpr maxDepth
  let defaultValue ← defaultValue
  let directives ← directives true maxDepth
  return { description, name, type, defaultValue, directives, span := ← spanFrom start }

def argumentsDefinition : Parser (List InputValueDefinition) := parenthesized inputValueDefinition

def fieldDefinition : Parser FieldDefinition := do
  let start := (← peek).span
  let description ← description
  let name ← name
  let arguments ← argumentsDefinition
  let _ ← expect .colon
  let type ← typeExpr maxDepth
  let directives ← directives true maxDepth
  return { description, name, arguments, type, directives, span := ← spanFrom start }

def implementsInterfaces : Parser (List NamedType) := do
  if ← peekIsKeyword "implements" then
    let _ ← advance
    separated .ampersand namedType
  else return []

def objectTypeDefinition (start : Span) (description : Option String) :
    Parser ObjectTypeDefinition := do
  let _ ← expectKeyword "type"
  let name ← name
  let interfaces ← implementsInterfaces
  let directives ← directives true maxDepth
  let fields ← braced fieldDefinition
  return { description, name, interfaces, directives, fields, span := ← spanFrom start }

def interfaceTypeDefinition (start : Span) (description : Option String) :
    Parser InterfaceTypeDefinition := do
  let _ ← expectKeyword "interface"
  let name ← name
  let directives ← directives true maxDepth
  let fields ← braced fieldDefinition
  return { description, name, directives, fields, span := ← spanFrom start }

def unionTypeDefinition (start : Span) (description : Option String) :
    Parser UnionTypeDefinition := do
  let _ ← expectKeyword "union"
  let name ← name
  let directives ← directives true maxDepth
  let types ← afterMark .equals (separated .pipe namedType) (return [])
  return { description, name, directives, types, span := ← spanFrom start }

/-- The name of an enum value, which is none of the words for other values. -/
def enumValueName : Parser Name := do
  let span := (← peek).span
  let name ← name
  if name.text = "true" ∨ name.text = "false" ∨ name.text = "null" then
    fail (.reservedEnumValue name.text) span
  else return name

def enumValueDefinition : Parser EnumValueDefinition := do
  let start := (← peek).span
  let description ← description
  let name ← enumValueName
  let directives ← directives true maxDepth
  return { description, name, directives, span := ← spanFrom start }

def enumTypeDefinition (start : Span) (description : Option String) :
    Parser EnumTypeDefinition := do
  let _ ← expectKeyword "enum"
  let name ← name
  let directives ← directives true maxDepth
  let values ← braced enumValueDefinition
  return { description, name, directives, values, span := ← spanFrom start }

def inputObjectTypeDefinition (start : Span) (description : Option String) :
    Parser InputObjectTypeDefinition := do
  let _ ← expectKeyword "input"
  let name ← name
  let directives ← directives true maxDepth
  let fields ← braced inputValueDefinition
  return { description, name, directives, fields, span := ← spanFrom start }

def typeExtensionDefinition (start : Span) : Parser TypeExtensionDefinition := do
  let _ ← expectKeyword "extend"
  let definitionStart := (← peek).span
  let definition ← objectTypeDefinition definitionStart none
  return { definition, span := ← spanFrom start }

/-- The name of a place that a directive may be applied at. -/
def directiveLocation : Parser Name := do
  let span := (← peek).span
  let name ← name
  if (DirectiveLocation.ofText? name.text).isNone then fail (.unknownLocation name.text) span
  else return name

def directiveDefinition (start : Span) (description : Option String) :
    Parser DirectiveDefinition := do
  let _ ← expectKeyword "directive"
  let _ ← expect .atSign
  let name ← name
  let arguments ← argumentsDefinition
  let _ ← expectKeyword "on"
  let locations ← separated .pipe directiveLocation
  return { description, name, arguments, locations, span := ← spanFrom start }

def typeSystemDefinition : Parser Definition := do
  let start := (← peek).span
  let description ← description
  let keyword := match (← peek).kind with
    | .name word => word
    | _ => ""
  match keyword, description with
  | "schema", none => return .schema (← schemaDefinition start)
  | "extend", none => return .typeExtension (← typeExtensionDefinition start)
  | "scalar", _ => return .scalarType (← scalarTypeDefinition start description)
  | "type", _ => return .objectType (← objectTypeDefinition start description)
  | "interface", _ => return .interfaceType (← interfaceTypeDefinition start description)
  | "union", _ => return .unionType (← unionTypeDefinition start description)
  | "enum", _ => return .enumType (← enumTypeDefinition start description)
  | "input", _ => return .inputObjectType (← inputObjectTypeDefinition start description)
  | "directive", _ => return .directive (← directiveDefinition start description)
  | _, some _ => unexpected .typeDefinition
  | _, none => unexpected .definition

/-! ## Whole texts -/

/-- The first words of a definition of a type system. -/
def typeSystemKeywords : List String :=
  ["schema", "scalar", "type", "interface", "union", "enum", "input", "extend", "directive"]

def definition : Parser Definition := do
  match (← peek).kind with
  | .punctuator .braceOpen => return .operation (← operationDefinition)
  | .string _ | .blockString _ => typeSystemDefinition
  | .name word =>
    if (OperationKind.ofKeyword? word).isSome then return .operation (← operationDefinition)
    else if word = "fragment" then return .fragment (← fragmentDefinition)
    else if word ∈ typeSystemKeywords then typeSystemDefinition
    else unexpected .definition
  | _ => unexpected .definition

/-- Reads definitions up to the end of the text; `fuel` bounds their number. -/
def definitions : (fuel : Nat) → Parser (List Definition)
  | 0 => unexpected .definition
  | fuel + 1 => do
    match (← peek).kind with
    | .eof => return []
    | _ =>
      let first ← definition
      return first :: (← definitions fuel)

def document : Parser Document := do
  let start := (← peek).span
  let first ← definition
  let others ← definitions (← limit)
  return { definitions := first :: others, span := ← spanFrom start }

/-- Reads a whole text with `item`. -/
def run {α : Type} (item : Parser α) (text : String) (options : ParseOptions) :
    Except SyntaxError α :=
  (StateT.run item { tokens := Token.all text, lastEnd := none, options }).map (·.1)

end Parser

/-! ## Reading texts -/

/-- Reads a text as a document.  An error carries the name of the text. -/
def Document.parse (source : Source) (options : ParseOptions) : Except SyntaxError Document :=
  match Parser.run Parser.document source.body options with
  | .ok document =>
    .ok { document with source := if options.noSource then none else some source }
  | .error error => .error { error with sourceName := some source.name }

/-- Reads a text as a value. -/
def Value.parse (text : String) (options : ParseOptions) : Except SyntaxError Value :=
  Parser.run (do
    let value ← Parser.value false Parser.maxDepth
    Parser.expectEnd
    return value) text options

/-- Reads a text as a value without variables. -/
def Value.parseConst (text : String) (options : ParseOptions) : Except SyntaxError Value :=
  Parser.run (do
    let value ← Parser.value true Parser.maxDepth
    Parser.expectEnd
    return value) text options

/-- Reads a text as a type. -/
def TypeExpr.parse (text : String) (options : ParseOptions) : Except SyntaxError TypeExpr :=
  Parser.run (do
    let type ← Parser.typeExpr Parser.maxDepth
    Parser.expectEnd
    return type) text options

end GraphQL
