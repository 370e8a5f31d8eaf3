import GraphQL.Document.Basic
import GraphQL.Token.Basic

/-!
# Errors in the text of a document

A `SyntaxError` is the first place at which a text stops being a document, with
the cause.  `SyntaxFault` lists the causes; all wording is in this module.
-/

namespace GraphQL

/-- What the grammar calls for at some place. -/
inductive Expectation where
  | punctuator (p : Punctuator)
  | keyword (word : String)
  | name
  | value
  | definition
  | typeDefinition
  | operationKeyword
  | endOfInput
  deriving DecidableEq, Repr

namespace Expectation

def text : Expectation → String
  | punctuator p => "`" ++ p.text ++ "`"
  | keyword word => "`" ++ word ++ "`"
  | name => "name"
  | value => "value"
  | definition => "definition"
  | typeDefinition => "type definition"
  | operationKeyword => "`query`, `mutation` or `subscription`"
  | endOfInput => "end of input"

end Expectation

/-- Why a text is no document. -/
inductive SyntaxFault where
  /-- The token is not the one that is called for. -/
  | unexpected (expected : Expectation) (found : TokenKind)
  /-- The text ends where something is called for. -/
  | unexpectedEnd (expected : List Expectation)
  /-- A stretch of the text is no token. -/
  | lexical (fault : LexicalFault)
  | tooDeep
  | emptySelectionSet
  | fragmentNamedOn
  | variableInConstant
  | reservedEnumValue (name : String)
  | unknownLocation (name : String)
  deriving DecidableEq, Repr

namespace SyntaxFault

def message : SyntaxFault → String
  | unexpected expected found =>
    "expected " ++ expected.text ++ ", found `" ++ found.describe ++ "`"
  | unexpectedEnd [] => "unexpected end of input"
  | unexpectedEnd (expected :: _) => "expected " ++ expected.text ++ ", found end of input"
  | lexical fault => fault.message
  | tooDeep => "maximum nesting depth exceeded"
  | emptySelectionSet => "selection set cannot be empty"
  | fragmentNamedOn => "fragment name cannot be `on`"
  | variableInConstant => "unexpected variable in constant value"
  | reservedEnumValue name => "`" ++ name ++ "` is reserved and cannot be used as an enum value"
  | unknownLocation name => "unknown directive location `" ++ name ++ "`"

/-- A word on the kind of fault. -/
def category : SyntaxFault → String
  | unexpected _ found => "unexpected token: `" ++ found.describe ++ "`"
  | unexpectedEnd _ => "unexpected end of input"
  | lexical _ => "lexer error"
  | _ => "invalid syntax"

/-- What the grammar calls for, where that is the fault. -/
def expected : SyntaxFault → List Expectation
  | unexpected expected _ => [expected]
  | unexpectedEnd expected => expected
  | _ => []

/-- What is there instead, where that is the fault. -/
def found? : SyntaxFault → Option String
  | unexpected _ found => some found.describe
  | _ => none

def notes : SyntaxFault → List String
  | lexical fault => fault.notes
  | _ => []

end SyntaxFault

/-- A fault of a text, where it is, and the name of the text if it has one. -/
structure SyntaxError where
  fault : SyntaxFault
  span : Span
  sourceName : Option String := none
  deriving DecidableEq, Repr

namespace SyntaxError

def message (error : SyntaxError) : String := error.fault.message

/-- The error in one line: where it is and what it is. -/
def summary (error : SyntaxError) : String :=
  let place := error.span.location
  error.sourceName.getD "<input>" ++ ":" ++ toString place.line ++ ":" ++ toString place.column ++
    ": error: " ++ error.message

end SyntaxError

end GraphQL
