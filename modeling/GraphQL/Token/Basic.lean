import GraphQL.Text.Characters
import GraphQL.Text.Position

/-!
# Tokens

The lexical tokens of the query language.  Names and numbers carry the text they
are written with, strings carry the value they stand for.  A stretch of text that
is no token becomes an `error` token, which says why.
-/

namespace GraphQL

/-- The marks of the language. -/
inductive Punctuator where
  | ampersand | atSign | bang | colon | braceClose | braceOpen | dollar | ellipsis | equals
  | parenClose | parenOpen | pipe | bracketClose | bracketOpen
  deriving DecidableEq, Repr

namespace Punctuator

/-- The mark as it is written. -/
def text : Punctuator → String
  | ampersand => "&"
  | atSign => "@"
  | bang => "!"
  | colon => ":"
  | braceClose => "\x7d"
  | braceOpen => "\x7b"
  | dollar => "$"
  | ellipsis => "..."
  | equals => "="
  | parenClose => ")"
  | parenOpen => "("
  | pipe => "|"
  | bracketClose => "]"
  | bracketOpen => "["

/-- The mark of a single character. -/
def ofChar? : Char → Option Punctuator
  | '&' => some ampersand
  | '@' => some atSign
  | '!' => some bang
  | ':' => some colon
  | '}' => some braceClose
  | '{' => some braceOpen
  | '$' => some dollar
  | '=' => some equals
  | ')' => some parenClose
  | '(' => some parenOpen
  | '|' => some pipe
  | ']' => some bracketClose
  | '[' => some bracketOpen
  | _ => none

end Punctuator

/-- Why the text between the quotes has no string value. -/
inductive StringFault where
  /-- A backslash with something after it that is no escape. -/
  | escape (text : String)
  /-- A `\u` that four hexadecimal digits of a character do not follow. -/
  | unicodeEscape (text : String)
  /-- A character that may not be written in a string. -/
  | character (c : Char)
  deriving DecidableEq, Repr

namespace StringFault

def message : StringFault → String
  | escape text => "Invalid escape sequence: `" ++ text ++ "`"
  | unicodeEscape text => "Invalid unicode escape: `" ++ text ++ "`"
  | character c => "Invalid character within string: " ++ codePointText c

end StringFault

/-- Why a run of characters that starts like a number is none. -/
inductive NumberFault where
  | leadingZero | noDigitAfterPoint | noExponentDigit | unexpectedCharacter
  deriving DecidableEq, Repr

namespace NumberFault

def message : NumberFault → String
  | leadingZero => "Invalid number: leading zeros are not allowed"
  | noDigitAfterPoint => "Invalid number: expected digit after `.`"
  | noExponentDigit => "Invalid number: exponent must have at least one digit"
  | unexpectedCharacter => "Invalid number: unexpected character after number"

end NumberFault

/-- Why a stretch of text is no token. -/
inductive LexicalFault where
  | oneDot
  | twoDots
  | loneMinus
  | number (fault : NumberFault) (text : String)
  | unterminatedString
  | unterminatedBlockString
  | string (fault : StringFault)
  | character (c : Char)
  deriving DecidableEq, Repr

namespace LexicalFault

/-- A character as an error shows it: one that cannot be seen is written as an
escape, with its code point. -/
private def showChar (c : Char) : String :=
  if isControl c || (isBlank c && c != ' ') then
    let escaped :=
      if c.toNat = 0 then "\\0" else "\\u\x7b" ++ .ofList (hexDigits c.toNat) ++ "\x7d"
    "`" ++ escaped ++ "` (" ++ codePointText c ++ ")"
  else "`" ++ c.toString ++ "`"

def message : LexicalFault → String
  | oneDot => "Unexpected `.`"
  | twoDots => "Unexpected `..`"
  | loneMinus => "Unexpected `-`"
  | number fault text => fault.message ++ ": `" ++ text ++ "`"
  | unterminatedString => "Unterminated string literal"
  | unterminatedBlockString => "Unterminated block string"
  | string fault => fault.message
  | character c => "Unexpected character " ++ showChar c

/-- Advice on how to mend the text. -/
def notes : LexicalFault → List String
  | twoDots => ["Add one more `.` to form the spread operator `...`"]
  | unterminatedString =>
    ["Single-line strings must close with `\"` before the end of the line"]
  | unterminatedBlockString => ["Add closing `\"\"\"`"]
  | _ => []

end LexicalFault

/-- What a token is. -/
inductive TokenKind where
  | punctuator (p : Punctuator)
  | name (text : String)
  | int (text : String)
  | float (text : String)
  /-- A string in single quotes, with its value. -/
  | string (value : String)
  /-- A string in triple quotes, with its value. -/
  | blockString (value : String)
  /-- The name `true` or `false`. -/
  | boolean (value : Bool)
  /-- The name `null`. -/
  | null
  /-- The end of the text. -/
  | eof
  | error (fault : LexicalFault)
  deriving DecidableEq, Repr

namespace TokenKind

/-- The token as a message about an unexpected one names it. -/
def describe : TokenKind → String
  | punctuator p => p.text
  | name text | int text | float text => text
  | string value => "\"" ++ value ++ "\""
  | blockString value => "\"\"\"" ++ value ++ "\"\"\""
  | boolean true => "true"
  | boolean false => "false"
  | null => "null"
  | eof => "end of input"
  | error fault => "tokenization error: " ++ fault.message

end TokenKind

/-- A token with the stretch of text it covers. -/
structure Token where
  kind : TokenKind
  span : Span
  deriving DecidableEq, Repr

end GraphQL
