import GraphQL.Token.Basic

/-!
# The value of a string literal

`StringValue.ofQuoted` reads what stands between single quotes and resolves its
escapes; `StringValue.ofBlock` reads what stands between triple quotes, where
the only escape is `\"""`, common indentation does not count and blank lines at
both ends are dropped.
-/

namespace GraphQL.StringValue

/-- Tabs and everything from the space on may be written in a string; line ends
only in a block string. -/
def isAllowed (lineEnds : Bool) (c : Char) : Bool :=
  c = '\t' || (lineEnds && (c = '\n' || c = '\r')) || ' ' ≤ c

/-- The character that stands for itself after a backslash, or is named by it. -/
def simpleEscape? : Char → Option Char
  | 'n' => some '\n'
  | 'r' => some '\r'
  | 't' => some '\t'
  | '\\' => some '\\'
  | '"' => some '"'
  | '/' => some '/'
  | 'b' => some '\x08'
  | 'f' => some '\x0c'
  | _ => none

/-- The character with the code point `n`, if there is one. -/
def charOfCode? (n : Nat) : Option Char :=
  if n.isValidChar then some (Char.ofNat n) else none

/-- Splits off the four hexadecimal digits of an escape, or says which text, read
up to its first fault, is none. -/
def hexEscape (cs : List Char) : Except StringFault Char :=
  let digits := (cs.take 4).takeWhile fun c => (hexValue? c).isSome
  if digits.length = 4 then
    let code := digits.foldl (fun n c => 16 * n + (hexValue? c).getD 0) 0
    match charOfCode? code with
    | some c => .ok c
    | none => .error (.unicodeEscape (.ofList ('\\' :: 'u' :: digits)))
  else
    .error (.unicodeEscape (.ofList ('\\' :: 'u' :: (cs.take (digits.length + 1)))))

/-- The value of the characters between single quotes. -/
def ofQuoted (cs : List Char) : Except StringFault (List Char) :=
  match cs with
  | [] => .ok []
  | '\\' :: [] => .error (.escape "\\")
  | '\\' :: 'u' :: rest => do
    let c ← hexEscape rest
    return c :: (← ofQuoted (rest.drop 4))
  | '\\' :: c :: rest => do
    match simpleEscape? c with
    | some value => return value :: (← ofQuoted rest)
    | none => .error (.escape (.ofList ['\\', c]))
  | c :: rest =>
    if isAllowed false c then do return c :: (← ofQuoted rest)
    else .error (.character c)
termination_by cs.length
decreasing_by all_goals simp_wf; all_goals omega

/-- Writes each `\"""` as `"""`. -/
def unescapeQuotes : List Char → List Char
  | '\\' :: '"' :: '"' :: '"' :: rest => '"' :: '"' :: '"' :: unescapeQuotes rest
  | c :: rest => c :: unescapeQuotes rest
  | [] => []

/-- The lines of a text, without the line ends between them. -/
def lines : List Char → List (List Char)
  | [] => [[]]
  | '\r' :: '\n' :: rest => [] :: lines rest
  | c :: rest =>
    if c = '\n' ∨ c = '\r' then [] :: lines rest
    else
      match lines rest with
      | [] => [[c]]
      | line :: others => (c :: line) :: others

/-- Spaces and tabs indent a line. -/
def isIndent (c : Char) : Bool := c = ' ' || c = '\t'

/-- The number of spaces and tabs a line starts with. -/
def indentation (line : List Char) : Nat := (line.takeWhile isIndent).length

/-- A line of nothing but spaces and tabs. -/
def isBlankLine (line : List Char) : Bool := line.all isIndent

/-- The least indentation among the lines that are not blank; zero if all are. -/
def commonIndentation (lines : List (List Char)) : Nat :=
  (((lines.filter (!isBlankLine ·)).map indentation).min?).getD 0

/-- Takes `n` characters off the front of a line that has so many. -/
def dedent (n : Nat) (line : List Char) : List Char :=
  if line.length < n then line else line.drop n

/-- Takes the indentation common to all lines but the first off those lines. -/
def dedentLines : List (List Char) → List (List Char)
  | [] => []
  | first :: others => first :: others.map (dedent (commonIndentation others))

/-- Drops the blank lines at both ends. -/
def trimBlankLines (lines : List (List Char)) : List (List Char) :=
  ((lines.dropWhile isBlankLine).reverse.dropWhile isBlankLine).reverse

/-- The value of the characters between triple quotes. -/
def ofBlock (cs : List Char) : Except StringFault (List Char) :=
  match cs.find? (!isAllowed true ·) with
  | some c => .error (.character c)
  | none => .ok (['\n'].intercalate (trimBlankLines (dedentLines (lines (unescapeQuotes cs)))))

end GraphQL.StringValue
