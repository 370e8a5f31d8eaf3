import GraphQL.Json.Number
import GraphQL.Text.Characters

/-!
# Reading JSON texts

`Json.parse?` reads a text as one JSON value.  The members of an object keep
their order; a repeated key keeps its first place and gets its last value.
-/

namespace GraphQL.Json

/-- Drops the blanks at the front. -/
def skipBlanks (cs : List Char) : List Char :=
  cs.dropWhile fun c => c = ' ' || c = '\t' || c = '\n' || c = '\r'

/-- The code that four hexadecimal digits at the front stand for. -/
def hexCode? (cs : List Char) : Option Nat :=
  let digits := cs.take 4
  if digits.length = 4 then
    digits.foldl (fun n? c => n?.bind fun n => (hexValue? c).map (16 * n + ·)) (some 0)
  else none

/-- The character that stands for what is none: half a pair without the other. -/
def replacementChar : Char := '\ufffd'

/-- Reads the rest of a string, up to and with its closing quote; `fuel` bounds
the number of characters. -/
def readString : (fuel : Nat) → List Char → Option (List Char × List Char)
  | 0, _ => none
  | fuel + 1, cs =>
    match cs with
    | '"' :: rest => some ([], rest)
    | '\\' :: 'u' :: rest => do
      let high ← hexCode? rest
      let rest := rest.drop 4
      if 0xd800 ≤ high ∧ high < 0xdc00 then
        match rest with
        | '\\' :: 'u' :: tail =>
          let low ← hexCode? tail
          if 0xdc00 ≤ low ∧ low < 0xe000 then
            let c := Char.ofNat (0x10000 + (high - 0xd800) * 0x400 + (low - 0xdc00))
            let (s, rest) ← readString fuel (tail.drop 4)
            return (c :: s, rest)
          else
            let (s, rest) ← readString fuel rest
            return (replacementChar :: s, rest)
        | _ =>
          let (s, rest) ← readString fuel rest
          return (replacementChar :: s, rest)
      else
        let c := if high.isValidChar then Char.ofNat high else replacementChar
        let (s, rest) ← readString fuel rest
        return (c :: s, rest)
    | '\\' :: c :: rest => do
      let value ← match c with
        | '"' => some '"'
        | '\\' => some '\\'
        | '/' => some '/'
        | 'b' => some '\x08'
        | 'f' => some '\x0c'
        | 'n' => some '\n'
        | 'r' => some '\r'
        | 't' => some '\t'
        | _ => none
      let (s, rest) ← readString fuel rest
      return (value :: s, rest)
    | c :: rest =>
      if c.toNat < 0x20 then none
      else do
        let (s, rest) ← readString fuel rest
        return (c :: s, rest)
    | [] => none

/-- A character that may occur in a number. -/
def isNumberChar (c : Char) : Bool :=
  c.isDigit || c = '-' || c = '+' || c = '.' || c = 'e' || c = 'E'

mutual

/-- Reads one value; `fuel` bounds the number of values and marks. -/
def readValue : (fuel : Nat) → List Char → Option (Json × List Char)
  | 0, _ => none
  | fuel + 1, cs =>
    match skipBlanks cs with
    | '{' :: rest =>
      match skipBlanks rest with
      | '}' :: rest => some (object [], rest)
      | rest => readMembers fuel [] rest
    | '[' :: rest =>
      match skipBlanks rest with
      | ']' :: rest => some (array [], rest)
      | rest => readItems fuel rest
    | '"' :: rest => do
      let (s, rest) ← readString (rest.length + 1) rest
      return (string (.ofList s), rest)
    | 't' :: 'r' :: 'u' :: 'e' :: rest => some (bool true, rest)
    | 'f' :: 'a' :: 'l' :: 's' :: 'e' :: rest => some (bool false, rest)
    | 'n' :: 'u' :: 'l' :: 'l' :: rest => some (null, rest)
    | cs => do
      let numerals ← Numerals.ofText? (cs.takeWhile isNumberChar)
      let value ← numerals.value?
      return (value, cs.dropWhile isNumberChar)

/-- Reads the items of an array from here to its end. -/
def readItems : (fuel : Nat) → List Char → Option (Json × List Char)
  | 0, _ => none
  | fuel + 1, cs => do
    let (value, rest) ← readValue fuel cs
    match skipBlanks rest with
    | ']' :: rest => return (array [value], rest)
    | ',' :: rest =>
      match ← readItems fuel rest with
      | (array items, rest) => return (array (value :: items), rest)
      | _ => none
    | _ => none

/-- Reads the members of an object from here to its end, after those already read. -/
def readMembers : (fuel : Nat) → List (String × Json) → List Char → Option (Json × List Char)
  | 0, _, _ => none
  | fuel + 1, members, cs =>
    match skipBlanks cs with
    | '"' :: rest => do
      let (key, rest) ← readString (rest.length + 1) rest
      match skipBlanks rest with
      | ':' :: rest =>
        let (value, rest) ← readValue fuel rest
        let members := Assoc.insert members (.ofList key) value
        match skipBlanks rest with
        | '}' :: rest => return (object members, rest)
        | ',' :: rest => readMembers fuel members rest
        | _ => none
      | _ => none
    | _ => none

end

/-- The value that a whole text stands for. -/
def parse? (text : String) : Option Json := do
  let cs := text.toList
  let (value, rest) ← readValue (cs.length + 1) cs
  if (skipBlanks rest).isEmpty then return value else none

end GraphQL.Json
