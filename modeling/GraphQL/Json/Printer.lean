import GraphQL.Json.Basic
import GraphQL.Number.Decimal
import GraphQL.Text.Characters

/-!
# JSON texts

The compact text of a JSON value: no blanks, members in their order, and in
strings only those characters escaped that have to be.
-/

namespace GraphQL.Json

/-- Numbers have an exponent below `0.00001` and from `1e+16` on. -/
def numberLayout : Decimal.Layout := ⟨-5, 16⟩

/-- A character within a string. -/
def escapeChar (c : Char) : List Char :=
  match c with
  | '"' => ['\\', '"']
  | '\\' => ['\\', '\\']
  | '\x08' => ['\\', 'b']
  | '\x0c' => ['\\', 'f']
  | '\n' => ['\\', 'n']
  | '\r' => ['\\', 'r']
  | '\t' => ['\\', 't']
  | c => if c.toNat < 0x20 then '\\' :: 'u' :: hexDigits4 c.toNat else [c]

/-- A string in quotes. -/
def quote (s : String) : List Char := '"' :: s.toList.flatMap escapeChar ++ ['"']

mutual

/-- The characters of the text of a value. -/
def render : Json → List Char
  | null => "null".toList
  | bool true => "true".toList
  | bool false => "false".toList
  | int i => (toString i).toList
  | float x => (Decimal.text numberLayout x).toList
  | string s => quote s
  | array [] => ['[', ']']
  | array (item :: items) => '[' :: render item ++ renderItems items
  | object [] => ['{', '}']
  | object ((key, value) :: members) =>
    '{' :: quote key ++ ':' :: render value ++ renderMembers members

/-- The items of an array from the second one on, and the end of the array. -/
def renderItems : List Json → List Char
  | [] => [']']
  | item :: items => ',' :: render item ++ renderItems items

/-- The members of an object from the second one on, and the end of the object. -/
def renderMembers : List (String × Json) → List Char
  | [] => ['}']
  | (key, value) :: members => ',' :: quote key ++ ':' :: render value ++ renderMembers members

end

/-- The compact text of a value. -/
def text (value : Json) : String := .ofList value.render

end GraphQL.Json
