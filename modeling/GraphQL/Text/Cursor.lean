import GraphQL.Text.Position

/-!
# Walking through a text

A `Cursor` is a text that has been read up to some point: the position reached
and the characters that are left.  All positions are computed by one function,
`Cursor.step`, which moves over a single character.  A line feed, a carriage
return and a carriage return with a line feed after it each end one line.
-/

namespace GraphQL

/-- The number of UTF-16 code units that encode `c`. -/
def utf16Width (c : Char) : Nat := if c.toNat < 0x10000 then 1 else 2

/-- A text read up to `position`, with the characters that are `rest`. -/
structure Cursor where
  position : Position
  /-- Whether the character just read is a carriage return, so that a line feed
  that follows belongs to the same line end. -/
  afterReturn : Bool
  rest : List Char
  deriving DecidableEq, Repr

namespace Cursor

/-- The start of a text. -/
def start (text : List Char) : Cursor := ⟨.origin, false, text⟩

/-- The position after reading `c` at `p`. -/
def positionAfter (p : Position) (afterReturn : Bool) (c : Char) : Position :=
  let byte := p.byte + c.utf8Size
  if c = '\n' then
    if afterReturn then { p with byte } else ⟨p.line + 1, 0, 0, byte⟩
  else if c = '\r' then
    ⟨p.line + 1, 0, 0, byte⟩
  else
    ⟨p.line, p.column + 1, p.utf16Column + utf16Width c, byte⟩

/-- Reads one character; at the end of the text nothing happens. -/
def step (cursor : Cursor) : Cursor :=
  match cursor.rest with
  | [] => cursor
  | c :: rest => ⟨positionAfter cursor.position cursor.afterReturn c, c = '\r', rest⟩

/-- Reads `n` characters. -/
def advance (cursor : Cursor) : Nat → Cursor
  | 0 => cursor
  | n + 1 => cursor.step.advance n

/-- Reads `n` characters of `rest` for as long as the byte offset is below `byte`. -/
def seekWithin (byte : Nat) : Nat → Cursor → Cursor
  | 0, cursor => cursor
  | n + 1, cursor => if cursor.position.byte < byte then seekWithin byte n cursor.step else cursor

/-- The text from its first character boundary at or after the offset `byte`;
an offset beyond the end gives the end. -/
def atByte (text : List Char) (byte : Nat) : Cursor :=
  seekWithin byte text.length (start text)

theorem step_rest (cursor : Cursor) : cursor.step.rest = cursor.rest.drop 1 := by
  unfold step
  split <;> simp_all

@[simp] theorem advance_rest (cursor : Cursor) (n : Nat) :
    (cursor.advance n).rest = cursor.rest.drop n := by
  induction n generalizing cursor with
  | zero => rfl
  | succ n ih => rw [advance, ih, step_rest, List.drop_drop, Nat.add_comm]

end Cursor

end GraphQL
