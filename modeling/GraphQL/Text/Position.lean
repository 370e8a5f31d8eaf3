/-!
# Positions in a source text

A `Position` says where a character stands: its line, its column in characters
and in UTF-16 code units, and its offset in UTF-8 bytes, all counted from zero.
A `Span` is a half-open stretch between two positions.  What a reader of an
error message sees is a `Location`, a line and a column counted from one.
-/

namespace GraphQL

/-- The place of a character in a source text; every count starts at zero. -/
structure Position where
  line : Nat
  /-- The number of characters before it on its line. -/
  column : Nat
  /-- The number of UTF-16 code units before it on its line. -/
  utf16Column : Nat
  /-- The number of UTF-8 bytes before it in the whole text. -/
  byte : Nat
  deriving DecidableEq, Repr

/-- A line and a column counted from one, as shown to people. -/
structure Location where
  line : Nat
  column : Nat
  deriving DecidableEq, Repr

/-- The stretch of text from `start` up to, and not including, `stop`. -/
structure Span where
  start : Position
  stop : Position
  deriving DecidableEq, Repr

namespace Position

/-- The position of the first character of a text. -/
def origin : Position := ⟨0, 0, 0, 0⟩

/-- The position as shown to people. -/
def location (p : Position) : Location := ⟨p.line + 1, p.column + 1⟩

end Position

namespace Span

/-- The stretch of no characters at `p`. -/
def emptyAt (p : Position) : Span := ⟨p, p⟩

/-- Where the stretch starts, as shown to people. -/
def location (s : Span) : Location := s.start.location

end Span

end GraphQL
