import GraphQL.Text.Cursor

/-!
# Source texts

A `Source` is a text with the name under which errors report it.
-/

namespace GraphQL

/-- A text and the name it is reported under. -/
structure Source where
  body : String
  name : String
  deriving DecidableEq, Repr

namespace Source

/-- The name of a text that was given none. -/
def defaultName : String := "GraphQL request"

/-- Reads `text`, which starts at the offset `byte`, up to the offset `limit`,
keeping the place as people count it. -/
def locate (limit : Nat) : List Char → (byte : Nat) → (afterReturn : Bool) → Location →
    Location
  | [], _, _, place => place
  | c :: rest, byte, afterReturn, place =>
    if limit ≤ byte then place
    else
      let next : Location :=
        if c = '\n' then if afterReturn then place else ⟨place.line + 1, 1⟩
        else if c = '\r' then ⟨place.line + 1, 1⟩
        else ⟨place.line, place.column + 1⟩
      locate limit rest (byte + c.utf8Size) (c = '\r') next

/-- The place of the first character boundary at or after the offset `byte`, or
of the end of the text if there is none. -/
def locationAt (source : Source) (byte : Nat) : Location :=
  locate byte source.body.toList 0 false ⟨1, 1⟩

end Source

/-- The characters of `text` from the byte offset `start` up to `stop`. -/
def Span.textIn (span : Span) (text : List Char) : String :=
  let rest := (Cursor.atByte text span.start.byte).rest
  let stop := Cursor.atByte text span.stop.byte
  .ofList (rest.take (rest.length - stop.rest.length))

end GraphQL
