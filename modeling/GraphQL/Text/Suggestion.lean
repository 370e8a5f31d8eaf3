import GraphQL.Text.LowerCase

/-!
# Suggestions for misspelt names

How many edits lie between two names, which of some options are close enough to a
name to be meant by it, and how a message lists them.
-/

namespace GraphQL

namespace Suggestion

/-! ## Edit distance -/

/-- One row of the table of distances between the prefixes of two texts, from its
second cell on.  The row belongs to the character `a`, and `aBefore` is the character
before it; `left` is the cell to the left, `above` the row before from the column to
the left on, and `twoAbove` the row before that, from two columns to the left on. -/
def cells (a : Char) (aBefore : Option Char) (left : Nat) (bBefore : Option Char) :
    (bs : List Char) → (above twoAbove : List Nat) → List Nat
  | b :: bs, diagonal :: up :: above, twoAbove =>
    let cost := if a = b then 0 else 1
    let edited := min (min (up + 1) (left + 1)) (diagonal + cost)
    let cell :=
      match aBefore, bBefore, twoAbove with
      | some a', some b', start :: _ =>
        if a = b' ∧ a' = b then min edited (start + cost) else edited
      | _, _, _ => edited
    let twoAbove := if bBefore.isSome then twoAbove.tail else twoAbove
    cell :: cells a aBefore cell (some b) bs (up :: above) twoAbove
  | _, _, _ => []

/-- The last row of the table, from a row on. -/
def lastRow (bs : List Char) (aBefore : Option Char) (twoAbove above : List Nat) :
    List Char → List Nat
  | [] => above
  | a :: as =>
    let first := above.headD 0 + 1
    lastRow bs (some a) above (first :: cells a aBefore first none bs above twoAbove) as

/-- The least number of insertions, deletions, replacements and exchanges of two
neighbours that lead from one text to the other, where nothing is edited twice. -/
def alignmentDistance (as bs : List Char) : Nat :=
  (lastRow bs none [] (List.range (bs.length + 1)) as).getLastD 0

/-- The distance of two names: that of their lower-case forms, but names that differ
only in case have the distance one. -/
def distance (a b : String) : Nat :=
  if a = b then 0
  else
    let a := lowerCaseText a.toList
    let b := lowerCaseText b.toList
    if a = b then 1 else alignmentDistance a b

/-! ## Close names -/

/-- Whether a distance is small for the lengths of the two names: one edit, or one for
every two characters of the longer. -/
def isClose (a b : String) (distance : Nat) : Bool :=
  2 * distance ≤ max (max a.length b.length) 2

/-- The options that are close to a name, the closest first; of two that are equally
close the earlier one is first. -/
def close (name : String) (options : List String) : List String :=
  let rated := options.map fun option => (distance name option, option)
  let near := rated.filter fun (d, option) => isClose name option d
  (near.mergeSort fun a b => a.1 ≤ b.1).map (·.2)

/-! ## Lists in messages -/

/-- How many options a message names at most. -/
def maxNamed : Nat := 5

/-- The options in quotes, with "or" before the last of them. -/
def quoted (options : List String) : String :=
  match (options.take maxNamed).map fun option => "\"" ++ option ++ "\"" with
  | [] => ""
  | [a] => a
  | [a, b] => a ++ " or " ++ b
  | many => ", ".intercalate many.dropLast ++ ", or " ++ many.getLastD ""

/-- The question whether one of the options was meant, if there is any. -/
def question? (options : List String) : Option String :=
  if options.isEmpty then none else some ("did you mean " ++ quoted options ++ "?")

end Suggestion

end GraphQL
