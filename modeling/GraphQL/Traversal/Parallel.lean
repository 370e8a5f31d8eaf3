import GraphQL.Traversal.Visitor

/-!
# Several visitors on one walk

`Visitor.parallel` walks a tree once for a row of visitors.  The visitors work on a
state that they share and each on one of its own.  One that skips the nodes below a
node is left out until that node is left, and one that stops is left out from there
on; the walk ends when all have stopped.
-/

namespace GraphQL

namespace Parallel

/-- Whether a visitor takes part in the walk. -/
inductive Mode where
  | active
  /-- Left out until the node at this level is left. -/
  | skipping (level : Nat)
  | done
  deriving DecidableEq, Repr

/-- One of the visitors, with its own state. -/
structure Lane (κ π : Type) where
  visitor : Visitor (κ × π)
  own : π
  mode : Mode

/-- The state of the walk: what is shared, the lanes, and the level of the node. -/
structure State (κ π : Type) where
  shared : κ
  lanes : List (Lane κ π)
  level : Nat

variable {κ π : Type}

/-- The start of a walk. -/
def State.start (shared : κ) (visitors : List (Visitor (κ × π) × π)) : State κ π where
  shared
  lanes := visitors.map fun (visitor, own) => ⟨visitor, own, .active⟩
  level := 0

def allDone (lanes : List (Lane κ π)) : Bool := lanes.all (·.mode = .done)

/-- Enters a node with the lanes in turn.  A lane that replaces the node is the last
one to be called. -/
def enterLanes (level : Nat) (node : Node) (shared : κ) :
    List (Lane κ π) → κ × List (Lane κ π) × Option Node
  | [] => (shared, [], none)
  | lane :: rest =>
    if lane.mode = .active then
      let (action, shared, own) := (lane.visitor.enter node).run (shared, lane.own)
      let lane := { lane with own }
      match action with
      | .replace replacement => (shared, lane :: rest, some replacement)
      | .proceed => before lane (enterLanes level node shared rest)
      | .skip => before { lane with mode := .skipping level } (enterLanes level node shared rest)
      | .stop => before { lane with mode := .done } (enterLanes level node shared rest)
    else before lane (enterLanes level node shared rest)
where
  before (lane : Lane κ π) :
      κ × List (Lane κ π) × Option Node → κ × List (Lane κ π) × Option Node
    | (shared, rest, replacement) => (shared, lane :: rest, replacement)

/-- Leaves a node with the lanes in turn, the last one first.  After a lane that
replaces the node no other is called. -/
def leaveLanes (level : Nat) (node : Node) (shared : κ) :
    List (Lane κ π) → κ × List (Lane κ π) × Option Node
  | [] => (shared, [], none)
  | lane :: rest =>
    let (shared, rest, replacement) := leaveLanes level node shared rest
    if lane.mode = .skipping level then
      (shared, { lane with mode := .active } :: rest, replacement)
    else if lane.mode = .active ∧ replacement.isNone then
      let (action, shared, own) := (lane.visitor.leave node).run (shared, lane.own)
      let lane := { lane with own }
      match action with
      | .proceed | .skip => (shared, lane :: rest, none)
      | .stop => (shared, { lane with mode := .done } :: rest, none)
      | .replace replacement => (shared, lane :: rest, some replacement)
    else (shared, lane :: rest, replacement)

/-- What the walk does next. -/
def decide (lanes : List (Lane κ π)) : Option Node → VisitAction
  | some replacement => .replace replacement
  | none => if allDone lanes then .stop else .proceed

end Parallel

/-- The visitor that calls the lanes of its state. -/
def Visitor.parallel {κ π : Type} : Visitor (Parallel.State κ π) where
  enter node state :=
    let level := state.level + 1
    let (shared, lanes, replacement) := Parallel.enterLanes level node state.shared state.lanes
    (Parallel.decide lanes replacement, { shared, lanes, level })
  leave node state :=
    let (shared, lanes, replacement) :=
      Parallel.leaveLanes state.level node state.shared state.lanes
    (Parallel.decide lanes replacement, { shared, lanes, level := state.level - 1 })

end GraphQL
