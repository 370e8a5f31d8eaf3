import GraphQL.Document.Height

/-!
# Visiting the nodes of a tree

A visitor is called at every node twice, before and after the nodes below it, and
answers each time what to do next.  `visit` walks a tree with a visitor and gives
the tree with all the replacements that the visitor asked for.

A replacement that is made on entering a node is walked in its turn, so a visitor
can make a tree grow without end.  `visit` goes down at most `growth` levels more
than the tree has; nodes that lie deeper than that are left as they are.  A visitor
that replaces nothing on entering never gets there.
-/

namespace GraphQL

/-- What to do after a visit of a node. -/
inductive VisitAction where
  /-- Go on. -/
  | proceed
  /-- On entering: leave out what is below the node, and do not leave it either. -/
  | skip
  /-- End the walk. -/
  | stop
  /-- Put another node in the place of this one. -/
  | replace (node : Node)
  deriving Repr

/-- The two calls at a node; they work on a state of the type `σ`. -/
structure Visitor (σ : Type) where
  enter : Node → StateM σ VisitAction := fun _ => pure .proceed
  leave : Node → StateM σ VisitAction := fun _ => pure .proceed

/-- A node that was to be placed where nodes of its kind cannot stand. -/
structure Misfit where
  child : NodeKind
  slot : Slot
  parent : NodeKind
  deriving DecidableEq, Repr

def Misfit.message (m : Misfit) : String :=
  "a " ++ m.child.text ++ " node cannot be placed in the " ++ m.slot.text ++ " slot of a " ++
    m.parent.text ++ " node"

namespace Traversal

/-- What came of the walk below a node: the node in its place, if it changed, and
whether the walk is at its end. -/
structure Progress where
  edited : Option Node
  stopped : Bool
  deriving Repr

/-- A change to be made below a node. -/
structure Edit where
  slot : Slot
  index : Nat
  node : Node
  deriving Repr

/-- Makes the changes one after the other. -/
def applyEdits (node : Node) : List Edit → Except Misfit Node
  | [] => .ok node
  | edit :: rest =>
    match node.replaceChild? edit.slot edit.index edit.node with
    | some node => applyEdits node rest
    | none => .error ⟨edit.node.kind, edit.slot, node.kind⟩

/-- A walk over a state, which a misfit ends. -/
abbrev Walk (σ : Type) := ExceptT Misfit (StateM σ)

/-- Walks the children in turn, and collects the changes. -/
def walkChildren {σ : Type} (walk : Node → Walk σ Progress) :
    List (Slot × Nat × Node) → Walk σ (List Edit × Bool)
  | [] => return ([], false)
  | (slot, index, child) :: rest => do
    let progress ← walk child
    let edit := progress.edited.toList.map (⟨slot, index, ·⟩)
    if progress.stopped then return (edit, true)
    let (edits, stopped) ← walkChildren walk rest
    return (edit ++ edits, stopped)

/-- Walks the children of a node, which may be a replacement itself, and leaves the node. -/
def walkBelow {σ : Type} (visitor : Visitor σ) (walk : Node → Walk σ Progress) (base : Node)
    (replaced : Option Node) : Walk σ Progress := do
  let (edits, stopped) ← walkChildren walk base.placedChildren
  let edited ← if edits.isEmpty then pure replaced else some <$> applyEdits base edits
  if stopped then return ⟨edited, true⟩
  match ← visitor.leave (edited.getD base) with
  | .proceed | .skip => return ⟨edited, false⟩
  | .stop => return ⟨edited, true⟩
  | .replace replacement => return ⟨some replacement, false⟩

/-- Walks a node that is not more than `depth` levels high. -/
def walk {σ : Type} (visitor : Visitor σ) : (depth : Nat) → Node → Walk σ Progress
  | 0, _ => return ⟨none, false⟩
  | depth + 1, node => do
    match ← visitor.enter node with
    | .skip => return ⟨none, false⟩
    | .stop => return ⟨none, true⟩
    | .proceed => walkBelow visitor (walk visitor depth) node none
    | .replace replacement =>
      walkBelow visitor (walk visitor depth) replacement (some replacement)

/-- The levels by which replacements may make a tree higher. -/
def growth : Nat := 10000

end Traversal

/-- Walks the tree below `root`.  The result is what takes the place of the root,
if anything changed. -/
def visit {σ : Type} (visitor : Visitor σ) (root : Node) (state : σ) :
    Except Misfit (Option Node) × σ :=
  let (result, state) := (Traversal.walk visitor (root.height + Traversal.growth) root).run state
  (result.map (·.edited), state)

end GraphQL
