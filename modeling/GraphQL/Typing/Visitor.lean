import GraphQL.Traversal.Parallel
import GraphQL.Typing.Context

/-!
# Visitors that know types

`Visitor.typed` keeps the type context of a walk up to date around the calls of
another visitor, so that the context is always that of the node the visitor is
called for.
-/

namespace GraphQL

/-- States of walks that have a type context in them. -/
class HasTypeContext (σ : Type) where
  typeContext : σ → TypeContext
  mapTypeContext : (TypeContext → TypeContext) → σ → σ

instance : HasTypeContext TypeContext where
  typeContext c := c
  mapTypeContext f c := f c

instance {σ : Type} : HasTypeContext (TypeContext × σ) where
  typeContext s := s.1
  mapTypeContext f s := (f s.1, s.2)

/-- Visitors on one walk share the context. -/
instance {κ π : Type} [HasTypeContext κ] : HasTypeContext (Parallel.State κ π) where
  typeContext s := HasTypeContext.typeContext s.shared
  mapTypeContext f s := { s with shared := HasTypeContext.mapTypeContext f s.shared }

/-- The visitor, with the type context entered before it enters a node and left after
it has left the node.  A node that is skipped is left at once, and one that is
replaced gives way to its replacement. -/
def Visitor.typed {σ : Type} [HasTypeContext σ] (schema : Schema) (visitor : Visitor σ) :
    Visitor σ where
  enter node := do
    modify (HasTypeContext.mapTypeContext (·.enter schema node))
    let action ← visitor.enter node
    match action with
    | .skip => modify (HasTypeContext.mapTypeContext (·.leave node))
    | .replace replacement =>
      modify (HasTypeContext.mapTypeContext fun c => (c.leave node).enter schema replacement)
    | .proceed | .stop => pure ()
    return action
  leave node := do
    let action ← visitor.leave node
    modify (HasTypeContext.mapTypeContext (·.leave node))
    return action

end GraphQL
