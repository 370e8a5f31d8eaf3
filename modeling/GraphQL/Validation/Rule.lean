import GraphQL.Validation.Error
import GraphQL.Typing.Visitor

/-!
# Validation rules

A rule watches a walk over a document and reports what it finds.  It knows the schema,
the document and the types at the current node, and it has a memory of its own; of
other rules it knows nothing.
-/

namespace GraphQL

/-- What a rule can look at. -/
structure Scope where
  schema : Schema
  document : Document
  types : TypeContext

/-- The names that were met, with the places of their first use. -/
abbrev NamesMet := List (String × Option Span)

/-- What a rule keeps in mind during the walk. -/
structure RuleMemory where
  /-- The names met in each of the groups around the node, the innermost first. -/
  names : List NamesMet := []
  /-- The places that directives are applied at: of each node around that can have
  some, the innermost first. -/
  places : List (Option DirectiveLocation) := []
  inDirective : Bool := false
  /-- What the rule found in the document before the walk. -/
  surveyed : List ValidationError := []

/-- How a rule goes on after a visit of a node.  Rules do not change the document. -/
inductive RuleAction where
  | proceed | skip | stop
  deriving DecidableEq, Repr

/-- What a rule does, as a visitor does it. -/
def RuleAction.toVisit : RuleAction → VisitAction
  | proceed => .proceed
  | skip => .skip
  | stop => .stop

/-- The answer of a rule at a node. -/
structure Finding where
  errors : List ValidationError
  action : RuleAction

namespace Finding

/-- Nothing is wrong; the walk goes on below the node. -/
def proceed : Finding := ⟨[], .proceed⟩

/-- Nothing is wrong, and the rule has nothing to do with what is below the node. -/
def skip : Finding := ⟨[], .skip⟩

/-- The errors, and on below the node. -/
def andProceed (errors : List ValidationError) : Finding := ⟨errors, .proceed⟩

/-- The errors; the rule has nothing to do with what is below the node. -/
def andSkip (errors : List ValidationError) : Finding := ⟨errors, .skip⟩

/-- The errors; the rule is done. -/
def andStop (errors : List ValidationError) : Finding := ⟨errors, .stop⟩

end Finding

/-- A rule that documents are checked by. -/
structure Rule where
  name : String
  /-- What the rule finds in a whole document before the walk.  There is no result if it
  does not come to an end. -/
  survey? : Schema → Document → Option (List ValidationError) := fun _ _ => some []
  enter : Scope → Node → StateM RuleMemory Finding := fun _ _ => return .proceed
  leave : Scope → Node → StateM RuleMemory Finding := fun _ _ => return .proceed

namespace Rule

/-- A rule that keeps nothing in mind and looks at a node when it enters it. -/
def onEnter (name : String) (check : Scope → Node → Finding) : Rule where
  name
  enter scope node := return check scope node

/-- What the rules share on a walk: the types at the node, and the errors so far. -/
abbrev Shared := TypeContext × List ValidationError

/-- The rule as a visitor of a document. -/
def visitor (schema : Schema) (document : Document) (rule : Rule) :
    Visitor (Shared × RuleMemory) where
  enter node := call (rule.enter · node)
  leave node := call (rule.leave · node)
where
  call (check : Scope → StateM RuleMemory Finding) : StateM (Shared × RuleMemory) VisitAction :=
    fun ((types, errors), memory) =>
      let (finding, memory) := check { schema, document, types } memory
      (finding.action.toVisit, ((types, errors ++ finding.errors), memory))

end Rule

/-! ## Names that may be used once -/

namespace RuleMemory

/-- Starts a group of names in the place of the innermost one. -/
def forgetNames : StateM RuleMemory Unit :=
  modify fun memory => { memory with names := [] :: memory.names.tail }

/-- Starts a group of names within the others. -/
def openNames : StateM RuleMemory Unit :=
  modify fun memory => { memory with names := [] :: memory.names }

/-- Ends the innermost group of names. -/
def closeNames : StateM RuleMemory Unit :=
  modify fun memory => { memory with names := memory.names.tail }

/-- Notes a name in the innermost group, with the place that counts as its first use.
It is an error if the name has been met there before. -/
def meetName (part : NamedPart) (name : String) (firstSpan againSpan : Option Span) :
    StateM RuleMemory (List ValidationError) := do
  let memory ← get
  let met := memory.names.headD []
  match Assoc.get? met name with
  | some first => return [⟨.duplicateName part name, [first, againSpan]⟩]
  | none =>
    set { memory with names := ((name, firstSpan) :: met) :: memory.names.tail }
    return []

end RuleMemory

end GraphQL
