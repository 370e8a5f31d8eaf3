import GraphQL.Validation.Rule

/-!
# Rules about directives
-/

namespace GraphQL

namespace Definition

/-- The place that the directives of a definition are applied at, if it can have any. -/
def directiveLocation? : Definition → Option DirectiveLocation
  | .operation d =>
    some (match d.operation with
      | .query => .query
      | .mutation => .mutation
      | .subscription => .subscription)
  | .fragment _ => some .fragmentDefinition
  | .schema _ => some .schema
  | .scalarType _ => some .scalar
  | .objectType _ => some .object
  | .interfaceType _ => some .interface
  | .unionType _ => some .union
  | .enumType _ => some .enum
  | .inputObjectType _ => some .inputObject
  | .typeExtension _ | .directive _ => none

end Definition

namespace Rule

/-- The place that the directives on a node are applied at.  The outer option is none
for nodes that have nothing to do with directives, and the inner one for those on which
no directive may stand.  `around` is the place of the node around it. -/
def directivePlace? (around : Option DirectiveLocation) :
    Node → Option (Option DirectiveLocation)
  | .definition d => d.directiveLocation?.map some
  | .selection (.field _) => some (some .field)
  | .selection (.spread _) => some (some .fragmentSpread)
  | .selection (.inline _) => some (some .inlineFragment)
  | .fieldDefinition _ => some (some .fieldDefinition)
  | .enumValueDefinition _ => some (some .enumValue)
  | .inputValueDefinition _ =>
    some (some (if around = some .inputObject then .inputFieldDefinition
      else .argumentDefinition))
  | .variableDefinition _ => some none
  | _ => none

/-- The error of a directive on a node of the given place. -/
def directiveErrors (schema : Schema) (place : Option DirectiveLocation)
    (directive : Directive) : List ValidationError :=
  let name := directive.name.text
  match schema.directive? name with
  | none => [⟨.unknownDirective name, [directive.span]⟩]
  | some definition =>
    if place.any definition.isAllowedAt then []
    else [⟨.misplacedDirective name place, [directive.span]⟩]

/-- Every directive is known and stands where it may. -/
def knownDirectives : Rule where
  name := "KnownDirectives"
  enter scope node := do
    let memory ← get
    let around := memory.places.head?.join
    match directivePlace? around node, node with
    | some place, _ =>
      set { memory with places := place :: memory.places }
      return .proceed
    | none, .directive d => return .andSkip (directiveErrors scope.schema around d)
    | none, _ => return .proceed
  leave _ node := do
    if (directivePlace? none node).isSome then
      modify fun memory => { memory with places := memory.places.tail }
    return .proceed

end Rule

end GraphQL
