import GraphQL.Typing.Visitor

/-!
# What a document uses

The fragments that a selection set spreads, the fragments that an operation reaches
through spreads, and the places where variables are used.  Spreads may form cycles;
each fragment is still listed once.
-/

namespace GraphQL

/-! ## Spreads -/

mutual

/-- The fragment spreads anywhere in a selection set: those that stand in the set
itself first, then those of the sets nested in it, the last set first. -/
def SelectionSet.spreads : SelectionSet → List FragmentSpread
  | ⟨selections, _⟩ => directSpreads selections ++ nestedSpreads selections

/-- The spreads among some selections. -/
def directSpreads : List Selection → List FragmentSpread
  | [] => []
  | .spread s :: rest => s :: directSpreads rest
  | _ :: rest => directSpreads rest

/-- The spreads within the selection sets of some selections. -/
def nestedSpreads : List Selection → List FragmentSpread
  | [] => []
  | .field ⟨_, _, _, _, some set, _⟩ :: rest => nestedSpreads rest ++ set.spreads
  | .inline ⟨_, _, set, _⟩ :: rest => nestedSpreads rest ++ set.spreads
  | _ :: rest => nestedSpreads rest

end

/-! ## Reached fragments -/

namespace Document

/-- The fragments under other names. -/
def fragmentsWithout (name : String) (fragments : List FragmentDefinition) :
    List FragmentDefinition :=
  fragments.filter (·.name.text ≠ name)

/-- Takes the fragments that are spread out of those that are left: the ones that
remain, and the ones that were taken, in the order of the spreads. -/
def takeSpread (left : List FragmentDefinition) :
    List FragmentSpread → List FragmentDefinition × List FragmentDefinition
  | [] => (left, [])
  | spread :: rest =>
    match left.find? (·.name.text = spread.name.text) with
    | none => takeSpread left rest
    | some fragment =>
      let (left, taken) := takeSpread (fragmentsWithout spread.name.text left) rest
      (left, fragment :: taken)

theorem length_takeSpread_le (left : List FragmentDefinition) (spreads : List FragmentSpread) :
    (takeSpread left spreads).1.length + (takeSpread left spreads).2.length ≤ left.length := by
  induction spreads generalizing left with
  | nil => simp [takeSpread]
  | cons spread rest ih =>
    unfold takeSpread
    split
    · exact ih left
    · rename_i fragment h
      have hlt : (fragmentsWithout spread.name.text left).length < left.length :=
        List.length_filter_lt_length_iff_exists.2
          ⟨fragment, List.mem_of_find?_eq_some h, by simpa using List.find?_some h⟩
      have := ih (fragmentsWithout spread.name.text left)
      simp only [List.length_cons]
      omega

/-- The fragments that can be reached from some selection sets, each once.  Of the sets
that wait, the one that came last is next. -/
def reachedFragments (left : List FragmentDefinition) :
    List SelectionSet → List FragmentDefinition
  | [] => []
  | set :: waiting =>
    (takeSpread left set.spreads).2 ++
      reachedFragments (takeSpread left set.spreads).1
        ((takeSpread left set.spreads).2.reverse.map (·.selectionSet) ++ waiting)
termination_by waiting => left.length + waiting.length
decreasing_by
  have := length_takeSpread_le left set.spreads
  simp only [List.length_append, List.length_map, List.length_reverse, List.length_cons]
  omega

/-- The fragments that an operation reaches through spreads.  Of fragments that share
a name the first one counts. -/
def referencedFragments (document : Document) (operation : OperationDefinition) :
    List FragmentDefinition :=
  reachedFragments document.fragments [operation.selectionSet]

end Document

/-! ## Variables -/

/-- A place where a variable is used. -/
structure VariableUsage where
  name : String
  span : Option Span
  /-- The type that is expected there, if it is known. -/
  inputType : Option TypeRef
  /-- The default of the argument or the input field that the variable is given for. -/
  defaultValue : Option Json

namespace VariableUsage

/-- Notes the variables on a walk. -/
def collector : Visitor (TypeContext × List VariableUsage) where
  enter
    | .variableDefinition _ => return .skip
    | .value (.var v) => do
      let (types, usages) ← get
      let usage : VariableUsage :=
        { name := v.name.text
          span := v.span
          inputType := types.inputType?
          defaultValue := types.default? }
      set (types, usages ++ [usage])
      return .proceed
    | _ => return .proceed

end VariableUsage

/-- The places in a definition where variables are used, in the order of the text. -/
def Definition.variableUsages (schema : Schema) (definition : Definition) :
    List VariableUsage :=
  (visit (VariableUsage.collector.typed schema) (.definition definition) ({}, [])).2.2

/-- The places where variables are used in an operation and in the fragments that it
reaches. -/
def Document.operationUsages (schema : Schema) (document : Document)
    (operation : OperationDefinition) : List VariableUsage :=
  (Definition.operation operation).variableUsages schema ++
    (document.referencedFragments operation).flatMap fun fragment =>
      (Definition.fragment fragment).variableUsages schema

end GraphQL
