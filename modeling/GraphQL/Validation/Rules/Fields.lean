import GraphQL.Validation.Rule

/-!
# Rules about fields
-/

namespace GraphQL.Rule

/-- Fields of leaf types have no selection, and all other fields have one. -/
def scalarLeafs : Rule :=
  onEnter "ScalarLeafs" fun scope node =>
    match node with
    | .selection (.field f) =>
      match scope.types.outputType?, scope.types.namedOutputType? scope.schema with
      | some type, some named =>
        match f.selectionSet, named.isLeafType with
        | some set, true => .andProceed [⟨.leafWithSelection f.name.text type, [set.span]⟩]
        | none, false => .andProceed [⟨.compositeWithoutSelection f.name.text type, [f.span]⟩]
        | _, _ => .proceed
      | _, _ => .proceed
    | _ => .proceed

/-- The types within an abstract type that have a field: first the interfaces, those
that more of the object types share before the others, then the object types. -/
def typesWithField (schema : Schema) (parent : TypeDef) (field : String) : List String :=
  let objects := (schema.possibleTypes parent).filter fun t => (t.field? field).isSome
  let interfaces := objects.flatMap fun t =>
    t.interfaceNames.filter fun name =>
      ((schema.type? name).bind (·.interface?)).any fun d => Assoc.contains d.fields field
  let ranked := interfaces.eraseDups.mergeSort fun a b =>
    interfaces.count b ≤ interfaces.count a
  ranked ++ objects.map (·.name)

/-- Every selected field is one of its parent type. -/
def fieldsOnCorrectType : Rule :=
  onEnter "FieldsOnCorrectType" fun scope node =>
    match node with
    | .selection (.field f) =>
      match scope.types.parentType?, scope.types.field? with
      | some parent, none =>
        let name := f.name.text
        let fields := (parent.fields?.getD []).map (·.1)
        let fault := .unknownField name parent.name (typesWithField scope.schema parent name)
          (Suggestion.close name fields)
        .andProceed [⟨fault, [f.span]⟩]
      | _, _ => .proceed
    | _ => .proceed

end GraphQL.Rule
