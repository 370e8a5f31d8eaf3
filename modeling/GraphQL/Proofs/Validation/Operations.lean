import Mathlib
import GraphQL.Proofs.Validation.Valid

/-!
# Operations of valid documents

The variables of an operation have different names (`nodup_variableNames`), and their defaults
are values of their types (`exists_of_default`).  Where the operation uses a variable, it has
defined it (`exists_definition_of_usage`), and the type of the variable can be used for the one
that is expected (`isSubtype_of_usage`).
-/

namespace GraphQL

variable {schema : Schema} {document : Document} {operation : OperationDefinition}

theorem Document.mem_definitions_of_mem_operations (h : operation ∈ document.operations) :
    .operation operation ∈ document.definitions := by
  obtain ⟨d, hd, hoperation⟩ := List.mem_filterMap.mp h
  cases d with
  | operation d =>
      obtain rfl := Option.some.inj hoperation
      exact hd
  | _ => cases hoperation

namespace Node

/-- The variables of an operation come right after its name. -/
theorem exists_placedChildren_operation (operation : OperationDefinition) : ∃ names rest,
    (Node.definition (.operation operation)).placedChildren =
        (names ++ Document.placed .variableDefinitions Node.variableDefinition
          operation.variableDefinitions) ++ rest ∧
      ∀ entry ∈ names, ∃ name, entry.2.2 = .name name := by
  let inSlot (slot : Slot) : List (Slot × ℕ × Node) :=
    ((Node.definition (.operation operation)).children slot).zipIdx.map fun entry =>
      (slot, entry.2, entry.1)
  have hvariables : inSlot .variableDefinitions = Document.placed .variableDefinitions
      Node.variableDefinition operation.variableDefinitions := by
    simp [inSlot, Document.placed, Node.children, Node.contents, Node.definitionContents,
      Contents.many, List.zipIdx_map, Part.toNode]
  refine ⟨inSlot .name, inSlot .directives ++ inSlot .selectionSet, ?_, ?_⟩
  · rw [← hvariables]
    simp [Node.placedChildren, Node.kind, Definition.kind, NodeKind.slots, inSlot]
  · intro entry hentry
    obtain ⟨⟨child, index⟩, hchild, rfl⟩ := List.mem_map.mp hentry
    obtain ⟨name, -, rfl⟩ := List.mem_map.mp (List.fst_mem_of_mem_zipIdx hchild)
    exact ⟨name, rfl⟩

theorem Lower.variableDefinition {d : VariableDefinition}
    (h : d ∈ operation.variableDefinitions) :
    Node.Lower (.definition (.operation operation)) (.variableDefinition d) := by
  refine ⟨hasChild_iff.mpr ⟨.variableDefinitions,
    by simp [Node.kind, Definition.kind, NodeKind.slots], List.mem_map_of_mem h⟩, ?_⟩
  have hle := le_maxHeight VariableDefinition.height h
  simp only [Node.height, Definition.height]
  omega

end Node

namespace Rule

/-- What a rule finds at a definition of a valid document, if it passes the root. -/
theorem quiet_of_mem {rule : Rule} {d : Definition} (hvalid : document.IsValid schema)
    (hrule : rule ∈ Rule.all) (hendures : rule.Endures)
    (hpasses : rule.Passes (.document document)) (hd : d ∈ document.definitions) :
    ∃ depth, (Node.definition d).height ≤ depth ∧
      rule.Quiet schema document depth (.definition d) := by
  obtain ⟨depth, surveyed, hdepth, -, hnone⟩ :=
    Document.exists_alone_eq_nil (Document.satisfies_of_isValid hvalid hrule)
  exact Quiet.of_lower ⟨_, _, hnone⟩ hendures hpasses hdepth (.definition hd)

/-- A rule that looks at operations as a whole finds nothing at any of a valid document. -/
theorem check_eq_nil {name : String}
    {check : Schema → Document → OperationDefinition → List ValidationError}
    (hvalid : document.IsValid schema) (hrule : onOperation name check ∈ Rule.all)
    (h : operation ∈ document.operations) : check schema document operation = [] := by
  have hendures : (onOperation name check).Endures := by
    refine fun scope node memory => ⟨?_, RuleAction.noConfusion⟩
    simp only [onOperation, onEnter, pure, StateT.pure]
    split <;> exact RuleAction.noConfusion
  obtain ⟨depth, hdepth, c, memory, hquiet⟩ := quiet_of_mem hvalid hrule hendures
    (fun _ _ => rfl) (Document.mem_definitions_of_mem_operations h)
  obtain ⟨depth, rfl⟩ : ∃ d, depth = d + 1 := Nat.exists_eq_add_of_le' (le_trans (by
    simp only [Node.height, Definition.height]
    omega) hdepth)
  rwa [alone_of_skip rfl rfl] at hquiet

end Rule

namespace Document

variable {usage : VariableUsage} {d : VariableDefinition}

/-- The name that a definition gives a variable. -/
def variableName? : Node → Option String
  | .variableDefinition d => some d.var.name.text
  | _ => none

theorem nodup_variableNames (hvalid : document.IsValid schema)
    (h : operation ∈ document.operations) :
    (operation.variableDefinitions.map (·.var.name.text)).Nodup := by
  have hendures : Rule.uniqueVariableNames.Endures := by
    refine fun scope node memory => ⟨?_, RuleAction.noConfusion⟩
    cases node with
    | definition d => cases d <;> exact RuleAction.noConfusion
    | _ => exact RuleAction.noConfusion
  obtain ⟨depth, hdepth, c, memory, hquiet⟩ := Rule.quiet_of_mem hvalid
    (show Rule.uniqueVariableNames ∈ _ by simp [Rule.all]) hendures (fun _ _ => rfl)
    (mem_definitions_of_mem_operations h)
  obtain ⟨depth, rfl⟩ : ∃ d, depth = d + 2 := Nat.exists_eq_add_of_le' (le_trans (by
    simp only [Node.height, Definition.height]
    omega) hdepth)
  have hbelow := Rule.aloneEach_errors_eq_nil rfl rfl hquiet
  obtain ⟨names, rest, hchildren, hnames⟩ := Node.exists_placedChildren_operation operation
  rw [hchildren] at hbelow
  have hbelow := Rule.findEach_errors_eq_nil_of_append hbelow
  have hnone (entry : Slot × ℕ × Node) (hentry : entry ∈ names) :
      ∃ name, entry.2.2 = .name name ∧ variableName? entry.2.2 = none := by
    obtain ⟨name, hname⟩ := hnames entry hentry
    exact ⟨name, hname, hname ▸ rfl⟩
  rw [← filterMap_append_placed (fun entry hentry => (hnone entry hentry).choose_spec.2)
    fun d => (rfl : variableName? (.variableDefinition d) = some d.var.name.text)]
  refine nodup_names (fun _ _ _ => ⟨rfl, rfl⟩) (fun entry hentry => ?_) hbelow
  rcases List.mem_append.mp hentry with hentry | hentry
  · exact Or.inl (hnone entry hentry)
  · obtain ⟨d, -, hnode⟩ := exists_of_mem_placed hentry
    exact Or.inr ⟨.variableUse, d.var.name.text, d.var.span, d.var.span, hnode ▸ rfl,
      fun scope memory => hnode ▸ rfl⟩

/-- The default of a variable is a value of the type, and the type allows null. -/
theorem defaultErrors_eq_nil {literal : Value} {type : TypeRef} (hvalid : document.IsValid schema)
    (h : operation ∈ document.operations) (hd : d ∈ operation.variableDefinitions)
    (hliteral : d.defaultValue = some literal) (htype : schema.resolve? d.type = some type) :
    type.isNonNull = false ∧ Literal.problems schema literal type = [] := by
  have hendures : Rule.defaultValuesOfCorrectType.Endures := by
    refine fun scope node memory => ⟨?_, RuleAction.noConfusion⟩
    simp only [Rule.defaultValuesOfCorrectType, Rule.onEnter, pure, StateT.pure]
    split
    · split <;> exact RuleAction.noConfusion
    all_goals exact RuleAction.noConfusion
  obtain ⟨depth, hdepth, hquiet⟩ := Rule.quiet_of_mem hvalid
    (show Rule.defaultValuesOfCorrectType ∈ _ by simp [Rule.all]) hendures (fun _ _ => rfl)
    (mem_definitions_of_mem_operations h)
  obtain ⟨depth, hdepth, c, memory, hquiet⟩ :=
    hquiet.of_lower hendures (fun _ _ => rfl) hdepth (.variableDefinition hd)
  obtain ⟨depth, rfl⟩ : ∃ d, depth = d + 1 := Nat.exists_eq_add_of_le' (le_trans (by
    simp only [Node.height, VariableDefinition.height]
    omega) hdepth)
  have herrors : Rule.defaultErrors schema d.var.name.text type literal = [] := by
    rw [Rule.alone_of_skip rfl (by
      simp only [Rule.defaultValuesOfCorrectType, Rule.onEnter, hliteral, htype]
      rfl)] at hquiet
    simp only [Rule.defaultValuesOfCorrectType, Rule.onEnter, hliteral, htype] at hquiet
    exact hquiet
  unfold Rule.defaultErrors at herrors
  split at herrors
  · cases herrors
  · rename_i hnonNull
    refine ⟨by simpa using hnonNull, ?_⟩
    split at herrors
    · assumption
    · cases herrors

theorem exists_definition_of_usage (hvalid : document.IsValid schema)
    (h : operation ∈ document.operations)
    (husage : usage ∈ document.operationUsages schema operation) :
    ∃ d ∈ operation.variableDefinitions, d.var.name.text = usage.name := by
  have hnone := Rule.check_eq_nil hvalid
    (show Rule.noUndefinedVariables ∈ _ by simp [Rule.all]) h
  have hdefined := List.filterMap_eq_nil_iff.mp hnone usage husage
  split at hdefined
  · rename_i hmem
    exact List.mem_map.mp hmem
  · cases hdefined

/-- A variable is used only where its type can be used, except that with a default it may also
stand where null may not. -/
theorem isSubtype_of_usage {type expected : TypeRef} (hvalid : document.IsValid schema)
    (h : operation ∈ document.operations) (hd : d ∈ operation.variableDefinitions)
    (husage : usage ∈ document.operationUsages schema operation)
    (hname : d.var.name.text = usage.name) (htype : schema.resolve? d.type = some type)
    (hexpected : usage.inputType = some expected) :
    schema.isSubtype (Rule.effectiveType type d.defaultValue.isSome) expected := by
  have hnone := Rule.check_eq_nil hvalid
    (show Rule.variablesInAllowedPosition ∈ _ by simp [Rule.all]) h
  have hfound := List.flatMap_eq_nil_iff.mp hnone usage husage
  have hfind : operation.variableDefinitions.reverse.find? (·.var.name.text = usage.name) =
      some d := by
    have hisSome : (operation.variableDefinitions.reverse.find?
        (·.var.name.text = usage.name)).isSome :=
      List.find?_isSome.mpr ⟨d, List.mem_reverse.mpr hd, decide_eq_true hname⟩
    obtain ⟨found, hfound⟩ := Option.isSome_iff_exists.mp hisSome
    have hmem := List.mem_reverse.mp (List.mem_of_find?_eq_some hfound)
    have hsame : found.var.name.text = usage.name := by simpa using List.find?_some hfound
    rwa [← List.inj_on_of_nodup_map (nodup_variableNames hvalid h) hmem hd
      (hsame.trans hname.symm)]
  simp only [hfind, Rule.usageErrors, hexpected, htype] at hfound
  split at hfound
  · assumption
  · cases hfound

end Document

end GraphQL
