import Mathlib
import GraphQL.Proofs.Validation.Given
import GraphQL.Proofs.Validation.Usages

/-!
# Directives of valid documents

What validation makes sure of where a directive is applied to a selection: the arguments that it
requires are given (`exists_given_of_directive`), their literals are values of their types
(`problems_eq_nil_of_directive`), and a variable that is given as an argument is among the usages
of the definition around, with the type of the argument (`usage_mem_of_directive`).

Below a directive there are only names, arguments and values (`Node.IsInput`).  Walks keep the
directive at hand there, where everywhere else no directive is at hand.
-/

namespace GraphQL

open TypeContext (Alike)

variable {schema : Schema} {document : Document}

/-! ## Below directives -/

namespace Node

open Node (hasChild_iff)

variable {node child : Node} {selection : Selection} {directive : Directive} {a : Argument}

/-- Names, arguments, and values with their parts: what stands below a directive. -/
def IsInput : Node → Prop
  | .name _ | .argument _ | .value _ | .objectField _ => True
  | _ => False

theorem isInput_of_hasChild (h : node.IsInput ∨ node.kind = .directive)
    (hchild : node.HasChild child) : child.IsInput := by
  obtain ⟨slot, hslot, hmem⟩ := hasChild_iff.mp hchild
  cases node with
  | name n => cases hslot
  | argument a =>
      rcases List.mem_pair.mp hslot with rfl | rfl <;>
        obtain rfl := List.mem_singleton.mp hmem <;> trivial
  | objectField f =>
      rcases List.mem_pair.mp hslot with rfl | rfl <;>
        obtain rfl := List.mem_singleton.mp hmem <;> trivial
  | directive d =>
      rcases List.mem_pair.mp hslot with rfl | rfl
      · obtain rfl := List.mem_singleton.mp hmem
        trivial
      · obtain ⟨a, -, rfl⟩ := List.mem_map.mp hmem
        trivial
  | value v =>
      cases v with
      | var v =>
          obtain rfl := List.mem_singleton.mp hslot
          obtain rfl := List.mem_singleton.mp hmem
          trivial
      | list items span =>
          obtain rfl := List.mem_singleton.mp hslot
          obtain ⟨item, -, rfl⟩ := List.mem_map.mp hmem
          trivial
      | object fields span =>
          obtain rfl := List.mem_singleton.mp hslot
          obtain ⟨f, -, rfl⟩ := List.mem_map.mp hmem
          trivial
      | _ => cases hslot
  | definition d => rcases h with h | h <;> cases d <;> cases h
  | selection s => rcases h with h | h <;> cases s <;> cases h
  | type t => rcases h with h | h <;> cases t <;> cases h
  | _ => rcases h with h | h <;> cases h

theorem IsInput.kind_ne (h : node.IsInput) :
    node.kind ≠ .directive ∧ node.kind ≠ .variableDefinition := by
  cases node with
  | value v => cases v <;> exact ⟨NodeKind.noConfusion, NodeKind.noConfusion⟩
  | definition d => exact h.elim
  | selection s => exact h.elim
  | directive d => exact h.elim
  | type t => exact h.elim
  | variableDefinition d => exact h.elim
  | _ => exact ⟨NodeKind.noConfusion, NodeKind.noConfusion⟩

theorem isInput_of_mem {slot : Slot} {index : ℕ}
    (h : (slot, index, child) ∈ (Node.directive directive).placedChildren) : child.IsInput :=
  isInput_of_hasChild (.inr rfl) ⟨slot, index, h⟩

theorem Lower.appliedDirective (h : directive ∈ selection.directives) :
    Node.Lower (.selection selection) (.directive directive) := by
  refine ⟨hasChild_iff.mpr ⟨.directives, ?_, ?_⟩, ?_⟩
  · cases selection <;> simp [Node.kind, Selection.kind, NodeKind.slots]
  · cases selection <;> exact List.mem_map_of_mem h
  · have hle : directive.height ≤ maxHeight Directive.height selection.directives :=
      le_maxHeight Directive.height h
    cases selection with
    | field f =>
        obtain ⟨keyAlias, name, arguments, directives, set?, span⟩ := f
        simp only [Selection.directives, Node.height, Selection.height,
          SelectionSet.heightSelections] at hle ⊢
        omega
    | spread s =>
        simp only [Selection.directives, Node.height, Selection.height,
          SelectionSet.heightSelections] at hle ⊢
        omega
    | inline f =>
        obtain ⟨condition, directives, set, span⟩ := f
        simp only [Selection.directives, Node.height, Selection.height,
          SelectionSet.heightSelections] at hle ⊢
        omega

theorem Lower.directiveArgument (h : a ∈ directive.arguments) :
    Node.Lower (.directive directive) (.argument a) := by
  refine ⟨hasChild_iff.mpr ⟨.arguments, by simp [Node.kind, NodeKind.slots],
    List.mem_map_of_mem h⟩, ?_⟩
  have hle : a.height ≤ maxHeight Argument.height directive.arguments :=
    le_maxHeight Argument.height h
  simp only [Node.height, Directive.height]
  omega

end Node

namespace TypeContext

variable {c : TypeContext} {node : Node} {depth : ℕ} {a : Argument}

theorem directive?_enter_eq (hnode : node.kind ≠ .directive) :
    (c.enter schema node).directive? = c.directive? := by
  cases node with
  | definition d => cases d <;> rfl
  | selection s => cases s <;> rfl
  | value v => cases v <;> rfl
  | directive d => exact absurd rfl hnode
  | _ => rfl

theorem directive?_leave_eq (hnode : node.kind ≠ .directive) :
    (c.leave node).directive? = c.directive? := by
  cases node with
  | definition d => cases d <;> rfl
  | selection s => cases s <;> rfl
  | value v => cases v <;> rfl
  | directive d => exact absurd rfl hnode
  | _ => rfl

/-- Below a directive, it stays at hand. -/
theorem directive?_after_of_isInput (h : node.IsInput) :
    (after schema depth node c).directive? = c.directive? := by
  induction depth generalizing node c with
  | zero => rfl
  | succ depth ih =>
      have hchildren (children : List (Slot × ℕ × Node)) (c : TypeContext)
          (hchildren : ∀ entry ∈ children, entry.2.2.IsInput) :
          (children.foldl (fun c child => after schema depth child.2.2 c) c).directive? =
            c.directive? := by
        induction children generalizing c with
        | nil => rfl
        | cons child rest ihChildren =>
            obtain ⟨hchild, hrest⟩ := List.forall_mem_cons.mp hchildren
            exact (ihChildren _ hrest).trans (ih hchild)
      refine (directive?_leave_eq h.kind_ne.1).trans ((hchildren _ _ ?_).trans
        (directive?_enter_eq h.kind_ne.1))
      exact fun entry hentry => Node.isInput_of_hasChild (.inl h) ⟨entry.1, entry.2.1, hentry⟩

/-- The definition of an argument of a directive that is at hand. -/
theorem enter_directiveArgument {definition : DirectiveDef} (h : c.directive? = some definition) :
    (c.enter schema (.argument a)).argument? = Assoc.get? definition.arguments a.name.text ∧
      (c.enter schema (.argument a)).inputType? =
        ((Assoc.get? definition.arguments a.name.text).map (·.type)).filter schema.isInputRef ∧
      (c.enter schema (.argument a)).default? =
        (Assoc.get? definition.arguments a.name.text).bind (·.defaultValue) := by
  simp [enter, pushInputDef, h, inputType?, default?]

end TypeContext

/-! ## What rules find at directives -/

namespace Rule

variable {rule : Rule} {good : RuleMemory → Prop} {c : TypeContext} {directive : Directive}
  {a : Argument}

/-- Where nothing is found at the children of a directive, nothing is found at any of them, with
the directive at hand. -/
theorem exists_alone_of_directive {depth : ℕ} {definition? : Option DirectiveDef}
    {children : List (Slot × ℕ × Node)} {slot : Slot} {index : ℕ} {child : Node}
    {memory : RuleMemory} (hendures : rule.Endures)
    (hinput : ∀ entry ∈ children, entry.2.2.IsInput) (hc : c.directive? = definition?)
    (h : (rule.aloneEach schema document depth children c memory).errors = [])
    (hmem : (slot, index, child) ∈ children) :
    ∃ c' memory', c'.directive? = definition? ∧
      (rule.alone schema document depth child c' memory').errors = [] := by
  induction children generalizing c memory with
  | nil => cases hmem
  | cons first rest ih =>
      obtain ⟨slot', index', child'⟩ := first
      obtain ⟨hfirst, hrest⟩ := List.forall_mem_cons.mp hinput
      simp only [aloneEach, findEach, alone_isDone schema document hendures,
        Bool.false_eq_true, if_false, List.append_eq_nil_iff] at h
      rcases List.mem_cons.mp hmem with heq | hmem
      · cases heq
        exact ⟨c, memory, hc, h.1⟩
      · exact ih hrest ((TypeContext.directive?_after_of_isInput hfirst).trans hc) h.2 hmem

/-- What a rule says on entering an argument of a directive where it finds nothing. -/
theorem QuietAt.exists_enter_directiveArgument
    (h : rule.QuietAt schema document good (.directive directive) c) (hendures : rule.Endures)
    (hpasses : rule.Passes (.directive directive)) (ha : a ∈ directive.arguments) :
    ∃ (c' : TypeContext) (memory : RuleMemory),
      c'.directive? = schema.directive? directive.name.text ∧
      (rule.enter { schema, document, types := c'.enter schema (.argument a) } (.argument a)
        memory).1.errors = [] := by
  obtain ⟨depth, c', memory, hdepth, -, -, h⟩ := h
  have hlower : Node.Lower (.directive directive) (.argument a) := .directiveArgument ha
  obtain ⟨depth, rfl⟩ := Nat.exists_eq_succ_of_ne_zero
    (Nat.ne_zero_of_lt (hlower.height_lt.trans_le hdepth))
  have hbelow := aloneEach_errors_eq_nil rfl
    (hpasses { schema, document, types := c'.enter schema (.directive directive) } memory) h
  obtain ⟨slot, index, hmem⟩ := hlower.hasChild
  obtain ⟨c'', memory', hdirective, hquiet⟩ := exists_alone_of_directive hendures
    (fun entry hentry => Node.isInput_of_mem hentry) rfl hbelow hmem
  have hheight : 0 < (Node.argument a).height := by simp [Node.height, Argument.height]
  obtain ⟨depth, rfl⟩ := Nat.exists_eq_succ_of_ne_zero (Nat.ne_zero_of_lt
    (hheight.trans_le (Nat.le_of_lt_succ (hlower.height_lt.trans_le hdepth))))
  exact ⟨c'', memory', hdirective, enter_errors_eq_nil hquiet⟩

/-- A rule that never ends its walk says nothing on leaving a node where it finds nothing. -/
theorem QuietAt.exists_leave_errors {node : Node} (h : rule.QuietAt schema document good node c)
    (hendures : rule.Endures) (hpasses : rule.Passes node) (hheight : 0 < node.height) :
    ∃ (c' : TypeContext) (memory : RuleMemory),
      (rule.leave { schema, document, types := c' } node memory).1.errors = [] := by
  obtain ⟨depth, c', memory, hdepth, -, -, h⟩ := h
  obtain ⟨depth, rfl⟩ := Nat.exists_eq_succ_of_ne_zero (Nat.ne_zero_of_lt (hheight.trans_le hdepth))
  let scope : Scope := { schema, document, types := c'.enter schema node }
  rw [alone_of_proceed rfl (hpasses scope memory)] at h
  simp only [findEach_isDone (alone_isDone schema document hendures depth), Bool.false_eq_true,
    if_false, List.append_eq_nil_iff] at h
  exact ⟨_, _, h.2.2⟩

end Rule

/-! ## Arguments of directives -/

section

variable {d : Definition} {c : TypeContext} {selection : Selection} {directive : Directive}
  {definition : DirectiveDef} {input : InputDef} {a : Argument}
  (hvalid : document.IsValid schema) (hd : d ∈ document.definitions)
  (h : Stands schema d (.selection selection) c) (hdirective : directive ∈ selection.directives)
  (hdefinition : schema.directive? directive.name.text = some definition)

include h hdirective in
theorem Stands.appliedDirective :
    Stands schema d (.directive directive) (c.enter schema (.selection selection)) :=
  h.child trivial (.appliedDirective hdirective)

include hvalid hd h hdirective hdefinition

/-- The required arguments of a directive are given. -/
theorem exists_given_of_directive (hinput : input ∈ definition.arguments.map (·.2))
    (hrequired : input.isRequired) : ∃ a ∈ directive.arguments, a.name.text = input.name := by
  have hdescends : Rule.providedNonNullArguments.Descends schema document fun _ => True :=
    Rule.descends_providedNonNullArguments
  have hquiet := Rule.quietAt_of_stands (Document.satisfies_of_isValid hvalid (by simp [Rule.all]))
    hdescends (fun _ => trivial) hd (h.appliedDirective hdirective)
  obtain ⟨c', memory, hnone⟩ := hquiet.exists_leave_errors hdescends.endures (fun _ _ => rfl)
    (by simp [Node.height, Directive.height])
  have hmissing : Rule.missingArguments definition.arguments directive.arguments = [] := by
    simpa [Rule.providedNonNullArguments, pure, StateT.pure, hdefinition, Finding.andProceed]
      using hnone
  have hgiven := List.filter_eq_nil_iff.mp hmissing input hinput
  simpa [hrequired] using hgiven

/-- The literals that are given to a directive are values of the types of the arguments. -/
theorem problems_eq_nil_of_directive (ha : a ∈ directive.arguments)
    (hinput : Assoc.get? definition.arguments a.name.text = some input) :
    Literal.problems schema a.value input.type = [] := by
  have hdescends : Rule.argumentsOfCorrectType.Descends schema document fun _ => True :=
    Rule.descends_argumentsOfCorrectType
  have hquiet := Rule.quietAt_of_stands (Document.satisfies_of_isValid hvalid (by simp [Rule.all]))
    hdescends (fun _ => trivial) hd (h.appliedDirective hdirective)
  obtain ⟨c', memory, hc', hnone⟩ := hquiet.exists_enter_directiveArgument hdescends.endures
    (fun _ _ => rfl) ha
  have hargument : (c'.enter schema (.argument a)).argument? = some input :=
    (TypeContext.enter_directiveArgument (hc'.trans hdefinition)).1.trans hinput
  simp only [Rule.argumentsOfCorrectType, Rule.onEnter, hargument] at hnone
  cases hproblems : Literal.problems schema a.value input.type with
  | nil => rfl
  | cons problem rest =>
      rw [hproblems] at hnone
      cases hnone

end

/-! ## Variables in directives -/

namespace VariableUsage

variable {depth : ℕ} {node : Node} {c : TypeContext}

/-- The walk of the collector below a directive keeps it at hand. -/
theorem exists_walk_of_isInput (h : node.IsInput) (c : TypeContext) (usages : List VariableUsage) :
    ∃ c' more, (Traversal.walk (collector.typed schema) depth node).run (c, usages) =
        (.ok ⟨none, false⟩, (c', usages ++ more)) ∧ c'.directive? = c.directive? := by
  induction depth generalizing node c usages with
  | zero =>
      refine ⟨c, [], ?_, rfl⟩
      rw [List.append_nil]
      exact Traversal.walk_zero _ _ _
  | succ depth ih =>
      have hchildren : ∀ entry ∈ node.placedChildren, entry.2.2.IsInput := fun entry hentry =>
        Node.isInput_of_hasChild (.inl h) ⟨entry.1, entry.2.1, hentry⟩
      obtain ⟨c', more, hrun, hc'⟩ := exists_walkChildren
        (P := fun _ c c' _ => c'.directive? = c.directive?)
        (Q := fun _ c c' _ => c'.directive? = c.directive?) (fun _ => rfl)
        (fun hfirst hothers => hothers.trans hfirst)
        (fun entry hentry => ih (hchildren entry hentry)) (c.enter schema node)
        (usages ++ node.ownVariables.map (here · c))
      refine ⟨c'.leave node, _, walk_collector h.kind_ne.2 hrun, ?_⟩
      exact (TypeContext.directive?_leave_eq h.kind_ne.1).trans
        (hc'.trans (TypeContext.directive?_enter_eq h.kind_ne.1))

/-- The use of a variable as an argument. -/
def asArgument (v : Variable) (input : InputDef) : VariableUsage where
  name := v.name.text
  span := v.span
  inputType := some input.type
  defaultValue := input.defaultValue

/-- A variable that is given as an argument of a directive is noted, with the type of the
argument. -/
theorem notes_directive {directive : Directive} {definition : DirectiveDef} {a : Argument}
    {v : Variable} {input : InputDef} (ha : a ∈ directive.arguments) (hvalue : a.value = .var v)
    (hdefinition : schema.directive? directive.name.text = some definition)
    (hinput : Assoc.get? definition.arguments a.name.text = some input)
    (href : schema.isInputRef input.type) (hdepth : (Node.directive directive).height ≤ depth) :
    Notes schema depth (.directive directive) c (asArgument v input) := by
  intro c' usages _
  have hlower : Node.Lower (.directive directive) (.argument a) := .directiveArgument ha
  obtain ⟨depth, rfl⟩ : ∃ e, depth = e + 3 := by
    have hlt := hlower.height_lt
    simp only [Node.height, Argument.height, hvalue, Value.height] at hlt hdepth
    exact Nat.exists_eq_add_of_le' (by omega)
  obtain ⟨slot, index, hmem⟩ := hlower.hasChild
  refine exists_walk_of_walkChildren NodeKind.noConfusion (.inr fun usages => ?_) usages
  refine exists_walkChildren_of_mem (fun entry hentry c₁ usages hc₁ => ?_)
    (fun c₁ usages (hc₁ : c₁.directive? = some definition) => ?_) hmem _ usages hdefinition
  · obtain ⟨c₂, more, hrun, hc₂⟩ :=
      exists_walk_of_isInput (Node.isInput_of_mem hentry) c₁ usages
    exact ⟨c₂, more, hrun, hc₂.trans hc₁⟩
  · -- Within the argument the name comes first, which changes no types.
    have htype : (c₁.enter schema (.argument a)).inputType? = some input.type := by
      rw [(TypeContext.enter_directiveArgument hc₁).2.1, hinput]
      simp [Option.filter, href]
    have hdefault : (c₁.enter schema (.argument a)).default? = input.defaultValue := by
      rw [(TypeContext.enter_directiveArgument hc₁).2.2, hinput, Option.bind_some]
    obtain ⟨slot', index', hmem'⟩ := hvalue ▸ Node.hasChild_argumentValue a
    refine exists_walk_of_walkChildren NodeKind.noConfusion (.inr fun usages => ?_) usages
    refine exists_walkChildren_of_mem (fun entry _ c₂ usages hc₂ => ?_)
      (fun c₂ usages (hc₂ : TypeContext.SameLists (c₁.enter schema (.argument a)) c₂) => ?_) hmem' _
      usages (.refl _)
    · obtain ⟨c₃, more, hrun, hgathers⟩ := exists_walk_collector (depth + 1) entry.2.2 c₂ usages
      exact ⟨c₃, more, hrun, hc₂.trans hgathers.lists⟩
    · refine exists_walk_of_walkChildren NodeKind.noConfusion (.inl ⟨v, rfl, ?_⟩) usages
      rw [here, TypeContext.inputType?, TypeContext.default?, hc₂.inputTypes, hc₂.defaults,
        ← TypeContext.inputType?, ← TypeContext.default?, htype, hdefault, asArgument]

end VariableUsage

/-- A variable that is given as an argument of a directive is one of the usages of the definition
around. -/
theorem usage_mem_of_directive {d : Definition} {c : TypeContext} {selection : Selection}
    {directive : Directive} {definition : DirectiveDef} {a : Argument} {v : Variable}
    {input : InputDef} (h : Stands schema d (.selection selection) c)
    (hdirective : directive ∈ selection.directives)
    (hdefinition : schema.directive? directive.name.text = some definition)
    (ha : a ∈ directive.arguments) (hvalue : a.value = .var v)
    (hinput : Assoc.get? definition.arguments a.name.text = some input)
    (href : schema.isInputRef input.type) :
    VariableUsage.asArgument v input ∈ d.variableUsages schema := by
  obtain ⟨depth, hdepth, husages⟩ :=
    VariableUsage.exists_notes_of_stands (h.appliedDirective hdirective)
  exact husages _ (VariableUsage.notes_directive ha hvalue hdefinition hinput href hdepth)

end GraphQL
