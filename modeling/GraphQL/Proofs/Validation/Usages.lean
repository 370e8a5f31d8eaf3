import Mathlib
import GraphQL.Proofs.Coercion.Literals
import GraphQL.Proofs.Schema.Roles
import GraphQL.Proofs.Typing.Contexts

/-!
# Where variables are used

The walk that collects the uses of variables in a definition misses none
(`VariableUsage.exists_walk_collector`), and notes with each the type that is expected there.  So
where the literal of an argument uses a variable, in whatever list or object, the usage is one of
those of the definition around (`Stands.exists_usage`).
-/

namespace GraphQL

open TypeContext (SameLists Alike)

variable {schema : Schema} {document : Document}

/-! ## Usages that are noted -/

/-- The variable that the node is, if it is one. -/
def Node.ownVariables : Node → List Variable
  | .value (.var v) => [v]
  | _ => []

theorem Node.exists_eq_variableDefinition {node : Node} (h : node.kind = .variableDefinition) :
    ∃ d, node = .variableDefinition d := by
  cases node with
  | variableDefinition d => exact ⟨d, rfl⟩
  | definition d => cases d <;> cases h
  | selection s => cases s <;> cases h
  | value v => cases v <;> cases h
  | type t => cases t <;> cases h
  | _ => cases h

namespace VariableUsage

/-- The use of a variable with the types that are at hand. -/
def here (v : Variable) (c : TypeContext) : VariableUsage where
  name := v.name.text
  span := v.span
  inputType := c.inputType?
  defaultValue := c.default?

/-- A variable is used at a node or below it, outside of directives and definitions of variables;
the usage is what the types at hand say. -/
inductive Noted (schema : Schema) : ℕ → Node → TypeContext → VariableUsage → Prop
  | here {depth : ℕ} {v : Variable} {c : TypeContext} :
      Noted schema (depth + 1) (.value (.var v)) c (here v c)
  | inside {depth : ℕ} {node child : Node} {c : TypeContext} {usage : VariableUsage}
      (hdirective : node.kind ≠ .directive) (hdefinition : node.kind ≠ .variableDefinition)
      (hchild : node.HasChild child) (h : Noted schema depth child (c.enter schema node) usage) :
      Noted schema (depth + 1) node c usage

variable {depth : ℕ} {node child : Node} {c c' : TypeContext} {usage : VariableUsage}

theorem Noted.alike (h : Noted schema depth node c usage) (halike : Alike c c') :
    Noted schema depth node c' usage := by
  induction h generalizing c' with
  | here =>
      rename_i v c
      have hsame : VariableUsage.here v c' = VariableUsage.here v c := by
        rw [VariableUsage.here, halike.inputType?, halike.default?, VariableUsage.here]
      exact hsame ▸ .here
  | inside hdirective hdefinition hchild _ ih =>
      exact .inside hdirective hdefinition hchild (ih (halike.enter schema hdirective))

/-- The state after a walk: the types at hand are those from before, and usages have been added,
with those that are noted among them. -/
structure Gathers (c c' : TypeContext) (more : List VariableUsage)
    (noted : VariableUsage → Prop) : Prop where
  lists : SameLists c c'
  directive : c.directive? = none → c'.directive? = none
  usages : c.directive? = none → ∀ usage, noted usage → usage ∈ more

/-- The collector goes on below a node, and notes the variable that it may be. -/
theorem enter_collector_eq {usages : List VariableUsage} (h : node.kind ≠ .variableDefinition) :
    (collector.typed schema).enter node (c, usages) =
      (.proceed, (c.enter schema node, usages ++ node.ownVariables.map (here · c))) := by
  cases node with
  | value v =>
      cases v with
      | var v => rfl
      | _ =>
          simp only [Node.ownVariables, List.map_nil, List.append_nil]
          rfl
  | variableDefinition d => exact absurd rfl h
  | _ =>
      simp only [Node.ownVariables, List.map_nil, List.append_nil]
      rfl

/-- What is below the definition of a variable is left out. -/
theorem walk_collector_variableDefinition (depth : ℕ) (d : VariableDefinition) (c : TypeContext)
    (usages : List VariableUsage) :
    (Traversal.walk (collector.typed schema) (depth + 1) (.variableDefinition d)).run (c, usages) =
      (.ok ⟨none, false⟩,
        ((c.enter schema (.variableDefinition d)).leave (.variableDefinition d), usages)) := by
  rw [Traversal.walk_succ]
  rfl

/-- What the walk of the collector adds at any other node is the variable that the node may be,
and what it adds at the children. -/
theorem walk_collector {usages more : List VariableUsage} (h : node.kind ≠ .variableDefinition)
    (hrun : (Traversal.walkChildren (Traversal.walk (collector.typed schema) depth)
        node.placedChildren).run
          (c.enter schema node, usages ++ node.ownVariables.map (here · c)) =
      (.ok ([], false), (c', usages ++ node.ownVariables.map (here · c) ++ more))) :
    (Traversal.walk (collector.typed schema) (depth + 1) node).run (c, usages) =
      (.ok ⟨none, false⟩,
        (c'.leave node, usages ++ (node.ownVariables.map (here · c) ++ more))) := by
  have hleave (usages : List VariableUsage) : (collector.typed schema).leave node (c', usages) =
      (.proceed, (c'.leave node, usages)) := rfl
  rw [Traversal.walk_of_enter_proceed (enter_collector_eq h),
    Traversal.below_of_leave_proceed hrun (hleave _), List.append_assoc]

/-- The collector walks over children in turn.  What holds where there are none, and is carried on
by the walk of one child before the others, holds of all of them. -/
theorem exists_walkChildren {P : Node → TypeContext → TypeContext → List VariableUsage → Prop}
    {Q : List (Slot × ℕ × Node) → TypeContext → TypeContext → List VariableUsage → Prop}
    (hnil : ∀ c, Q [] c c [])
    (hcons : ∀ {entry rest c c₁ c₂ first others}, P entry.2.2 c c₁ first → Q rest c₁ c₂ others →
      Q (entry :: rest) c c₂ (first ++ others))
    {children : List (Slot × ℕ × Node)}
    (hwalk : ∀ entry ∈ children, ∀ c usages, ∃ c' more,
      (Traversal.walk (collector.typed schema) depth entry.2.2).run (c, usages) =
          (.ok ⟨none, false⟩, (c', usages ++ more)) ∧ P entry.2.2 c c' more)
    (c : TypeContext) (usages : List VariableUsage) :
    ∃ c' more, (Traversal.walkChildren (Traversal.walk (collector.typed schema) depth)
          children).run (c, usages) = (.ok ([], false), (c', usages ++ more)) ∧
      Q children c c' more := by
  induction children generalizing c usages with
  | nil =>
      refine ⟨c, [], ?_, hnil c⟩
      rw [List.append_nil]
      exact Traversal.walkChildren_nil _ _
  | cons entry rest ih =>
      obtain ⟨slot, index, child⟩ := entry
      obtain ⟨hfirst, hrest⟩ := List.forall_mem_cons.mp hwalk
      obtain ⟨c₁, first, hrun₁, hP⟩ := hfirst c usages
      obtain ⟨c₂, others, hrun₂, hQ⟩ := ih hrest c₁ (usages ++ first)
      refine ⟨c₂, first ++ others, ?_, hcons hP hQ⟩
      rw [← List.append_assoc]
      exact Traversal.walkChildren_cons hrun₁ hrun₂

/-- What is noted at a child, and then at the others. -/
theorem Gathers.append {entry : Slot × ℕ × Node} {rest : List (Slot × ℕ × Node)}
    {c₁ c₂ : TypeContext} {first others : List VariableUsage}
    (hfirst : Gathers c c₁ first (Noted schema depth entry.2.2 c))
    (hothers : Gathers c₁ c₂ others fun usage => ∃ entry ∈ rest,
      Noted schema depth entry.2.2 c₁ usage) :
    Gathers c c₂ (first ++ others) fun usage => ∃ other ∈ entry :: rest,
      Noted schema depth other.2.2 c usage := by
  refine ⟨hfirst.lists.trans hothers.lists,
    fun hnone => hothers.directive (hfirst.directive hnone), fun hnone usage husage => ?_⟩
  obtain ⟨other, hother, hnoted⟩ := husage
  rcases List.mem_cons.mp hother with rfl | hother
  · exact List.mem_append_left _ (hfirst.usages hnone usage hnoted)
  · have halike : Alike c c₁ := ⟨hfirst.lists, hnone, hfirst.directive hnone⟩
    exact List.mem_append_right _ (hothers.usages (hfirst.directive hnone) usage
      ⟨other, hother, hnoted.alike halike⟩)

theorem exists_walkChildren_collector
    (hwalk : ∀ node c usages, ∃ c' more,
      (Traversal.walk (collector.typed schema) depth node).run (c, usages) =
          (.ok ⟨none, false⟩, (c', usages ++ more)) ∧
        Gathers c c' more (Noted schema depth node c))
    (children : List (Slot × ℕ × Node)) (c : TypeContext) (usages : List VariableUsage) :
    ∃ c' more, (Traversal.walkChildren (Traversal.walk (collector.typed schema) depth)
          children).run (c, usages) = (.ok ([], false), (c', usages ++ more)) ∧
      Gathers c c' more fun usage => ∃ entry ∈ children, Noted schema depth entry.2.2 c usage := by
  refine exists_walkChildren
    (P := fun node c c' more => Gathers c c' more (Noted schema depth node c))
    (Q := fun children c c' more => Gathers c c' more fun usage =>
      ∃ entry ∈ children, Noted schema depth entry.2.2 c usage)
    (fun c => ⟨.refl c, id, by simp⟩) Gathers.append (fun entry _ => hwalk entry.2.2) c usages

/-- The walk of the collector notes all usages. -/
theorem exists_walk_collector (depth : ℕ) (node : Node) (c : TypeContext)
    (usages : List VariableUsage) :
    ∃ c' more, (Traversal.walk (collector.typed schema) depth node).run (c, usages) =
        (.ok ⟨none, false⟩, (c', usages ++ more)) ∧
      Gathers c c' more (Noted schema depth node c) := by
  induction depth generalizing node c usages with
  | zero =>
      refine ⟨c, [], ?_, .refl c, id, nofun⟩
      rw [List.append_nil]
      exact Traversal.walk_zero _ _ _
  | succ depth ih =>
      by_cases hdefinition : node.kind = .variableDefinition
      · obtain ⟨d, rfl⟩ := Node.exists_eq_variableDefinition hdefinition
        let inside := c.enter schema (.variableDefinition d)
        refine ⟨inside.leave (.variableDefinition d), [], ?_, (SameLists.refl inside).leave,
          fun hnone => ?_, fun _ usage hnoted => ?_⟩
        · rw [List.append_nil]
          exact walk_collector_variableDefinition depth d c usages
        · exact TypeContext.directive?_leave (Or.inr (TypeContext.directive?_enter
            NodeKind.noConfusion hnone))
        · cases hnoted with
          | inside _ hnot _ _ => exact absurd rfl hnot
      · let own := node.ownVariables.map (here · c)
        obtain ⟨c', more, hrun, hmore⟩ := exists_walkChildren_collector ih node.placedChildren
          (c.enter schema node) (usages ++ own)
        refine ⟨c'.leave node, own ++ more, walk_collector hdefinition hrun, hmore.lists.leave,
          fun hnone => ?_, fun hnone usage hnoted => ?_⟩
        · refine TypeContext.directive?_leave ?_
          by_cases hdirective : node.kind = .directive
          · exact Or.inl hdirective
          · exact Or.inr (hmore.directive (TypeContext.directive?_enter hdirective hnone))
        · cases hnoted with
          | here => exact List.mem_append_left _ (List.mem_singleton_self _)
          | inside hdirective _ hchild hbelow =>
              obtain ⟨slot, index, hmem⟩ := hchild
              exact List.mem_append_right _ (hmore.usages
                (TypeContext.directive?_enter hdirective hnone) usage ⟨_, hmem, hbelow⟩)

/-- Among children that keep some fact about the types at hand, the walk of the collector notes
what it notes at one of them wherever that is so. -/
theorem exists_walkChildren_of_mem {keeps : TypeContext → Prop}
    {children : List (Slot × ℕ × Node)} {slot : Slot} {index : ℕ}
    (hwalk : ∀ entry ∈ children, ∀ c usages, keeps c → ∃ c' more,
      (Traversal.walk (collector.typed schema) depth entry.2.2).run (c, usages) =
          (.ok ⟨none, false⟩, (c', usages ++ more)) ∧ keeps c')
    (hnotes : ∀ c usages, keeps c → ∃ c' more,
      (Traversal.walk (collector.typed schema) depth child).run (c, usages) =
          (.ok ⟨none, false⟩, (c', usages ++ more)) ∧ usage ∈ more)
    (hmem : (slot, index, child) ∈ children) (c : TypeContext) (usages : List VariableUsage)
    (hc : keeps c) :
    ∃ c' more, (Traversal.walkChildren (Traversal.walk (collector.typed schema) depth)
          children).run (c, usages) = (.ok ([], false), (c', usages ++ more)) ∧ usage ∈ more := by
  induction children generalizing c usages with
  | nil => cases hmem
  | cons entry rest ih =>
      obtain ⟨slot', index', child'⟩ := entry
      obtain ⟨hfirst, hrest⟩ := List.forall_mem_cons.mp hwalk
      rcases List.mem_cons.mp hmem with heq | hmem
      · cases heq
        obtain ⟨c₁, first, hrun₁, husage⟩ := hnotes c usages hc
        obtain ⟨c₂, others, hrun₂, -⟩ :=
          exists_walkChildren_collector (exists_walk_collector depth) rest c₁ (usages ++ first)
        refine ⟨c₂, first ++ others, ?_, List.mem_append_left _ husage⟩
        rw [← List.append_assoc]
        exact Traversal.walkChildren_cons hrun₁ hrun₂
      · obtain ⟨c₁, first, hrun₁, hc₁⟩ := hfirst c usages hc
        obtain ⟨c₂, others, hrun₂, husage⟩ := ih hrest hmem c₁ (usages ++ first) hc₁
        refine ⟨c₂, first ++ others, ?_, List.mem_append_right _ husage⟩
        rw [← List.append_assoc]
        exact Traversal.walkChildren_cons hrun₁ hrun₂

/-- What the walk notes at the children of a node, or at the node itself, it notes at the node. -/
theorem exists_walk_of_walkChildren (hnode : node.kind ≠ .variableDefinition)
    (h : (∃ v, node = .value (.var v) ∧ usage = here v c) ∨ ∀ usages, ∃ c' more,
      (Traversal.walkChildren (Traversal.walk (collector.typed schema) depth)
          node.placedChildren).run (c.enter schema node, usages) =
        (.ok ([], false), (c', usages ++ more)) ∧ usage ∈ more) (usages : List VariableUsage) :
    ∃ c' more, (Traversal.walk (collector.typed schema) (depth + 1) node).run (c, usages) =
        (.ok ⟨none, false⟩, (c', usages ++ more)) ∧ usage ∈ more := by
  let own := node.ownVariables.map (here · c)
  obtain ⟨c', more, hrun, husage⟩ : ∃ c' more,
      (Traversal.walkChildren (Traversal.walk (collector.typed schema) depth)
          node.placedChildren).run (c.enter schema node, usages ++ own) =
        (.ok ([], false), (c', usages ++ own ++ more)) ∧ usage ∈ own ++ more := by
    rcases h with ⟨v, rfl, rfl⟩ | h
    · obtain ⟨c', more, hrun, -⟩ := exists_walkChildren_collector (exists_walk_collector depth)
        (Node.value (.var v)).placedChildren (c.enter schema (.value (.var v))) (usages ++ own)
      exact ⟨c', more, hrun, List.mem_append_left _ (List.mem_singleton_self _)⟩
    · obtain ⟨c', more, hrun, husage⟩ := h (usages ++ own)
      exact ⟨c', more, hrun, List.mem_append_right _ husage⟩
  exact ⟨c'.leave node, own ++ more, walk_collector hnode hrun, husage⟩

/-- Wherever a node stands with types like these, the walk of the collector notes the usage at the
node or below it. -/
def Notes (schema : Schema) (depth : ℕ) (node : Node) (c : TypeContext) (usage : VariableUsage) :
    Prop :=
  ∀ c' usages, Alike c c' → ∃ c'' more,
    (Traversal.walk (collector.typed schema) depth node).run (c', usages) =
        (.ok ⟨none, false⟩, (c'', usages ++ more)) ∧ usage ∈ more

theorem Notes.inside (h : Notes schema depth child (c.enter schema node) usage)
    (hdirective : node.kind ≠ .directive) (hdefinition : node.kind ≠ .variableDefinition)
    (hchild : node.HasChild child) : Notes schema (depth + 1) node c usage := by
  intro c' usages halike
  obtain ⟨slot, index, hmem⟩ := hchild
  refine exists_walk_of_walkChildren hdefinition (.inr fun usages => ?_) usages
  refine exists_walkChildren_of_mem (fun entry _ c₁ usages hc₁ => ?_) h hmem _ usages
    (halike.enter schema hdirective)
  obtain ⟨c₂, more, hrun, hgathers⟩ := exists_walk_collector depth entry.2.2 c₁ usages
  exact ⟨c₂, more, hrun, hc₁.lists.trans hgathers.lists, hc₁.left, hgathers.directive hc₁.right⟩

/-- Where no directive is at hand, what is noted is noted by the walk. -/
theorem Noted.notes (h : Noted schema depth node c usage) : Notes schema depth node c usage := by
  intro c' usages halike
  obtain ⟨c'', more, hrun, hgathers⟩ := exists_walk_collector depth node c' usages
  exact ⟨c'', more, hrun, hgathers.usages halike.right usage (h.alike halike)⟩

/-- What is noted at a part of a definition is among the usages of the definition. -/
theorem exists_notes_of_stands {d : Definition} (h : Stands schema d node c) :
    ∃ depth, node.height ≤ depth ∧
      ∀ usage, Notes schema depth node c usage → usage ∈ d.variableUsages schema := by
  induction h with
  | root =>
      refine ⟨(Node.definition d).height + Traversal.growth, Nat.le_add_right _ _,
        fun usage hnotes => ?_⟩
      obtain ⟨c', more, hrun, husage⟩ := hnotes {} [] (.refl rfl)
      have hall : d.variableUsages schema = more := by
        simp [Definition.variableUsages, visit, hrun]
      exact hall ▸ husage
  | @child node child c _ hframe hlower ih =>
      obtain ⟨depth, hdepth, husages⟩ := ih
      have hlt := hlower.height_lt.trans_le hdepth
      obtain ⟨depth, rfl⟩ := Nat.exists_eq_succ_of_ne_zero (Nat.ne_zero_of_lt hlt)
      exact ⟨depth, Nat.le_of_lt_succ hlt, fun usage hnotes => husages usage
        (hnotes.inside hframe.kind_ne_directive hframe.kind_ne_variableDefinition hlower.hasChild)⟩

end VariableUsage

/-! ## Usages in literals -/

namespace Node

open Node (hasChild_iff)

theorem hasChild_item {items : List Value} {span : Option Span} {literal : Value}
    (h : literal ∈ items) : Node.HasChild (.value (.list items span)) (.value literal) :=
  hasChild_iff.mpr ⟨.values, List.mem_singleton_self _, List.mem_map_of_mem h⟩

theorem hasChild_objectField {fields : List ObjectField} {span : Option Span} {f : ObjectField}
    (h : f ∈ fields) : Node.HasChild (.value (.object fields span)) (.objectField f) :=
  hasChild_iff.mpr ⟨.fields, List.mem_singleton_self _, List.mem_map_of_mem h⟩

theorem hasChild_fieldValue (f : ObjectField) : Node.HasChild (.objectField f) (.value f.value) :=
  hasChild_iff.mpr ⟨.value, List.mem_cons_of_mem _ (List.mem_singleton_self _),
    List.mem_singleton_self _⟩

theorem hasChild_argumentValue (a : Argument) : Node.HasChild (.argument a) (.value a.value) :=
  hasChild_iff.mpr ⟨.value, List.mem_cons_of_mem _ (List.mem_singleton_self _),
    List.mem_singleton_self _⟩

theorem Lower.argument {f : Field} {a : Argument} (h : a ∈ f.arguments) :
    Node.Lower (.selection (.field f)) (.argument a) := by
  refine ⟨hasChild_iff.mpr ⟨.arguments, by simp [Node.kind, Selection.kind, NodeKind.slots],
    List.mem_map_of_mem h⟩, ?_⟩
  obtain ⟨keyAlias, name, arguments, directives, set?, span⟩ := f
  have hle : a.height ≤ maxHeight Argument.height arguments := le_maxHeight Argument.height h
  simp only [Node.height, Selection.height, SelectionSet.heightSelections]
  omega

end Node

namespace VariableUsage

/-- Where a literal uses a variable, the usage is noted, with the type that is expected. -/
theorem exists_noted_of_uses (hrefs : schema.FieldsAreInputs) {literal : Value}
    {type expected : TypeRef} {name : String} (h : Literal.Uses schema literal type name expected)
    {depth : ℕ} {c : TypeContext} (htype : c.inputType? = some type)
    (hdepth : literal.height ≤ depth) :
    ∃ usage, Noted schema depth (.value literal) c usage ∧ usage.name = name ∧
      usage.inputType = some expected := by
  induction h generalizing depth c with
  | var v type =>
      obtain ⟨depth, rfl⟩ : ∃ d, depth = d + 1 := Nat.exists_eq_succ_of_ne_zero (by
        have : 0 < (Value.var v).height := by simp [Value.height]
        omega)
      exact ⟨here v c, .here, rfl, htype⟩
  | @item items span item expected nullable literal name hmem _ ih =>
      obtain ⟨depth, rfl⟩ : ∃ d, depth = d + 1 := Nat.exists_eq_succ_of_ne_zero (by
        have : 0 < (Value.list items span).height := by simp [Value.height]
        omega)
      have hle := Value.height_le_heightItems hmem
      rw [Value.height] at hdepth
      have hitem : (c.enter schema (.value (.list items span))).inputType? = some item := by
        simp [TypeContext.enter, TypeContext.enterValue, TypeContext.inputType?,
          TypeContext.itemType, TypeRef.item?] at htype ⊢
        simp [htype]
      have hdepth : literal.height ≤ depth := by omega
      obtain ⟨usage, hnoted, hname, hinput⟩ := ih hitem hdepth
      exact ⟨usage, .inside NodeKind.noConfusion NodeKind.noConfusion (Node.hasChild_item hmem)
        hnoted, hname, hinput⟩
  | @field fields span type expected d f field name hd hmem hfield _ ih =>
      have hlt := Value.height_lt_heightFields hmem
      rw [Value.height] at hdepth
      obtain ⟨depth, rfl⟩ : ∃ e, depth = e + 2 := Nat.exists_eq_add_of_le' (by omega)
      let inside := (c.enter schema (.value (.object fields span))).enter schema (.objectField f)
      have hinside : inside.inputType? = some field.type := by
        have hobject : (schema.namedType? type).bind (·.inputObject?) = some d := hd
        have href := hrefs _ d hd _ (Assoc.mem_of_get? hfield)
        have hobject? : (c.inputType?.bind schema.namedType?).bind (·.inputObject?) = some d := by
          rw [htype, Option.bind_some, hobject]
        have hdefinition : ((some d).bind fun d => Assoc.get? d.fields f.name.text) =
            some field := hfield
        have hfilter : ((some field).map fun field => field.type).filter schema.isInputRef =
            some field.type := by simp [Option.filter, href]
        simp only [inside, TypeContext.enter, TypeContext.enterValue, TypeContext.pushInputDef,
          TypeContext.inputType?, List.head?_cons, Option.join_some]
        rw [TypeContext.inputType?] at hobject?
        rw [hobject?, hdefinition, hfilter]
      have hdepth : f.value.height ≤ depth := by omega
      obtain ⟨usage, hnoted, hname, hinput⟩ := ih hinside hdepth
      exact ⟨usage, .inside NodeKind.noConfusion NodeKind.noConfusion
        (Node.hasChild_objectField hmem) (.inside NodeKind.noConfusion NodeKind.noConfusion
          (Node.hasChild_fieldValue f) hnoted), hname, hinput⟩

end VariableUsage

/-! ## Usages in arguments -/

/-- Where an argument of a field uses a variable, the usage is one of the definition around, with
the type that is expected. -/
theorem Stands.exists_usage {d : Definition} {a : Argument} {c : TypeContext} {field : FieldDef}
    {input : InputDef} {name : String} {expected : TypeRef}
    (h : Stands schema d (.argument a) c) (hfield : c.field? = some field)
    (hinput : Assoc.get? field.arguments a.name.text = some input)
    (href : schema.isInputRef input.type) (hrefs : schema.FieldsAreInputs)
    (huses : Literal.Uses schema a.value input.type name expected) :
    ∃ usage ∈ d.variableUsages schema, usage.name = name ∧ usage.inputType = some expected := by
  obtain ⟨depth, hdepth, husages⟩ := VariableUsage.exists_notes_of_stands h
  rw [Node.height, Argument.height] at hdepth
  obtain ⟨depth, rfl⟩ : ∃ e, depth = e + 1 := Nat.exists_eq_add_of_le' (by omega)
  have htype : (c.enter schema (.argument a)).inputType? = some input.type := by
    rw [(TypeContext.enter_argument h.directive? hfield).2, hinput]
    simp [Option.filter, href]
  obtain ⟨usage, hnoted, hname, hexpected⟩ :=
    VariableUsage.exists_noted_of_uses hrefs huses htype (Nat.le_of_succ_le_succ hdepth)
  have hargument : VariableUsage.Noted schema (depth + 1) (.argument a) c usage :=
    .inside NodeKind.noConfusion NodeKind.noConfusion (Node.hasChild_argumentValue a) hnoted
  exact ⟨usage, husages usage hargument.notes, hname, hexpected⟩

end GraphQL
