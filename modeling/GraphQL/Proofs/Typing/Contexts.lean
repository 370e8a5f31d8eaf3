import Mathlib
import GraphQL.Proofs.Validation.Valid

/-!
# The types at hand at a part of a document

What a walk has done before it comes to a part of a document is taken back: the types at hand
there depend only on what is around the part (`TypeContext.alike_after`).  So the types at a part
can be told by going down to it (`Stands`).

Where a rule finds nothing in a document, it finds nothing at any part to which it goes down, with
the types that are at hand there (`Rule.QuietAt.below`).
-/

namespace GraphQL

variable {schema : Schema} {document : Document}

/-! ## What a walk takes back -/

namespace TypeContext

/-- The contexts have the same types and definitions of fields. -/
structure SameLists (c c' : TypeContext) : Prop where
  outputTypes : c'.outputTypes = c.outputTypes
  parentTypes : c'.parentTypes = c.parentTypes
  inputTypes : c'.inputTypes = c.inputTypes
  fields : c'.fields = c.fields
  defaults : c'.defaults = c.defaults

variable {c c' c'' : TypeContext} {node : Node} {depth : ℕ}

theorem SameLists.refl (c : TypeContext) : SameLists c c := ⟨rfl, rfl, rfl, rfl, rfl⟩

theorem SameLists.trans (h : SameLists c c') (h' : SameLists c' c'') : SameLists c c'' :=
  ⟨h'.outputTypes.trans h.outputTypes, h'.parentTypes.trans h.parentTypes,
    h'.inputTypes.trans h.inputTypes, h'.fields.trans h.fields, h'.defaults.trans h.defaults⟩

/-- What a node adds is taken away when it is left. -/
theorem SameLists.leave (h : SameLists (c.enter schema node) c') : SameLists c (c'.leave node) := by
  obtain ⟨houtput, hparent, hinput, hfields, hdefaults⟩ := h
  cases node with
  | definition d =>
      cases d <;> constructor <;>
        simp_all [enter, enterDefinition, TypeContext.leave, pushOutput, popOutput]
  | selection s =>
      cases s <;> constructor <;>
        simp_all [enter, enterSelection, TypeContext.leave, pushOutput, popOutput]
  | value v =>
      cases v <;> constructor <;>
        simp_all [enter, enterValue, TypeContext.leave, popInputDef]
  | _ =>
      constructor <;> simp_all [enter, TypeContext.leave, pushInput, popInput, pushInputDef,
        popInputDef]

theorem sameLists_foldl {after : Node → TypeContext → TypeContext}
    (hafter : ∀ node c, SameLists c (after node c)) (children : List (Slot × ℕ × Node))
    (c : TypeContext) :
    SameLists c (children.foldl (fun c child => after child.2.2 c) c) := by
  induction children generalizing c with
  | nil => exact .refl c
  | cons child rest ih => exact (hafter child.2.2 c).trans (ih _)

theorem sameLists_after (schema : Schema) (depth : ℕ) (node : Node) (c : TypeContext) :
    SameLists c (after schema depth node c) := by
  induction depth generalizing node c with
  | zero => exact .refl c
  | succ depth ih => exact (sameLists_foldl ih node.placedChildren _).leave

/-- A directive is left behind. -/
theorem directive?_leave (h : node.kind = .directive ∨ c.directive? = none) :
    (c.leave node).directive? = none := by
  cases node with
  | definition d => cases d <;> simp_all [leave, popOutput, Node.kind, Definition.kind]
  | selection s => cases s <;> simp_all [leave, popOutput, Node.kind, Selection.kind]
  | value v => cases v <;> simp_all [leave, popInputDef, Node.kind, Value.kind]
  | type t => cases t <;> simp_all [leave, Node.kind, TypeExpr.kind]
  | _ => simp_all [leave, popInput, popInputDef, Node.kind]

theorem directive?_enter (hnode : node.kind ≠ .directive) (h : c.directive? = none) :
    (c.enter schema node).directive? = none := by
  cases node with
  | definition d => cases d <;> exact h
  | selection s => cases s <;> exact h
  | value v => cases v <;> exact h
  | directive d => exact absurd rfl hnode
  | _ => exact h

theorem directive?_after (schema : Schema) (depth : ℕ) (node : Node) (c : TypeContext)
    (h : c.directive? = none) : (after schema depth node c).directive? = none := by
  induction depth generalizing node c with
  | zero => exact h
  | succ depth ih =>
      refine directive?_leave ?_
      by_cases hnode : node.kind = .directive
      · exact Or.inl hnode
      · right
        have hchildren (children : List (Slot × ℕ × Node)) (c : TypeContext)
            (h : c.directive? = none) :
            (children.foldl (fun c child => after schema depth child.2.2 c) c).directive? =
              none := by
          induction children generalizing c with
          | nil => exact h
          | cons child rest ihChildren => exact ihChildren _ (ih child.2.2 c h)
        exact hchildren _ _ (directive?_enter hnode h)

/-- Contexts outside of directives that have the same types and definitions of fields. -/
structure Alike (c c' : TypeContext) : Prop where
  lists : SameLists c c'
  left : c.directive? = none
  right : c'.directive? = none

theorem Alike.refl (h : c.directive? = none) : Alike c c := ⟨.refl c, h, h⟩

theorem Alike.after (h : Alike c c') (schema : Schema) (depth : ℕ) (node : Node) :
    Alike c (after schema depth node c') :=
  ⟨h.lists.trans (sameLists_after schema depth node c'), h.left,
    directive?_after schema depth node c' h.right⟩

theorem Alike.outputType? (h : Alike c c') : c'.outputType? = c.outputType? := by
  rw [TypeContext.outputType?, h.lists.outputTypes, TypeContext.outputType?]

theorem Alike.namedOutputType? (h : Alike c c') (schema : Schema) :
    c'.namedOutputType? schema = c.namedOutputType? schema := by
  rw [TypeContext.namedOutputType?, h.outputType?, TypeContext.namedOutputType?]

theorem Alike.parentType? (h : Alike c c') : c'.parentType? = c.parentType? := by
  rw [TypeContext.parentType?, h.lists.parentTypes, TypeContext.parentType?]

theorem Alike.inputType? (h : Alike c c') : c'.inputType? = c.inputType? := by
  rw [TypeContext.inputType?, h.lists.inputTypes, TypeContext.inputType?]

theorem Alike.field? (h : Alike c c') : c'.field? = c.field? := by
  rw [TypeContext.field?, h.lists.fields, TypeContext.field?]

theorem Alike.default? (h : Alike c c') : c'.default? = c.default? := by
  rw [TypeContext.default?, h.lists.defaults, TypeContext.default?]

/-- Entering a node adds the same. -/
theorem Alike.enter (h : Alike c c') (schema : Schema) (hnode : node.kind ≠ .directive) :
    Alike (c.enter schema node) (c'.enter schema node) := by
  refine ⟨?_, directive?_enter hnode h.left, directive?_enter hnode h.right⟩
  have hlists := h.lists
  obtain ⟨houtput, hparent, hinput, hfields, hdefaults⟩ := h.lists
  cases node with
  | definition d =>
      cases d <;> constructor <;> simp_all [TypeContext.enter, enterDefinition, pushOutput]
  | selection s =>
      have hnamed := h.namedOutputType? schema
      have hparent? := h.parentType?
      cases s <;> constructor <;> simp_all [TypeContext.enter, enterSelection, pushOutput]
  | selectionSet s =>
      have hnamed := h.namedOutputType? schema
      constructor <;> simp_all [TypeContext.enter]
  | value v =>
      have hinput? := h.inputType?
      cases v <;> constructor <;> simp_all [TypeContext.enter, enterValue]
  | objectField f =>
      have hinput? := h.inputType?
      constructor <;> simp_all [TypeContext.enter, pushInputDef]
  | argument a =>
      have hfield? := h.field?
      have hdirective := h.left
      have hdirective' := h.right
      constructor <;> simp_all [TypeContext.enter, pushInputDef]
  | directive d => exact absurd rfl hnode
  | _ => constructor <;> simp_all [TypeContext.enter, pushInput]

/-- The definition of an argument of a field that is known. -/
theorem enter_argument {c : TypeContext} {a : Argument} {d : FieldDef}
    (hdirective : c.directive? = none) (hd : c.field? = some d) :
    (c.enter schema (.argument a)).argument? = Assoc.get? d.arguments a.name.text ∧
      (c.enter schema (.argument a)).inputType? =
        ((Assoc.get? d.arguments a.name.text).map (·.type)).filter schema.isInputRef := by
  simp [enter, pushInputDef, hdirective, hd, inputType?]

end TypeContext

/-! ## Going down -/

/-- Documents, definitions, selection sets and selections: what is around the arguments of a
field. -/
def Node.IsFrame : Node → Prop
  | .document _ | .definition _ | .selectionSet _ | .selection _ => True
  | _ => False

theorem Node.IsFrame.kind_ne_directive {node : Node} (h : node.IsFrame) :
    node.kind ≠ .directive := by
  cases node with
  | definition d => cases d <;> exact NodeKind.noConfusion
  | selection s => cases s <;> exact NodeKind.noConfusion
  | directive d => exact h.elim
  | value v => exact h.elim
  | type t => exact h.elim
  | _ => exact NodeKind.noConfusion

theorem Node.IsFrame.kind_ne_variableDefinition {node : Node} (h : node.IsFrame) :
    node.kind ≠ .variableDefinition := by
  cases node with
  | definition d => cases d <;> exact NodeKind.noConfusion
  | selection s => cases s <;> exact NodeKind.noConfusion
  | value v => exact h.elim
  | type t => exact h.elim
  | variableDefinition d => exact h.elim
  | _ => exact NodeKind.noConfusion

/-- A part of a definition that is reached through frames, with the types that are at hand before
it is entered. -/
inductive Stands (schema : Schema) (d : Definition) : Node → TypeContext → Prop
  | root : Stands schema d (.definition d) {}
  | child {node child : Node} {c : TypeContext} (h : Stands schema d node c)
      (hframe : node.IsFrame) (hlower : node.Lower child) :
      Stands schema d child (c.enter schema node)

theorem Stands.directive? {d : Definition} {node : Node} {c : TypeContext}
    (h : Stands schema d node c) : c.directive? = none := by
  induction h with
  | root => rfl
  | child _ hframe _ ih => exact TypeContext.directive?_enter hframe.kind_ne_directive ih

namespace Rule

open TypeContext (Alike)

variable {rule : Rule} {good : RuleMemory → Prop} {node child : Node} {c : TypeContext}

/-- The rule finds nothing at the node and below it, with the types at hand there, and with
something good in mind. -/
def QuietAt (schema : Schema) (document : Document) (rule : Rule) (good : RuleMemory → Prop)
    (node : Node) (c : TypeContext) : Prop :=
  ∃ depth c' memory, node.height ≤ depth ∧ Alike c c' ∧ good memory ∧
    (rule.alone schema document depth node c' memory).errors = []

/-- The rule goes down through frames, and what it keeps in mind stays good. -/
structure Descends (schema : Schema) (document : Document) (rule : Rule)
    (good : RuleMemory → Prop) : Prop where
  endures : rule.Endures
  passes : ∀ node : Node, node.IsFrame → rule.Passes node
  enter : ∀ node : Node, node.IsFrame → ∀ scope memory, good memory →
    good (rule.enter scope node memory).2
  alone : ∀ depth node c memory, good memory →
    good (rule.alone schema document depth node c memory).memory

/-- Where nothing is found at children in turn, nothing is found at any of them, with the types
that are at hand at the first. -/
theorem exists_alike_of_findEach {depth : ℕ} {children : List (Slot × ℕ × Node)} {slot : Slot}
    {index : ℕ} {c' : TypeContext} {memory : RuleMemory}
    (hdescends : rule.Descends schema document good) (halike : Alike c c') (hgood : good memory)
    (h : (rule.aloneEach schema document depth children c' memory).errors = [])
    (hmem : (slot, index, child) ∈ children) :
    ∃ c'' memory', Alike c c'' ∧ good memory' ∧
      (rule.alone schema document depth child c'' memory').errors = [] := by
  induction children generalizing c' memory with
  | nil => cases hmem
  | cons first rest ih =>
      obtain ⟨slot', index', child'⟩ := first
      simp only [aloneEach, findEach, alone_isDone schema document hdescends.endures,
        Bool.false_eq_true, if_false, List.append_eq_nil_iff] at h
      rcases List.mem_cons.mp hmem with heq | hmem
      · cases heq
        exact ⟨c', memory, halike, hgood, h.1⟩
      · exact ih (halike.after schema depth child') (hdescends.alone _ _ _ _ hgood) h.2 hmem

theorem QuietAt.below (h : rule.QuietAt schema document good node c)
    (hdescends : rule.Descends schema document good) (hframe : node.IsFrame)
    (hlower : node.Lower child) :
    rule.QuietAt schema document good child (c.enter schema node) := by
  obtain ⟨depth, c', memory, hdepth, halike, hgood, h⟩ := h
  obtain ⟨depth, rfl⟩ := Nat.exists_eq_succ_of_ne_zero
    (Nat.ne_zero_of_lt (hlower.height_lt.trans_le hdepth))
  let scope : Scope := { schema, document, types := c'.enter schema node }
  have hgood' := hdescends.enter node hframe scope memory hgood
  have henter : rule.enter scope node memory =
      ((rule.enter scope node memory).1, (rule.enter scope node memory).2) := rfl
  have hbelow := aloneEach_errors_eq_nil henter (hdescends.passes node hframe scope memory) h
  obtain ⟨slot, index, hmem⟩ := hlower.hasChild
  obtain ⟨c'', memory', halike', hgood'', hquiet⟩ := exists_alike_of_findEach hdescends
    (halike.enter schema hframe.kind_ne_directive) hgood' hbelow hmem
  exact ⟨depth, c'', memory', Nat.le_of_lt_succ (hlower.height_lt.trans_le hdepth), halike',
    hgood'', hquiet⟩

/-- A rule that finds nothing at a node says nothing on entering it. -/
theorem enter_errors_eq_nil {depth : ℕ} {memory : RuleMemory}
    (h : (rule.alone schema document (depth + 1) node c memory).errors = []) :
    (rule.enter { schema, document, types := c.enter schema node } node memory).1.errors = [] := by
  let scope : Scope := { schema, document, types := c.enter schema node }
  show (rule.enter scope node memory).1.errors = []
  have henter : rule.enter scope node memory =
      ((rule.enter scope node memory).1, (rule.enter scope node memory).2) := rfl
  cases haction : (rule.enter scope node memory).1.action with
  | skip => rwa [alone_of_skip henter haction] at h
  | stop => rwa [alone_of_stop henter haction] at h
  | proceed =>
      rw [alone_of_proceed henter haction] at h
      simp only at h
      split at h <;> exact (List.append_eq_nil_iff.mp h).1

/-- What a rule says on entering a part where it finds nothing. -/
theorem QuietAt.exists_enter (h : rule.QuietAt schema document good node c)
    (hheight : 0 < node.height) :
    ∃ c' memory, Alike c c' ∧ good memory ∧
      (rule.enter { schema, document, types := c'.enter schema node } node memory).1.errors =
        [] := by
  obtain ⟨depth, c', memory, hdepth, halike, hgood, h⟩ := h
  obtain ⟨depth, rfl⟩ := Nat.exists_eq_succ_of_ne_zero (Nat.ne_zero_of_lt (hheight.trans_le hdepth))
  exact ⟨c', memory, halike, hgood, enter_errors_eq_nil h⟩

/-- A rule that finds nothing in a document finds nothing at any part to which it goes down. -/
theorem quietAt_of_stands {d : Definition} (hsatisfies : document.Satisfies schema rule)
    (hdescends : rule.Descends schema document good)
    (hgood : ∀ surveyed, good { surveyed }) (hd : d ∈ document.definitions)
    (h : Stands schema d node c) : rule.QuietAt schema document good node c := by
  induction h with
  | root =>
      obtain ⟨depth, surveyed, hdepth, -, hnone⟩ := Document.exists_alone_eq_nil hsatisfies
      have hroot : rule.QuietAt schema document good (.document document) {} :=
        ⟨_, {}, { surveyed }, hdepth, .refl rfl, hgood surveyed, hnone⟩
      exact hroot.below hdescends trivial (.definition hd)
  | child _ hframe hlower ih => exact ih.below hdescends hframe hlower

end Rule

end GraphQL
