import Mathlib
import GraphQL.Proofs.Traversal.Parts
import GraphQL.Proofs.Typing.Contexts
import GraphQL.Proofs.Validation.Independence
import GraphQL.Validation.Rules.Variables

/-!
# All that a rule finds

`Rule.alone` says what a rule finds at a node and below it, with the types at hand and what the rule
has in mind.  For a rule that keeps nothing in mind this comes to lists: what it finds at the parts
of a node is what it finds at each of them, one after the other (`Rule.errors_parts`), and what a
rule on operations finds in a document is what it finds in each operation
(`Document.errorsOf?_onOperation`).
-/

namespace GraphQL

variable {schema : Schema} {document : Document} {depth : ℕ} {node : Node} {c : TypeContext}
  {memory : RuleMemory}

namespace Rule

open TypeContext (SameLists)

variable {rule : Rule} {f : Node → List ValidationError}

/-! ## Parts of a node -/

theorem errors_aloneEach (hendures : rule.Endures) {children : List (Slot × ℕ × Node)}
    {c' : TypeContext} (hlists : SameLists c c')
    (h : ∀ entry ∈ children, ∀ c' memory, SameLists c c' →
      (rule.alone schema document depth entry.2.2 c' memory).errors = f entry.2.2) :
    (rule.aloneEach schema document depth children c' memory).errors =
      children.flatMap fun entry => f entry.2.2 := by
  induction children generalizing c' memory with
  | nil => rfl
  | cons entry rest ih =>
      obtain ⟨slot, index, child⟩ := entry
      obtain ⟨hfirst, hrest⟩ := List.forall_mem_cons.mp h
      have hafter := hlists.trans (TypeContext.sameLists_after schema depth child c')
      simp only [aloneEach, findEach, alone_isDone schema document hendures, Bool.false_eq_true,
        if_false, List.flatMap_cons]
      rw [hfirst c' memory hlists]
      exact congrArg (f child ++ ·) (ih hafter hrest)

/-- What a rule finds at the parts of a node, if it hangs on nothing but the types that the node
brings in. -/
theorem errors_parts (hendures : rule.Endures)
    (h : ∀ child ∈ node.parts, ∀ c' memory, SameLists c c' →
      (rule.alone schema document depth child c' memory).errors = f child) :
    (rule.aloneEach schema document depth node.placedChildren c memory).errors =
      node.parts.flatMap f := by
  rw [← Node.flatMap_placedChildren]
  refine errors_aloneEach hendures (.refl c) fun entry hentry => h entry.2.2 ?_
  rw [← Node.map_placedChildren]
  exact List.mem_map_of_mem hentry

/-- A rule that goes on below a node finds what it finds on entering the node, at its parts, and on
leaving it. -/
theorem errors_of_proceed {finding : Finding} {memory' : RuleMemory}
    {last : List ValidationError} (hendures : rule.Endures)
    (henter : rule.enter { schema, document, types := c.enter schema node } node memory =
      (finding, memory'))
    (haction : finding.action = .proceed)
    (hleave : ∀ types memory, (rule.leave { schema, document, types } node memory).1.errors = last)
    (h : ∀ child ∈ node.parts, ∀ c' memory, SameLists (c.enter schema node) c' →
      (rule.alone schema document depth child c' memory).errors = f child) :
    (rule.alone schema document (depth + 1) node c memory).errors =
      finding.errors ++ (node.parts.flatMap f ++ last) := by
  rw [alone_of_proceed henter haction]
  have hdone := findEach_isDone (alone_isDone schema document hendures depth)
    (TypeContext.after schema depth) node.placedChildren (c.enter schema node) memory'
  simp only [hdone, Bool.false_eq_true, if_false, errors_parts hendures h, hleave]

/-- A rule that goes on below a node, and leaves it without a word, finds what it finds on entering
the node and at its parts. -/
theorem errors_succ {finding : Finding} {memory' : RuleMemory} (hendures : rule.Endures)
    (henter : rule.enter { schema, document, types := c.enter schema node } node memory =
      (finding, memory'))
    (haction : finding.action = .proceed)
    (hleave : ∀ scope memory, (rule.leave scope node memory).1.errors = [])
    (h : ∀ child ∈ node.parts, ∀ c' memory, SameLists (c.enter schema node) c' →
      (rule.alone schema document depth child c' memory).errors = f child) :
    (rule.alone schema document (depth + 1) node c memory).errors =
      finding.errors ++ node.parts.flatMap f := by
  rw [errors_of_proceed hendures henter haction (fun _ _ => hleave _ _) h, List.append_nil]

/-- A rule that goes on below a node all of whose parts are of one kind finds what it finds on
entering the node and at each of them. -/
theorem errors_of_parts_eq_map {α : Type} {items : List α} {part : α → Node}
    {found : α → List ValidationError} {finding : Finding} {memory' : RuleMemory}
    (hendures : rule.Endures)
    (henter : rule.enter { schema, document, types := c.enter schema node } node memory =
      (finding, memory'))
    (haction : finding.action = .proceed)
    (hleave : ∀ scope memory, (rule.leave scope node memory).1.errors = [])
    (hparts : node.parts = items.map part)
    (h : ∀ item ∈ items, ∀ c' memory, SameLists (c.enter schema node) c' →
      (rule.alone schema document depth (part item) c' memory).errors = found item) :
    (rule.alone schema document (depth + 1) node c memory).errors =
      finding.errors ++ items.flatMap found := by
  -- What is found at a part is the same in all states that the walk may be in there.
  let inside := c.enter schema node
  have hsame : ∀ child ∈ node.parts, ∀ c' memory, SameLists inside c' →
      (rule.alone schema document depth child c' memory).errors =
        (rule.alone schema document depth child inside {}).errors := by
    intro child hchild c' memory hlists
    rw [hparts] at hchild
    obtain ⟨item, hitem, rfl⟩ := List.mem_map.mp hchild
    rw [h item hitem c' memory hlists, h item hitem inside {} (.refl inside)]
  rw [errors_succ hendures henter haction hleave hsame, hparts, List.flatMap_map]
  refine congrArg (finding.errors ++ ·) (List.flatMap_congr fun item hitem => ?_)
  exact h item hitem inside {} (.refl inside)

/-! ## Rules on operations -/

variable {name : String} {check : Schema → Document → OperationDefinition → List ValidationError}

theorem endures_onOperation : (onOperation name check).Endures := by
  intro scope node memory
  refine ⟨?_, RuleAction.noConfusion⟩
  simp only [onOperation, onEnter, pure, StateT.pure]
  split <;> exact RuleAction.noConfusion

/-- What a rule on operations finds at a definition. -/
def ofDefinition (schema : Schema) (document : Document)
    (check : Schema → Document → OperationDefinition → List ValidationError) :
    Node → List ValidationError
  | .definition (.operation d) => check schema document d
  | _ => []

theorem errors_definition (d : Definition) :
    ((onOperation name check).alone schema document (depth + 1) (.definition d) c memory).errors =
      ofDefinition schema document check (.definition d) := by
  cases d <;> rw [alone_of_skip rfl rfl] <;> rfl

end Rule

namespace Document

open Rule (onOperation ofDefinition)

/-- What a rule finds in a document on its own, down to all its parts. -/
theorem exists_errorsOf? (schema : Schema) (document : Document) (rule : Rule)
    (hsurvey : rule.survey? schema document = some []) :
    ∃ depth, (Node.document document).height ≤ depth + 2 ∧
      document.errorsOf? schema [rule] =
        some (rule.alone schema document (depth + 2) (.document document) {} {}).errors := by
  obtain ⟨more, hgrowth⟩ := Nat.exists_eq_add_of_le (show 2 ≤ Traversal.growth by decide)
  refine ⟨(Node.document document).height + more, by omega, ?_⟩
  rw [errorsOf?_singleton, alone?, hsurvey, Nat.add_assoc, Nat.add_comm more, ← hgrowth]
  rfl

/-- A rule on operations finds in a document what it finds in its operations, in turn. -/
theorem errorsOf?_onOperation (schema : Schema) (document : Document) (name : String)
    (check : Schema → Document → OperationDefinition → List ValidationError) :
    document.errorsOf? schema [onOperation name check] =
      some (document.operations.flatMap (check schema document)) := by
  obtain ⟨depth, -, herrors⟩ :=
    exists_errorsOf? schema document (onOperation name check) rfl
  have halone : ((onOperation name check).alone schema document (depth + 2) (.document document) {}
      {}).errors = [] ++ (Node.document document).parts.flatMap
        (ofDefinition schema document check) := by
    refine Rule.errors_succ Rule.endures_onOperation rfl rfl (fun _ _ => rfl) ?_
    intro child hchild c memory _
    rw [Node.parts_document] at hchild
    obtain ⟨d, -, rfl⟩ := List.mem_map.mp hchild
    exact Rule.errors_definition d
  rw [herrors, halone, List.nil_append, Node.parts_document, List.flatMap_map]
  refine congrArg some ?_
  have hoperations (definitions : List Definition) :
      (definitions.flatMap fun d => ofDefinition schema document check (.definition d)) =
        (Document.operations { definitions }).flatMap (check schema document) := by
    induction definitions with
    | nil => rfl
    | cons d rest ih =>
        cases d with
        | operation d => exact congrArg (check schema document d ++ ·) ih
        | _ => exact ih
  exact hoperations document.definitions

end Document

end GraphQL
