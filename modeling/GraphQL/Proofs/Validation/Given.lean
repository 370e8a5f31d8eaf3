import Mathlib
import GraphQL.Proofs.Typing.Parents

/-!
# Arguments of valid documents

Where validation knows a field, the arguments that are given to it are those of the field
(`exists_input_of_stands`), literals are values of their types (`problems_eq_nil_of_stands`), and
the required ones are there (`exists_given_of_stands`).
-/

namespace GraphQL

open TypeContext (Alike)

variable {schema : Schema} {document : Document} {d : Definition} {c : TypeContext}

/-! ## What rules keep in mind -/

namespace Rule

variable {rule : Rule} {good : RuleMemory → Prop} {node : Node}

theorem findEach_memory {find : Node → TypeContext → RuleMemory → Outcome}
    {after : Node → TypeContext → TypeContext}
    (hfind : ∀ node c memory, good memory → good (find node c memory).memory)
    {children : List (Slot × ℕ × Node)} {c : TypeContext} {memory : RuleMemory}
    (h : good memory) : good (findEach find after children c memory).memory := by
  induction children generalizing c memory with
  | nil => exact h
  | cons first rest ih =>
      obtain ⟨slot, index, child⟩ := first
      rw [findEach]
      dsimp only
      split
      · exact hfind child c memory h
      · exact ih (hfind child c memory h)

theorem enter_knownArgumentNames (scope : Scope) (a : Argument) (memory : RuleMemory) :
    knownArgumentNames.enter scope (.argument a) memory =
      if scope.types.argument?.isSome then (.skip, memory)
      else (.andSkip (unknownArgumentErrors scope.types memory.inDirective a), memory) := by
  simp only [knownArgumentNames, bind]
  split <;> rfl

theorem endures_knownArgumentNames : knownArgumentNames.Endures := by
  intro scope node memory
  constructor
  · cases node with
    | argument a =>
        rw [enter_knownArgumentNames]
        split <;> exact RuleAction.noConfusion
    | _ => exact RuleAction.noConfusion
  · cases node <;> exact RuleAction.noConfusion

/-- The rule for the names of arguments knows when it is outside of directives. -/
theorem inDirective_alone (depth : ℕ) (node : Node) (c : TypeContext) (memory : RuleMemory)
    (h : memory.inDirective = false) :
    (knownArgumentNames.alone schema document depth node c memory).memory.inDirective = false := by
  induction depth generalizing node c memory with
  | zero => exact h
  | succ depth ih =>
      have hchildren {children : List (Slot × ℕ × Node)} {c : TypeContext} :=
        @findEach_memory (fun memory => memory.inDirective = false)
          (knownArgumentNames.alone schema document depth) (TypeContext.after schema depth) ih
          children c memory h
      have hdone {children : List (Slot × ℕ × Node)} {c : TypeContext} {memory : RuleMemory} :
          (knownArgumentNames.aloneEach schema document depth children c memory).isDone = false :=
        findEach_isDone (alone_isDone schema document endures_knownArgumentNames depth) _ _ _ _
      cases node with
      | argument a =>
          have henter (scope : Scope) : ∃ finding : Finding, finding.action = .skip ∧
              knownArgumentNames.enter scope (.argument a) memory = (finding, memory) := by
            rw [enter_knownArgumentNames]
            split <;> exact ⟨_, rfl, rfl⟩
          obtain ⟨finding, haction, henter⟩ := henter { schema, document, types := _ }
          rw [alone_of_skip henter haction]
          exact h
      | directive directive =>
          rw [alone_of_proceed rfl rfl]
          simp only [hdone, Bool.false_eq_true, if_false]
          rfl
      | _ =>
          rw [alone_of_proceed rfl rfl]
          simp only [hdone, Bool.false_eq_true, if_false]
          exact hchildren

theorem descends_knownArgumentNames :
    knownArgumentNames.Descends schema document fun memory => memory.inDirective = false where
  endures := endures_knownArgumentNames
  passes node hframe scope memory := by
    cases node <;> first | rfl | exact hframe.elim
  enter node hframe scope memory h := by
    cases node <;> first | exact h | exact hframe.elim
  alone := inDirective_alone

theorem descends_argumentsOfCorrectType :
    argumentsOfCorrectType.Descends schema document fun _ => True := by
  refine descends_of_onEnter (fun scope node => ?_) fun scope node hframe => ?_
  · split
    · split
      · exact RuleAction.noConfusion
      · split <;> exact RuleAction.noConfusion
    · exact RuleAction.noConfusion
  · cases node <;> first | rfl | exact hframe.elim

theorem descends_providedNonNullArguments :
    providedNonNullArguments.Descends schema document fun _ => True where
  endures scope node memory := by
    refine ⟨RuleAction.noConfusion, ?_⟩
    simp only [providedNonNullArguments, pure, StateT.pure]
    split <;> exact RuleAction.noConfusion
  passes _ _ _ _ := rfl
  enter _ _ _ _ _ := trivial
  alone _ _ _ _ _ := trivial

/-- What a rule says on leaving a part where it finds nothing. -/
theorem QuietAt.exists_leave (h : rule.QuietAt schema document good node c)
    (hdescends : rule.Descends schema document good) (hframe : node.IsFrame)
    (hheight : 0 < node.height) :
    ∃ c' memory, Alike (c.enter schema node) c' ∧
      (rule.leave { schema, document, types := c' } node memory).1.errors = [] := by
  obtain ⟨depth, c', memory, hdepth, halike, -, h⟩ := h
  obtain ⟨depth, rfl⟩ := Nat.exists_eq_succ_of_ne_zero (Nat.ne_zero_of_lt (hheight.trans_le hdepth))
  let scope : Scope := { schema, document, types := c'.enter schema node }
  have hdone := findEach_isDone (alone_isDone schema document hdescends.endures depth)
    (TypeContext.after schema depth) node.placedChildren (c'.enter schema node)
    (rule.enter scope node memory).2
  have hafter (children : List (Slot × ℕ × Node)) {c c' : TypeContext} (h : Alike c c') :
      Alike c (c'.afterEach schema depth children) := by
    induction children generalizing c' with
    | nil => exact h
    | cons first rest ih => exact ih (h.after schema depth first.2.2)
  rw [alone_of_proceed rfl (hdescends.passes node hframe scope memory)] at h
  simp only at h
  split at h
  · rename_i hend
    exact absurd (hdone.symm.trans hend) Bool.false_ne_true
  · obtain ⟨-, h⟩ := List.append_eq_nil_iff.mp h
    exact ⟨_, _, hafter _ (halike.enter schema hframe.kind_ne_directive),
      (List.append_eq_nil_iff.mp h).2⟩

end Rule

/-! ## Arguments -/

section

variable {a : Argument} {f : Field} {field : FieldDef} {input : InputDef} {t : TypeDef}
  (hvalid : document.IsValid schema) (hd : d ∈ document.definitions)
include hvalid hd

theorem exists_input_of_stands (h : Stands schema d (.argument a) c)
    (hfield : c.field? = some field) (hparent : c.parentType? = some t) :
    ∃ input, Assoc.get? field.arguments a.name.text = some input := by
  have hquiet := Rule.quietAt_of_stands (Document.satisfies_of_isValid hvalid (by simp [Rule.all]))
    Rule.descends_knownArgumentNames (fun _ => rfl) hd h
  obtain ⟨c', memory, halike, hmemory, hnone⟩ := hquiet.exists_enter (by
    simp [Node.height, Argument.height])
  have hfield : (c'.enter schema (.argument a)).field? = some field := halike.field?.trans hfield
  have hparent : (c'.enter schema (.argument a)).parentType? = some t :=
    halike.parentType?.trans hparent
  have hargument : (c'.enter schema (.argument a)).argument? =
      Assoc.get? field.arguments a.name.text :=
    (TypeContext.enter_argument halike.right hfield).1
  cases hinput : Assoc.get? field.arguments a.name.text with
  | some input => exact ⟨input, rfl⟩
  | none =>
      rw [Rule.enter_knownArgumentNames] at hnone
      simp [hargument, hinput, Rule.unknownArgumentErrors, hmemory, hfield, hparent,
        Finding.andSkip] at hnone

theorem problems_eq_nil_of_stands (h : Stands schema d (.argument a) c)
    (hfield : c.field? = some field)
    (hinput : Assoc.get? field.arguments a.name.text = some input) :
    Literal.problems schema a.value input.type = [] := by
  have hquiet := Rule.quietAt_of_stands (Document.satisfies_of_isValid hvalid (by simp [Rule.all]))
    Rule.descends_argumentsOfCorrectType (fun _ => trivial) hd h
  obtain ⟨c', memory, halike, -, hnone⟩ := hquiet.exists_enter (by
    simp [Node.height, Argument.height])
  have hargument : (c'.enter schema (.argument a)).argument? = some input :=
    (TypeContext.enter_argument halike.right (halike.field?.trans hfield)).1.trans hinput
  simp only [Rule.argumentsOfCorrectType, Rule.onEnter, hargument] at hnone
  cases hproblems : Literal.problems schema a.value input.type with
  | nil => rfl
  | cons problem rest =>
      rw [hproblems] at hnone
      cases hnone

/-- The required arguments are given. -/
theorem exists_given_of_stands (h : Stands schema d (.selection (.field f)) c)
    (hfield : (c.enter schema (.selection (.field f))).field? = some field)
    (hinput : input ∈ field.arguments.map (·.2)) (hrequired : input.isRequired) :
    ∃ a ∈ f.arguments, a.name.text = input.name := by
  have hquiet := Rule.quietAt_of_stands (Document.satisfies_of_isValid hvalid (by simp [Rule.all]))
    Rule.descends_providedNonNullArguments (fun _ => trivial) hd h
  have hheight : 0 < (Node.selection (.field f)).height := by
    obtain ⟨keyAlias, name, arguments, directives, set?, span⟩ := f
    simp [Node.height, Selection.height, SelectionSet.heightSelections]
  obtain ⟨c', memory, halike, hnone⟩ :=
    hquiet.exists_leave Rule.descends_providedNonNullArguments trivial hheight
  have hmissing : Rule.missingArguments field.arguments f.arguments = [] := by
    simpa [Rule.providedNonNullArguments, pure, StateT.pure, halike.field?, hfield,
      Finding.andProceed] using hnone
  have hgiven := List.filter_eq_nil_iff.mp hmissing input hinput
  simpa [hrequired] using hgiven

end

end GraphQL
