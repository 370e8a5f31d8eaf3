import Mathlib
import GraphQL.Proofs.Typing.Trails
import GraphQL.Proofs.Validation.Alone

/-!
# Visitors that share a walk and do not notice it

Visitors that replace nothing and look at nothing but the node, the types at hand and what
they have in mind themselves do not notice each other.  Each of them gets the same calls, with
the same types, on a common walk as on a walk of its own, and rules find the same errors
(`Visitor.calls_and_errors_of_common_walk`).

`Watcher.interleaves_of_visit` says what such visitors do on a common walk.  Here a walk with one
of them, under `Visitor.typed`, is shown to be the same (`Watcher.walked`).  One that
skips a node is called in the types that are at hand where the node is left at once, and on the
common walk in those after all that is below it; it takes `TypeContext.after_along` to see that
these are equal.
-/

namespace GraphQL

open Traversal (Trail Phase walk walkChildren steps placedChildren_eq_map)

variable {schema : Schema}

/-! ## Walks that leave no types behind -/

namespace TypeContext

variable {depth : ℕ} {trail : Trail} {node : Node}

/-- Nothing is left behind by some children, if nothing is by any. -/
theorem afterEach_along_of (hafter : ∀ {trail : Trail} {node : Node}, trail.LeadsTo node →
      TypeContext.after schema depth node (.along schema trail.above) =
        .along schema trail.above)
    (h : trail.LeadsTo node) (children : List (Traversal.Step × Node)) (hsub : children ⊆ steps node) :
    afterEach schema depth
        (children.map fun (step, child) => (step.slot, step.index, child))
        (.along schema (node :: trail.above)) = .along schema (node :: trail.above) := by
  induction children with
  | nil => rfl
  | cons child rest ih =>
      obtain ⟨step, child⟩ := child
      have hmem : (step, child) ∈ steps node := hsub List.mem_cons_self
      have hchild := hafter (h.child hmem)
      rw [Traversal.above_cons_of_mem_steps hmem] at hchild
      rw [List.map_cons, afterEach, List.foldl_cons, hchild]
      exact ih (List.subset_of_cons_subset hsub)

/-- After the walk of a node that a trail leads to, the types are those before. -/
theorem after_along (schema : Schema) (depth : ℕ) (h : trail.LeadsTo node) :
    TypeContext.after schema depth node (.along schema trail.above) =
      .along schema trail.above := by
  induction depth generalizing trail node with
  | zero => rfl
  | succ depth ih =>
      have hchildren := afterEach_along_of ih h (steps node) (List.Subset.refl _)
      rw [placedChildren_eq_map] at hchildren
      refine (congrArg (leave node) hchildren).trans ?_
      exact leave_enter (h.ready schema).1 schema

theorem afterEach_along (schema : Schema) (depth : ℕ) (h : trail.LeadsTo node) :
    afterEach schema depth node.placedChildren (.along schema (node :: trail.above)) =
      .along schema (node :: trail.above) := by
  rw [← placedChildren_eq_map]
  exact afterEach_along_of (after_along schema depth) h _ (List.Subset.refl _)

end TypeContext

/-! ## A watcher on a walk of its own -/

namespace Watcher

variable {ε π : Type}

/-- The watcher as a visitor that is told the types, and keeps what it says to itself. -/
def hooks (watcher : Watcher ε π) (c : TypeContext) : Visitor (List ε × π) where
  enter node := call (watcher.enter c node)
  leave node := call (watcher.leave c node)
where
  call (ask : StateM π (Answer ε)) : StateM (List ε × π) VisitAction :=
    fun (all, own) =>
      let (answer, own) := ask own
      (answer.action.toVisit, (all ++ answer.said, own))

variable {watcher : Watcher ε π} {depth : ℕ} {trail : Trail} {node : Node}

/-- The walk with a watcher comes to what the watcher does on its own. -/
def Walked (schema : Schema) (watcher : Watcher ε π) (depth : ℕ) : Prop :=
  ∀ {trail : Trail} {node : Node}, trail.LeadsTo node → ∀ all own,
    let outcome := watcher.run schema depth node (.along schema trail.above) own
    ∃ c, (walk (Visitor.typed schema (.reading watcher.hooks)) depth node).run
        (.along schema trail.above, all, own) =
          (.ok ⟨none, outcome.isDone⟩, c, all ++ outcome.said, outcome.own) ∧
      (outcome.isDone = false → c = .along schema trail.above)

theorem walked_each (hwalk : Walked schema watcher depth) (h : trail.LeadsTo node)
    (children : List (Traversal.Step × Node)) (hsub : children ⊆ steps node) (all : List ε) (own : π) :
    let placed := children.map fun (step, child) => (step.slot, step.index, child)
    let outcome := runEach (watcher.run schema depth) (TypeContext.after schema depth) placed
      (.along schema (node :: trail.above)) own
    ∃ c, (walkChildren (walk (Visitor.typed schema (.reading watcher.hooks)) depth) placed).run
        (.along schema (node :: trail.above), all, own) =
          (.ok ([], outcome.isDone), c, all ++ outcome.said, outcome.own) ∧
      (outcome.isDone = false → c = .along schema (node :: trail.above)) := by
  induction children generalizing all own with
  | nil =>
      intro placed outcome
      refine ⟨_, ?_, fun _ => rfl⟩
      rw [show outcome = ⟨[], own, false⟩ from rfl, List.append_nil]
      exact Traversal.walkChildren_nil _ _
  | cons child rest ih =>
      obtain ⟨step, child⟩ := child
      have hmem : (step, child) ∈ steps node := hsub List.mem_cons_self
      have hchild := h.child hmem
      obtain ⟨c, hrun, hc⟩ := hwalk hchild all own
      have hafter := TypeContext.after_along schema depth hchild
      rw [Traversal.above_cons_of_mem_steps hmem] at hrun hc hafter
      cases hdone : (watcher.run schema depth child (.along schema (node :: trail.above))
          own).isDone with
      | true =>
          rw [hdone] at hrun
          refine ⟨c, ?_, ?_⟩
          · simp only [List.map_cons, runEach, hdone, if_true]
            exact Traversal.walkChildren_cons_of_stopped hrun
          · simp [runEach, hdone]
      | false =>
          rw [hdone, hc hdone] at hrun
          obtain ⟨c', hrun', hc'⟩ := ih (List.subset_of_cons_subset hsub) _ _
          refine ⟨c', ?_, ?_⟩
          · simp only [List.map_cons, runEach, hdone, Bool.false_eq_true, if_false, hafter,
              ← List.append_assoc]
            exact Traversal.walkChildren_cons hrun hrun'
          · simpa only [List.map_cons, runEach, hdone, Bool.false_eq_true, if_false, hafter]
              using hc'

variable {c : TypeContext} {own : π}

theorem run_of_skip (h : (watcher.enter (c.enter schema node) node own).1.action = .skip) :
    let entered := watcher.enter (c.enter schema node) node own
    watcher.run schema (depth + 1) node c own = ⟨entered.1.said, entered.2, false⟩ := by
  rw [run_succ]
  dsimp only
  rw [h]

theorem run_of_stop (h : (watcher.enter (c.enter schema node) node own).1.action = .stop) :
    let entered := watcher.enter (c.enter schema node) node own
    watcher.run schema (depth + 1) node c own = ⟨entered.1.said, entered.2, true⟩ := by
  rw [run_succ]
  dsimp only
  rw [h]

/-- When nothing is left behind by the children, a node is left in the types it is entered in. -/
theorem run_of_proceed
    (h : (watcher.enter (c.enter schema node) node own).1.action = .proceed)
    (hback : (c.enter schema node).afterEach schema depth node.placedChildren =
      c.enter schema node) :
    let entered := watcher.enter (c.enter schema node) node own
    let below := runEach (watcher.run schema depth) (TypeContext.after schema depth)
      node.placedChildren (c.enter schema node) entered.2
    let left := watcher.leave (c.enter schema node) node below.own
    watcher.run schema (depth + 1) node c own =
      if below.isDone then { below with said := entered.1.said ++ below.said }
      else ⟨entered.1.said ++ (below.said ++ left.1.said), left.2, left.1.action = .stop⟩ := by
  rw [run_succ]
  dsimp only
  rw [h, hback]

theorem walked_succ (ih : Walked schema watcher depth) : Walked schema watcher (depth + 1) := by
  intro trail node h all own
  let c := TypeContext.along schema trail.above
  let entered := watcher.enter (c.enter schema node) node own
  let below := runEach (watcher.run schema depth) (TypeContext.after schema depth)
    node.placedChildren (c.enter schema node) entered.2
  let left := watcher.leave (c.enter schema node) node below.own
  have hback : (c.enter schema node).leave node = c :=
    TypeContext.leave_enter (h.ready schema).1 schema
  have henter : (Visitor.typed schema (.reading watcher.hooks)).enter node (c, all, own) =
      (entered.1.action.toVisit, c.entered schema node entered.1.action.toVisit,
        all ++ entered.1.said, entered.2) := Visitor.typed_reading_enter rfl
  cases haction : entered.1.action with
  | skip =>
      rw [haction] at henter
      rw [run_of_skip haction]
      refine ⟨c, ?_, fun _ => rfl⟩
      refine (Traversal.walk_of_enter_skip henter).trans ?_
      rw [RuleAction.toVisit, TypeContext.entered, hback]
  | stop =>
      rw [haction] at henter
      rw [run_of_stop haction]
      exact ⟨_, Traversal.walk_of_enter_stop henter, by simp⟩
  | proceed =>
      rw [haction] at henter
      have hrun : watcher.run schema (depth + 1) node c own =
          if below.isDone then { below with said := entered.1.said ++ below.said }
          else ⟨entered.1.said ++ (below.said ++ left.1.said), left.2,
            left.1.action = .stop⟩ :=
        run_of_proceed haction (TypeContext.afterEach_along schema depth h)
      rw [hrun]
      obtain ⟨c', hchildren, hc'⟩ : ∃ c',
          (walkChildren (walk (Visitor.typed schema (.reading watcher.hooks)) depth)
            node.placedChildren).run (c.enter schema node, all ++ entered.1.said, entered.2) =
            (.ok ([], below.isDone), c', all ++ entered.1.said ++ below.said, below.own) ∧
          (below.isDone = false → c' = c.enter schema node) := by
        have hchildren := walked_each ih h (steps node) (List.Subset.refl _)
          (all ++ entered.1.said) entered.2
        rwa [placedChildren_eq_map] at hchildren
      have hwalk : (walk (Visitor.typed schema (.reading watcher.hooks)) (depth + 1) node).run
          (c, all, own) = _ := Traversal.walk_of_enter_proceed henter
      dsimp only
      cases hdone : below.isDone with
      | true =>
          rw [hdone] at hchildren
          refine ⟨c', (hwalk.trans (Traversal.below_eq hchildren)).trans ?_, ?_⟩
          · simp [List.append_assoc]
          · simp
      | false =>
          rw [hdone, hc' hdone] at hchildren
          have hleave : (Visitor.typed schema (.reading watcher.hooks)).leave node
              (c.enter schema node, all ++ entered.1.said ++ below.said, below.own) =
              (left.1.action.toVisit, (c.enter schema node).leave node,
                all ++ entered.1.said ++ below.said ++ left.1.said, left.2) :=
            Visitor.typed_reading_leave rfl
          refine ⟨c, (hwalk.trans (Traversal.below_eq hchildren)).trans ?_, fun _ => rfl⟩
          rw [hleave, hback]
          cases left.1.action <;> simp [RuleAction.toVisit, List.append_assoc]

theorem walked (schema : Schema) (watcher : Watcher ε π) (depth : ℕ) :
    Walked schema watcher depth := by
  induction depth with
  | zero =>
      intro trail node _ all own
      exact ⟨_, by rw [Traversal.walk_zero, run, List.append_nil], fun _ => rfl⟩
  | succ depth ih => exact walked_succ ih

/-- What a watcher says is of a sort, if what it says at each node is. -/
theorem forall_said (P : ε → Prop)
    (henter : ∀ c node own, ∀ e ∈ (watcher.enter c node own).1.said, P e)
    (hleave : ∀ c node own, ∀ e ∈ (watcher.leave c node own).1.said, P e) (depth : ℕ)
    (node : Node) (c : TypeContext) (own : π) :
    ∀ e ∈ (watcher.run schema depth node c own).said, P e := by
  induction depth generalizing node c own with
  | zero => exact fun e he => absurd he List.not_mem_nil
  | succ depth ih =>
      have heach (children : List (Slot × ℕ × Node)) (c : TypeContext) (own : π) :
          ∀ e ∈ (runEach (watcher.run schema depth) (TypeContext.after schema depth) children c
            own).said, P e := by
        induction children generalizing c own with
        | nil => exact fun e he => absurd he List.not_mem_nil
        | cons child rest ihRest =>
            intro e he
            rw [runEach] at he
            dsimp only at he
            split at he
            · exact ih _ _ _ e he
            · rcases List.mem_append.mp he with he | he
              · exact ih _ _ _ e he
              · exact ihRest _ _ e he
      intro e he
      rw [run_succ] at he
      dsimp only at he
      cases haction : (watcher.enter (c.enter schema node) node own).1.action with
      | skip =>
          rw [haction] at he
          exact henter _ _ _ e he
      | stop =>
          rw [haction] at he
          exact henter _ _ _ e he
      | proceed =>
          rw [haction] at he
          dsimp only at he
          split at he
          · rcases List.mem_append.mp he with he | he
            · exact henter _ _ _ e he
            · exact heach _ _ _ e he
          · rcases List.mem_append.mp he with he | he
            · exact henter _ _ _ e he
            rcases List.mem_append.mp he with he | he
            · exact heach _ _ _ e he
            · exact hleave _ _ _ e he

end Watcher

/-! ## Calls -/

/-- A call of a visitor at a node, with the types at hand. -/
structure Call where
  phase : Phase
  node : Node
  types : TypeContext

namespace Visitor

variable {π : Type}

/-- Visitors that never put another node in the place of one. -/
def NeverReplaces (hooks : TypeContext → Visitor π) : Prop :=
  ∀ c node own replacement, ((hooks c).enter node own).1 ≠ .replace replacement ∧
    ((hooks c).leave node own).1 ≠ .replace replacement

/-- The visitor in a lane of a common walk; its calls are noted with the number of the lane. -/
def noted (lane : ℕ) (hooks : TypeContext → Visitor π) :
    Visitor ((TypeContext × List (ℕ × Call)) × π) where
  enter node := fun ((c, calls), own) =>
    let (action, own) := (hooks c).enter node own
    (action, ((c, calls ++ [(lane, ⟨.enter, node, c⟩)]), own))
  leave node := fun ((c, calls), own) =>
    let (action, own) := (hooks c).leave node own
    (action, ((c, calls ++ [(lane, ⟨.leave, node, c⟩)]), own))

/-- The visitor on a walk of its own; its calls are noted in the same way. -/
def notedAlone (lane : ℕ) (hooks : TypeContext → Visitor π) (c : TypeContext) :
    Visitor (List (ℕ × Call) × π) where
  enter node := fun (calls, own) =>
    let (action, own) := (hooks c).enter node own
    (action, (calls ++ [(lane, ⟨.enter, node, c⟩)], own))
  leave node := fun (calls, own) =>
    let (action, own) := (hooks c).leave node own
    (action, (calls ++ [(lane, ⟨.leave, node, c⟩)], own))

/-- The calls of visitors on a common walk, which start with something in mind. -/
def commonCalls (schema : Schema) (root : Node)
    (visitors : List ((TypeContext → Visitor π) × π)) : List (ℕ × Call) :=
  (visit (typed schema .parallel) root (.start ({}, [])
    (visitors.mapIdx fun lane (hooks, own) => (noted lane hooks, own)))).2.shared.2

/-- The calls of a visitor on a walk of its own. -/
def aloneCalls (schema : Schema) (root : Node) (lane : ℕ) (hooks : TypeContext → Visitor π)
    (own : π) : List (ℕ × Call) :=
  (visit (typed schema (reading (notedAlone lane hooks))) root ({}, [], own)).2.2.1

/-- How a visitor that replaces nothing goes on. -/
def actionOf : VisitAction → RuleAction
  | .skip => .skip
  | .stop => .stop
  | .proceed | .replace _ => .proceed

theorem toVisit_actionOf {action : VisitAction} (h : ∀ node, action ≠ .replace node) :
    (actionOf action).toVisit = action := by
  cases action with
  | replace node => exact absurd rfl (h node)
  | _ => rfl

/-- The watcher that says which calls it gets. -/
def watcher (lane : ℕ) (hooks : TypeContext → Visitor π) : Watcher (ℕ × Call) π where
  enter c node := fun own =>
    let (action, own) := (hooks c).enter node own
    (⟨[(lane, ⟨.enter, node, c⟩)], actionOf action⟩, own)
  leave c node := fun own =>
    let (action, own) := (hooks c).leave node own
    (⟨[(lane, ⟨.leave, node, c⟩)], actionOf action⟩, own)

variable {lane : ℕ} {hooks : TypeContext → Visitor π}

theorem visitor_watcher (lane : ℕ) (h : NeverReplaces hooks) :
    (watcher lane hooks).visitor = noted lane hooks := by
  unfold Watcher.visitor noted
  congr
  · funext node ⟨⟨c, calls⟩, own⟩
    exact Prod.ext (toVisit_actionOf fun r => (h c node own r).1) rfl
  · funext node ⟨⟨c, calls⟩, own⟩
    exact Prod.ext (toVisit_actionOf fun r => (h c node own r).2) rfl

theorem hooks_watcher (h : NeverReplaces hooks) :
    (watcher lane hooks).hooks = notedAlone lane hooks := by
  funext c
  unfold Watcher.hooks notedAlone
  congr
  · funext node ⟨calls, own⟩
    exact Prod.ext (toVisit_actionOf fun r => (h c node own r).1) rfl
  · funext node ⟨calls, own⟩
    exact Prod.ext (toVisit_actionOf fun r => (h c node own r).2) rfl

theorem lane_of_said (schema : Schema) (depth : ℕ) (node : Node) (c : TypeContext) (own : π) :
    ∀ call ∈ ((watcher lane hooks).run schema depth node c own).said, call.1 = lane :=
  Watcher.forall_said _ (fun _ _ _ _ h => by cases List.mem_singleton.mp h; rfl)
    (fun _ _ _ _ h => by cases List.mem_singleton.mp h; rfl) depth node c own

theorem aloneCalls_eq (schema : Schema) (root : Node) (lane : ℕ) (h : NeverReplaces hooks)
    (own : π) : aloneCalls schema root lane hooks own =
      ((watcher lane hooks).run schema (root.height + Traversal.growth) root {} own).said := by
  obtain ⟨c, hrun, -⟩ := Watcher.walked schema (watcher lane hooks)
    (root.height + Traversal.growth) (.root root) [] own
  rw [hooks_watcher h] at hrun
  rw [aloneCalls, visit, show TypeContext.along schema (Trail.above []) = {} from rfl] at *
  rw [hrun, List.nil_append]

theorem mapIdx_congr {α β : Type} {items : List α} {f g : ℕ → α → β}
    (h : ∀ i, ∀ item ∈ items, f i item = g i item) : items.mapIdx f = items.mapIdx g := by
  refine List.ext_getElem? fun i => ?_
  rw [List.getElem?_mapIdx, List.getElem?_mapIdx]
  cases hitem : items[i]? with
  | none => rfl
  | some item => exact congrArg some (h i item (List.mem_of_getElem? hitem))

theorem map_mapIdx {α β γ : Type} (items : List α) (f : ℕ → α → β) (g : β → γ) :
    (items.mapIdx f).map g = items.mapIdx fun i item => g (f i item) := by
  refine List.ext_getElem? fun i => ?_
  rw [List.getElem?_map, List.getElem?_mapIdx, List.getElem?_mapIdx, Option.map_map]
  rfl

theorem interleaves_commonCalls (schema : Schema) (root : Node)
    (visitors : List ((TypeContext → Visitor π) × π))
    (h : ∀ visitor ∈ visitors, NeverReplaces visitor.1) :
    Interleaves (visitors.mapIdx fun lane (hooks, own) => aloneCalls schema root lane hooks own)
      (commonCalls schema root visitors) := by
  have hcommon := Watcher.interleaves_of_visit schema root
    (visitors.mapIdx fun lane (hooks, own) => (watcher lane hooks, own))
  rw [map_mapIdx, map_mapIdx] at hcommon
  have hlanes := mapIdx_congr fun lane visitor hvisitor =>
    congrArg (·, visitor.2) (visitor_watcher lane (h visitor hvisitor))
  have halone := mapIdx_congr fun lane visitor hvisitor =>
    aloneCalls_eq schema root lane (h visitor hvisitor) visitor.2
  rw [halone, commonCalls, ← hlanes]
  exact hcommon

/-- A visitor gets the same calls on a common walk as on a walk of its own. -/
theorem filter_commonCalls (schema : Schema) (root : Node)
    {visitors : List ((TypeContext → Visitor π) × π)}
    (h : ∀ visitor ∈ visitors, NeverReplaces visitor.1) {lane : ℕ}
    {hooks : TypeContext → Visitor π} {own : π} (hlane : visitors[lane]? = some (hooks, own)) :
    (commonCalls schema root visitors).filter (·.1 = lane) =
      aloneCalls schema root lane hooks own := by
  have heach (i : ℕ) : (visitors.mapIdx fun lane (hooks, own) =>
      aloneCalls schema root lane hooks own).getD i [] =
      (visitors[i]?.map fun (hooks, own) => aloneCalls schema root i hooks own).getD [] := by
    rw [List.getD_eq_getElem?_getD, List.getElem?_mapIdx]
  rw [(interleaves_commonCalls schema root visitors h).filter_eq (fun i call hcall => ?_) lane,
    heach, hlane]
  · rfl
  · rw [heach] at hcall
    cases hvisitor : visitors[i]? with
    | none => simp [hvisitor] at hcall
    | some visitor =>
        obtain ⟨hooks', own'⟩ := visitor
        have hcall' : call ∈ aloneCalls schema root i hooks' own' := by
          rwa [hvisitor] at hcall
        rw [aloneCalls_eq schema root i (h _ (List.mem_of_getElem? hvisitor))] at hcall'
        exact lane_of_said _ _ _ _ _ call hcall'

end Visitor

/-! ## Errors -/

namespace Document

variable {document : Document} {rules : List Rule}

theorem mapM_eq_none_iff {α β : Type} {items : List α} {f : α → Option β} :
    items.mapM f = none ↔ ∃ item ∈ items, f item = none := by
  induction items with
  | nil => simp
  | cons item rest ih =>
      rw [List.mapM_cons]
      cases hf : f item <;> cases hrest : rest.mapM f <;> simp_all

theorem errorsOf?_eq_none_iff :
    document.errorsOf? schema rules = none ↔
      ∃ rule ∈ rules, document.alone? schema rule = none := by
  have hnone (rule : Rule) : document.lane? schema rule = none ↔
      document.alone? schema rule = none := by
    rw [lane?, alone?]
    cases rule.survey? schema document <;> simp
  simp only [← hnone, ← mapM_eq_none_iff, errorsOf?]
  cases rules.mapM (document.lane? schema) <;> simp

/-- One rule finds what it finds alone. -/
theorem errorsOf?_singleton (schema : Schema) (document : Document) (rule : Rule) :
    document.errorsOf? schema [rule] = document.alone? schema rule := by
  cases hfound : document.errorsOf? schema [rule] with
  | none =>
      obtain ⟨rule', hrule, hnone⟩ := errorsOf?_eq_none_iff.mp hfound
      cases List.mem_singleton.mp hrule
      exact hnone.symm
  | some found =>
      obtain ⟨each, heach, hinterleaves⟩ := interleaves_of_errorsOf? hfound
      cases halone : document.alone? schema rule with
      | none => simp [halone] at heach
      | some errors =>
          simp only [List.mapM_cons, halone, List.mapM_nil] at heach
          cases heach
          rw [hinterleaves.eq_of_singleton]

theorem validate?_singleton (schema : Schema) (document : Document) (rule : Rule) :
    document.validate? schema [rule] =
      (document.alone? schema rule).map (·.map document.respond) := by
  rw [validate?, errorsOf?_singleton]

end Document

/-- On a common walk, each of some visitors that replace nothing gets the calls, with the
types at hand, that it gets on a walk of its own.  So rules report what each of them
reports when it is the only one, in the same order. -/
theorem Visitor.calls_and_errors_of_common_walk {π : Type} (schema : Schema) (root : Node)
    (visitors : List ((TypeContext → Visitor π) × π))
    (h : ∀ visitor ∈ visitors, NeverReplaces visitor.1) :
    (∀ lane hooks own, visitors[lane]? = some (hooks, own) →
      (commonCalls schema root visitors).filter (·.1 = lane) =
        aloneCalls schema root lane hooks own) ∧
    ∀ (document : Document) (rules : List Rule),
      (document.validate? schema rules = none ↔
        ∃ rule ∈ rules, document.validate? schema [rule] = none) ∧
      ∀ found, document.validate? schema rules = some found →
        ∃ each, rules.mapM (fun rule => document.validate? schema [rule]) = some each ∧
          Interleaves each found := by
  refine ⟨fun lane hooks own hlane => filter_commonCalls schema root h hlane,
    fun document rules => ⟨?_, fun found hfound => ?_⟩⟩
  · simp only [Document.validate?_singleton, Option.map_eq_none_iff]
    rw [Document.validate?, Option.map_eq_none_iff, Document.errorsOf?_eq_none_iff]
  · obtain ⟨errors, herrors, rfl⟩ := Option.map_eq_some_iff.mp hfound
    obtain ⟨each, heach, hinterleaves⟩ := Document.interleaves_of_errorsOf? herrors
    refine ⟨each.map (List.map document.respond), ?_, hinterleaves.map document.respond⟩
    simp only [Document.validate?_singleton]
    rw [Document.mapM_map_eq, heach]
    rfl

/-- Takes one action on entering nodes of a kind, and goes on at all others. -/
def acting (kind : NodeKind) (action : RuleAction) (_ : TypeContext) : Visitor Unit where
  enter node := pure (if node.kind = kind then action.toVisit else .proceed)
  leave _ := pure .proceed

theorem neverReplaces_acting (kind : NodeKind) (action : RuleAction) :
    Visitor.NeverReplaces (acting kind action) := by
  intro c node own replacement
  refine ⟨?_, fun h => by cases h⟩
  change (if node.kind = kind then action.toVisit else .proceed) ≠ _
  split
  · cases action <;> exact fun h => by cases h
  · exact fun h => by cases h

/-- One visitor skips fields, and another one stops at the first. -/
theorem Visitor.calls_and_errors_of_common_walk_of_acting :
    let root := Node.document (ringDocument ringField (.int "1" none))
    let visitors := [(acting .field .skip, ()), (acting .field .stop, ())]
    let calls := fun lane => ((commonCalls ringSchema root visitors).filter (·.1 = lane)).map
      fun call => (call.2.phase, call.2.node.kind, call.2.types.parentType?.map (·.name))
    (∀ visitor ∈ visitors, NeverReplaces visitor.1) ∧
      calls 0 = [(.enter, .document, none), (.enter, .operationDefinition, none),
        (.enter, .selectionSet, some "Ring"), (.enter, .field, some "Ring"),
        (.enter, .field, some "Ring"), (.leave, .selectionSet, some "Ring"),
        (.leave, .operationDefinition, none), (.leave, .document, none)] ∧
      calls 1 = [(.enter, .document, none), (.enter, .operationDefinition, none),
        (.enter, .selectionSet, some "Ring"), (.enter, .field, some "Ring")] := by
  intro root visitors calls
  have hnever : ∀ visitor ∈ visitors, NeverReplaces visitor.1 := by
    intro visitor hvisitor
    rcases List.mem_pair.mp hvisitor with rfl | rfl <;> exact neverReplaces_acting _ _
  obtain ⟨hcalls, -⟩ := calls_and_errors_of_common_walk ringSchema root visitors hnever
  refine ⟨hnever, ?_, ?_⟩
  · rw [show calls 0 = _ from congrArg (List.map _) (hcalls 0 _ () rfl)]
    rfl
  · rw [show calls 1 = _ from congrArg (List.map _) (hcalls 1 _ () rfl)]
    rfl

end GraphQL
