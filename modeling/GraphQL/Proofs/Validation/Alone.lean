import Mathlib
import GraphQL.Proofs.Typing.Watchers
import GraphQL.Validation.Basic

/-!
# What a rule finds alone

The rules are visitors on one walk.  `Rule.alone` is what one of them does on its own: the
errors it finds below a node, what it keeps in mind, and whether it is done.  As a rule sees
nothing of the others, it is a watcher, and `Rule.alone` is what it does as one
(`Rule.alone_eq_run`).

So the errors of a document are made up of those that its rules find alone
(`Document.interleaves_of_errorsOf?`).
-/

namespace GraphQL

namespace Rule

/-- What came of the walk of one rule. -/
structure Outcome where
  errors : List ValidationError
  memory : RuleMemory
  isDone : Bool

/-- What a rule finds at children in turn, where `find` is what it finds at each. -/
def findEach (find : Node → TypeContext → RuleMemory → Outcome)
    (after : Node → TypeContext → TypeContext) :
    List (Slot × ℕ × Node) → TypeContext → RuleMemory → Outcome
  | [], _, memory => ⟨[], memory, false⟩
  | (_, _, child) :: rest, c, memory =>
    let first := find child c memory
    if first.isDone then first
    else
      let more := findEach find after rest (after child c) first.memory
      { more with errors := first.errors ++ more.errors }

/-- What a rule finds on its own at a node and below it, up to a depth. -/
def alone (schema : Schema) (document : Document) (rule : Rule) :
    ℕ → Node → TypeContext → RuleMemory → Outcome
  | 0, _, _, memory => ⟨[], memory, false⟩
  | depth + 1, node, c, memory =>
    let c := c.enter schema node
    let (finding, memory) := rule.enter { schema, document, types := c } node memory
    match finding.action with
    | .skip => ⟨finding.errors, memory, false⟩
    | .stop => ⟨finding.errors, memory, true⟩
    | .proceed =>
      let below := findEach (alone schema document rule depth) (TypeContext.after schema depth)
        node.placedChildren c memory
      if below.isDone then { below with errors := finding.errors ++ below.errors }
      else
        let c := c.afterEach schema depth node.placedChildren
        let (last, memory) := rule.leave { schema, document, types := c } node below.memory
        ⟨finding.errors ++ (below.errors ++ last.errors), memory, last.action = .stop⟩

/-- What a rule finds on its own at some children. -/
abbrev aloneEach (schema : Schema) (document : Document) (rule : Rule) (depth : ℕ) :
    List (Slot × ℕ × Node) → TypeContext → RuleMemory → Outcome :=
  findEach (alone schema document rule depth) (TypeContext.after schema depth)

section

variable {rule : Rule} {depth : ℕ} {node : Node} {c : TypeContext} {memory memory' : RuleMemory}
  {finding : Finding}

theorem alone_of_skip
    (h : rule.enter { schema, document, types := c.enter schema node } node memory =
      (finding, memory')) (haction : finding.action = .skip) :
    rule.alone schema document (depth + 1) node c memory = ⟨finding.errors, memory', false⟩ := by
  simp only [alone, h, haction]

theorem alone_of_stop
    (h : rule.enter { schema, document, types := c.enter schema node } node memory =
      (finding, memory')) (haction : finding.action = .stop) :
    rule.alone schema document (depth + 1) node c memory = ⟨finding.errors, memory', true⟩ := by
  simp only [alone, h, haction]

theorem alone_of_proceed
    (h : rule.enter { schema, document, types := c.enter schema node } node memory =
      (finding, memory')) (haction : finding.action = .proceed) :
    rule.alone schema document (depth + 1) node c memory =
      let c := c.enter schema node
      let below := rule.aloneEach schema document depth node.placedChildren c memory'
      if below.isDone then { below with errors := finding.errors ++ below.errors }
      else
        let c := c.afterEach schema depth node.placedChildren
        let last := rule.leave { schema, document, types := c } node below.memory
        ⟨finding.errors ++ (below.errors ++ last.1.errors), last.2, last.1.action = .stop⟩ := by
  simp only [alone, h, haction]
  rfl

end

end Rule

/-! ## Rules as watchers -/

namespace Rule

/-- The rule as a watcher of the document. -/
def watcher (schema : Schema) (document : Document) (rule : Rule) :
    Watcher ValidationError RuleMemory where
  enter c node := call (rule.enter { schema, document, types := c } node)
  leave c node := call (rule.leave { schema, document, types := c } node)
where
  call (check : StateM RuleMemory Finding) : StateM RuleMemory (Answer ValidationError) :=
    fun memory =>
      let (finding, memory) := check memory
      (⟨finding.errors, finding.action⟩, memory)

theorem visitor_watcher (schema : Schema) (document : Document) (rule : Rule) :
    (rule.watcher schema document).visitor = rule.visitor schema document := rfl

/-- The outcome for a rule. -/
def Outcome.ofWatcher (outcome : Watcher.Outcome ValidationError RuleMemory) : Outcome :=
  ⟨outcome.said, outcome.own, outcome.isDone⟩

theorem findEach_eq_runEach {find : Node → TypeContext → RuleMemory → Outcome}
    {run : Node → TypeContext → RuleMemory → Watcher.Outcome ValidationError RuleMemory}
    (after : Node → TypeContext → TypeContext)
    (h : ∀ node c memory, find node c memory = .ofWatcher (run node c memory))
    (children : List (Slot × ℕ × Node)) (c : TypeContext) (memory : RuleMemory) :
    findEach find after children c memory =
      .ofWatcher (Watcher.runEach run after children c memory) := by
  induction children generalizing c memory with
  | nil => rfl
  | cons child rest ih =>
      simp only [findEach, Watcher.runEach, h, ih]
      split <;> simp_all [Outcome.ofWatcher]

/-- What a rule finds alone is what it says as a watcher. -/
theorem alone_eq_run (schema : Schema) (document : Document) (rule : Rule) (depth : ℕ)
    (node : Node) (c : TypeContext) (memory : RuleMemory) :
    rule.alone schema document depth node c memory =
      .ofWatcher ((rule.watcher schema document).run schema depth node c memory) := by
  induction depth generalizing node c memory with
  | zero => rfl
  | succ depth ih =>
      let entered := rule.enter { schema, document, types := c.enter schema node } node memory
      have henter : (rule.watcher schema document).enter (c.enter schema node) node memory =
          (⟨entered.1.errors, entered.1.action⟩, entered.2) := rfl
      let below := Watcher.runEach ((rule.watcher schema document).run schema depth)
        (TypeContext.after schema depth) node.placedChildren (c.enter schema node) entered.2
      have hbelow : rule.aloneEach schema document depth node.placedChildren (c.enter schema node)
          entered.2 = .ofWatcher below := findEach_eq_runEach _ ih _ _ _
      rw [Watcher.run, henter]
      cases haction : entered.1.action with
      | skip => exact alone_of_skip rfl haction
      | stop => exact alone_of_stop rfl haction
      | proceed =>
          refine (alone_of_proceed rfl haction).trans ?_
          dsimp only
          rw [show (rule.enter { schema, document, types := c.enter schema node } node
            memory).2 = entered.2 from rfl, hbelow]
          change (if below.isDone then _ else _) = Outcome.ofWatcher (if below.isDone then _ else _)
          by_cases hdone : below.isDone = true
          · rw [if_pos hdone, if_pos hdone]
            rfl
          · rw [if_neg hdone, if_neg hdone]
            rfl

end Rule

/-! ## The errors of a document -/

namespace Document

variable {schema : Schema} {document : Document}

/-- What a rule finds in the document when it works alone, if it comes to an end. -/
def alone? (schema : Schema) (document : Document) (rule : Rule) :
    Option (List ValidationError) := do
  let surveyed ← rule.survey? schema document
  let root : Node := .document document
  return (rule.alone schema document (root.height + Traversal.growth) root {} { surveyed }).errors

theorem mapM_map_eq {α β γ : Type} (items : List α) (f : α → Option β) (g : β → γ) :
    items.mapM (fun item => (f item).map g) = (items.mapM f).map (List.map g) := by
  induction items with
  | nil => rfl
  | cons item rest ih =>
      rw [List.mapM_cons, List.mapM_cons, ih]
      cases f item <;> cases rest.mapM f <;> rfl

/-- The lanes of the walk are taken by the rules as watchers. -/
theorem lane?_eq (schema : Schema) (document : Document) (rule : Rule) :
    document.lane? schema rule = (rule.survey? schema document).map fun surveyed =>
      ((rule.watcher schema document).visitor, { surveyed }) := by
  rw [lane?, Rule.visitor_watcher]
  cases rule.survey? schema document <;> rfl

/-- Rules find in a document what each of them finds alone. -/
theorem interleaves_of_errorsOf? {rules : List Rule} {found : List ValidationError}
    (h : document.errorsOf? schema rules = some found) :
    ∃ each, rules.mapM (document.alone? schema) = some each ∧ Interleaves each found := by
  let start : Rule → Option (Watcher ValidationError RuleMemory × RuleMemory) := fun rule =>
    (rule.survey? schema document).map fun surveyed => (rule.watcher schema document, { surveyed })
  have hlane : document.lane? schema = fun rule =>
      (start rule).map fun (watcher, own) => (watcher.visitor, own) := by
    funext rule
    rw [lane?_eq, Option.map_map]
    rfl
  have halone : document.alone? schema = fun rule => (start rule).map fun (watcher, own) =>
      (watcher.run schema ((Node.document document).height + Traversal.growth)
        (.document document) {} own).said := by
    funext rule
    rw [alone?, Option.map_map]
    cases rule.survey? schema document with
    | none => rfl
    | some surveyed => exact congrArg (some ·.errors) (Rule.alone_eq_run ..)
  rw [errorsOf?, hlane, mapM_map_eq] at h
  rw [halone, mapM_map_eq]
  cases hstart : rules.mapM start with
  | none => simp [hstart] at h
  | some watchers =>
      rw [hstart] at h
      cases h
      exact ⟨_, rfl, Watcher.interleaves_of_visit schema (.document document) watchers⟩

theorem perm_of_errorsOf? {rules : List Rule} {found : List ValidationError}
    (h : document.errorsOf? schema rules = some found) :
    ∃ each, rules.mapM (document.alone? schema) = some each ∧ found.Perm each.flatten := by
  obtain ⟨each, heach, hfound⟩ := interleaves_of_errorsOf? h
  exact ⟨each, heach, hfound.perm_flatten⟩

end Document

end GraphQL
