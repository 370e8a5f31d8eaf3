import Mathlib
import GraphQL.Proofs.Traversal.Walk
import GraphQL.Validation.Rule

/-!
# Watchers on a common walk

A `Watcher` is a visitor that changes nothing and knows nothing of others: what it does
depends on the types at hand, the node, and what it has in mind itself.  `Watcher.run` is
what it does on its own.

The common walk of some watchers is nothing but that for each of them.  A watcher that skips
nodes is put on hold while the walk goes on below, and one that is done stays where it is,
and neither is noticed by the others.  The walk ends early only when all are done.  So what
they say in common is made up of what each of them says on its own
(`Watcher.interleaves_of_common`).

The proof follows the walk of one node for one watcher (`Participant.said_succ`,
`Participant.walked_succ`), and puts the watchers next to each other afterwards.
-/

namespace GraphQL

/-! ## Lists made up of others -/

section

variable {α β : Type}

/-- A list is made up of others, each in its order. -/
def Interleaves (each : List (List α)) (all : List α) : Prop :=
  ∃ tagged : List (ℕ × α), tagged.map (·.2) = all ∧
    ∀ i, (tagged.filter (·.1 = i)).map (·.2) = each.getD i []

namespace Interleaves

variable {each : List (List α)} {all : List α}

theorem nil : Interleaves ([] : List (List α)) [] := ⟨[], rfl, fun _ => rfl⟩

theorem filter_shift (tagged : List (ℕ × α)) (i : ℕ) :
    ((tagged.map fun entry => (entry.1 + 1, entry.2)).filter (·.1 = i + 1)).map (·.2) =
      (tagged.filter (·.1 = i)).map (·.2) := by
  induction tagged with
  | nil => rfl
  | cons entry rest ih =>
      by_cases h : entry.1 = i <;> simp_all

theorem filter_zero_shift (tagged : List (ℕ × α)) :
    (tagged.map fun entry => (entry.1 + 1, entry.2)).filter (·.1 = 0) = [] :=
  List.filter_eq_nil_iff.mpr fun entry hentry => by
    obtain ⟨_, -, rfl⟩ := List.mem_map.mp hentry
    simp

theorem filter_tag (list : List α) (i j : ℕ) :
    ((list.map fun a => (i, a)).filter (·.1 = j)).map (·.2) = if i = j then list else [] := by
  split
  · next h =>
      rw [List.filter_eq_self.mpr fun entry hentry => ?_, List.map_map]
      · exact List.map_id list
      · obtain ⟨_, -, rfl⟩ := List.mem_map.mp hentry
        simpa using h
  · next h =>
      rw [List.filter_eq_nil_iff.mpr fun entry hentry => ?_, List.map_nil]
      obtain ⟨_, -, rfl⟩ := List.mem_map.mp hentry
      simpa using h

/-- One more list, which comes before all of the others. -/
theorem cons (list : List α) (h : Interleaves each all) :
    Interleaves (list :: each) (list ++ all) := by
  obtain ⟨tagged, rfl, htagged⟩ := h
  refine ⟨(list.map fun a => (0, a)) ++ tagged.map fun entry => (entry.1 + 1, entry.2), ?_, ?_⟩
  · simp [Function.comp_def]
  · intro i
    rw [List.filter_append, List.map_append, filter_tag]
    cases i with
    | zero => simp [filter_zero_shift]
    | succ i => simp [filter_shift, htagged]

/-- One more list, which comes after all of the others. -/
theorem cons_after (list : List α) (h : Interleaves each all) :
    Interleaves (list :: each) (all ++ list) := by
  obtain ⟨tagged, rfl, htagged⟩ := h
  refine ⟨(tagged.map fun entry => (entry.1 + 1, entry.2)) ++ list.map fun a => (0, a), ?_, ?_⟩
  · simp [Function.comp_def]
  · intro i
    rw [List.filter_append, List.map_append, filter_tag]
    cases i with
    | zero => simp [filter_zero_shift]
    | succ i => simp [filter_shift, htagged]

theorem flatMap (items : List β) (f : β → List α) :
    Interleaves (items.map f) (items.flatMap f) := by
  induction items with
  | nil => exact nil
  | cons item rest ih => exact ih.cons (f item)

theorem flatMap_reverse (items : List β) (f : β → List α) :
    Interleaves (items.map f) (items.reverse.flatMap f) := by
  induction items with
  | nil => exact nil
  | cons item rest ih =>
      rw [List.reverse_cons, List.flatMap_append, List.flatMap_singleton]
      exact ih.cons_after (f item)

theorem of_nil (items : List β) : Interleaves (items.map fun _ => ([] : List α)) [] := by
  induction items with
  | nil => exact nil
  | cons item rest ih => exact ih.cons []

/-- What comes of the same items in two turns. -/
theorem append {items : List β} {f g : β → List α} {first second : List α}
    (h : Interleaves (items.map f) first) (h' : Interleaves (items.map g) second) :
    Interleaves (items.map fun item => f item ++ g item) (first ++ second) := by
  obtain ⟨tagged, rfl, htagged⟩ := h
  obtain ⟨tagged', rfl, htagged'⟩ := h'
  refine ⟨tagged ++ tagged', List.map_append, fun i => ?_⟩
  rw [List.filter_append, List.map_append, htagged, htagged']
  simp only [List.getD_eq_getElem?_getD, List.getElem?_map]
  cases items[i]? <;> rfl

theorem map (f : α → β) (h : Interleaves each all) :
    Interleaves (each.map (List.map f)) (all.map f) := by
  obtain ⟨tagged, rfl, htagged⟩ := h
  refine ⟨tagged.map fun entry => (entry.1, f entry.2), by simp, fun i => ?_⟩
  have heach : (each.map (List.map f)).getD i [] = (each.getD i []).map f := by
    simp only [List.getD_eq_getElem?_getD, List.getElem?_map]
    cases each[i]? <;> rfl
  rw [heach, ← htagged, List.filter_map, List.map_map, List.map_map]
  rfl

/-- Where each list has a mark of its own, the marks tell the lists. -/
theorem filter_eq {mark : α → ℕ} (h : Interleaves each all)
    (hmark : ∀ i, ∀ a ∈ each.getD i [], mark a = i) (i : ℕ) :
    all.filter (mark · = i) = each.getD i [] := by
  obtain ⟨tagged, rfl, htagged⟩ := h
  have htag : ∀ entry ∈ tagged, mark entry.2 = entry.1 := by
    intro entry hentry
    refine hmark entry.1 entry.2 ?_
    rw [← htagged entry.1]
    exact List.mem_map_of_mem (List.mem_filter.mpr ⟨hentry, decide_eq_true rfl⟩)
  rw [← htagged i, List.filter_map]
  refine congrArg (List.map _) (List.filter_congr fun entry hentry => ?_)
  rw [Function.comp_apply, htag entry hentry]

theorem eq_of_singleton {list : List α} (h : Interleaves [list] all) : all = list := by
  obtain ⟨tagged, rfl, htagged⟩ := h
  have htag : ∀ entry ∈ tagged, entry.1 = 0 := by
    intro entry hentry
    by_contra hne
    have hmem : entry.2 ∈ [list].getD entry.1 [] := by
      rw [← htagged entry.1]
      exact List.mem_map_of_mem (List.mem_filter.mpr ⟨hentry, decide_eq_true rfl⟩)
    obtain ⟨i, hi⟩ := Nat.exists_eq_succ_of_ne_zero hne
    rw [hi] at hmem
    simp at hmem
  have hfirst := htagged 0
  rwa [List.filter_eq_self.mpr fun entry hentry => decide_eq_true (htag entry hentry)] at hfirst

/-- Without the first list, what is left is made up of the others. -/
theorem tail {list : List α} {tagged : List (ℕ × α)}
    (h : ∀ i, (tagged.filter (·.1 = i)).map (·.2) = (list :: each).getD i []) :
    Interleaves each ((tagged.filter (¬·.1 = 0)).map (·.2)) := by
  refine ⟨(tagged.filter (¬·.1 = 0)).map fun entry => (entry.1 - 1, entry.2), ?_, fun i => ?_⟩
  · rw [List.map_map]
    rfl
  · rw [List.filter_map, List.map_map, List.filter_filter]
    refine Eq.trans ?_ (h (i + 1))
    refine congrArg (List.map _) (List.filter_congr fun entry _ => ?_)
    simp only [Function.comp_apply]
    grind

/-- What is made up of others is the same as all of them in turn, in another order. -/
theorem perm_flatten (h : Interleaves each all) : all.Perm each.flatten := by
  induction each generalizing all with
  | nil =>
      obtain ⟨tagged, rfl, htagged⟩ := h
      cases tagged with
      | nil => rfl
      | cons entry rest => simpa using htagged entry.1
  | cons list each ih =>
      obtain ⟨tagged, rfl, htagged⟩ := h
      have hfirst : (tagged.filter (·.1 = 0)).map (·.2) = list := htagged 0
      have hsplit := (List.filter_append_perm (fun entry : ℕ × α => decide (entry.1 = 0)) tagged).map
        (·.2)
      rw [List.map_append, hfirst] at hsplit
      refine hsplit.symm.trans ((ih ?_).append_left list)
      have hrest := tail htagged
      simpa only [decide_not] using hrest

end Interleaves

end

/-! ## Watchers -/

/-- The types at hand after the walk of a node. -/
def TypeContext.after (schema : Schema) : ℕ → Node → TypeContext → TypeContext
  | 0, _, c => c
  | depth + 1, node, c =>
    (node.placedChildren.foldl (fun c child => after schema depth child.2.2 c)
      (c.enter schema node)).leave node

/-- The types at hand after the walk of some children. -/
def TypeContext.afterEach (schema : Schema) (depth : ℕ) (children : List (Slot × ℕ × Node))
    (c : TypeContext) : TypeContext :=
  children.foldl (fun c child => after schema depth child.2.2 c) c

/-- What a watcher says at a node, and how it goes on. -/
structure Answer (ε : Type) where
  said : List ε
  action : RuleAction

/-- Nothing to say. -/
def Answer.silent {ε : Type} : Answer ε := ⟨[], .proceed⟩

/-- The two calls at a node, with the types at hand there. -/
structure Watcher (ε π : Type) where
  enter : TypeContext → Node → StateM π (Answer ε)
  leave : TypeContext → Node → StateM π (Answer ε)

namespace Watcher

variable {ε π : Type}

/-- The visitor that puts what a watcher says in a list that is shared. -/
def visitor (watcher : Watcher ε π) : Visitor ((TypeContext × List ε) × π) where
  enter node := call (watcher.enter · node)
  leave node := call (watcher.leave · node)
where
  call (ask : TypeContext → StateM π (Answer ε)) :
      StateM ((TypeContext × List ε) × π) VisitAction :=
    fun ((types, all), own) =>
      let (answer, own) := ask types own
      (answer.action.toVisit, ((types, all ++ answer.said), own))

/-- What came of the walk of one watcher. -/
structure Outcome (ε π : Type) where
  said : List ε
  own : π
  isDone : Bool

/-- What a watcher says at children in turn, where `run` is what it does at each. -/
def runEach (run : Node → TypeContext → π → Outcome ε π)
    (after : Node → TypeContext → TypeContext) :
    List (Slot × ℕ × Node) → TypeContext → π → Outcome ε π
  | [], _, own => ⟨[], own, false⟩
  | (_, _, child) :: rest, c, own =>
    let first := run child c own
    if first.isDone then first
    else
      let more := runEach run after rest (after child c) first.own
      { more with said := first.said ++ more.said }

/-- What a watcher says on its own at a node and below it, up to a depth. -/
def run (schema : Schema) (watcher : Watcher ε π) : ℕ → Node → TypeContext → π → Outcome ε π
  | 0, _, _, own => ⟨[], own, false⟩
  | depth + 1, node, c, own =>
    let c := c.enter schema node
    let (answer, own) := watcher.enter c node own
    match answer.action with
    | .skip => ⟨answer.said, own, false⟩
    | .stop => ⟨answer.said, own, true⟩
    | .proceed =>
      let below := runEach (run schema watcher depth) (TypeContext.after schema depth)
        node.placedChildren c own
      if below.isDone then { below with said := answer.said ++ below.said }
      else
        let c := c.afterEach schema depth node.placedChildren
        let (last, own) := watcher.leave c node below.own
        ⟨answer.said ++ (below.said ++ last.said), own, last.action = .stop⟩

theorem run_succ (schema : Schema) (watcher : Watcher ε π) (depth : ℕ) (node : Node)
    (c : TypeContext) (own : π) :
    watcher.run schema (depth + 1) node c own =
      let inside := c.enter schema node
      let entered := watcher.enter inside node own
      let below := runEach (watcher.run schema depth) (TypeContext.after schema depth)
        node.placedChildren inside entered.2
      let left := watcher.leave (inside.afterEach schema depth node.placedChildren) node below.own
      match entered.1.action with
      | .skip => ⟨entered.1.said, entered.2, false⟩
      | .stop => ⟨entered.1.said, entered.2, true⟩
      | .proceed =>
        if below.isDone then { below with said := entered.1.said ++ below.said }
        else ⟨entered.1.said ++ (below.said ++ left.1.said), left.2, left.1.action = .stop⟩ := rfl

end Watcher

/-! ## Watchers next to each other -/

open Parallel (Mode)

/-- A watcher on a common walk. -/
structure Participant (ε π : Type) where
  watcher : Watcher ε π
  own : π
  mode : Mode

namespace Participant

variable {ε π : Type}

/-- The lane of the walk that the watcher takes. -/
def lane (p : Participant ε π) : Parallel.Lane (TypeContext × List ε) π :=
  ⟨p.watcher.visitor, p.own, p.mode⟩

/-- What the watcher says on entering a node. -/
def entering (node : Node) (c : TypeContext) (p : Participant ε π) : Answer ε × π :=
  if p.mode = .active then p.watcher.enter c node p.own
  else (.silent, p.own)

/-- The participant after it has entered a node. -/
def entered (level : ℕ) (node : Node) (c : TypeContext) (p : Participant ε π) :
    Participant ε π where
  watcher := p.watcher
  own := (p.entering node c).2
  mode :=
    match (p.entering node c).1.action with
    | .proceed => p.mode
    | .skip => .skipping level
    | .stop => .done

/-- What the watcher says on leaving a node. -/
def leaving (node : Node) (c : TypeContext) (p : Participant ε π) : Answer ε × π :=
  if p.mode = .active then p.watcher.leave c node p.own
  else (.silent, p.own)

/-- The participant after it has left a node. -/
def left (level : ℕ) (node : Node) (c : TypeContext) (p : Participant ε π) :
    Participant ε π where
  watcher := p.watcher
  own := (p.leaving node c).2
  mode :=
    if p.mode = .skipping level then .active
    else if (p.leaving node c).1.action = .stop then .done
    else p.mode

/-- What comes of the walk of a node, for a watcher that may not take part in it. -/
def outcome (schema : Schema) (depth : ℕ) (node : Node) (c : TypeContext)
    (p : Participant ε π) : Watcher.Outcome ε π :=
  if p.mode = .active then p.watcher.run schema depth node c p.own
  else ⟨[], p.own, false⟩

/-- What comes of the walk of some children, for a watcher that may not take part in it. -/
def outcomeEach (schema : Schema) (depth : ℕ) (children : List (Slot × ℕ × Node))
    (c : TypeContext) (p : Participant ε π) : Watcher.Outcome ε π :=
  if p.mode = .active then
    Watcher.runEach (p.watcher.run schema depth) (TypeContext.after schema depth) children c p.own
  else ⟨[], p.own, false⟩

/-- The participant after a walk with an outcome. -/
def after (p : Participant ε π) (outcome : Watcher.Outcome ε π) : Participant ε π where
  watcher := p.watcher
  own := outcome.own
  mode := if outcome.isDone then .done else p.mode

/-- The participant after the walk of a node. -/
abbrev walked (schema : Schema) (depth : ℕ) (node : Node) (c : TypeContext)
    (p : Participant ε π) : Participant ε π :=
  p.after (p.outcome schema depth node c)

/-- The participant after the walk of some children. -/
abbrev walkedEach (schema : Schema) (depth : ℕ) (children : List (Slot × ℕ × Node))
    (c : TypeContext) (p : Participant ε π) : Participant ε π :=
  p.after (p.outcomeEach schema depth children c)

end Participant

/-! ### One participant at one node -/

namespace Participant

variable {ε π : Type} {schema : Schema} {depth level : ℕ} {node : Node}
  {c : TypeContext} {p : Participant ε π}

theorem entering_of_not_active (h : p.mode ≠ .active) :
    p.entering node c = (.silent, p.own) := if_neg h

theorem leaving_of_not_active (h : p.mode ≠ .active) :
    p.leaving node c = (.silent, p.own) := if_neg h

theorem entered_of_not_active (h : p.mode ≠ .active) :
    p.entered level node c = p := by
  simp only [entered, entering_of_not_active h, Answer.silent]

theorem left_of_not_active (h : p.mode ≠ .active) (hlevel : p.mode ≠ .skipping level) :
    p.left level node c = p := by
  simp only [left, leaving_of_not_active h, Answer.silent, if_neg hlevel, reduceCtorEq,
    if_false]

theorem outcome_of_not_active (h : p.mode ≠ .active) :
    p.outcome schema depth node c = ⟨[], p.own, false⟩ := if_neg h

theorem outcomeEach_of_not_active {children : List (Slot × ℕ × Node)} (h : p.mode ≠ .active) :
    p.outcomeEach schema depth children c = ⟨[], p.own, false⟩ := if_neg h

theorem after_eq_self (p : Participant ε π) (said : List ε) :
    p.after ⟨said, p.own, false⟩ = p := rfl

theorem walkedEach_of_not_active {children : List (Slot × ℕ × Node)} (h : p.mode ≠ .active) :
    p.walkedEach schema depth children c = p := by
  rw [walkedEach, outcomeEach_of_not_active h, after_eq_self]

theorem outcomeEach_nil :
    p.outcomeEach schema depth [] c = ⟨[], p.own, false⟩ := ite_self _

theorem outcome_zero : p.outcome schema 0 node c = ⟨[], p.own, false⟩ := ite_self _

/-- Children are walked one after the other. -/
theorem outcomeEach_cons {slot : Slot} {index : ℕ} {child : Node}
    {rest : List (Slot × ℕ × Node)} :
    (p.outcomeEach schema depth ((slot, index, child) :: rest) c).said =
        (p.outcome schema depth child c).said ++
          ((p.walked schema depth child c).outcomeEach schema depth rest
            (c.after schema depth child)).said ∧
      p.walkedEach schema depth ((slot, index, child) :: rest) c =
        (p.walked schema depth child c).walkedEach schema depth rest
          (c.after schema depth child) := by
  by_cases hactive : p.mode = .active
  · cases hdone : (p.watcher.run schema depth child c p.own).isDone with
    | true =>
        have hdone' : (p.walked schema depth child c).mode ≠ .active := by
          simp [after, outcome, hactive, hdone]
        rw [walkedEach, walkedEach, outcomeEach_of_not_active hdone']
        simp [outcomeEach, outcome, after, Watcher.runEach, hactive, hdone]
    | false =>
        have hactive' : (p.walked schema depth child c).mode = .active := by
          simp [after, outcome, hactive, hdone]
        rw [walkedEach, walkedEach]
        simp only [outcomeEach, hactive, hactive', if_true]
        simp [outcome, after, Watcher.runEach, hactive, hdone]
  · have hself : p.walked schema depth child c = p := by
      rw [walked, outcome_of_not_active hactive, after_eq_self]
    rw [hself, walkedEach, walkedEach, outcomeEach_of_not_active hactive,
      outcomeEach_of_not_active hactive, outcome_of_not_active hactive]
    exact ⟨rfl, rfl⟩

/-- The walk of a node: on entering it, below it, and on leaving it. -/
theorem outcome_succ (hlevel : p.mode ≠ .skipping level) :
    let below := c.enter schema node
    let p₁ := p.entered level node below
    let p₂ := p₁.walkedEach schema depth node.placedChildren below
    let last := below.afterEach schema depth node.placedChildren
    (p.outcome schema (depth + 1) node c).said =
        (p.entering node below).1.said ++
          ((p₁.outcomeEach schema depth node.placedChildren below).said ++
            (p₂.leaving node last).1.said) ∧
      p.walked schema (depth + 1) node c = p₂.left level node last := by
  intro below p₁ p₂ last
  by_cases hactive : p.mode = .active
  · have hentering : p.entering node below =
        p.watcher.enter below node p.own := if_pos hactive
    have hrest (h : p₁.mode ≠ .active) : p₂ = p₁ := by
      rw [show p₂ = p₁.walkedEach schema depth node.placedChildren below from rfl,
        walkedEach, outcomeEach_of_not_active h, after_eq_self]
    have hwalked : p.outcome schema (depth + 1) node c =
        p.watcher.run schema (depth + 1) node c p.own := if_pos hactive
    rw [walked, hwalked, Watcher.run, ← hentering]
    cases haction : (p.entering node below).1.action with
    | skip =>
        have hmode : p₁.mode = .skipping level := by simp only [p₁, entered, haction]
        have hleft : p₁.mode ≠ .active := by simp [hmode]
        rw [hrest hleft, outcomeEach_of_not_active hleft, leaving_of_not_active hleft]
        simp only [left, hmode, if_true, leaving_of_not_active hleft, after, haction, hactive,
          Answer.silent, List.append_nil, Bool.false_eq_true, if_false, true_and]
        rfl
    | stop =>
        have hmode : p₁.mode = .done := by simp only [p₁, entered, haction]
        have hleft : p₁.mode ≠ .active := by simp [hmode]
        rw [hrest hleft, outcomeEach_of_not_active hleft, leaving_of_not_active hleft,
          left_of_not_active hleft (by simp [hmode])]
        simp only [after, haction, Answer.silent, List.append_nil, if_true, true_and]
        exact congrArg _ hmode.symm
    | proceed =>
        have hmode : p₁.mode = .active := by simp only [p₁, entered, haction, hactive]
        have hbelow : Watcher.runEach (Watcher.run schema p.watcher depth)
            (TypeContext.after schema depth) node.placedChildren (c.enter schema node)
              (p.entering node below).2 =
            p₁.outcomeEach schema depth node.placedChildren below :=
          (if_pos hmode).symm
        simp only [haction, hbelow]
        cases hdone : (p₁.outcomeEach schema depth node.placedChildren below).isDone with
        | true =>
            have hmode₂ : p₂.mode = .done := by simp only [p₂, after, hdone, if_true]
            have hleft : p₂.mode ≠ .active := by simp [hmode₂]
            rw [leaving_of_not_active hleft, left_of_not_active hleft (by simp [hmode₂])]
            simp only [if_true, Answer.silent, List.append_nil, true_and, p₂, after, hdone]
            rfl
        | false =>
            have hmode₂ : p₂.mode = .active := by
              simp only [p₂, after, hdone, Bool.false_eq_true, if_false, hmode]
            have hleaving : p.watcher.leave last node
                (p₁.outcomeEach schema depth node.placedChildren below).own =
                p₂.leaving node last := (if_pos hmode₂).symm
            simp only [Bool.false_eq_true, if_false, last, below] at hleaving ⊢
            rw [hleaving]
            simp only [after, left, hmode₂, hactive, decide_eq_true_eq, reduceCtorEq, if_false,
              true_and]
            rfl
  · have hself : p₁ = p := entered_of_not_active hactive
    have hself₂ : p₂ = p := by
      rw [show p₂ = p₁.walkedEach schema depth node.placedChildren below from rfl,
        hself, walkedEach, outcomeEach_of_not_active hactive, after_eq_self]
    rw [hself, hself₂, left_of_not_active hactive hlevel, entering_of_not_active hactive,
      leaving_of_not_active hactive, outcomeEach_of_not_active hactive, walked,
      outcome_of_not_active hactive]
    exact ⟨rfl, rfl⟩

end Participant

/-! ### All participants at one node -/

variable {ε π : Type} {schema : Schema} {ps : List (Participant ε π)} {level : ℕ}
  {node : Node} {c : TypeContext} {all : List ε}

open Participant

theorem enterLanes_eq :
    Parallel.enterLanes level node (c, all) (ps.map lane) =
      ((c, all ++ ps.flatMap fun p => (p.entering node c).1.said),
        (ps.map (entered level node c)).map lane, none) := by
  induction ps generalizing all with
  | nil => simp [Parallel.enterLanes]
  | cons p rest ih =>
      rw [List.map_cons, Parallel.enterLanes, List.map_cons, List.map_cons, List.flatMap_cons,
        ← List.append_assoc]
      by_cases hactive : p.mode = .active
      · have hentering : p.watcher.enter c node p.own =
            p.entering node c := (if_pos hactive).symm
        rw [if_pos (show p.lane.mode = .active from hactive)]
        simp only [lane, Watcher.visitor, Watcher.visitor.call, StateT.run, hentering]
        cases haction : (p.entering node c).1.action <;>
          simp only [RuleAction.toVisit, Parallel.enterLanes.before, entered, haction] <;>
          rw [ih]
      · rw [if_neg (show ¬p.lane.mode = .active from hactive),
          Parallel.enterLanes.before, ih, entered_of_not_active hactive,
          entering_of_not_active hactive]
        simp only [Answer.silent, List.append_nil]

theorem leaveLanes_eq :
    Parallel.leaveLanes level node (c, all) (ps.map lane) =
      ((c, all ++ ps.reverse.flatMap fun p => (p.leaving node c).1.said),
        (ps.map (left level node c)).map lane, none) := by
  induction ps generalizing all with
  | nil => simp [Parallel.leaveLanes]
  | cons p rest ih =>
      rw [List.map_cons, Parallel.leaveLanes, ih, List.map_cons, List.map_cons,
        List.reverse_cons, List.flatMap_append, ← List.append_assoc]
      simp only [List.flatMap_cons, List.flatMap_nil, List.append_nil, Option.isNone_none,
        and_true]
      by_cases hactive : p.mode = .active
      · have hleaving : p.watcher.leave c node p.own =
            p.leaving node c := (if_pos hactive).symm
        rw [if_neg (show ¬p.lane.mode = .skipping level by
            rw [show p.lane.mode = p.mode from rfl, hactive]; simp),
          if_pos (show p.lane.mode = .active from hactive)]
        simp only [lane, Watcher.visitor, Watcher.visitor.call, StateT.run, hleaving]
        cases haction : (p.leaving node c).1.action <;>
          simp [RuleAction.toVisit, left, haction, hactive]
      · rw [if_neg (show ¬p.lane.mode = .active from hactive),
          leaving_of_not_active hactive]
        by_cases hskip : p.mode = .skipping level
        · rw [if_pos (show p.lane.mode = .skipping level from hskip)]
          simp only [lane, left, leaving_of_not_active hactive, Answer.silent, hskip, if_true,
            List.append_nil]
        · rw [if_neg (show ¬p.lane.mode = .skipping level from hskip),
            left_of_not_active hactive hskip]
          simp only [Answer.silent, List.append_nil]

/-- The state of a common walk. -/
def common (ps : List (Participant ε π)) (c : TypeContext) (all : List ε) (level : ℕ) :
    Parallel.State (TypeContext × List ε) π :=
  ⟨(c, all), ps.map lane, level⟩

/-- The walk of a node begins for all participants, and ends when they are done. -/
theorem exists_enter_eq (schema : Schema) (ps : List (Participant ε π)) (c : TypeContext)
    (all : List ε) (level : ℕ) (node : Node) :
    let below := c.enter schema node
    ∃ stopped, (stopped = true → ∀ p ∈ ps, (p.entered (level + 1) node below).mode = .done) ∧
      (Visitor.typed schema .parallel).enter node (common ps c all level) =
        (if stopped then .stop else .proceed,
          common (ps.map (entered (level + 1) node below)) below
            (all ++ ps.flatMap fun p => (p.entering node below).1.said) (level + 1)) := by
  intro below
  refine ⟨Parallel.allDone ((ps.map (entered (level + 1) node below)).map lane), ?_, ?_⟩
  · intro hdone p hp
    rw [Parallel.allDone, List.map_map, List.all_map, List.all_eq_true] at hdone
    exact of_decide_eq_true (hdone p hp)
  · simp only [Visitor.typed, Visitor.parallel, common, bind, StateT.bind, modify, modifyGet,
      MonadStateOf.modifyGet, StateT.modifyGet, pure, HasTypeContext.mapTypeContext,
      enterLanes_eq, Parallel.decide]
    split <;> rfl

/-- The walk of a node ends for all participants, and the whole walk when they are done. -/
theorem exists_leave_eq (schema : Schema) (ps : List (Participant ε π)) (c : TypeContext)
    (all : List ε) (level : ℕ) (node : Node) :
    ∃ stopped, (stopped = true → ∀ p ∈ ps, (p.left (level + 1) node c).mode = .done) ∧
      (Visitor.typed schema .parallel).leave node (common ps c all (level + 1)) =
        (if stopped then .stop else .proceed,
          common (ps.map (left (level + 1) node c)) (c.leave node)
            (all ++ ps.reverse.flatMap fun p => (p.leaving node c).1.said) level) := by
  refine ⟨Parallel.allDone ((ps.map (left (level + 1) node c)).map lane), ?_, ?_⟩
  · intro hdone p hp
    rw [Parallel.allDone, List.map_map, List.all_map, List.all_eq_true] at hdone
    exact of_decide_eq_true (hdone p hp)
  · simp only [Visitor.typed, Visitor.parallel, common, bind, StateT.bind, modify, modifyGet,
      MonadStateOf.modifyGet, StateT.modifyGet, pure, HasTypeContext.mapTypeContext,
      leaveLanes_eq, Parallel.decide, Nat.add_sub_cancel]
    split <;> rfl

/-! ## The common walk -/

/-- What a part of a common walk comes to: what has become of each participant, what each
has said, and the types and the level unless all have stopped. -/
structure Ended (ps : List (Participant ε π)) (become : Participant ε π → Participant ε π)
    (said : Participant ε π → List ε) (c : TypeContext) (all : List ε) (level : ℕ)
    (stopped : Bool) (s : Parallel.State (TypeContext × List ε) π) : Prop where
  lanes : s.lanes = (ps.map become).map lane
  said : ∃ more, s.shared.2 = all ++ more ∧ Interleaves (ps.map said) more
  done : stopped = true → ∀ p ∈ ps, (become p).mode = .done
  types : stopped = false → s.shared.1 = c
  level : stopped = false → s.level = level

namespace Ended

variable {become become' : Participant ε π → Participant ε π}
  {said said' : Participant ε π → List ε} {c' : TypeContext} {level' : ℕ} {stopped : Bool}
  {s s' : Parallel.State (TypeContext × List ε) π}

theorem eq_common (h : Ended ps become said c all level false s) :
    s = common (ps.map become) c s.shared.2 level := by
  obtain ⟨⟨types, found⟩, lanes, l⟩ := s
  obtain rfl := h.lanes
  obtain rfl := h.types rfl
  obtain rfl := h.level rfl
  rfl

theorem congr (h : Ended ps become said c all level stopped s)
    (hbecome : ∀ p ∈ ps, become p = become' p) (hsaid : ∀ p ∈ ps, said p = said' p) :
    Ended ps become' said' c all level stopped s where
  lanes := h.lanes.trans (congrArg (List.map lane) (List.map_congr_left hbecome))
  said := by
    rw [← List.map_congr_left hsaid]
    exact h.said
  done hstopped p hp := hbecome p hp ▸ h.done hstopped p hp
  types := h.types
  level := h.level

/-- Nothing has happened. -/
theorem refl : Ended ps id (fun _ => []) c all level false (common ps c all level) where
  lanes := congrArg (List.map lane) (List.map_id ps).symm
  said := ⟨[], (List.append_nil all).symm, Interleaves.of_nil ps⟩
  done h := absurd h Bool.false_ne_true
  types _ := rfl
  level _ := rfl

/-- One part of the walk after another. -/
theorem trans (h : Ended ps become said c all level false s)
    (h' : Ended (ps.map become) become' said' c' s.shared.2 level' stopped s') :
    Ended ps (fun p => become' (become p)) (fun p => said p ++ said' (become p)) c' all level'
      stopped s' where
  lanes := by
    rw [h'.lanes]
    simp only [List.map_map]
    rfl
  said := by
    obtain ⟨more, heq, hmore⟩ := h.said
    obtain ⟨more', heq', hmore'⟩ := h'.said
    refine ⟨more ++ more', by rw [heq', heq, List.append_assoc], ?_⟩
    rw [List.map_map] at hmore'
    exact hmore.append hmore'
  done hstopped p hp := h'.done hstopped _ (List.mem_map_of_mem hp)
  types := h'.types
  level := h'.level

/-- When all have stopped, nothing is left to be done. -/
theorem of_done (h : Ended ps become said c all level true s)
    (become' : Participant ε π → Participant ε π) (said' : Participant ε π → List ε)
    (c' : TypeContext) (level' : ℕ)
    (hbecome : ∀ p ∈ ps, become' (become p) = become p)
    (hsaid : ∀ p ∈ ps, said' (become p) = []) :
    Ended ps (fun p => become' (become p)) (fun p => said p ++ said' (become p)) c' all level'
      true s :=
  have h' : Ended ps (fun p => become' (become p)) (fun p => said p ++ said' (become p)) c all
      level true s :=
    h.congr (fun p hp => (hbecome p hp).symm)
      fun p hp => by rw [hsaid p hp, List.append_nil]
  ⟨h'.lanes, h'.said, h'.done, nofun, nofun⟩

end Ended

theorem ended_enter (all : List ε) (stopped : Bool)
    (hstopped : stopped = true → ∀ p ∈ ps, (p.entered (level + 1) node c).mode = .done) :
    Ended ps (entered (level + 1) node c) (fun p => (p.entering node c).1.said) c all (level + 1)
      stopped (common (ps.map (entered (level + 1) node c)) c
        (all ++ ps.flatMap fun p => (p.entering node c).1.said) (level + 1)) :=
  ⟨rfl, ⟨_, rfl, .flatMap ps _⟩, hstopped, fun _ => rfl, fun _ => rfl⟩

theorem ended_leave (c' : TypeContext) (stopped : Bool)
    (hstopped : stopped = true → ∀ p ∈ ps, (p.left (level + 1) node c).mode = .done) :
    Ended ps (left (level + 1) node c) (fun p => (p.leaving node c).1.said) c' all level
      stopped (common (ps.map (left (level + 1) node c)) c'
        (all ++ ps.reverse.flatMap fun p => (p.leaving node c).1.said) level) :=
  ⟨rfl, ⟨_, rfl, .flatMap_reverse ps _⟩, hstopped, fun _ => rfl, fun _ => rfl⟩

theorem ne_active_of_done {p : Participant ε π} (h : p.mode = .done) : p.mode ≠ .active := by
  simp [h]

/-- The nodes that participants skip are around the walk. -/
def Within (level : ℕ) (ps : List (Participant ε π)) : Prop :=
  ∀ p ∈ ps, ∀ l, p.mode = .skipping l → l ≤ level

theorem Within.after {outcome : Participant ε π → Watcher.Outcome ε π} (h : Within level ps) :
    Within level (ps.map fun p => p.after (outcome p)) := by
  intro q hq l hl
  obtain ⟨p, hp, rfl⟩ := List.mem_map.mp hq
  refine h p hp l ?_
  simp only [Participant.after] at hl
  split at hl
  · cases hl
  · exact hl

theorem Within.entered (h : Within level ps) :
    Within (level + 1) (ps.map (entered (level + 1) node c)) := by
  intro q hq l hl
  obtain ⟨p, hp, rfl⟩ := List.mem_map.mp hq
  simp only [Participant.entered] at hl
  split at hl
  · exact (h p hp l hl).trans (Nat.le_succ level)
  · cases hl
    exact le_refl _
  · cases hl

theorem Within.ne_skipping_succ (h : Within level ps) {p : Participant ε π} (hp : p ∈ ps) :
    p.mode ≠ .skipping (level + 1) := fun hmode =>
  absurd (h p hp _ hmode) (Nat.not_succ_le_self level)

/-- A walk of a node with all participants comes to what it comes to for each of them. -/
def Common (ε π : Type) (schema : Schema) (depth : ℕ) : Prop :=
  ∀ (node : Node) (c : TypeContext) (ps : List (Participant ε π)) (all : List ε) (level : ℕ),
    Within level ps → ∃ stopped s,
      (Traversal.walk (Visitor.typed schema .parallel) depth node).run (common ps c all level) =
          (.ok ⟨none, stopped⟩, s) ∧
        Ended ps (walked schema depth node c) (fun p => (p.outcome schema depth node c).said)
          (c.after schema depth node) all level stopped s

/-- Children walked in turn. -/
theorem exists_walkChildren_eq {depth : ℕ} (hwalk : Common ε π schema depth)
    (children : List (Slot × ℕ × Node)) (c : TypeContext) (ps : List (Participant ε π))
    (all : List ε) (hwithin : Within level ps) :
    ∃ stopped s,
      (Traversal.walkChildren (Traversal.walk (Visitor.typed schema .parallel) depth)
          children).run (common ps c all level) = (.ok ([], stopped), s) ∧
        Ended ps (walkedEach schema depth children c)
          (fun p => (p.outcomeEach schema depth children c).said)
          (c.afterEach schema depth children) all level stopped s := by
  induction children generalizing c ps all with
  | nil =>
      refine ⟨false, _, Traversal.walkChildren_nil _ _, ?_⟩
      refine Ended.refl.congr (fun p _ => ?_) fun p _ => ?_
      · rw [walkedEach, outcomeEach_nil, after_eq_self, id]
      · rw [outcomeEach_nil]
  | cons child rest ih =>
      obtain ⟨slot, index, child⟩ := child
      obtain ⟨stopped, s, hrun, hended⟩ := hwalk child c ps all level hwithin
      cases stopped with
      | true =>
          refine ⟨true, s, Traversal.walkChildren_cons_of_stopped hrun, ?_⟩
          have hended' := hended.of_done (walkedEach schema depth rest (c.after schema depth child))
            (fun p => (p.outcomeEach schema depth rest (c.after schema depth child)).said)
            (c.afterEach schema depth ((slot, index, child) :: rest)) level
            (fun p hp => walkedEach_of_not_active (ne_active_of_done (hended.done rfl p hp)))
            fun p hp => by
              rw [outcomeEach_of_not_active (ne_active_of_done (hended.done rfl p hp))]
          exact hended'.congr (fun p _ => outcomeEach_cons.2.symm) fun p _ => outcomeEach_cons.1.symm
      | false =>
          rw [hended.eq_common] at hrun
          obtain ⟨stopped', s', hrun', hended'⟩ := ih (c.after schema depth child)
            (ps.map (walked schema depth child c)) s.shared.2 hwithin.after
          refine ⟨stopped', s', Traversal.walkChildren_cons hrun hrun', ?_⟩
          exact (hended.trans hended').congr (fun p _ => outcomeEach_cons.2.symm)
            fun p _ => outcomeEach_cons.1.symm

theorem common_succ {depth : ℕ} (ih : Common ε π schema depth) :
    Common ε π schema (depth + 1) := by
  intro node c ps all level hwithin
  let below := c.enter schema node
  let last := below.afterEach schema depth node.placedChildren
  let entered' : Participant ε π → Participant ε π := entered (level + 1) node below
  let walked' : Participant ε π → Participant ε π :=
    walkedEach schema depth node.placedChildren below
  let left' : Participant ε π → Participant ε π := left (level + 1) node last
  let saidBelow := fun p : Participant ε π =>
    (p.outcomeEach schema depth node.placedChildren below).said
  let saidLast := fun p : Participant ε π => (p.leaving node last).1.said
  -- For each of them, the walk is made up of three parts.
  have hparts {stopped s} (h : Ended ps (fun p => left' (walked' (entered' p)))
      (fun p => ((p.entering node below).1.said ++ saidBelow (entered' p)) ++
        saidLast (walked' (entered' p))) (last.leave node) all level stopped s) :
      Ended ps (walked schema (depth + 1) node c)
        (fun p => (p.outcome schema (depth + 1) node c).said)
        (c.after schema (depth + 1) node) all level stopped s :=
    h.congr (fun p hp => (outcome_succ (hwithin.ne_skipping_succ hp)).2.symm)
      fun p hp => by
        rw [List.append_assoc]
        exact (outcome_succ (hwithin.ne_skipping_succ hp)).1.symm
  -- Those who are done are not asked again.
  have hchildren {p : Participant ε π} (hdone : p.mode = .done) :
      walked' p = p ∧ saidBelow p = [] := by
    have hactive := ne_active_of_done hdone
    exact ⟨walkedEach_of_not_active hactive,
      congrArg Watcher.Outcome.said (outcomeEach_of_not_active hactive)⟩
  have hleft {p : Participant ε π} (hdone : p.mode = .done) : left' p = p ∧ saidLast p = [] := by
    have hactive := ne_active_of_done hdone
    exact ⟨left_of_not_active hactive (by simp [hdone]),
      congrArg (·.1.said) (leaving_of_not_active hactive)⟩
  obtain ⟨stopped, hdone, henter⟩ := exists_enter_eq schema ps c all level node
  have hended := ended_enter all stopped hdone
  cases stopped with
  | true =>
      refine ⟨true, _, Traversal.walk_of_enter_stop henter, hparts ?_⟩
      have hended := hended.of_done walked' saidBelow last (level + 1)
        (fun p hp => (hchildren (hdone rfl p hp)).1) fun p hp => (hchildren (hdone rfl p hp)).2
      have hdone := hended.done rfl
      exact hended.of_done left' saidLast _ _ (fun p hp => (hleft (hdone p hp)).1)
        fun p hp => (hleft (hdone p hp)).2
  | false =>
      rw [Traversal.walk_of_enter_proceed henter]
      obtain ⟨stopped, s, hrun, hended'⟩ := exists_walkChildren_eq ih node.placedChildren below
        (ps.map entered') _ hwithin.entered
      have hended := hended.trans hended'
      cases stopped with
      | true =>
          refine ⟨true, s, Traversal.below_eq hrun, hparts ?_⟩
          have hdone := hended.done rfl
          exact hended.of_done left' saidLast _ _ (fun p hp => (hleft (hdone p hp)).1)
            fun p hp => (hleft (hdone p hp)).2
      | false =>
          rw [hended.eq_common] at hrun
          obtain ⟨stopped, hdone, hleave⟩ := exists_leave_eq schema
            (ps.map fun p => walked' (entered' p)) last s.shared.2 level node
          refine ⟨stopped, _, ?_, hparts (hended.trans (ended_leave _ stopped hdone))⟩
          cases stopped with
          | true => exact Traversal.below_of_leave_stop hrun hleave
          | false => exact Traversal.below_of_leave_proceed hrun hleave

theorem common_of_depth (ε π : Type) (schema : Schema) (depth : ℕ) :
    Common ε π schema depth := by
  induction depth with
  | zero =>
      intro node c ps all level _
      refine ⟨false, _, Traversal.walk_zero _ _ _, ?_⟩
      refine Ended.refl.congr (fun p _ => ?_) fun p _ => ?_
      · rw [walked, outcome_zero, after_eq_self, id]
      · rw [outcome_zero]
  | succ depth ih => exact common_succ ih

theorem Watcher.exists_walk_eq (schema : Schema) (depth : ℕ) (root : Node)
    (watchers : List (Watcher ε π × π)) :
    ∃ stopped s,
      (Traversal.walk (Visitor.typed schema .parallel) depth root).run
          (.start ({}, []) (watchers.map fun (watcher, own) => (watcher.visitor, own))) =
        (.ok ⟨none, stopped⟩, s) ∧
      Interleaves (watchers.map fun (watcher, own) => (watcher.run schema depth root {} own).said)
        s.shared.2 := by
  let ps : List (Participant ε π) := watchers.map fun (watcher, own) => ⟨watcher, own, .active⟩
  have hwithin : Within 0 ps := by
    intro p hp l hl
    obtain ⟨_, -, rfl⟩ := List.mem_map.mp hp
    cases hl
  obtain ⟨stopped, s, hrun, hended⟩ := common_of_depth ε π schema depth root {} ps [] 0 hwithin
  have hstart : Parallel.State.start ({}, []) (watchers.map fun (watcher, own) =>
      (watcher.visitor, own)) = common ps {} [] 0 := by
    simp only [Parallel.State.start, common, ps, List.map_map]
    rfl
  obtain ⟨more, heq, hmore⟩ := hended.said
  refine ⟨stopped, s, hstart ▸ hrun, ?_⟩
  rw [heq, List.nil_append]
  simp only [ps, List.map_map] at hmore
  exact hmore

/-- What watchers say on a common walk is made up of what each of them says on its own. -/
theorem Watcher.interleaves_of_visit (schema : Schema) (root : Node)
    (watchers : List (Watcher ε π × π)) :
    Interleaves
      (watchers.map fun (watcher, own) =>
        (watcher.run schema (root.height + Traversal.growth) root {} own).said)
      (visit (Visitor.typed schema .parallel) root
        (.start ({}, []) (watchers.map fun (watcher, own) => (watcher.visitor, own)))).2.shared.2 := by
  obtain ⟨stopped, s, hrun, hsaid⟩ := exists_walk_eq schema (root.height + Traversal.growth) root
    watchers
  rwa [visit, hrun]

end GraphQL
