import Mathlib
import GraphQL.Proofs.Document.Slots
import GraphQL.Proofs.Traversal.Walk

/-!
# Walks that know where they are

A visitor is told the node it is called for, but not how the walk came there.  A `Guide` is
told that too: the trail from the root, with each node above as it was when its children
were visited.  `walkAt` is the walk with a guide.  The trail is an argument of it and no part
of a state, so what a guide is told does not depend on what the guide did before.

The walk with a guide ends at once when the guide answers with a replacement that cannot
stand in the place of the node.  As long as the replacements fit, a visitor that does at each
node what a guide does, and keeps in its state what the guide is told, walks as the guide
does (`Simulates.walk_eq`).
-/

namespace GraphQL

namespace Traversal

/-- A step down in a tree: from a node, as it was when its children were visited, to one of
them. -/
structure Step where
  above : Node
  /-- The number of the child among all children. -/
  number : ℕ
  slot : Slot
  index : ℕ

/-- The steps from the root to a node, the last one first. -/
abbrev Trail := List Step

namespace Trail

/-- The nodes above, from the innermost on. -/
def above (trail : Trail) : List Node := trail.map (·.above)

/-- What is wrong with a node in the place that a trail leads to, if anything. -/
def misfit? : Trail → Node → Option Misfit
  | [], _ => none
  | step :: _, node =>
    match step.above.replaceChild? step.slot step.index node with
    | some _ => none
    | none => some ⟨node.kind, step.slot, step.above.kind⟩

end Trail

/-- The two calls at a node that a trail leads to.  On leaving, the node that was entered is
told too. -/
structure Guide (σ : Type) where
  enter : Trail → Node → StateM σ VisitAction
  leave : Trail → (entered : Node) → Node → StateM σ VisitAction

/-! ## The walk with a guide -/

section

variable {σ : Type}

/-- The children of a node with the steps that lead to them. -/
def steps (above : Node) : List (Step × Node) :=
  above.placedChildren.zipIdx.map fun ((slot, index, child), number) =>
    (⟨above, number, slot, index⟩, child)

/-- Walks the children of a node in turn, and collects the changes. -/
def walkStepsAt (walk : Trail → Node → Walk σ Progress) (trail : Trail) :
    List (Step × Node) → Walk σ (List Edit × Bool)
  | [] => return ([], false)
  | (step, child) :: rest => do
    let progress ← walk (step :: trail) child
    if progress.stopped then return (progress.edits step.slot step.index, true)
    let (edits, stopped) ← walkStepsAt walk trail rest
    return (progress.edits step.slot step.index ++ edits, stopped)

/-- The visitor that a guide is where a trail leads to, once a node has been entered there. -/
def Guide.at (guide : Guide σ) (trail : Trail) (entered : Node) : Visitor σ where
  enter := guide.enter trail
  leave := guide.leave trail entered

/-- Walks the children of a node, which may be a replacement itself, and leaves the node. -/
def walkBelowAt (guide : Guide σ) (walk : Trail → Node → Walk σ Progress) (trail : Trail)
    (base : Node) (replaced : Option Node) : Walk σ Progress := do
  let (edits, stopped) ← walkStepsAt walk trail (steps base)
  let edited ← changed base replaced edits
  closing (guide.at trail base) base stopped edited

/-- Walks a node that is not more than `depth` levels high. -/
def walkAt (guide : Guide σ) : (depth : ℕ) → Trail → Node → Walk σ Progress
  | 0, _, _ => return ⟨none, false⟩
  | depth + 1, trail, node => do
    match ← guide.enter trail node with
    | .skip => return ⟨none, false⟩
    | .stop => return ⟨none, true⟩
    | .proceed => walkBelowAt guide (walkAt guide depth) trail node none
    | .replace replacement =>
      match trail.misfit? replacement with
      | none => walkBelowAt guide (walkAt guide depth) trail replacement (some replacement)
      | some misfit => throw misfit

end

/-! ## What a walk with a guide has done -/

section

variable {σ : Type} {guide : Guide σ} {walk' : Trail → Node → Walk σ Progress} {depth : ℕ}
  {trail : Trail} {node base : Node} {replaced : Option Node} {s s' : σ} {progress : Progress}
  {edits : List Edit} {stopped : Bool}

theorem walkStepsAt_nil_eq_ok :
    (walkStepsAt walk' trail []).run s = (.ok (edits, stopped), s') ↔
      (edits, stopped) = ([], false) ∧ s' = s := by
  rw [walkStepsAt, run_pure_eq_ok, eq_comm, @eq_comm _ s]

theorem walkStepsAt_cons_eq_ok {step : Step} {child : Node} {rest : List (Step × Node)} :
    (walkStepsAt walk' trail ((step, child) :: rest)).run s = (.ok (edits, stopped), s') ↔
      ∃ progress t, (walk' (step :: trail) child).run s = (.ok progress, t) ∧
        if progress.stopped then
          (edits, stopped) = (progress.edits step.slot step.index, true) ∧ s' = t
        else
          ∃ more, (walkStepsAt walk' trail rest).run t = (.ok (more, stopped), s') ∧
            edits = progress.edits step.slot step.index ++ more := by
  rw [walkStepsAt, run_bind_eq_ok]
  refine exists_congr fun progress => exists_congr fun t => and_congr_right fun _ => ?_
  cases progress.stopped with
  | true =>
      rw [if_pos rfl, if_pos rfl, run_pure_eq_ok, eq_comm, @eq_comm _ t]
  | false =>
      rw [if_neg Bool.false_ne_true, if_neg Bool.false_ne_true, run_bind_eq_ok]
      constructor
      · rintro ⟨⟨more, stopped'⟩, t', hrest, hend⟩
        obtain ⟨heq, rfl⟩ := run_pure_eq_ok.mp hend
        cases heq
        exact ⟨more, hrest, rfl⟩
      · rintro ⟨more, hrest, rfl⟩
        exact ⟨(more, stopped), s', hrest, run_pure_eq_ok.mpr ⟨rfl, rfl⟩⟩

theorem walkBelowAt_eq_ok :
    (walkBelowAt guide walk' trail base replaced).run s = (.ok progress, s') ↔
      ∃ edits stopped t edited,
        (walkStepsAt walk' trail (steps base)).run s = (.ok (edits, stopped), t) ∧
        changed base replaced edits = .ok edited ∧
        (closing (guide.at trail base) base stopped edited).run t = (.ok progress, s') := by
  rw [walkBelowAt, run_bind_eq_ok, Prod.exists]
  refine exists_congr fun edits => exists_congr fun stopped => exists_congr fun t => ?_
  rw [exists_and_left]
  refine and_congr_right fun _ => ?_
  rw [run_bind_eq_ok]
  refine exists_congr fun edited => ?_
  constructor
  · rintro ⟨t', hrun, hend⟩
    obtain ⟨hedited, rfl⟩ := run_liftExcept_eq_ok.mp hrun
    exact ⟨hedited, hend⟩
  · rintro ⟨hedited, hend⟩
    exact ⟨t, run_liftExcept_eq_ok.mpr ⟨hedited, rfl⟩, hend⟩

theorem walkAt_zero_eq_ok :
    (walkAt guide 0 trail node).run s = (.ok progress, s') ↔
      progress = ⟨none, false⟩ ∧ s' = s := by
  rw [walkAt, run_pure_eq_ok, eq_comm, @eq_comm _ s]

theorem walkAt_succ_eq_ok :
    (walkAt guide (depth + 1) trail node).run s = (.ok progress, s') ↔
      ∃ action t, guide.enter trail node s = (action, t) ∧
        match action with
        | .skip => progress = ⟨none, false⟩ ∧ s' = t
        | .stop => progress = ⟨none, true⟩ ∧ s' = t
        | .proceed =>
          (walkBelowAt guide (walkAt guide depth) trail node none).run t = (.ok progress, s')
        | .replace replacement =>
          trail.misfit? replacement = none ∧
            (walkBelowAt guide (walkAt guide depth) trail replacement (some replacement)).run t =
              (.ok progress, s') := by
  rw [walkAt, run_bind_eq_ok]
  refine exists_congr fun action => exists_congr fun t => and_congr run_lift_eq_ok ?_
  cases action with
  | skip => exact run_pure_eq_ok.trans (and_congr eq_comm eq_comm)
  | stop => exact run_pure_eq_ok.trans (and_congr eq_comm eq_comm)
  | proceed => rfl
  | replace replacement =>
      dsimp only
      cases trail.misfit? replacement with
      | none => exact (and_iff_right rfl).symm
      | some misfit => exact iff_of_false run_throw_ne_ok (by simp)

end

/-! ## Where nodes stand -/

/-- A trail leads to a node: one that the tree has there, or one that can take its place. -/
inductive Trail.LeadsTo : Trail → Node → Prop
  | root (node : Node) : LeadsTo [] node
  | child {trail : Trail} {above child : Node} {step : Step} (h : LeadsTo trail above)
      (hmem : (step, child) ∈ steps above) : LeadsTo (step :: trail) child
  | replaced {trail : Trail} {node replacement : Node} (h : LeadsTo trail node)
      (hfits : trail.misfit? replacement = none) : LeadsTo trail replacement

theorem placedChildren_eq_map (above : Node) :
    (steps above).map (fun (step, child) => (step.slot, step.index, child)) =
      above.placedChildren := by
  rw [steps, List.map_map]
  exact List.zipIdx_map_fst 0 above.placedChildren

end Traversal

/-! ## Changes keep the kind of a node -/

namespace Traversal

theorem kind_of_applyEdits {node node' : Node} {edits : List Edit}
    (h : applyEdits node edits = .ok node') : node'.kind = node.kind := by
  induction edits generalizing node with
  | nil =>
      cases h
      rfl
  | cons edit rest ih =>
      rw [applyEdits] at h
      split at h
      · next between hbetween => exact (ih h).trans (Node.replaceChild?_eq_some_iff.mp hbetween).2.kind_eq
      · cases h

/-- A node that is left is of the kind of the one that was entered. -/
theorem kind_of_changed {base : Node} {replaced edited : Option Node} {edits : List Edit}
    (hreplaced : replaced.getD base = base) (h : changed base replaced edits = .ok edited) :
    (edited.getD base).kind = base.kind := by
  rw [changed] at h
  split at h
  · cases h
    rw [hreplaced]
  · cases happly : applyEdits base edits with
    | error misfit => rw [happly] at h; cases h
    | ok node =>
        rw [happly] at h
        cases h
        exact kind_of_applyEdits happly

/-! ## Visitors that do what a guide does -/

section

variable {σ τ : Type}

/-- A visitor does what a guide does.  The state of the visitor is made up of that of the
guide and of the nodes that are above, `embed` says how. -/
structure Simulates (visitor : Visitor τ) (guide : Guide σ) (embed : List Node → σ → τ) :
    Prop where
  enter : ∀ {trail node action s s'}, trail.LeadsTo node →
    guide.enter trail node s = (action, s') →
    ∃ path, visitor.enter node (embed trail.above s) = (action, embed path s') ∧
      match action with
      | .proceed => path = node :: trail.above
      | .replace replacement =>
        trail.misfit? replacement = none → path = replacement :: trail.above
      | .skip => path = trail.above
      | .stop => True
  leave : ∀ {trail entered node action s s'}, trail.LeadsTo entered →
    node.kind = entered.kind → guide.leave trail entered node s = (action, s') →
    visitor.leave node (embed (entered :: trail.above) s) = (action, embed trail.above s')

namespace Simulates

variable {visitor : Visitor τ} {guide : Guide σ} {embed : List Node → σ → τ} {depth : ℕ}
  {trail : Trail} {node base : Node} {s s' : σ} {progress : Progress}

/-- A walk of a node with the visitor comes to what the walk with the guide comes to. -/
def Follows (visitor : Visitor τ) (guide : Guide σ) (embed : List Node → σ → τ)
    (depth : ℕ) : Prop :=
  ∀ {trail node s s' progress}, trail.LeadsTo node →
    (walkAt guide depth trail node).run s = (.ok progress, s') →
    ∃ path, (walk visitor depth node).run (embed trail.above s) = (.ok progress, embed path s') ∧
      (progress.stopped = false → path = trail.above)

theorem follows_steps (hfollows : Follows visitor guide embed depth)
    (children : List (Step × Node)) {edits : List Edit} {stopped : Bool}
    (hchildren : ∀ child ∈ children, Trail.LeadsTo (child.1 :: trail) child.2)
    (habove : ∀ child ∈ children, child.1.above = base)
    (h : (walkStepsAt (walkAt guide depth) trail children).run s =
      (.ok (edits, stopped), s')) :
    ∃ path,
      (walkChildren (walk visitor depth)
        (children.map fun (step, child) => (step.slot, step.index, child))).run
          (embed (base :: trail.above) s) = (.ok (edits, stopped), embed path s') ∧
      (stopped = false → path = base :: trail.above) := by
  induction children generalizing s edits stopped with
  | nil =>
      obtain ⟨heq, rfl⟩ := walkStepsAt_nil_eq_ok.mp h
      exact ⟨_, walkChildren_nil_eq_ok.mpr ⟨heq, rfl⟩, fun _ => rfl⟩
  | cons child rest ih =>
      obtain ⟨step, child⟩ := child
      obtain ⟨progress, t, hchild, hrest⟩ := walkStepsAt_cons_eq_ok.mp h
      obtain ⟨path, hrun, hpath⟩ := hfollows (hchildren _ List.mem_cons_self) hchild
      have hbase : Trail.above (step :: trail) = base :: trail.above :=
        congrArg (· :: trail.above) (habove _ List.mem_cons_self)
      rw [hbase] at hrun hpath
      cases hstopped : progress.stopped with
      | true =>
          rw [hstopped, if_pos rfl] at hrest
          obtain ⟨heq, rfl⟩ := hrest
          refine ⟨path, walkChildren_cons_eq_ok.mpr ⟨progress, _, hrun, ?_⟩, ?_⟩
          · rw [hstopped, if_pos rfl]
            exact ⟨heq, rfl⟩
          · cases heq
            exact fun h => nomatch h
      | false =>
          rw [hstopped, if_neg Bool.false_ne_true] at hrest
          obtain ⟨more, hmore, rfl⟩ := hrest
          rw [hpath hstopped] at hrun
          obtain ⟨path', hrun', hpath'⟩ := ih
            (fun c hc => hchildren c (List.mem_cons_of_mem _ hc))
            (fun c hc => habove c (List.mem_cons_of_mem _ hc)) hmore
          refine ⟨path', walkChildren_cons_eq_ok.mpr ⟨progress, _, hrun, ?_⟩, hpath'⟩
          rw [hstopped, if_neg Bool.false_ne_true]
          exact ⟨more, hrun', rfl⟩

theorem follows_below (h : Simulates visitor guide embed)
    (hfollows : Follows visitor guide embed depth) {replaced : Option Node}
    (hbase : trail.LeadsTo base) (hreplaced : replaced.getD base = base)
    (hrun : (walkBelowAt guide (walkAt guide depth) trail base replaced).run s =
      (.ok progress, s')) :
    ∃ path, (walkBelow visitor (walk visitor depth) base replaced).run
        (embed (base :: trail.above) s) = (.ok progress, embed path s') ∧
      (progress.stopped = false → path = trail.above) := by
  obtain ⟨edits, stopped, t, edited, hsteps, hedited, hclosing⟩ := walkBelowAt_eq_ok.mp hrun
  have habove : ∀ child ∈ steps base, child.1.above = base := by
    intro child hchild
    obtain ⟨_, -, rfl⟩ := List.mem_map.mp hchild
    rfl
  obtain ⟨path, hchildren, hpath⟩ := follows_steps hfollows (steps base)
    (fun child hchild => .child hbase hchild) habove hsteps
  rw [placedChildren_eq_map] at hchildren
  rw [closing_eq_ok] at hclosing
  cases stopped with
  | true =>
      obtain ⟨rfl, rfl⟩ := hclosing
      refine ⟨path, walkBelow_eq_ok.mpr
        ⟨edits, true, _, edited, hchildren, hedited, closing_eq_ok.mpr ⟨rfl, rfl⟩⟩, nofun⟩
  | false =>
      obtain ⟨action, hleave, rfl⟩ := hclosing
      have hleave' := h.leave hbase (kind_of_changed hreplaced hedited) hleave
      rw [hpath rfl] at hchildren
      refine ⟨trail.above, walkBelow_eq_ok.mpr
        ⟨edits, false, _, edited, hchildren, hedited, closing_eq_ok.mpr ⟨action, hleave', rfl⟩⟩,
        fun _ => rfl⟩

theorem follows (h : Simulates visitor guide embed) (depth : ℕ) :
    Follows visitor guide embed depth := by
  induction depth with
  | zero =>
      intro trail node s s' progress _ hrun
      obtain ⟨rfl, rfl⟩ := walkAt_zero_eq_ok.mp hrun
      exact ⟨trail.above, walk_zero _ _ _, fun _ => rfl⟩
  | succ depth ih =>
      intro trail node s s' progress hnode hrun
      obtain ⟨action, t, henter, hrest⟩ := walkAt_succ_eq_ok.mp hrun
      obtain ⟨path, henter', hpath⟩ := h.enter hnode henter
      cases action with
      | skip =>
          obtain ⟨rfl, rfl⟩ := hrest
          exact ⟨path, walk_succ_eq_ok.mpr ⟨_, _, henter', rfl, rfl⟩, fun _ => hpath⟩
      | stop =>
          obtain ⟨rfl, rfl⟩ := hrest
          exact ⟨path, walk_succ_eq_ok.mpr ⟨_, _, henter', rfl, rfl⟩, nofun⟩
      | proceed =>
          obtain ⟨path', hbelow, hpath'⟩ := follows_below h ih hnode rfl hrest
          cases hpath
          exact ⟨path', walk_succ_eq_ok.mpr ⟨_, _, henter', hbelow⟩, hpath'⟩
      | replace replacement =>
          obtain ⟨hfits, hrest⟩ := hrest
          obtain ⟨path', hbelow, hpath'⟩ := follows_below h ih (.replaced hnode hfits) rfl hrest
          cases hpath hfits
          exact ⟨path', walk_succ_eq_ok.mpr ⟨_, _, henter', hbelow⟩, hpath'⟩

/-- As long as all replacements fit, the walk with a visitor comes to what the walk with a
guide comes to that it does the same as. -/
theorem walk_eq (h : Simulates visitor guide embed) {root : Node}
    (hrun : (walkAt guide depth [] root).run s = (.ok progress, s')) :
    ∃ path, (walk visitor depth root).run (embed [] s) = (.ok progress, embed path s') ∧
      (progress.stopped = false → path = []) :=
  h.follows depth (.root root) hrun

end Simulates

end

end Traversal

end GraphQL
