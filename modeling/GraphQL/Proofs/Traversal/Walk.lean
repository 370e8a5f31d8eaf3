import Mathlib
import GraphQL.Traversal.Parallel

/-!
# A walk step by step

`Traversal.walk` works in a monad with a state and with misfits.  For a visitor that
replaces nothing there are no misfits and no changes, and a walk is a function of the
state.  The equations here say which one, for one node and for a row of children.

In general, what a walk has come to without a misfit is told by its parts: see
`walk_succ_eq_ok`, `walkBelow_eq_ok` and `walkChildren_cons_eq_ok`.  With misfits, the equations
are `walkBelow_run` and `walkChildren_cons_run`.
-/

namespace GraphQL.Traversal

/-- The two calls of a visitor at a node. -/
inductive Phase where
  | enter | leave
  deriving DecidableEq

variable {σ : Type} {visitor : Visitor σ}

theorem walk_zero (visitor : Visitor σ) (node : Node) (s : σ) :
    (walk visitor 0 node).run s = (.ok ⟨none, false⟩, s) := by
  rw [walk]
  rfl

theorem walk_succ (visitor : Visitor σ) (depth : ℕ) (node : Node) (s : σ) :
    (walk visitor (depth + 1) node).run s =
      match visitor.enter node s with
      | (.skip, s) => (.ok ⟨none, false⟩, s)
      | (.stop, s) => (.ok ⟨none, true⟩, s)
      | (.proceed, s) => (walkBelow visitor (walk visitor depth) node none).run s
      | (.replace replacement, s) =>
        (walkBelow visitor (walk visitor depth) replacement (some replacement)).run s := by
  rw [walk]
  cases h : visitor.enter node s with
  | mk action s' =>
      simp only [bind, ExceptT.bind, ExceptT.mk, ExceptT.run, StateT.bind, liftM, monadLift,
        MonadLift.monadLift, ExceptT.lift, Functor.map, StateT.map, h]
      cases action <;> rfl

theorem walk_of_enter_stop {depth : ℕ} {node : Node} {s s' : σ}
    (h : visitor.enter node s = (.stop, s')) :
    (walk visitor (depth + 1) node).run s = (.ok ⟨none, true⟩, s') := by
  rw [walk_succ, h]

theorem walk_of_enter_skip {depth : ℕ} {node : Node} {s s' : σ}
    (h : visitor.enter node s = (.skip, s')) :
    (walk visitor (depth + 1) node).run s = (.ok ⟨none, false⟩, s') := by
  rw [walk_succ, h]

theorem walk_of_enter_proceed {depth : ℕ} {node : Node} {s s' : σ}
    (h : visitor.enter node s = (.proceed, s')) :
    (walk visitor (depth + 1) node).run s =
      (walkBelow visitor (walk visitor depth) node none).run s' := by
  rw [walk_succ, h]

/-- What happens below a node of which no child changes. -/
theorem below_eq {depth : ℕ} {node : Node} {s s' : σ} {stopped : Bool}
    (h : (walkChildren (walk visitor depth) node.placedChildren).run s = (.ok ([], stopped), s')) :
    (walkBelow visitor (walk visitor depth) node none).run s =
      if stopped then (.ok ⟨none, true⟩, s')
      else
        match visitor.leave node s' with
        | (.stop, s) => (.ok ⟨none, true⟩, s)
        | (.replace replacement, s) => (.ok ⟨some replacement, false⟩, s)
        | (_, s) => (.ok ⟨none, false⟩, s) := by
  rw [walkBelow]
  change walkChildren (walk visitor depth) node.placedChildren s = _ at h
  cases stopped with
  | true =>
      simp only [bind, ExceptT.bind, ExceptT.mk, ExceptT.run, StateT.bind, h]
      rfl
  | false =>
      cases h' : visitor.leave node s' with
      | mk action s'' =>
          simp only [bind, ExceptT.bind, ExceptT.mk, ExceptT.run, StateT.bind, h, ExceptT.bindCont,
            List.isEmpty_nil, if_true, pure, ExceptT.pure, StateT.pure, Bool.false_eq_true,
            if_false, liftM, monadLift, MonadLift.monadLift, ExceptT.lift, Functor.map,
            StateT.map, Option.getD_none, h']
          cases action <;> rfl

theorem below_of_leave_stop {depth : ℕ} {node : Node} {s s' s'' : σ}
    (h : (walkChildren (walk visitor depth) node.placedChildren).run s = (.ok ([], false), s'))
    (hleave : visitor.leave node s' = (.stop, s'')) :
    (walkBelow visitor (walk visitor depth) node none).run s = (.ok ⟨none, true⟩, s'') := by
  rw [below_eq h, hleave, if_neg Bool.false_ne_true]

theorem below_of_leave_proceed {depth : ℕ} {node : Node} {s s' s'' : σ}
    (h : (walkChildren (walk visitor depth) node.placedChildren).run s = (.ok ([], false), s'))
    (hleave : visitor.leave node s' = (.proceed, s'')) :
    (walkBelow visitor (walk visitor depth) node none).run s = (.ok ⟨none, false⟩, s'') := by
  rw [below_eq h, hleave, if_neg Bool.false_ne_true]

theorem walkChildren_nil (walk : Node → Walk σ Progress) (s : σ) :
    (walkChildren walk []).run s = (.ok ([], false), s) := rfl

/-- Children that do not change are walked in turn. -/
theorem walkChildren_cons {walk : Node → Walk σ Progress} {slot : Slot} {index : ℕ}
    {child : Node} {rest : List (Slot × ℕ × Node)} {s s' s'' : σ} {stopped : Bool}
    (h : (walk child).run s = (.ok ⟨none, false⟩, s'))
    (hrest : (walkChildren walk rest).run s' = (.ok ([], stopped), s'')) :
    (walkChildren walk ((slot, index, child) :: rest)).run s = (.ok ([], stopped), s'') := by
  rw [walkChildren]
  change walk child s = _ at h
  change walkChildren walk rest s' = _ at hrest
  simp only [bind, ExceptT.bind, ExceptT.mk, ExceptT.run, StateT.bind, h, ExceptT.bindCont,
    hrest, Bool.false_eq_true, if_false]
  rfl

/-- A walk that stops at a child leaves out the others. -/
theorem walkChildren_cons_of_stopped {walk : Node → Walk σ Progress} {slot : Slot} {index : ℕ}
    {child : Node} {rest : List (Slot × ℕ × Node)} {s s' : σ}
    (h : (walk child).run s = (.ok ⟨none, true⟩, s')) :
    (walkChildren walk ((slot, index, child) :: rest)).run s = (.ok ([], true), s') := by
  rw [walkChildren]
  change walk child s = _ at h
  simp only [bind, ExceptT.bind, ExceptT.mk, ExceptT.run, StateT.bind, h]
  rfl

/-! ## Walks with changes -/

section

variable {σ α β : Type} {a b : α} {s s' : σ}

theorem ok_mk_inj :
    ((.ok a, s) : Id (Except Misfit α × σ)) = (.ok b, s') ↔ a = b ∧ s = s' := by
  refine Prod.mk_inj.trans ?_
  rw [Except.ok.injEq]

theorem error_mk_ne_ok {misfit : Misfit} :
    ((.error misfit, s) : Id (Except Misfit α × σ)) ≠ (.ok b, s') :=
  fun h => nomatch (Prod.mk_inj.mp h).1

/-- A walk goes on with what it came to, unless there was a misfit. -/
theorem run_bind_eq_ok {x : Walk σ α} {f : α → Walk σ β} {b : β} :
    (x >>= f).run s = (.ok b, s') ↔
      ∃ a t, x.run s = (.ok a, t) ∧ (f a).run t = (.ok b, s') := by
  simp only [bind, ExceptT.bind, ExceptT.mk, ExceptT.run, StateT.bind]
  cases h : x s with
  | mk result t =>
    cases result with
    | ok a =>
      constructor
      · exact fun hf => ⟨a, t, rfl, hf⟩
      · rintro ⟨_, _, heq, hf⟩
        cases heq
        exact hf
    | error misfit =>
      constructor
      · exact fun h => absurd h error_mk_ne_ok
      · exact fun ⟨_, _, h, _⟩ => absurd h error_mk_ne_ok

theorem run_pure_eq_ok : (pure a : Walk σ α).run s = (.ok b, s') ↔ a = b ∧ s = s' := ok_mk_inj

theorem run_lift_eq_ok {x : StateM σ α} :
    (liftM x : Walk σ α).run s = (.ok b, s') ↔ x s = (b, s') := by
  simp only [liftM, monadLift, MonadLift.monadLift, ExceptT.lift, ExceptT.mk, ExceptT.run,
    Functor.map, StateT.map]
  cases x s
  exact ok_mk_inj.trans Prod.mk_inj.symm

theorem run_liftExcept_eq_ok {x : Except Misfit α} :
    (liftM x : Walk σ α).run s = (.ok b, s') ↔ x = .ok b ∧ s = s' := by
  cases x with
  | ok a => exact ok_mk_inj.trans (by rw [Except.ok.injEq])
  | error misfit => exact iff_of_false error_mk_ne_ok (by simp)

theorem run_throw_ne_ok {misfit : Misfit} :
    (throw misfit : Walk σ α).run s ≠ (.ok b, s') := error_mk_ne_ok

end

/-- The change of a child in a slot. -/
def Progress.edits (progress : Progress) (slot : Slot) (index : ℕ) : List Edit :=
  progress.edited.toList.map (⟨slot, index, ·⟩)

/-- What a node has become by the changes below it. -/
def changed (base : Node) (replaced : Option Node) (edits : List Edit) :
    Except Misfit (Option Node) :=
  if edits.isEmpty then pure replaced else some <$> applyEdits base edits

/-- What has come of a node when it has been left. -/
def afterLeaving (edited : Option Node) : VisitAction → Progress
  | .proceed | .skip => ⟨edited, false⟩
  | .stop => ⟨edited, true⟩
  | .replace replacement => ⟨some replacement, false⟩

section

variable {walk' : Node → Walk σ Progress} {depth : ℕ} {node base : Node}
  {replaced : Option Node} {s s' : σ} {progress : Progress}

theorem walkChildren_nil_eq_ok {edits : List Edit} {stopped : Bool} :
    (walkChildren walk' []).run s = (.ok (edits, stopped), s') ↔
      (edits, stopped) = ([], false) ∧ s' = s := by
  rw [walkChildren, run_pure_eq_ok, eq_comm, @eq_comm _ s]

theorem walkChildren_cons_eq_ok {slot : Slot} {index : ℕ} {child : Node}
    {rest : List (Slot × ℕ × Node)} {edits : List Edit} {stopped : Bool} :
    (walkChildren walk' ((slot, index, child) :: rest)).run s = (.ok (edits, stopped), s') ↔
      ∃ progress t, (walk' child).run s = (.ok progress, t) ∧
        if progress.stopped then
          (edits, stopped) = (progress.edits slot index, true) ∧ s' = t
        else
          ∃ more, (walkChildren walk' rest).run t = (.ok (more, stopped), s') ∧
            edits = progress.edits slot index ++ more := by
  rw [walkChildren, run_bind_eq_ok]
  refine exists_congr fun progress => exists_congr fun t => and_congr_right fun _ => ?_
  cases progress.stopped with
  | true =>
      rw [if_pos rfl, if_pos rfl, run_pure_eq_ok, eq_comm, @eq_comm _ t]
      rfl
  | false =>
      rw [if_neg Bool.false_ne_true, if_neg Bool.false_ne_true, run_bind_eq_ok]
      constructor
      · rintro ⟨⟨more, stopped'⟩, t', hrest, hend⟩
        obtain ⟨heq, rfl⟩ := run_pure_eq_ok.mp hend
        cases heq
        exact ⟨more, hrest, rfl⟩
      · rintro ⟨more, hrest, rfl⟩
        exact ⟨(more, stopped), s', hrest, run_pure_eq_ok.mpr ⟨rfl, rfl⟩⟩

/-- What is done at a node when its children have been walked. -/
def closing (visitor : Visitor σ) (base : Node) (stopped : Bool) (edited : Option Node) :
    Walk σ Progress :=
  if stopped then return ⟨edited, true⟩
  else do
    match ← visitor.leave (edited.getD base) with
    | .proceed => return ⟨edited, false⟩
    | .skip => return ⟨edited, false⟩
    | .stop => return ⟨edited, true⟩
    | .replace replacement => return ⟨some replacement, false⟩

theorem closing_eq_ok {stopped : Bool} {edited : Option Node} :
    (closing visitor base stopped edited).run s = (.ok progress, s') ↔
      if stopped then progress = ⟨edited, true⟩ ∧ s' = s
      else ∃ action, visitor.leave (edited.getD base) s = (action, s') ∧
        progress = afterLeaving edited action := by
  rw [closing]
  cases stopped with
  | true => rw [if_pos rfl, if_pos rfl, run_pure_eq_ok, eq_comm, @eq_comm _ s]
  | false =>
      rw [if_neg Bool.false_ne_true, if_neg Bool.false_ne_true, run_bind_eq_ok]
      refine exists_congr fun action => ?_
      constructor
      · rintro ⟨t, hleave, hend⟩
        rw [run_lift_eq_ok] at hleave
        cases action <;> obtain ⟨rfl, rfl⟩ := run_pure_eq_ok.mp hend <;> exact ⟨hleave, rfl⟩
      · rintro ⟨hleave, rfl⟩
        refine ⟨s', run_lift_eq_ok.mpr hleave, ?_⟩
        cases action <;> exact run_pure_eq_ok.mpr ⟨rfl, rfl⟩

theorem walkBelow_eq_ok :
    (walkBelow visitor walk' base replaced).run s = (.ok progress, s') ↔
      ∃ edits stopped t edited,
        (walkChildren walk' base.placedChildren).run s = (.ok (edits, stopped), t) ∧
        changed base replaced edits = .ok edited ∧
        (closing visitor base stopped edited).run t = (.ok progress, s') := by
  rw [walkBelow, run_bind_eq_ok, Prod.exists]
  refine exists_congr fun edits => exists_congr fun stopped => exists_congr fun t => ?_
  rw [exists_and_left]
  refine and_congr_right fun _ => ?_
  show ExceptT.run (if edits.isEmpty then pure replaced >>= closing visitor base stopped
      else (some <$> liftM (applyEdits base edits)) >>= closing visitor base stopped) t = _ ↔ _
  rw [changed]
  split
  · rw [pure_bind]
    simp [pure, Except.pure]
  · rw [run_bind_eq_ok]
    cases applyEdits base edits with
    | error misfit =>
       refine iff_of_false ?_ ?_
       · rintro ⟨_, _, h, _⟩
         exact error_mk_ne_ok h
       · rintro ⟨_, h, _⟩
         cases h
    | ok node =>
      constructor
      · rintro ⟨_, _, h, hend⟩
        cases h
        exact ⟨_, rfl, hend⟩
      · rintro ⟨_, h, hend⟩
        cases h
        exact ⟨_, _, rfl, hend⟩

theorem walk_succ_eq_ok :
    (walk visitor (depth + 1) node).run s = (.ok progress, s') ↔
      ∃ action t, visitor.enter node s = (action, t) ∧
        match action with
        | .skip => progress = ⟨none, false⟩ ∧ s' = t
        | .stop => progress = ⟨none, true⟩ ∧ s' = t
        | .proceed =>
          (walkBelow visitor (walk visitor depth) node none).run t = (.ok progress, s')
        | .replace replacement =>
          (walkBelow visitor (walk visitor depth) replacement (some replacement)).run t =
            (.ok progress, s') := by
  rw [walk, run_bind_eq_ok]
  refine exists_congr fun action => exists_congr fun t => and_congr run_lift_eq_ok ?_
  cases action with
  | skip => exact run_pure_eq_ok.trans (and_congr eq_comm eq_comm)
  | stop => exact run_pure_eq_ok.trans (and_congr eq_comm eq_comm)
  | proceed => rfl
  | replace replacement => rfl

end

/-! ## Walks with misfits -/

section

variable {σ α β : Type}

/-- A walk goes on with what it came to, and a misfit ends it. -/
theorem run_bind (x : Walk σ α) (f : α → Walk σ β) (s : σ) :
    (x >>= f).run s =
      match x.run s with
      | (.ok a, t) => (f a).run t
      | (.error misfit, t) => (.error misfit, t) := by
  simp only [bind, ExceptT.bind, ExceptT.mk, ExceptT.run, StateT.bind]
  cases h : x s with
  | mk result t => cases result <;> rfl

variable {walk' : Node → Walk σ Progress} {slot : Slot} {index : ℕ} {child : Node}
  {rest : List (Slot × ℕ × Node)} {s : σ} {visitor : Visitor σ} {base : Node}
  {replaced : Option Node}

end

end GraphQL.Traversal
