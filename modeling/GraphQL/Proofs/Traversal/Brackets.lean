import Mathlib
import GraphQL.Proofs.Traversal.Lanes

/-!
# Brackets on a common walk

The calls that a visitor gets on a common walk are brackets: a node is entered before all that is
below it, and left after that.  Two things come between them, and both are replacements by another
visitor.  One that replaces a node on entering it hides it from the visitors after it, which are
called for leaving the replacement all the same.  One that replaces a node on leaving it ends the
calls there, so the visitors before it, which are called later, never leave the node.  Apart from
that and from visitors that stop, each call on leaving has its counterpart on entering and the
other way round (`Visitor.bracketed_of_common_walk`).

A visitor that is called on leaving a node takes part then.  So it took part after the node was
entered, for below a node no visitor is woken that was left out there; and so it was called on
entering, or would have been but for a replacement.  All that has to be carried through a walk is
what becomes of the modes (`Passage`).
-/

namespace GraphQL

open Traversal (Trail Phase Guide Simulates walkAt walkStepsAt walkBelowAt steps)

/-! ## Places on a tour -/

namespace Traversal

/-- The numbers of the children on the way from the root to a node. -/
def Trail.place (trail : Trail) : List ℕ := (trail.map (·.number)).reverse

theorem Trail.place_cons (step : Step) (trail : Trail) :
    Trail.place (step :: trail) = trail.place ++ [step.number] := by
  rw [place, List.map_cons, List.reverse_cons]
  rfl

/-- What comes first on a tour of a tree, when nodes are entered or left at two places. -/
def Before : List ℕ → Phase → List ℕ → Phase → Prop
  | [], a, [], b => a = .enter ∧ b = .leave
  | [], a, _ :: _, _ => a = .enter
  | _ :: _, _, [], b => b = .leave
  | m :: p, a, n :: q, b => m < n ∨ m = n ∧ Before p a q b

variable {place p q : List ℕ} {a b : Phase} {m n : ℕ}

theorem before_append : Before (place ++ p) a (place ++ q) b ↔ Before p a q b := by
  induction place with
  | nil => rfl
  | cons n place ih =>
      rw [List.cons_append, List.cons_append, Before, ih]
      simp

theorem not_before_self : ¬Before p a p a := by
  induction p with
  | nil =>
      rintro ⟨rfl, h⟩
      cases h
  | cons n p ih =>
      rintro (h | ⟨-, h⟩)
      · exact absurd h (Nat.lt_irrefl n)
      · exact ih h

theorem enter_before (h : place ++ [n] <+: p) : Before place .enter p a := by
  obtain ⟨rest, rfl⟩ := h
  rw [List.append_assoc]
  nth_rewrite 1 [← List.append_nil place]
  exact before_append.mpr rfl

theorem before_leave (h : place ++ [n] <+: p) : Before p a place .leave := by
  obtain ⟨rest, rfl⟩ := h
  rw [List.append_assoc]
  nth_rewrite 2 [← List.append_nil place]
  exact before_append.mpr rfl

theorem enter_before_leave : Before place .enter place .leave := by
  nth_rewrite 1 [← List.append_nil place]
  nth_rewrite 2 [← List.append_nil place]
  exact before_append.mpr ⟨rfl, rfl⟩

theorem before_of_lt (h : m < n) (hp : place ++ [m] <+: p) (hq : place ++ [n] <+: q) :
    Before p a q b := by
  obtain ⟨p, rfl⟩ := hp
  obtain ⟨q, rfl⟩ := hq
  rw [List.append_assoc, List.append_assoc]
  exact before_append.mpr (.inl h)

theorem pairwise_number_steps (above : Node) :
    (steps above).Pairwise fun a b => a.1.number < b.1.number := by
  have hnumbers : (steps above).map (·.1.number) = List.range (steps above).length := by
    rw [steps, List.map_map, List.length_map, List.length_zipIdx, List.range_eq_range']
    exact List.zipIdx_map_snd 0 above.placedChildren
  exact List.pairwise_map.mp (hnumbers ▸ List.pairwise_lt_range)

end Traversal

open Traversal (Before before_append enter_before before_leave before_of_lt not_before_self)

namespace Parallel

variable {κ π : Type}

/-! ## Brackets -/

/-- One call comes before another one on a tour of the tree. -/
def Call.Precedes (a b : Call) : Prop := Before a.place a.phase b.place b.phase

/-- What a call on leaving a node goes back to: the visitor has entered the node, or one before it
has put the node there. -/
def Call.Opened (call : Call) (calls : List Call) : Prop :=
  ∃ opening ∈ calls, opening.phase = .enter ∧ opening.place = call.place ∧
    (opening.visitor = call.visitor ∧ opening.answer.Opens ∨
      opening.visitor < call.visitor ∧ opening.answer.Replaces)

/-- What comes after a call on entering a node: the visitor leaves the node, or one after it has
replaced the node on leaving it, or the visitor has stopped in between. -/
def Call.Closed (call : Call) (calls : List Call) : Prop :=
  (∃ closing ∈ calls, closing.phase = .leave ∧ closing.place = call.place ∧
    (closing.visitor = call.visitor ∨
      call.visitor < closing.visitor ∧ closing.answer.Replaces)) ∨
  ∃ last ∈ calls, last.visitor = call.visitor ∧ last.answer = .stop ∧ call.place <+: last.place

variable {call : Call} {calls calls' : List Call}

theorem Call.Opened.mono (h : call.Opened calls) (hsub : calls ⊆ calls') :
    call.Opened calls' := by
  obtain ⟨opening, hmem, hopening⟩ := h
  exact ⟨opening, hsub hmem, hopening⟩

theorem Call.Closed.mono (h : call.Closed calls) (hsub : calls ⊆ calls') :
    call.Closed calls' := by
  rcases h with ⟨closing, hmem, hclosing⟩ | ⟨last, hmem, hlast⟩
  · exact .inl ⟨closing, hsub hmem, hclosing⟩
  · exact .inr ⟨last, hsub hmem, hlast⟩

/-- The calls that are made on a part of a walk, and what becomes of the modes there. -/
structure Passage (modes modes' : List Mode) (made : List Call) : Prop where
  ordered : made.Pairwise fun a b => a.visitor = b.visitor → a.Precedes b
  opened : ∀ call ∈ made, call.phase = .leave → call.Opened made
  closed : ∀ call ∈ made, call.phase = .enter → call.answer.Opens → call.Closed made
  modes : ∀ i, modes'[i]? = modes[i]? ∨ modes[i]? = some .active ∧ modes'[i]? = some .done ∧
    ∃ call ∈ made, call.visitor = i ∧ call.answer = .stop

/-- All visitors have stopped. -/
def AllDone (modes : List Mode) : Prop := ∀ mode ∈ modes, mode = .done

theorem AllDone.eq_done {modes : List Mode} (h : AllDone modes) {i : ℕ} {mode : Mode}
    (hi : modes[i]? = some mode) : mode = .done := h mode (List.mem_of_getElem? hi)

namespace Passage

variable {modes modes' modes'' modes''' : List Mode} {made more entered below left : List Call}
  {place : List ℕ} {level : ℕ}

theorem refl (modes : List Mode) : Passage modes modes [] where
  ordered := .nil
  opened := by simp
  closed := by simp
  modes _ := .inl rfl

/-- Passages one after the other. -/
theorem trans (h : Passage modes modes' made) (h' : Passage modes' modes'' more)
    (hacross : ∀ a ∈ made, ∀ b ∈ more, a.Precedes b) :
    Passage modes modes'' (made ++ more) where
  ordered := List.pairwise_append.mpr
    ⟨h.ordered, h'.ordered, fun a ha b hb _ => hacross a ha b hb⟩
  opened := by
    intro call hcall hphase
    rcases List.mem_append.mp hcall with hcall | hcall
    · exact (h.opened call hcall hphase).mono (List.subset_append_left _ _)
    · exact (h'.opened call hcall hphase).mono (List.subset_append_right _ _)
  closed := by
    intro call hcall hphase hopens
    rcases List.mem_append.mp hcall with hcall | hcall
    · exact (h.closed call hcall hphase hopens).mono (List.subset_append_left _ _)
    · exact (h'.closed call hcall hphase hopens).mono (List.subset_append_right _ _)
  modes := by
    intro i
    rcases h.modes i with hfirst | ⟨hactive, hdone, call, hcall, hstop⟩
    · rw [← hfirst]
      refine (h'.modes i).imp_right (And.imp_right (And.imp_right ?_))
      rintro ⟨call, hcall, hstop⟩
      exact ⟨call, List.mem_append_right _ hcall, hstop⟩
    · rcases h'.modes i with hsecond | ⟨hactive', -⟩
      · exact .inr ⟨hactive, hsecond.trans hdone, call, List.mem_append_left _ hcall, hstop⟩
      · rw [hdone] at hactive'
        cases hactive'

/-! ### One node -/

variable {replacement : Option Node}

/-- The calls on entering a node and below it come in order. -/
theorem ordered_entered (henters : Enters place level 0 modes entered modes')
    (h : Passage modes' modes'' below) (hplaces : ∀ call ∈ below, ∃ n, place ++ [n] <+: call.place) :
    (entered ++ below).Pairwise fun a b => a.visitor = b.visitor → a.Precedes b := by
  refine List.pairwise_append.mpr
    ⟨henters.pairwise.imp fun hne heq => absurd heq hne, h.ordered, fun a ha b hb _ => ?_⟩
  obtain ⟨hphase, rfl, -⟩ := henters.call ha
  obtain ⟨n, hn⟩ := hplaces b hb
  rw [Call.Precedes, hphase]
  exact enter_before hn

/-- A visitor that entered a node takes part when the walk comes back to it, or has stopped below. -/
theorem active_or_stopped (henters : Enters place level 0 modes entered modes')
    (h : Passage modes' modes'' below) (hplaces : ∀ call ∈ below, ∃ n, place ++ [n] <+: call.place)
    {call : Call} (hcall : call ∈ entered) (hopens : call.answer.Opens) :
    modes''[call.visitor]? = some .active ∨
      ∃ last ∈ below, last.visitor = call.visitor ∧ last.answer = .stop ∧
        call.place <+: last.place := by
  obtain ⟨-, rfl, i, hi, -, hmode⟩ := henters.call hcall
  rw [Nat.zero_add] at hi
  have hactive : modes'[call.visitor]? = some .active := by
    rw [hi, hmode]
    cases hanswer : call.answer with
    | proceed | replace => rfl
    | skip | stop =>
        rw [hanswer] at hopens
        exact hopens.elim
  rcases h.modes call.visitor with hsame | ⟨-, -, last, hlast, hvisitor, hstop⟩
  · exact .inl (hsame.trans hactive)
  · obtain ⟨n, hn⟩ := hplaces last hlast
    exact .inr ⟨last, hlast, hvisitor, hstop, (List.prefix_append _ _).trans hn⟩

/-- A node at which the walk ends, or below which it does. -/
theorem of_stopped (henters : Enters place level 0 modes entered modes')
    (h : Passage modes' modes'' below) (hplaces : ∀ call ∈ below, ∃ n, place ++ [n] <+: call.place)
    (hdone : AllDone modes'') : Passage modes modes'' (entered ++ below) where
  ordered := ordered_entered henters h hplaces
  opened := by
    intro call hcall hphase
    rcases List.mem_append.mp hcall with hcall | hcall
    · rw [(henters.call hcall).1] at hphase
      cases hphase
    · exact (h.opened call hcall hphase).mono (List.subset_append_right _ _)
  closed := by
    intro call hcall hphase hopens
    rcases List.mem_append.mp hcall with hcall | hcall
    · rcases active_or_stopped henters h hplaces hcall hopens with hactive | ⟨last, hlast, hstop⟩
      · exact absurd (hdone.eq_done hactive) (by simp)
      · exact .inr ⟨last, List.mem_append_right _ hlast, hstop⟩
    · exact (h.closed call hcall hphase hopens).mono (List.subset_append_right _ _)
  modes := by
    intro i
    rcases henters.mode i with hsame | ⟨hactive, hskip | ⟨hstopped, call, hcall, hvisitor, hstop⟩⟩
    · rw [← hsame]
      refine (h.modes i).imp_right (And.imp_right (And.imp_right ?_))
      rintro ⟨call, hcall, hstop⟩
      exact ⟨call, List.mem_append_right _ hcall, hstop⟩
    · -- A visitor that skips the node has not stopped when the walk ends.
      rcases h.modes i with hsame | ⟨hactive', -⟩
      · exact absurd (hdone.eq_done (hsame.trans hskip)) (by simp)
      · rw [hskip] at hactive'
        cases hactive'
    · rw [Nat.zero_add] at hvisitor
      rcases h.modes i with hsame | ⟨hactive', -⟩
      · exact .inr ⟨hactive, hsame.trans hstopped, call, List.mem_append_left _ hcall, hvisitor,
          hstop⟩
      · rw [hstopped] at hactive'
        cases hactive'

/-- A node that is entered and left. -/
theorem of_left (henters : Enters place (level + 1) 0 modes entered modes')
    (h : Passage modes' modes'' below) (hplaces : ∀ call ∈ below, ∃ n, place ++ [n] <+: call.place)
    (hleaves : Leaves place (level + 1) 0 modes'' left modes''' replacement)
    (hwithin : ∀ (i l : ℕ), modes[i]? = some (.skipping l) → l ≤ level) :
    Passage modes modes''' (entered ++ below ++ left) where
  ordered := by
    refine List.pairwise_append.mpr ⟨ordered_entered henters h hplaces,
      hleaves.pairwise.imp fun hne heq => absurd heq hne, fun a ha b hb _ => ?_⟩
    obtain ⟨hphase, rfl, -⟩ := hleaves.call hb
    rw [Call.Precedes, hphase]
    rcases List.mem_append.mp ha with ha | ha
    · obtain ⟨hphase', hplace', -⟩ := henters.call ha
      rw [hphase', hplace']
      exact Traversal.enter_before_leave
    · obtain ⟨n, hn⟩ := hplaces a ha
      exact before_leave hn
  opened := by
    intro call hcall hphase
    rw [List.append_assoc] at hcall ⊢
    rcases List.mem_append.mp hcall with hcall | hcall
    · rw [(henters.call hcall).1] at hphase
      cases hphase
    rcases List.mem_append.mp hcall with hcall | hcall
    · exact (h.opened call hcall hphase).mono fun _ hmem =>
        List.mem_append_right _ (List.mem_append_left _ hmem)
    · obtain ⟨-, hplace, i, hi, hactive⟩ := hleaves.call hcall
      -- The visitor took part before the walk went below the node.
      have hactive' : modes'[i]? = some .active := by
        rcases h.modes i with hsame | ⟨hactive', -⟩
        · exact hsame.symm.trans hactive
        · exact hactive'
      obtain ⟨opening, hopening, hanswer⟩ := henters.opened hactive'
      obtain ⟨hphase', hplace', -⟩ := henters.call hopening
      rw [← hi] at hanswer
      exact ⟨opening, List.mem_append_left _ hopening, hphase', hplace'.trans hplace.symm, hanswer⟩
  closed := by
    intro call hcall hphase hopens
    rw [List.append_assoc] at hcall ⊢
    rcases List.mem_append.mp hcall with hcall | hcall
    · rcases active_or_stopped henters h hplaces hcall hopens with hactive | ⟨last, hlast, hstop⟩
      · obtain ⟨closing, hclosing, hanswer⟩ := hleaves.closed hactive
        obtain ⟨hphase', hplace', -⟩ := hleaves.call hclosing
        rw [Nat.zero_add] at hanswer
        exact .inl ⟨closing, List.mem_append_right _ (List.mem_append_right _ hclosing), hphase',
          hplace'.trans (henters.call hcall).2.1.symm, hanswer⟩
      · exact .inr ⟨last, List.mem_append_right _ (List.mem_append_left _ hlast), hstop⟩
    rcases List.mem_append.mp hcall with hcall | hcall
    · exact (h.closed call hcall hphase hopens).mono fun _ hmem =>
        List.mem_append_right _ (List.mem_append_left _ hmem)
    · rw [(hleaves.call hcall).1] at hphase
      cases hphase
  modes := by
    intro i
    rw [List.append_assoc]
    rcases henters.mode i with hsame | ⟨hactive, hskip | ⟨hstopped, call, hcall, hvisitor, hstop⟩⟩
    · rcases h.modes i with hsame' | ⟨hactive', hdone, call, hcall, hstop⟩
      · rcases hleaves.mode i with ⟨hskip, -⟩ | ⟨-, hsame'' | ⟨hactive, hdone, call, hcall, hv, hstop⟩⟩
        · -- A visitor that skips nodes from here on was called here.
          rw [hsame', hsame] at hskip
          have := hwithin i _ hskip
          omega
        · exact .inl ((hsame''.trans hsame').trans hsame)
        · rw [Nat.zero_add] at hv
          exact .inr ⟨(hsame'.trans hsame).symm.trans hactive, hdone, call,
            List.mem_append_right _ (List.mem_append_right _ hcall), hv, hstop⟩
      · refine .inr ⟨hsame.symm.trans hactive', ?_, call,
          List.mem_append_right _ (List.mem_append_left _ hcall), hstop⟩
        rcases hleaves.mode i with ⟨hskip, -⟩ | ⟨-, hsame'' | ⟨hactive, -⟩⟩
        · rw [hdone] at hskip
          cases hskip
        · exact hsame''.trans hdone
        · rw [hdone] at hactive
          cases hactive
    · -- The visitor skips what is below, and is woken when the node is left.
      have hskip' : modes''[i]? = some (.skipping (level + 1)) := by
        rcases h.modes i with hsame | ⟨hactive', -⟩
        · exact hsame.trans hskip
        · rw [hskip] at hactive'
          cases hactive'
      rcases hleaves.mode i with ⟨-, hwoken⟩ | ⟨hnot, -⟩
      · exact .inl (hwoken.trans hactive.symm)
      · exact absurd hskip' hnot
    · rw [Nat.zero_add] at hvisitor
      have hdone : modes''[i]? = some .done := by
        rcases h.modes i with hsame | ⟨hactive', -⟩
        · exact hsame.trans hstopped
        · rw [hstopped] at hactive'
          cases hactive'
      refine .inr ⟨hactive, ?_, call, List.mem_append_left _ hcall, hvisitor, hstop⟩
      rcases hleaves.mode i with ⟨hskip, -⟩ | ⟨-, hsame | ⟨hactive', -⟩⟩
      · rw [hdone] at hskip
        cases hskip
      · exact hsame.trans hdone
      · rw [hdone] at hactive'
        cases hactive'

end Passage

/-! ## The walk -/

section

variable {s s' : State κ π} {node : Node} {answer : VisitAction}

/-- Visitors that are left out have been so since a node above. -/
def State.Within (s : State κ π) : Prop :=
  ∀ (i l : ℕ), s.modes[i]? = some (.skipping l) → l ≤ s.level

theorem allDone_modes (h : allDone s.lanes) : AllDone s.modes := by
  intro mode hmode
  obtain ⟨lane, hlane, rfl⟩ := List.mem_map.mp hmode
  exact of_decide_eq_true (List.all_eq_true.mp h lane hlane)

theorem allDone_of_decide {lanes : List (Lane κ π)} {replacement : Option Node}
    (h : decide lanes replacement = .stop) : allDone lanes := by
  cases replacement with
  | some replacement => cases h
  | none =>
      rw [decide] at h
      by_contra hnot
      rw [if_neg hnot] at h
      cases h

theorem decide_ne_skip {lanes : List (Lane κ π)} {replacement : Option Node} :
    decide lanes replacement ≠ .skip := by
  intro h
  cases replacement with
  | some replacement => cases h
  | none =>
      rw [decide] at h
      split at h <;> cases h

/-- What one call of the visitors on entering a node does. -/
theorem enter_spec (place : List ℕ) (h : Visitor.parallel.enter node s = (answer, s')) :
    Enters place (s.level + 1) 0 s.modes (s.enterCalls place node) s'.modes ∧
      s'.level = s.level + 1 ∧ answer ≠ .skip ∧ (answer = .stop → AllDone s'.modes) := by
  cases h
  obtain ⟨made, hmade, henters⟩ :=
    enters_enterLanes place (s.level + 1) node s.shared [] 0 s.lanes
  simp only [Nat.zero_add] at hmade
  have hcalls : s.enterCalls place node = made := congrArg Prod.snd hmade
  refine ⟨hcalls ▸ henters, rfl, decide_ne_skip, fun h => allDone_modes (allDone_of_decide h)⟩

/-- What one call of the visitors on leaving a node does. -/
theorem leave_spec (place : List ℕ) (h : Visitor.parallel.leave node s = (answer, s')) :
    (∃ replacement,
      Leaves place s.level 0 s.modes (s.leaveCalls place node) s'.modes replacement) ∧
      s'.level = s.level - 1 ∧ (answer = .stop → AllDone s'.modes) := by
  cases h
  obtain ⟨shared', lanes', noting', replacement, made, hplain, hnoting, hleaves⟩ :=
    leaves_leaveLanes place s.level node s.shared [] 0 s.lanes
  simp only [Nat.zero_add] at hnoting
  have hcalls : s.leaveCalls place node = made := congrArg (·.1.2) hnoting
  have hmodes : lanes'.map (·.mode) = (leaveLanes s.level node s.shared s.lanes).2.1.map (·.mode) := by
    rw [hplain]
  rw [hmodes, ← hcalls] at hleaves
  exact ⟨⟨replacement, hleaves⟩, rfl, fun h => allDone_modes (allDone_of_decide h)⟩

theorem Passage.within {made : List Call} (h : Passage s.modes s'.modes made)
    (hlevel : s'.level = s.level) (hs : s.Within) : s'.Within := by
  intro i l hi
  rw [hlevel]
  rcases h.modes i with hsame | ⟨-, hdone, -⟩
  · exact hs i l (hsame.symm.trans hi)
  · rw [hdone] at hi
    cases hi

theorem Enters.within {place : List ℕ} {made : List Call}
    (h : Enters place (s.level + 1) 0 s.modes made s'.modes) (hlevel : s'.level = s.level + 1)
    (hs : s.Within) : s'.Within := by
  intro i l hi
  rcases h.mode i with hsame | ⟨-, hskip | ⟨hdone, -⟩⟩
  · have := hs i l (hsame.symm.trans hi)
    omega
  · rw [hskip] at hi
    cases hi
    omega
  · rw [hdone] at hi
    cases hi

/-- Calls all visitors at once, and notes the calls. -/
def calling : Guide (State κ π × List Call) where
  enter trail node := fun (s, calls) =>
    let (answer, s') := Visitor.parallel.enter node s
    (answer, s', calls ++ s.enterCalls trail.place node)
  leave trail _ node := fun (s, calls) =>
    let (answer, s') := Visitor.parallel.leave node s
    (answer, s', calls ++ s.leaveCalls trail.place node)

theorem enter_calling_eq {trail : Trail} {calls calls' : List Call} :
    calling.enter trail node (s, calls) = (answer, s', calls') ↔
      Visitor.parallel.enter node s = (answer, s') ∧
        calls' = calls ++ s.enterCalls trail.place node := by
  cases hplain : Visitor.parallel.enter node s with
  | mk action t =>
      have hcalling : calling.enter trail node (s, calls) =
          (action, t, calls ++ s.enterCalls trail.place node) := by
        simp only [calling, hplain]
      rw [hcalling, Prod.mk_inj, Prod.mk_inj, Prod.mk_inj, and_assoc]
      exact and_congr_right' (and_congr_right' eq_comm)

theorem leave_calling_eq {trail : Trail} (entered : Node) {calls calls' : List Call} :
    calling.leave trail entered node (s, calls) = (answer, s', calls') ↔
      Visitor.parallel.leave node s = (answer, s') ∧
        calls' = calls ++ s.leaveCalls trail.place node := by
  cases hplain : Visitor.parallel.leave node s with
  | mk action t =>
      have hcalling : calling.leave trail entered node (s, calls) =
          (action, t, calls ++ s.leaveCalls trail.place node) := by
        simp only [calling, hplain]
      rw [hcalling, Prod.mk_inj, Prod.mk_inj, Prod.mk_inj, and_assoc]
      exact and_congr_right' (and_congr_right' eq_comm)

/-- Noting the calls changes nothing. -/
theorem simulates_parallel :
    Simulates Visitor.parallel calling fun _ (s : State κ π × List Call) => s.1 where
  enter {trail node answer s s'} _ h := by
    obtain ⟨hplain, -⟩ := enter_calling_eq.mp h
    cases answer with
    | proceed => exact ⟨node :: trail.above, hplain, rfl⟩
    | replace replacement => exact ⟨replacement :: trail.above, hplain, fun _ => rfl⟩
    | skip => exact ⟨trail.above, hplain, rfl⟩
    | stop => exact ⟨trail.above, hplain, trivial⟩
  leave _ _ h := ((leave_calling_eq _).mp h).1

variable {depth : ℕ} {trail : Trail} {calls calls' : List Call}

/-- What the walk of a node comes to. -/
def Passes (κ π : Type) (depth : ℕ) : Prop :=
  ∀ {trail : Trail} {node : Node} {s s' : State κ π} {calls calls' : List Call}
    {progress : Traversal.Progress}, s.Within →
    (walkAt calling depth trail node).run (s, calls) = (.ok progress, s', calls') →
    ∃ made, calls' = calls ++ made ∧ Passage s.modes s'.modes made ∧
      (∀ call ∈ made, trail.place <+: call.place) ∧
      if progress.stopped then AllDone s'.modes else s'.level = s.level

theorem passes_steps (hpasses : Passes κ π depth) (children : List (Traversal.Step × Node))
    (hsorted : children.Pairwise fun a b => a.1.number < b.1.number) (hs : s.Within)
    {edits : List Traversal.Edit} {stopped : Bool}
    (hrun : (walkStepsAt (walkAt calling depth) trail children).run (s, calls) =
      (.ok (edits, stopped), s', calls')) :
    ∃ made, calls' = calls ++ made ∧ Passage s.modes s'.modes made ∧
      (∀ call ∈ made, ∃ child ∈ children, trail.place ++ [child.1.number] <+: call.place) ∧
      if stopped then AllDone s'.modes else s'.level = s.level := by
  induction children generalizing s calls edits stopped with
  | nil =>
      obtain ⟨hend, hstate⟩ := Traversal.walkStepsAt_nil_eq_ok.mp hrun
      cases hend
      cases hstate
      exact ⟨[], (List.append_nil _).symm, .refl _, by simp, rfl⟩
  | cons child rest ih =>
      obtain ⟨step, child⟩ := child
      obtain ⟨hfirst, hsorted⟩ := List.pairwise_cons.mp hsorted
      obtain ⟨progress, ⟨t, calls''⟩, hchild, hrest⟩ := Traversal.walkStepsAt_cons_eq_ok.mp hrun
      obtain ⟨made, rfl, hpassage, hplaces, hend⟩ := hpasses hs hchild
      rw [Trail.place_cons] at hplaces
      cases hstopped : progress.stopped with
      | true =>
          rw [hstopped, if_pos rfl] at hrest hend
          obtain ⟨heq, hstate⟩ := hrest
          cases heq
          cases hstate
          refine ⟨made, rfl, hpassage, fun call hcall => ?_, hend⟩
          exact ⟨_, List.mem_cons_self, hplaces call hcall⟩
      | false =>
          rw [hstopped, if_neg Bool.false_ne_true] at hrest hend
          obtain ⟨more, hmore, rfl⟩ := hrest
          obtain ⟨made', rfl, hpassage', hplaces', hend'⟩ :=
            ih hsorted (hpassage.within hend hs) hmore
          refine ⟨made ++ made', List.append_assoc _ _ _, hpassage.trans hpassage' ?_, ?_, ?_⟩
          · intro a ha b hb
            obtain ⟨child', hmem, hb⟩ := hplaces' b hb
            exact before_of_lt (hfirst child' hmem) (hplaces a ha) hb
          · intro call hcall
            rcases List.mem_append.mp hcall with hcall | hcall
            · exact ⟨_, List.mem_cons_self, hplaces call hcall⟩
            · obtain ⟨child', hmem, hcall⟩ := hplaces' call hcall
              exact ⟨child', List.mem_cons_of_mem _ hmem, hcall⟩
          · rwa [hend] at hend'

theorem passes_below (hpasses : Passes κ π depth) {base : Node} {replaced : Option Node}
    {entered : List Call} {progress : Traversal.Progress} {t : State κ π}
    (henters : Enters trail.place (s.level + 1) 0 s.modes entered t.modes)
    (hlevel : t.level = s.level + 1) (hs : s.Within)
    (hrun : (walkBelowAt calling (walkAt calling depth) trail base replaced).run
      (t, calls ++ entered) = (.ok progress, s', calls')) :
    ∃ made, calls' = calls ++ made ∧ Passage s.modes s'.modes made ∧
      (∀ call ∈ made, trail.place <+: call.place) ∧
      if progress.stopped then AllDone s'.modes else s'.level = s.level := by
  obtain ⟨edits, stopped, ⟨u, calls''⟩, edited, hsteps, hedited, hclosing⟩ :=
    Traversal.walkBelowAt_eq_ok.mp hrun
  obtain ⟨below, rfl, hpassage, hplaces, hend⟩ := passes_steps hpasses (steps base)
    (Traversal.pairwise_number_steps base) (henters.within hlevel hs) hsteps
  have hplaces' : ∀ call ∈ below, ∃ n, trail.place ++ [n] <+: call.place := by
    intro call hcall
    obtain ⟨child, -, hchild⟩ := hplaces call hcall
    exact ⟨_, hchild⟩
  have hwhere : ∀ call ∈ entered ++ below, trail.place <+: call.place := by
    intro call hcall
    rcases List.mem_append.mp hcall with hcall | hcall
    · rw [(henters.call hcall).2.1]
    · obtain ⟨n, hn⟩ := hplaces' call hcall
      exact (List.prefix_append _ _).trans hn
  rw [Traversal.closing_eq_ok] at hclosing
  cases stopped with
  | true =>
      rw [if_pos rfl] at hclosing hend
      obtain ⟨rfl, hstate⟩ := hclosing
      cases hstate
      exact ⟨entered ++ below, List.append_assoc _ _ _,
        .of_stopped henters hpassage hplaces' hend, hwhere, hend⟩
  | false =>
      rw [if_neg Bool.false_ne_true] at hclosing hend
      obtain ⟨answer, hleave, rfl⟩ := hclosing
      obtain ⟨hplain, rfl⟩ := (leave_calling_eq base).mp hleave
      obtain ⟨⟨replacement, hleaves⟩, hlevel', hstop⟩ := leave_spec trail.place hplain
      rw [hend, hlevel] at hleaves hlevel'
      refine ⟨entered ++ below ++ u.leaveCalls trail.place (edited.getD base), ?_,
        .of_left henters hpassage hplaces' hleaves hs, fun call hcall => ?_, ?_⟩
      · rw [List.append_assoc, List.append_assoc, List.append_assoc]
      · rcases List.mem_append.mp hcall with hcall | hcall
        · exact hwhere call hcall
        · rw [(hleaves.call hcall).2.1]
      · cases answer with
        | stop => exact hstop rfl
        | proceed | skip | replace => exact hlevel'

theorem passes (κ π : Type) (depth : ℕ) : Passes κ π depth := by
  induction depth with
  | zero =>
      intro trail node s s' calls calls' progress _ hrun
      obtain ⟨rfl, hstate⟩ := Traversal.walkAt_zero_eq_ok.mp hrun
      cases hstate
      exact ⟨[], (List.append_nil _).symm, .refl _, by simp, rfl⟩
  | succ depth ih =>
      intro trail node s s' calls calls' progress hs hrun
      obtain ⟨answer, ⟨t, calls''⟩, henter, hrest⟩ := Traversal.walkAt_succ_eq_ok.mp hrun
      obtain ⟨hplain, rfl⟩ := enter_calling_eq.mp henter
      obtain ⟨henters, hlevel, hskip, hstop⟩ := enter_spec trail.place hplain
      cases answer with
      | skip => exact absurd rfl hskip
      | stop =>
          obtain ⟨rfl, hstate⟩ := hrest
          cases hstate
          have hpassage := Passage.of_stopped henters (.refl _) (by simp) (hstop rfl)
          rw [List.append_nil] at hpassage
          refine ⟨_, rfl, hpassage, fun call hcall => ?_, hstop rfl⟩
          rw [(henters.call hcall).2.1]
      | proceed => exact passes_below ih henters hlevel hs hrest
      | replace replacement => exact passes_below ih henters hlevel hs hrest.2

end

/-- The calls with which a visitor leaves the node that it entered with a call. -/
def Call.leaves (call : Call) (calls : List Call) : List Call :=
  calls.filter fun closing =>
    closing.visitor = call.visitor ∧ closing.phase = .leave ∧ closing.place = call.place

/-- Calls that come in pairs, one inside the other, as far as replacements and stops allow. -/
structure Bracketed (calls : List Call) : Prop where
  /-- The calls of a visitor come in the order of a tour of the tree. -/
  ordered : calls.Pairwise fun a b => a.visitor = b.visitor → a.Precedes b
  /-- A visitor leaves a node that it has entered, and not skipped, or that one before it has
  replaced on entering it. -/
  opened : ∀ call ∈ calls, call.phase = .leave →
    ∃ opening ∈ calls, opening.phase = .enter ∧ opening.place = call.place ∧
      (opening.visitor = call.visitor ∧ opening.answer.Opens ∨
        opening.visitor < call.visitor ∧ opening.answer.Replaces)
  /-- A visitor leaves a node that it has entered exactly once, unless one after it has replaced
  the node on leaving it, or it has stopped at the node or below it. -/
  closed : ∀ call ∈ calls, call.phase = .enter → call.answer.Opens →
    (call.leaves calls).length = 1 ∨
    (∃ closing ∈ calls, closing.phase = .leave ∧ closing.place = call.place ∧
      call.visitor < closing.visitor ∧ closing.answer.Replaces) ∨
    ∃ last ∈ calls, last.visitor = call.visitor ∧ last.answer = .stop ∧ call.place <+: last.place

/-- A visitor that gets its calls in the order of a tour leaves no node twice. -/
theorem length_leaves_eq_one {call closing : Call} {calls : List Call}
    (hordered : calls.Pairwise fun a b => a.visitor = b.visitor → a.Precedes b)
    (hmem : closing ∈ call.leaves calls) : (call.leaves calls).length = 1 := by
  have hpairwise : (call.leaves calls).Pairwise fun _ _ => False := by
    refine (hordered.sublist List.filter_sublist).imp_of_mem fun {a b} ha hb h => ?_
    obtain ⟨hvisitor, hphase, hplace⟩ := of_decide_eq_true (List.mem_filter.mp ha).2
    obtain ⟨hvisitor', hphase', hplace'⟩ := of_decide_eq_true (List.mem_filter.mp hb).2
    have hprecedes := h (hvisitor.trans hvisitor'.symm)
    rw [Call.Precedes, hphase, hphase', hplace, hplace'] at hprecedes
    exact not_before_self hprecedes
  match hleaves : call.leaves calls with
  | [] => rw [hleaves] at hmem; cases hmem
  | [_] => rfl
  | a :: b :: rest =>
      rw [hleaves] at hpairwise
      exact (List.rel_of_pairwise_cons hpairwise List.mem_cons_self).elim

theorem Passage.bracketed {modes modes' : List Mode} {calls : List Call}
    (h : Passage modes modes' calls) : Bracketed calls where
  ordered := h.ordered
  opened := h.opened
  closed := by
    intro call hcall hphase hopens
    rcases h.closed call hcall hphase hopens with
      ⟨closing, hmem, hphase', hplace, hvisitor | ⟨hlt, hreplaces⟩⟩ | hstopped
    · have hleaves : closing ∈ call.leaves calls :=
        List.mem_filter.mpr ⟨hmem, decide_eq_true ⟨hvisitor, hphase', hplace⟩⟩
      exact .inl (length_leaves_eq_one h.ordered hleaves)
    · exact .inr (.inl ⟨closing, hmem, hphase', hplace, hlt, hreplaces⟩)
    · exact .inr (.inr hstopped)

end Parallel

/-- The calls that visitors get on a common walk are bracketed, as long as the nodes that they
put in fit. -/
theorem Visitor.bracketed_of_common_walk {κ π : Type} (root : Node) (shared : κ)
    (visitors : List (Visitor (κ × π) × π)) {progress : Traversal.Progress} {s : Parallel.State κ π}
    {calls : List Parallel.Call}
    (h : (walkAt Parallel.calling (root.height + Traversal.growth) [] root).run
      (.start shared visitors, []) = (.ok progress, s, calls)) :
    visit .parallel root (.start shared visitors) = (.ok progress.edited, s) ∧
      Parallel.Bracketed calls := by
  constructor
  · obtain ⟨_, hrun, -⟩ := Parallel.simulates_parallel.walk_eq h
    have hwalk : (Traversal.walk Visitor.parallel (root.height + Traversal.growth) root).run
        (.start shared visitors) = (.ok progress, s) := hrun
    rw [visit, hwalk]
    rfl
  · have hwithin : (Parallel.State.start shared visitors).Within := by
      intro i l hi
      rw [Parallel.State.modes, Parallel.State.start, List.map_map] at hi
      obtain ⟨_, -, hmode⟩ := List.mem_map.mp (List.mem_of_getElem? hi)
      cases hmode
    obtain ⟨made, hmade, hpassage, -⟩ := Parallel.passes κ π _ hwithin h
    rw [List.nil_append] at hmade
    exact hmade ▸ hpassage.bracketed

/-! ### Two visitors that replace fields, and one between them -/

def plainField (name : String) : Selection :=
  .field {
    responseName := none, name := ⟨name, none⟩, arguments := [], directives := []
    selectionSet := none }

/-- A query of two fields. -/
def twoFields (first second : String) : Node :=
  .document {
    definitions := [.operation {
      operation := .query
      name := none
      variableDefinitions := []
      directives := []
      selectionSet := ⟨[plainField first, plainField second], none⟩ }] }

/-- Puts a field in the place of another one, on entering or on leaving it. -/
def swappingField (phase : Phase) (name replacement : String) : Visitor (Unit × Unit) where
  enter node := pure (answer .enter node)
  leave node := pure (answer .leave node)
where
  answer (now : Phase) (node : Node) : VisitAction :=
    match node with
    | .selection (.field f) =>
      if now = phase ∧ f.name.text = name then .replace (.selection (plainField replacement))
      else .proceed
    | _ => .proceed

/-- The first visitor replaces a field on entering it, the last one replaces one on leaving it. -/
def threeVisitors : List (Visitor (Unit × Unit) × Unit) :=
  [(swappingField .enter "a" "c", ()), ({}, ()), (swappingField .leave "b" "d", ())]

theorem Visitor.bracketed_of_common_walk_of_threeVisitors :
    let root := twoFields "a" "b"
    let walked := (walkAt Parallel.calling (root.height + Traversal.growth) [] root).run
      (.start () threeVisitors, [])
    ∃ progress, walked = (.ok progress, walked.2) ∧
      visit .parallel root (.start () threeVisitors) = (.ok progress.edited, walked.2.1) ∧
      Parallel.Bracketed walked.2.2 := by
  intro root walked
  have hok : walked.1.toOption.isSome = true := by decide +kernel
  obtain ⟨⟨result, s, calls⟩, hwalked⟩ : ∃ w, walked = w := ⟨_, rfl⟩
  rw [hwalked] at hok ⊢
  cases result with
  | error misfit => cases hok
  | ok progress =>
      exact ⟨progress, rfl, Visitor.bracketed_of_common_walk root () threeVisitors hwalked⟩

/-- The visitor between the two leaves the first field without having entered it, and never leaves
the second one, though all visitors go on at each node. -/
theorem Visitor.unbracketed_calls_of_threeVisitors :
    let root := twoFields "a" "b"
    let walked := (walkAt Parallel.calling (root.height + Traversal.growth) [] root).run
      (.start () threeVisitors, [])
    let notes := walked.2.2.map fun call => (call.visitor, call.phase, call.place)
    walked.1.toOption.map (·.stopped) = some false ∧
      (∀ call ∈ walked.2.2, call.answer.Opens) ∧
      (1, .leave, [0, 0, 0]) ∈ notes ∧ (1, .enter, [0, 0, 0]) ∉ notes ∧
      (1, .enter, [0, 0, 1]) ∈ notes ∧ (1, .leave, [0, 0, 1]) ∉ notes := by
  decide +kernel

end GraphQL
