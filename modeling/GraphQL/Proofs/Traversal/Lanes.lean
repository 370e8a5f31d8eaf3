import Mathlib
import GraphQL.Proofs.Traversal.Trails

/-!
# What the visitors of a common walk are called for

At each node of a common walk some visitors are called and some are left out, and what a visitor
answers says whether it is called again.  To tell which calls are made, the visitors are made to
note them (`Lane.noting`); nothing else changes.  Entering a node, the visitors that take part are
called in turn up to one that replaces the node (`Enters`).  Leaving it, they are called from the
last one on, again up to one that replaces it (`Leaves`).
-/

namespace GraphQL

open Traversal (Phase)

namespace VisitAction

/-- On entering a node: the node is walked, and left later on. -/
def Opens : VisitAction → Prop
  | .proceed | .replace _ => True
  | .skip | .stop => False

def Replaces : VisitAction → Prop
  | .replace _ => True
  | _ => False

instance : DecidablePred Opens
  | .proceed | .replace _ => .isTrue trivial
  | .skip | .stop => .isFalse id

end VisitAction

namespace Parallel

variable {κ π : Type}

/-- A call of one of the visitors: at which place of the tree, and what it answered.  The place is
given by the numbers of the children on the way from the root. -/
structure Call where
  visitor : ℕ
  phase : Phase
  place : List ℕ
  answer : VisitAction

/-- A visitor that notes the calls it gets at a place. -/
def noted (place : List ℕ) (number : ℕ) (visitor : Visitor (κ × π)) :
    Visitor ((κ × List Call) × π) where
  enter node := fun ((shared, calls), own) =>
    let (answer, shared, own) := visitor.enter node (shared, own)
    (answer, (shared, calls ++ [⟨number, .enter, place, answer⟩]), own)
  leave node := fun ((shared, calls), own) =>
    let (answer, shared, own) := visitor.leave node (shared, own)
    (answer, (shared, calls ++ [⟨number, .leave, place, answer⟩]), own)

def Lane.noting (place : List ℕ) (number : ℕ) (lane : Lane κ π) : Lane (κ × List Call) π where
  visitor := noted place number lane.visitor
  own := lane.own
  mode := lane.mode

/-- The same state, but with visitors that note their calls at a place. -/
def State.noting (place : List ℕ) (s : State κ π) : State (κ × List Call) π where
  shared := (s.shared, [])
  lanes := s.lanes.mapIdx (Lane.noting place)
  level := s.level

/-- The calls that are made on entering a node. -/
def State.enterCalls (place : List ℕ) (node : Node) (s : State κ π) : List Call :=
  (Visitor.parallel.enter node (s.noting place)).2.shared.2

/-- The calls that are made on leaving a node. -/
def State.leaveCalls (place : List ℕ) (node : Node) (s : State κ π) : List Call :=
  (Visitor.parallel.leave node (s.noting place)).2.shared.2

def State.modes (s : State κ π) : List Mode := s.lanes.map (·.mode)

/-! ## Entering a node -/

/-- Whether a visitor takes part, after what it answered on entering a node at a level. -/
def Mode.entered (level : ℕ) : VisitAction → Mode
  | .proceed | .replace _ => .active
  | .skip => .skipping level
  | .stop => .done

/-- The calls on entering a node for visitors from a number on, with their modes before and after. -/
inductive Enters (place : List ℕ) (level : ℕ) : ℕ → List Mode → List Call → List Mode → Prop
  | nil (k : ℕ) : Enters place level k [] [] []
  | leftOut {k : ℕ} {mode : Mode} {modes modes' : List Mode} {calls : List Call}
      (hmode : mode ≠ .active) (h : Enters place level (k + 1) modes calls modes') :
      Enters place level k (mode :: modes) calls (mode :: modes')
  | called {k : ℕ} {modes modes' : List Mode} {calls : List Call} (answer : VisitAction)
      (h : Enters place level (k + 1) modes calls modes') :
      Enters place level k (.active :: modes) (⟨k, .enter, place, answer⟩ :: calls)
        (.entered level answer :: modes')
  | replaced (k : ℕ) (modes : List Mode) (replacement : Node) :
      Enters place level k (.active :: modes) [⟨k, .enter, place, .replace replacement⟩]
        (.active :: modes)

section

variable {level : ℕ} {node : Node} {shared shared' : κ} {lane : Lane κ π} {own' : π}
  {rest : List (Lane κ π)} {answer : VisitAction}

theorem enterLanes_cons_of_leftOut (h : lane.mode ≠ .active) :
    enterLanes level node shared (lane :: rest) =
      enterLanes.before lane (enterLanes level node shared rest) := by
  rw [enterLanes, if_neg h]

theorem enterLanes_cons_of_replaced {replacement : Node} (h : lane.mode = .active)
    (hanswer : lane.visitor.enter node (shared, lane.own) =
      (.replace replacement, shared', own')) :
    enterLanes level node shared (lane :: rest) =
      (shared', { lane with own := own' } :: rest, some replacement) := by
  rw [enterLanes, if_pos h, StateT.run, hanswer]

theorem enterLanes_cons_of_called (h : lane.mode = .active)
    (hanswer : lane.visitor.enter node (shared, lane.own) = (answer, shared', own'))
    (hreplaces : ¬answer.Replaces) :
    enterLanes level node shared (lane :: rest) =
      enterLanes.before ⟨lane.visitor, own', .entered level answer⟩
        (enterLanes level node shared' rest) := by
  rw [enterLanes, if_pos h, StateT.run, hanswer]
  cases answer with
  | replace replacement => exact absurd trivial hreplaces
  | proceed => exact h ▸ rfl
  | skip => rfl
  | stop => rfl

end

theorem mapIdx_noting_cons (place : List ℕ) (k : ℕ) (lane : Lane κ π) (rest : List (Lane κ π)) :
    ((lane :: rest).mapIdx fun i => Lane.noting place (k + i)) =
      lane.noting place k :: rest.mapIdx fun i => Lane.noting place (k + 1 + i) := by
  rw [List.mapIdx_cons]
  refine congrArg₂ _ rfl (congrArg (List.mapIdx · rest) (funext fun i => ?_))
  rw [Nat.add_right_comm k 1 i]
  rfl

/-- The calls that are noted on entering a node are those that are made. -/
theorem enters_enterLanes (place : List ℕ) (level : ℕ) (node : Node) (shared : κ)
    (calls : List Call) (k : ℕ) (lanes : List (Lane κ π)) :
    ∃ made, (enterLanes level node (shared, calls)
        (lanes.mapIdx fun i => Lane.noting place (k + i))).1 =
          ((enterLanes level node shared lanes).1, calls ++ made) ∧
      Enters place level k (lanes.map (·.mode)) made
        ((enterLanes level node shared lanes).2.1.map (·.mode)) := by
  induction lanes generalizing shared calls k with
  | nil =>
      refine ⟨[], ?_, ?_⟩
      · rw [List.mapIdx_nil, enterLanes, enterLanes, List.append_nil]
      · rw [enterLanes]
        exact .nil k
  | cons lane rest ih =>
      rw [mapIdx_noting_cons]
      by_cases hactive : lane.mode = .active
      · have hactive' : (lane.noting place k).mode = .active := hactive
        cases hanswer : lane.visitor.enter node (shared, lane.own) with
        | mk answer after =>
            obtain ⟨shared', own'⟩ := after
            have hnoting : (lane.noting place k).visitor.enter node
                ((shared, calls), (lane.noting place k).own) =
                  (answer, (shared', calls ++ [⟨k, .enter, place, answer⟩]), own') := by
              simp only [Lane.noting, noted, hanswer]
            by_cases hreplaces : answer.Replaces
            · cases answer with
              | proceed | skip | stop => exact hreplaces.elim
              | replace replacement =>
                  rw [enterLanes_cons_of_replaced hactive hanswer,
                    enterLanes_cons_of_replaced hactive' hnoting, List.map_cons, List.map_cons,
                    hactive]
                  exact ⟨[⟨k, .enter, place, .replace replacement⟩], rfl, .replaced k _ _⟩
            · obtain ⟨made, hmade, henters⟩ :=
                ih shared' (calls ++ [⟨k, .enter, place, answer⟩]) (k + 1)
              rw [enterLanes_cons_of_called hactive hanswer hreplaces,
                enterLanes_cons_of_called hactive' hnoting hreplaces, List.map_cons, hactive]
              rw [← List.append_cons] at hmade
              exact ⟨_, hmade, .called answer henters⟩
      · have hactive' : (lane.noting place k).mode ≠ .active := hactive
        obtain ⟨made, hmade, henters⟩ := ih shared calls (k + 1)
        rw [enterLanes_cons_of_leftOut hactive, enterLanes_cons_of_leftOut hactive']
        exact ⟨made, hmade, .leftOut hactive henters⟩

namespace Enters

variable {place : List ℕ} {level k : ℕ} {modes modes' : List Mode} {calls : List Call}

/-- Each visitor that is called took part. -/
theorem call (h : Enters place level k modes calls modes') {call : Call} (hcall : call ∈ calls) :
    call.phase = .enter ∧ call.place = place ∧
      ∃ i, call.visitor = k + i ∧ modes[i]? = some .active ∧
        modes'[i]? = some (.entered level call.answer) := by
  induction h with
  | nil k => cases hcall
  | leftOut hmode _ ih =>
      obtain ⟨hphase, hplace, i, hi, hbefore, hafter⟩ := ih hcall
      exact ⟨hphase, hplace, i + 1, by omega, hbefore, hafter⟩
  | called answer _ ih =>
      rcases List.mem_cons.mp hcall with rfl | hcall
      · exact ⟨rfl, rfl, 0, rfl, rfl, rfl⟩
      · obtain ⟨hphase, hplace, i, hi, hbefore, hafter⟩ := ih hcall
        exact ⟨hphase, hplace, i + 1, by omega, hbefore, hafter⟩
  | replaced k modes replacement =>
      cases List.mem_singleton.mp hcall
      exact ⟨rfl, rfl, 0, rfl, rfl, rfl⟩

theorem le_visitor (h : Enters place level k modes calls modes') {call : Call}
    (hcall : call ∈ calls) : k ≤ call.visitor := by
  obtain ⟨-, -, i, hi, -⟩ := h.call hcall
  omega

/-- No visitor is called twice. -/
theorem pairwise (h : Enters place level k modes calls modes') :
    calls.Pairwise fun a b => a.visitor ≠ b.visitor := by
  induction h with
  | nil k => exact .nil
  | leftOut _ _ ih => exact ih
  | called answer h ih =>
      refine List.pairwise_cons.mpr ⟨fun call hcall => ?_, ih⟩
      have := h.le_visitor hcall
      dsimp only
      omega
  | replaced k modes replacement => exact List.pairwise_singleton _ _

/-- A visitor that takes part afterwards has been called, or one before it has replaced the
node. -/
theorem opened (h : Enters place level k modes calls modes') {i : ℕ}
    (hi : modes'[i]? = some .active) :
    ∃ call ∈ calls, call.visitor = k + i ∧ call.answer.Opens ∨
      call.visitor < k + i ∧ call.answer.Replaces := by
  induction h generalizing i with
  | nil k => cases hi
  | leftOut hmode _ ih =>
      cases i with
      | zero => exact absurd (Option.some.inj hi) hmode
      | succ i =>
          obtain ⟨call, hcall, hanswer⟩ := ih hi
          exact ⟨call, hcall, by rwa [Nat.add_assoc, Nat.add_comm 1] at hanswer⟩
  | called answer _ ih =>
      cases i with
      | zero =>
          refine ⟨_, List.mem_cons_self, .inl ⟨rfl, ?_⟩⟩
          cases answer with
          | proceed | replace => trivial
          | skip | stop => cases hi
      | succ i =>
          obtain ⟨call, hcall, hanswer⟩ := ih hi
          rw [Nat.add_assoc, Nat.add_comm 1] at hanswer
          exact ⟨call, List.mem_cons_of_mem _ hcall, hanswer⟩
  | replaced k modes replacement =>
      refine ⟨_, List.mem_cons_self, ?_⟩
      cases i with
      | zero => exact .inl ⟨rfl, trivial⟩
      | succ i => exact .inr ⟨by dsimp only; omega, trivial⟩

/-- What becomes of the modes. -/
theorem mode (h : Enters place level k modes calls modes') (i : ℕ) :
    modes'[i]? = modes[i]? ∨ modes[i]? = some .active ∧
      (modes'[i]? = some (.skipping level) ∨
        modes'[i]? = some .done ∧ ∃ call ∈ calls, call.visitor = k + i ∧ call.answer = .stop) := by
  induction h generalizing i with
  | nil k => exact .inl rfl
  | leftOut hmode _ ih =>
      cases i with
      | zero => exact .inl rfl
      | succ i =>
          have := ih i
          rwa [Nat.add_assoc, Nat.add_comm 1] at this
  | called answer _ ih =>
      cases i with
      | zero =>
          cases answer with
          | proceed | replace => exact .inl rfl
          | skip => exact .inr ⟨rfl, .inl rfl⟩
          | stop => exact .inr ⟨rfl, .inr ⟨rfl, _, List.mem_cons_self, rfl, rfl⟩⟩
      | succ i =>
          have := ih i
          rw [Nat.add_assoc, Nat.add_comm 1] at this
          refine this.imp_right (And.imp_right (Or.imp_right (And.imp_right ?_)))
          exact fun ⟨call, hcall, h⟩ => ⟨call, List.mem_cons_of_mem _ hcall, h⟩
  | replaced k modes replacement => exact .inl rfl

end Enters

/-! ## Leaving a node -/

/-- Whether a visitor takes part, after what it answered on leaving a node. -/
def Mode.left : VisitAction → Mode
  | .stop => .done
  | _ => .active

/-- What takes the place of a node that is left. -/
def replacement? : VisitAction → Option Node
  | .replace replacement => some replacement
  | _ => none

/-- The calls on leaving a node for visitors from a number on, with their modes before and after,
and what takes the place of the node. -/
inductive Leaves (place : List ℕ) (level : ℕ) :
    ℕ → List Mode → List Call → List Mode → Option Node → Prop
  | nil (k : ℕ) : Leaves place level k [] [] [] none
  | woken {k : ℕ} {modes modes' : List Mode} {calls : List Call} {replacement : Option Node}
      (h : Leaves place level (k + 1) modes calls modes' replacement) :
      Leaves place level k (.skipping level :: modes) calls (.active :: modes') replacement
  | called {k : ℕ} {modes modes' : List Mode} {calls : List Call} (answer : VisitAction)
      (h : Leaves place level (k + 1) modes calls modes' none) :
      Leaves place level k (.active :: modes) (calls ++ [⟨k, .leave, place, answer⟩])
        (.left answer :: modes') (replacement? answer)
  | passedOver {k : ℕ} {modes modes' : List Mode} {calls : List Call} {replacement : Node}
      (h : Leaves place level (k + 1) modes calls modes' (some replacement)) :
      Leaves place level k (.active :: modes) calls (.active :: modes') (some replacement)
  | leftOut {k : ℕ} {mode : Mode} {modes modes' : List Mode} {calls : List Call}
      {replacement : Option Node} (hmode : mode ≠ .active) (hlevel : mode ≠ .skipping level)
      (h : Leaves place level (k + 1) modes calls modes' replacement) :
      Leaves place level k (mode :: modes) calls (mode :: modes') replacement

section

variable {level : ℕ} {node : Node} {shared shared' shared'' : κ} {lane : Lane κ π} {own' : π}
  {rest rest' : List (Lane κ π)} {answer : VisitAction} {replacement : Option Node}

theorem leaveLanes_cons_of_woken (h : lane.mode = .skipping level)
    (hrest : leaveLanes level node shared rest = (shared', rest', replacement)) :
    leaveLanes level node shared (lane :: rest) =
      (shared', { lane with mode := .active } :: rest', replacement) := by
  rw [leaveLanes, hrest]
  exact if_pos h

theorem leaveLanes_cons_of_called (h : lane.mode = .active)
    (hrest : leaveLanes level node shared rest = (shared', rest', none))
    (hanswer : lane.visitor.leave node (shared', lane.own) = (answer, shared'', own')) :
    leaveLanes level node shared (lane :: rest) =
      (shared'', ⟨lane.visitor, own', .left answer⟩ :: rest', replacement? answer) := by
  have hlevel : lane.mode ≠ .skipping level := by rw [h]; simp
  rw [leaveLanes, hrest]
  dsimp only
  rw [if_neg hlevel, if_pos ⟨h, rfl⟩, StateT.run, hanswer]
  cases answer with
  | stop => rfl
  | proceed | skip | replace => exact h ▸ rfl

theorem leaveLanes_cons_of_leftOut (hlevel : lane.mode ≠ .skipping level)
    (h : lane.mode = .active → replacement.isSome)
    (hrest : leaveLanes level node shared rest = (shared', rest', replacement)) :
    leaveLanes level node shared (lane :: rest) = (shared', lane :: rest', replacement) := by
  rw [leaveLanes, hrest]
  dsimp only
  rw [if_neg hlevel, if_neg]
  rintro ⟨hactive, hnone⟩
  have := h hactive
  cases replacement <;> simp_all

end

/-- The calls that are noted on leaving a node are those that are made. -/
theorem leaves_leaveLanes (place : List ℕ) (level : ℕ) (node : Node) (shared : κ)
    (calls : List Call) (k : ℕ) (lanes : List (Lane κ π)) :
    ∃ shared' lanes' noting' replacement made,
      leaveLanes level node shared lanes = (shared', lanes', replacement) ∧
      leaveLanes level node (shared, calls) (lanes.mapIdx fun i => Lane.noting place (k + i)) =
        ((shared', calls ++ made), noting', replacement) ∧
      Leaves place level k (lanes.map (·.mode)) made (lanes'.map (·.mode)) replacement := by
  induction lanes generalizing k with
  | nil =>
      refine ⟨shared, [], [], none, [], rfl, ?_, .nil k⟩
      rw [List.mapIdx_nil, leaveLanes, List.append_nil]
  | cons lane rest ih =>
      obtain ⟨shared', rest', noting', replacement, made, hrest, hnoting, hleaves⟩ := ih (k + 1)
      rw [mapIdx_noting_cons, List.map_cons]
      by_cases hlevel : lane.mode = .skipping level
      · refine ⟨_, _, _, _, _, leaveLanes_cons_of_woken hlevel hrest,
          leaveLanes_cons_of_woken hlevel hnoting, ?_⟩
        rw [hlevel]
        exact .woken hleaves
      by_cases hactive : lane.mode = .active
      · cases replacement with
        | some replacement =>
            refine ⟨_, _, _, _, _, leaveLanes_cons_of_leftOut hlevel (fun _ => rfl) hrest,
              leaveLanes_cons_of_leftOut hlevel (fun _ => rfl) hnoting, ?_⟩
            rw [List.map_cons, hactive]
            exact .passedOver hleaves
        | none =>
            cases hanswer : lane.visitor.leave node (shared', lane.own) with
            | mk answer after =>
                obtain ⟨shared'', own'⟩ := after
                have hnoted : (lane.noting place k).visitor.leave node
                    ((shared', calls ++ made), (lane.noting place k).own) =
                      (answer, (shared'', calls ++ made ++ [⟨k, .leave, place, answer⟩]), own') := by
                  simp only [Lane.noting, noted, hanswer]
                have hactive' : (lane.noting place k).mode = .active := hactive
                have hcalled := leaveLanes_cons_of_called hactive' hnoting hnoted
                rw [List.append_assoc] at hcalled
                refine ⟨_, _, _, _, _, leaveLanes_cons_of_called hactive hrest hanswer, hcalled, ?_⟩
                rw [hactive]
                exact .called answer hleaves
      · refine ⟨_, _, _, _, _,
          leaveLanes_cons_of_leftOut hlevel (fun h => absurd h hactive) hrest,
          leaveLanes_cons_of_leftOut hlevel (fun h => absurd h hactive) hnoting, ?_⟩
        exact .leftOut hactive hlevel hleaves

namespace Leaves

variable {place : List ℕ} {level k : ℕ} {modes modes' : List Mode} {calls : List Call}
  {replacement : Option Node}

/-- Each visitor that is called takes part. -/
theorem call (h : Leaves place level k modes calls modes' replacement) {call : Call}
    (hcall : call ∈ calls) :
    call.phase = .leave ∧ call.place = place ∧
      ∃ i, call.visitor = k + i ∧ modes[i]? = some .active := by
  induction h with
  | nil k => cases hcall
  | called answer _ ih =>
      rcases List.mem_append.mp hcall with hcall | hcall
      · obtain ⟨hphase, hplace, i, hi, hbefore⟩ := ih hcall
        exact ⟨hphase, hplace, i + 1, by omega, hbefore⟩
      · cases List.mem_singleton.mp hcall
        exact ⟨rfl, rfl, 0, rfl, rfl⟩
  | woken _ ih | passedOver _ ih | leftOut _ _ _ ih =>
      obtain ⟨hphase, hplace, i, hi, hbefore⟩ := ih hcall
      exact ⟨hphase, hplace, i + 1, by omega, hbefore⟩

/-- No visitor is called twice. -/
theorem pairwise (h : Leaves place level k modes calls modes' replacement) :
    calls.Pairwise fun a b => a.visitor ≠ b.visitor := by
  induction h with
  | nil k => exact .nil
  | called answer h ih =>
      refine List.pairwise_append.mpr ⟨ih, List.pairwise_singleton _ _, fun a ha b hb => ?_⟩
      obtain ⟨-, -, i, hi, -⟩ := h.call ha
      cases List.mem_singleton.mp hb
      dsimp only
      omega
  | woken _ ih | passedOver _ ih | leftOut _ _ _ ih => exact ih

/-- When the node is replaced, one of the visitors that are called has replaced it. -/
theorem exists_replaces (h : Leaves place level k modes calls modes' replacement)
    (hsome : replacement.isSome) : ∃ call ∈ calls, call.answer.Replaces := by
  induction h with
  | nil k => cases hsome
  | called answer _ ih =>
      refine ⟨_, List.mem_append_right _ List.mem_cons_self, ?_⟩
      cases answer with
      | replace => trivial
      | proceed | skip | stop => cases hsome
  | woken _ ih | leftOut _ _ _ ih => exact ih hsome
  | passedOver _ ih => exact ih rfl

/-- A visitor that takes part is called, or one after it has replaced the node. -/
theorem closed (h : Leaves place level k modes calls modes' replacement) {i : ℕ}
    (hi : modes[i]? = some .active) :
    ∃ call ∈ calls, call.visitor = k + i ∨ k + i < call.visitor ∧ call.answer.Replaces := by
  induction h generalizing i with
  | nil k => cases hi
  | woken _ ih =>
      cases i with
      | zero => cases hi
      | succ i =>
          have := ih hi
          rwa [Nat.add_assoc, Nat.add_comm 1] at this
  | called answer _ ih =>
      cases i with
      | zero => exact ⟨_, List.mem_append_right _ List.mem_cons_self, .inl rfl⟩
      | succ i =>
          obtain ⟨call, hcall, hanswer⟩ := ih hi
          rw [Nat.add_assoc, Nat.add_comm 1] at hanswer
          exact ⟨call, List.mem_append_left _ hcall, hanswer⟩
  | passedOver h ih =>
      cases i with
      | zero =>
          obtain ⟨call, hcall, hreplaces⟩ := h.exists_replaces rfl
          obtain ⟨-, -, i, hi, -⟩ := h.call hcall
          exact ⟨call, hcall, .inr ⟨by omega, hreplaces⟩⟩
      | succ i =>
          have := ih hi
          rwa [Nat.add_assoc, Nat.add_comm 1] at this
  | leftOut hmode _ _ ih =>
      cases i with
      | zero => exact absurd (Option.some.inj hi) hmode
      | succ i =>
          have := ih hi
          rwa [Nat.add_assoc, Nat.add_comm 1] at this

/-- What becomes of the modes. -/
theorem mode (h : Leaves place level k modes calls modes' replacement) (i : ℕ) :
    modes[i]? = some (.skipping level) ∧ modes'[i]? = some .active ∨
      modes[i]? ≠ some (.skipping level) ∧ (modes'[i]? = modes[i]? ∨
        modes[i]? = some .active ∧ modes'[i]? = some .done ∧
          ∃ call ∈ calls, call.visitor = k + i ∧ call.answer = .stop) := by
  induction h generalizing i with
  | nil k => exact .inr ⟨by simp, .inl rfl⟩
  | woken _ ih =>
      cases i with
      | zero => exact .inl ⟨rfl, rfl⟩
      | succ i =>
          have := ih i
          rwa [Nat.add_assoc, Nat.add_comm 1] at this
  | called answer _ ih =>
      cases i with
      | zero =>
          refine .inr ⟨by simp, ?_⟩
          cases answer with
          | proceed | replace | skip => exact .inl rfl
          | stop => exact .inr ⟨rfl, rfl, _, List.mem_append_right _ List.mem_cons_self, rfl, rfl⟩
      | succ i =>
          have := ih i
          rw [Nat.add_assoc, Nat.add_comm 1] at this
          refine this.imp_right (And.imp_right (Or.imp_right (And.imp_right (And.imp_right ?_))))
          exact fun ⟨call, hcall, h⟩ => ⟨call, List.mem_append_left _ hcall, h⟩
  | passedOver _ ih =>
      cases i with
      | zero => exact .inr ⟨by simp, .inl rfl⟩
      | succ i =>
          have := ih i
          rwa [Nat.add_assoc, Nat.add_comm 1] at this
  | leftOut _ hlevel _ ih =>
      cases i with
      | zero => exact .inr ⟨fun h => hlevel (Option.some.inj h), .inl rfl⟩
      | succ i =>
          have := ih i
          rwa [Nat.add_assoc, Nat.add_comm 1] at this

end Leaves

end Parallel

end GraphQL
