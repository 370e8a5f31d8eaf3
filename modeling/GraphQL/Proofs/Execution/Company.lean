import Mathlib
import GraphQL.Execution.Run

/-!
# Jobs in company

A job that is not alone is polled again and again, and between two polls the other jobs go
on with the state.  What can be said of the job by itself is what it adds to the progress:
its errors and events, in their order (`Note`).  `Job.Gives` says that a job can only end
with values and notes of which something holds, whatever the others do in the meantime.

There is one rule for each way in which jobs are made of others.  The jobs of a group all get
done, and the group adds what they add, in some order (`gives_sideBySide`); of jobs in turn
each is done before the next one starts (`gives_inTurn`).
-/

namespace GraphQL

variable {α β ι : Type}

/-! ## What is added -/

/-- What is noted on the way to a response. -/
inductive Note where
  | error (e : FieldError)
  | event (e : Event)

namespace Note

def error? : Note → Option FieldError
  | error e => some e
  | event _ => none

def event? : Note → Option Event
  | event e => some e
  | error _ => none

/-- The errors among some notes. -/
def errors (notes : List Note) : List FieldError := notes.filterMap error?

/-- The events among some notes. -/
def events (notes : List Note) : List Event := notes.filterMap event?

@[simp] theorem errors_append (notes more : List Note) :
    errors (notes ++ more) = errors notes ++ errors more :=
  List.filterMap_append

@[simp] theorem events_append (notes more : List Note) :
    events (notes ++ more) = events notes ++ events more :=
  List.filterMap_append

theorem mem_errors_iff {notes : List Note} {e : FieldError} :
    e ∈ errors notes ↔ .error e ∈ notes := by
  refine List.mem_filterMap.trans ⟨?_, fun h => ⟨_, h, rfl⟩⟩
  rintro ⟨note, hmem, hnote⟩
  cases note with
  | error e' => exact Option.some.inj hnote ▸ hmem
  | event e' => cases hnote

theorem mem_events_iff {notes : List Note} {e : Event} :
    e ∈ events notes ↔ .event e ∈ notes := by
  refine List.mem_filterMap.trans ⟨?_, fun h => ⟨_, h, rfl⟩⟩
  rintro ⟨note, hmem, hnote⟩
  cases note with
  | error e' => cases hnote
  | event e' => exact Option.some.inj hnote ▸ hmem

end Note

/-- The notes, in their order, are what was added. -/
structure Progress.Adds (before : Progress) (notes : List Note) (after : Progress) : Prop where
  errors : after.errors = (Note.errors notes).reverse ++ before.errors
  events : after.events = (Note.events notes).reverse ++ before.events

theorem Progress.Adds.trans {before between after : Progress} {notes more : List Note}
    (h : before.Adds notes between) (hmore : between.Adds more after) :
    before.Adds (notes ++ more) after where
  errors := by
    rw [hmore.errors, h.errors, Note.errors_append, List.reverse_append, List.append_assoc]
  events := by
    rw [hmore.events, h.events, Note.events_append, List.reverse_append, List.append_assoc]

/-! ## Steps -/

/-- What is said of a value and of the notes that were added before it was there. -/
abbrev Claim (α : Type) := α → List Note → Prop

/-- The claim on what is still to come, when some notes have been added. -/
def Claim.after (claim : Claim α) (notes : List Note) : Claim α :=
  fun value more => claim value (notes ++ more)

namespace Step

/-- However the state is changed between polls, the claim holds of the value in the end and of
what the job itself adds to the progress from the given one on. -/
def Gives : Claim α → (before : Progress) → Step Progress α → Prop
  | claim, before, done after value => ∃ notes, before.Adds notes after ∧ claim value notes
  | claim, before, waiting after resume =>
    ∃ notes, before.Adds notes after ∧ ∀ state, Gives (claim.after notes) state (resume state)

variable {claim other : Claim α} {before between : Progress} {step : Step Progress α}

theorem Gives.mono (h : step.Gives claim before)
    (himp : ∀ value notes, claim value notes → other value notes) : step.Gives other before := by
  induction step generalizing claim other before with
  | done after value =>
      obtain ⟨notes, hadds, hclaim⟩ := h
      exact ⟨notes, hadds, himp value notes hclaim⟩
  | waiting after resume ih =>
      obtain ⟨notes, hadds, hresume⟩ := h
      exact ⟨notes, hadds, fun state =>
        ih state (hresume state) fun value more => himp value (notes ++ more)⟩

/-- What was added before the step counts as added by it. -/
theorem Gives.of_after {notes : List Note} (hadds : before.Adds notes between)
    (h : step.Gives (claim.after notes) between) : step.Gives claim before := by
  cases step with
  | done after value =>
      obtain ⟨more, hmore, hclaim⟩ := h
      exact ⟨notes ++ more, hadds.trans hmore, hclaim⟩
  | waiting after resume =>
      obtain ⟨more, hmore, hresume⟩ := h
      refine ⟨notes ++ more, hadds.trans hmore, fun state => (hresume state).mono ?_⟩
      intro value last hclaim
      rwa [Claim.after, List.append_assoc]

theorem Gives.bind {next : α → Job Progress β} {goal : Claim β}
    (h : step.Gives (fun value notes => ∀ state, (next value state).Gives (goal.after notes) state)
      before) : (step.bind next).Gives goal before := by
  induction step generalizing goal before with
  | done after value =>
      obtain ⟨notes, hadds, hnext⟩ := h
      exact (hnext after).of_after hadds
  | waiting after resume ih =>
      obtain ⟨notes, hadds, hresume⟩ := h
      refine ⟨notes, hadds, fun state => ih state ((hresume state).mono ?_)⟩
      intro value more hnext last
      refine (hnext last).mono fun result final hgoal => ?_
      rwa [Claim.after, List.append_assoc] at hgoal

/-- A job that is alone adds what it gives. -/
theorem Gives.finish (h : step.Gives claim before) :
    ∃ notes, before.Adds notes step.finish.2 ∧ claim step.finish.1 notes := by
  induction step generalizing claim before with
  | done after value => exact h
  | waiting after resume ih =>
      obtain ⟨notes, hadds, hresume⟩ := h
      obtain ⟨more, hmore, hclaim⟩ := ih after (hresume after)
      exact ⟨notes ++ more, hadds.trans hmore, hclaim⟩

end Step

/-! ## Jobs -/

namespace Job

/-- Whenever the job is started, and whatever others do until it is done, the claim holds of its
value and of what it adds. -/
def Gives (job : Job Progress α) (claim : Claim α) : Prop :=
  ∀ before, (job before).Gives claim before

section

variable {job : Job Progress α} {claim other : Claim α}

theorem Gives.mono (h : job.Gives claim)
    (himp : ∀ value notes, claim value notes → other value notes) : job.Gives other :=
  fun before => (h before).mono himp

theorem gives_pure {value : α} (h : claim value []) : (pure value : Job Progress α).Gives claim :=
  fun _ => ⟨[], ⟨rfl, rfl⟩, h⟩

theorem Gives.bind {next : α → Job Progress β} {goal : Claim β} (h : job.Gives claim)
    (hnext : ∀ value notes, claim value notes → (next value).Gives (goal.after notes)) :
    (job >>= next).Gives goal :=
  fun before => ((h before).mono hnext).bind

theorem gives_wait (n : ℕ) : (wait n).Gives fun _ notes => notes = [] := by
  induction n with
  | zero => exact gives_pure rfl
  | succ n ih => exact fun before => ⟨[], ⟨rfl, rfl⟩, ih⟩

theorem gives_record (e : FieldError) :
    (Progress.record e).Gives fun _ notes => notes = [.error e] :=
  fun _ => ⟨[.error e], ⟨rfl, rfl⟩, rfl⟩

theorem gives_note (event : Event) :
    (Progress.note event).Gives fun _ notes => notes = [.event event] :=
  fun _ => ⟨[.event event], ⟨rfl, rfl⟩, rfl⟩

theorem gives_call (resolver : Json → Reply × Json) :
    (Progress.call resolver).Gives fun reply notes =>
      notes = [] ∧ ∃ memory, reply = (resolver memory).1 :=
  fun before => ⟨[], ⟨rfl, rfl⟩, rfl, before.memory, rfl⟩

/-- What a job adds that is run from the start. -/
theorem Gives.run (h : job.Gives claim) : ∃ notes, claim (job.run {}).1 notes ∧
    (job.run {}).2.errors.reverse = Note.errors notes ∧
    (job.run {}).2.events.reverse = Note.events notes := by
  obtain ⟨notes, hadds, hclaim⟩ := (h {}).finish
  refine ⟨notes, hclaim, ?_, ?_⟩
  · rw [Job.run, hadds.errors, List.append_nil, List.reverse_reverse]
  · rw [Job.run, hadds.events, List.append_nil, List.reverse_reverse]

end

/-! ## The first error -/

theorem mapM_id_ok_cons {ε : Type} (value : α) (results : List (Except ε α)) :
    (Except.ok value :: results).mapM id = (results.mapM id).map (value :: ·) := by
  rw [List.mapM_cons]
  cases results.mapM id <;> rfl

/-- All results are there if there is no error among them. -/
theorem mapM_id_eq_ok_iff {ε : Type} {results : List (Except ε α)} {values : List α} :
    results.mapM id = .ok values ↔ results = values.map .ok := by
  induction results generalizing values with
  | nil => cases values <;> simp [pure, Except.pure]
  | cons result results ih =>
      cases result with
      | error e => cases values <;> simp [List.mapM_cons, bind, Except.bind]
      | ok value =>
          rw [mapM_id_ok_cons]
          cases values with
          | nil => cases results.mapM id <;> simp [Except.map]
          | cons first rest =>
              rw [List.map_cons, List.cons.injEq, ← ih]
              cases results.mapM id <;> simp [Except.map]

/-- Of the errors the first one counts. -/
theorem exists_of_mapM_id_eq_error {ε : Type} {results : List (Except ε α)} {e : ε}
    (h : results.mapM id = .error e) :
    ∃ (values : List α) (rest : List (Except ε α)),
      results = values.map .ok ++ .error e :: rest := by
  induction results with
  | nil => simp [pure, Except.pure] at h
  | cons result results ih =>
      cases result with
      | error e' =>
          obtain rfl : e' = e := by simpa [List.mapM_cons, bind, Except.bind] using h
          exact ⟨[], results, rfl⟩
      | ok value =>
          rw [mapM_id_ok_cons] at h
          cases hrest : results.mapM id with
          | ok values => simp [hrest, Except.map] at h
          | error e' =>
              obtain rfl : e' = e := by simpa [hrest, Except.map] using h
              obtain ⟨values, rest, rfl⟩ := ih hrest
              exact ⟨value :: values, rest, rfl⟩

/-! ## Groups -/

/-- The values of some jobs, each with what its job added. -/
abbrev Outcomes (α : Type) := List (α × List Note)

namespace Outcomes

def values (outcomes : Outcomes α) : List α := outcomes.map (·.1)

/-- All that was added, job by job. -/
def notes (outcomes : Outcomes α) : List Note := outcomes.flatMap (·.2)

@[simp] theorem values_cons (outcome : α × List Note) (outcomes : Outcomes α) :
    values (outcome :: outcomes) = outcome.1 :: values outcomes := rfl

@[simp] theorem notes_cons (outcome : α × List Note) (outcomes : Outcomes α) :
    notes (outcome :: outcomes) = outcome.2 ++ notes outcomes := List.flatMap_cons

/-- Each outcome is one that a claim allows, in order. -/
def Meet (claims : List (Claim α)) (outcomes : Outcomes α) : Prop :=
  List.Forall₂ (fun claim outcome => claim outcome.1 outcome.2) claims outcomes

/-- Some outcomes and the values of jobs that were done before, in some order, with the notes in
some order. -/
def Mixed (outcomes : Outcomes α) (finished values : List α) (added : List Note) : Prop :=
  values.Perm (outcomes.values ++ finished) ∧ added.Perm outcomes.notes

theorem Mixed.cons_of_done {outcomes : Outcomes α} {finished values : List α} {value : α}
    {notes more : List Note} (h : outcomes.Mixed (value :: finished) values more) :
    Mixed ((value, notes) :: outcomes) finished values (notes ++ more) :=
  ⟨h.1.trans List.perm_middle, h.2.append_left notes⟩

theorem Mixed.cons_of_waiting {outcomes : Outcomes α} {finished values : List α} {value : α}
    {notes last more : List Note}
    (h : Mixed (outcomes ++ [(value, last)]) finished values more) :
    Mixed ((value, notes ++ last) :: outcomes) finished values (notes ++ more) := by
  obtain ⟨hvalues, hmore⟩ := h
  simp only [Outcomes.values, Outcomes.notes, List.map_append, List.map_cons, List.map_nil,
    List.append_assoc, List.flatMap_append, List.flatMap_cons, List.flatMap_nil,
    List.append_nil] at hvalues hmore
  refine ⟨hvalues.trans List.perm_middle, ?_⟩
  rw [notes_cons, List.append_assoc]
  exact (hmore.trans List.perm_append_comm).append_left notes

end Outcomes

open Outcomes (Meet Mixed)

section

variable {polling : Polling} {patience : ℕ} {job : Job Progress α} {rest : List (Job Progress α)}
  {finished : List α} {before after : Progress}

theorem pollQueue_of_done {value : α} (hpatience : patience ≠ 0)
    (h : job before = .done after value) :
    pollQueue polling patience (job :: rest) finished before =
      pollQueue polling (polling.patienceAfterDone patience rest.length) rest (value :: finished)
        after := by
  rw [pollQueue, if_neg hpatience]
  split
  · rename_i heq
    cases h.symm.trans heq
    rfl
  · rename_i heq
    cases h.symm.trans heq

theorem pollQueue_of_waiting {later : Job Progress α} (hpatience : patience ≠ 0)
    (h : job before = .waiting after later) :
    pollQueue polling patience (job :: rest) finished before =
      pollQueue polling (patience - 1) (rest ++ ([later] : List (Job Progress α))) finished
        after := by
  rw [pollQueue, if_neg hpatience]
  split
  · rename_i heq
    cases h.symm.trans heq
  · rename_i heq
    cases h.symm.trans heq
    rfl

end

/-- A queue gives the values of its jobs, and adds what they add. -/
theorem gives_pollQueue (polling : Polling) (patience : ℕ) (queue : List (Job Progress α))
    (finished : List α) (before : Progress) (claims : List (Claim α))
    (h : List.Forall₂ Gives queue claims) :
    (pollQueue polling patience queue finished before).Gives
      (fun values added => ∃ outcomes, Meet claims outcomes ∧
        Outcomes.Mixed outcomes finished values added) before := by
  induction patience, queue, finished, before using pollQueue.induct polling
      generalizing claims with
  | case1 patience finished before =>
      obtain rfl := List.forall₂_nil_left_iff.mp h
      rw [pollQueue]
      exact ⟨[], ⟨rfl, rfl⟩, [], .nil, .refl _, .refl _⟩
  | case2 finished before job rest ih =>
      rw [pollQueue]
      exact ⟨[], ⟨rfl, rfl⟩, fun state => ih state claims h⟩
  | case3 patience finished before job rest hpatience after value hjob ih =>
      obtain ⟨claim, others, hclaim, hrest, rfl⟩ := List.forall₂_cons_left_iff.mp h
      obtain ⟨notes, hadds, hvalue⟩ : ∃ notes, before.Adds notes after ∧ claim value notes := by
        have hgives := hclaim before
        rwa [hjob] at hgives
      rw [pollQueue_of_done hpatience hjob]
      refine Step.Gives.of_after hadds ((ih others hrest).mono ?_)
      rintro values more ⟨outcomes, hmeet, hmixed⟩
      exact ⟨(value, notes) :: outcomes, .cons hvalue hmeet, hmixed.cons_of_done⟩
  | case4 patience finished before job rest hpatience after later hjob ih =>
      obtain ⟨claim, others, hclaim, hrest, rfl⟩ := List.forall₂_cons_left_iff.mp h
      obtain ⟨notes, hadds, hlater⟩ :
          ∃ notes, before.Adds notes after ∧ Gives later (claim.after notes) := by
        have hgives := hclaim before
        rwa [hjob] at hgives
      rw [pollQueue_of_waiting hpatience hjob]
      have hqueue : List.Forall₂ Gives (rest ++ ([later] : List (Job Progress α))) (others ++ [claim.after notes]) :=
        List.rel_append hrest (.cons hlater .nil)
      refine Step.Gives.of_after hadds ((ih _ hqueue).mono ?_)
      rintro values more ⟨outcomes, hmeet, hmixed⟩
      -- The job that had to wait stands last among the outcomes, and goes back to the front.
      obtain ⟨front, back, hfront, hback, rfl⟩ : ∃ front back, Meet others front ∧
          Meet [claim.after notes] back ∧ outcomes = front ++ back := by
        have hlength := hmeet.length_eq
        refine ⟨outcomes.take others.length, outcomes.drop others.length, ?_, ?_,
          (List.take_append_drop _ _).symm⟩
        · have := List.forall₂_take others.length hmeet
          rwa [List.take_left] at this
        · have := List.forall₂_drop others.length hmeet
          rwa [List.drop_left] at this
      obtain ⟨outcome, _, hvalue, hnil, rfl⟩ := List.forall₂_cons_left_iff.mp hback
      obtain rfl := List.forall₂_nil_left_iff.mp hnil
      exact ⟨(outcome.1, notes ++ outcome.2) :: front, .cons hvalue hfront,
        hmixed.cons_of_waiting⟩

/-- What is claimed of a value that comes with a number. -/
def Claim.numbered (claim : Claim α) (i : ℕ) : Claim (ℕ × α) :=
  fun value notes => value.1 = i ∧ claim value.2 notes

theorem gives_numbered {jobs : List (Job Progress α)} {claims : List (Claim α)}
    (h : List.Forall₂ Gives jobs claims) (start : ℕ) :
    List.Forall₂ Gives
      ((jobs.zipIdx start).map fun (job, i) => do return (i, ← job))
      ((claims.zipIdx start).map fun (claim, i) => Claim.numbered claim i) := by
  induction h generalizing start with
  | nil => exact .nil
  | cons hgives _ ih =>
      refine .cons (hgives.bind fun value notes hclaim => gives_pure ?_) (ih (start + 1))
      rw [Claim.after, List.append_nil]
      exact ⟨rfl, hclaim⟩

/-- Outcomes that come with their numbers are those of the claims, in order. -/
theorem meet_of_numbered {claims : List (Claim α)} {start : ℕ} {outcomes : Outcomes (ℕ × α)}
    (h : Meet ((claims.zipIdx start).map fun (claim, i) => Claim.numbered claim i) outcomes) :
    Meet claims (outcomes.map fun outcome => (outcome.1.2, outcome.2)) ∧
      outcomes.values.map (·.1) = List.range' start claims.length := by
  induction claims generalizing start outcomes with
  | nil =>
      obtain rfl := List.forall₂_nil_left_iff.mp h
      exact ⟨.nil, rfl⟩
  | cons claim claims ih =>
      obtain ⟨outcome, rest, ⟨hnumber, hclaim⟩, hrest, rfl⟩ := List.forall₂_cons_left_iff.mp h
      obtain ⟨hmeet, hnumbers⟩ := ih hrest
      refine ⟨.cons hclaim hmeet, ?_⟩
      rw [Outcomes.values_cons, List.map_cons, hnumber, hnumbers, List.length_cons,
        List.range'_succ]

/-- Values with different numbers are put in order by sorting them. -/
theorem mergeSort_eq_of_numbers {start n : ℕ} {values sorted : List (ℕ × α)}
    (hnumbers : sorted.map (·.1) = List.range' start n) (hperm : values.Perm sorted) :
    values.mergeSort (fun a b => a.1 ≤ b.1) = sorted := by
  have hnodup : (sorted.map (·.1)).Nodup := hnumbers ▸ List.nodup_range'
  have hsorted : sorted.Pairwise fun a b => a.1 ≤ b.1 := by
    have hlt : (sorted.map (·.1)).Pairwise (· < ·) := hnumbers ▸ List.pairwise_lt_range'
    exact (List.pairwise_map.mp hlt).imp Nat.le_of_lt
  have hmerged : (values.mergeSort fun a b => a.1 ≤ b.1).Pairwise fun a b => a.1 ≤ b.1 := by
    refine (List.pairwise_mergeSort ?_ ?_ values).imp of_decide_eq_true
    · intro a b c hab hbc
      simp only [decide_eq_true_eq] at hab hbc ⊢
      exact hab.trans hbc
    · intro a b
      simp only [Bool.or_eq_true, decide_eq_true_eq]
      exact Nat.le_total a.1 b.1
  have hmergedPerm := (List.mergeSort_perm values fun a b => a.1 ≤ b.1).trans hperm
  refine hmergedPerm.eq_of_pairwise ?_ hmerged hsorted
  intro a b ha hb hab hba
  exact List.inj_on_of_nodup_map hnodup (hmergedPerm.mem_iff.mp ha) hb (Nat.le_antisymm hab hba)

/-- Jobs side by side give all their values, in their order, and add what each of them adds. -/
theorem gives_all (polling : Polling) {jobs : List (Job Progress α)} {claims : List (Claim α)}
    (h : List.Forall₂ Gives jobs claims) :
    (all polling jobs).Gives fun values added => ∃ outcomes : Outcomes α, Meet claims outcomes ∧
      values = outcomes.values ∧ added.Perm outcomes.notes := by
  refine Gives.bind (fun before => gives_pollQueue _ _ _ _ before _ (gives_numbered h 0)) ?_
  rintro finished added ⟨outcomes, hmeet, hvalues, hadded⟩
  obtain ⟨hclaims, hnumbers⟩ := meet_of_numbered hmeet
  rw [List.append_nil] at hvalues
  refine gives_pure ⟨_, hclaims, ?_, ?_⟩
  · rw [mergeSort_eq_of_numbers hnumbers hvalues, Outcomes.values, Outcomes.values, List.map_map,
      List.map_map]
    rfl
  · rw [List.append_nil, Outcomes.notes, List.flatMap_map]
    exact hadded

/-- All jobs of a group get done, and the first error in their order counts. -/
theorem gives_sideBySide {ε : Type} (size : ℕ) {jobs : List (Job Progress (Except ε α))}
    {claims : List (Claim (Except ε α))} (h : List.Forall₂ Gives jobs claims) :
    (sideBySide size jobs).Gives fun result added => ∃ outcomes : Outcomes (Except ε α),
      Meet claims outcomes ∧ result = outcomes.values.mapM id ∧ added.Perm outcomes.notes := by
  refine (gives_all _ h).bind ?_
  rintro _ added ⟨outcomes, hmeet, rfl, hadded⟩
  refine gives_pure ⟨outcomes, hmeet, rfl, ?_⟩
  rwa [List.append_nil]

/-! ## Jobs in turn -/

/-- The outcomes of the first jobs, up to one that failed or to the last. -/
inductive MeetInTurn {ε : Type} : List (Claim (Except ε α)) → Outcomes (Except ε α) → Prop where
  | nil : MeetInTurn [] []
  | failed {claim : Claim (Except ε α)} {rest : List (Claim (Except ε α))} {e : ε}
      {notes : List Note} (h : claim (.error e) notes) :
      MeetInTurn (claim :: rest) [(.error e, notes)]
  | cons {claim : Claim (Except ε α)} {rest : List (Claim (Except ε α))} {value : α}
      {notes : List Note} {outcomes : Outcomes (Except ε α)} (h : claim (.ok value) notes)
      (hrest : MeetInTurn rest outcomes) :
      MeetInTurn (claim :: rest) ((.ok value, notes) :: outcomes)

/-- Of jobs in turn each adds all that it adds before the next one starts. -/
theorem gives_inTurn {ε : Type} {jobs : List (Job Progress (Except ε α))}
    {claims : List (Claim (Except ε α))} (h : List.Forall₂ Gives jobs claims) :
    (inTurn jobs).Gives fun result added => ∃ outcomes : Outcomes (Except ε α),
      MeetInTurn claims outcomes ∧ result = outcomes.values.mapM id ∧ added = outcomes.notes := by
  induction h with
  | nil => exact gives_pure ⟨[], .nil, rfl, rfl⟩
  | cons hgives _ ih =>
      refine hgives.bind fun result notes hclaim => ?_
      cases result with
      | error e =>
          exact gives_pure ⟨[(.error e, notes)], .failed hclaim, rfl, rfl⟩
      | ok value =>
          refine ih.bind ?_
          rintro _ more ⟨outcomes, hmeet, rfl, rfl⟩
          have hmapM : (Outcomes.values ((.ok value, notes) :: outcomes)).mapM id =
              (outcomes.values.mapM id).map (value :: ·) :=
            mapM_id_ok_cons value outcomes.values
          cases hrest : outcomes.values.mapM id with
          | error e =>
              rw [hrest] at hmapM
              refine gives_pure ⟨_, .cons hclaim hmeet, hmapM.symm, ?_⟩
              simp [Outcomes.notes]
          | ok values =>
              rw [hrest] at hmapM
              refine gives_pure ⟨_, .cons hclaim hmeet, hmapM.symm, ?_⟩
              simp [Outcomes.notes]

end Job

end GraphQL
