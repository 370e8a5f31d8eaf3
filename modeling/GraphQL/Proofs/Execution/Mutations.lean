import GraphQL.Proofs.Execution.Nulls

/-!
# Mutations

The root fields of a mutation are resolved in turn: while a resolver of one of them is called,
all that belongs to earlier ones is over, and each resolver that was called for them has finished
(`mutation_takes_turns`).  Below a root field resolvers are called side by side, as in a query, so
that what belongs to one root field is a part of the history in which as many calls have finished
as were made (`Ends.balanced`).  After a root field without a value nothing is resolved any more.
-/

namespace GraphQL

/-! ## Calls that have finished -/

namespace Event

/-- The event is a call of a resolver for a place. -/
def isCallAt (path : List PathSegment) : Event → Bool
  | called params => params.info.path = path
  | _ => false

/-- The event is the end of a call of a resolver for a place. -/
def isFinishAt (path : List PathSegment) : Event → Bool
  | finished place _ => place = path
  | _ => false

theorem path_of_isCallAt {path : List PathSegment} {event : Event} (h : event.isCallAt path = true) :
    event.path = path := by
  cases event with
  | called params => exact of_decide_eq_true h
  | finished | completing => cases h

theorem path_of_isFinishAt {path : List PathSegment} {event : Event}
    (h : event.isFinishAt path = true) : event.path = path := by
  cases event with
  | finished place label => exact of_decide_eq_true h
  | called | completing => cases h

/-- For each place as many calls have finished as were made. -/
def Balanced (events : List Event) : Prop :=
  ∀ path, events.countP (isCallAt path) = events.countP (isFinishAt path)

theorem balanced_nil : Balanced [] := fun _ => rfl

theorem Balanced.append {events more : List Event} (h : Balanced events) (hmore : Balanced more) :
    Balanced (events ++ more) := by
  intro path
  rw [List.countP_append, List.countP_append, h path, hmore path]

theorem Balanced.perm {events events' : List Event} (h : Balanced events)
    (hperm : events.Perm events') : Balanced events' := by
  intro path
  rw [← hperm.countP_eq, ← hperm.countP_eq]
  exact h path

end Event

open Event (Balanced)

namespace Setting

variable {setting : Setting} {n m : ℕ} {task : Task} {result : Completion} {notes more : List Note}

theorem Answers.balanced {d : FieldDef} {params : ResolveParams} {outcome : Except String Json}
    (h : setting.Answers d params outcome notes) : Balanced (Note.events notes) := by
  cases h with
  | plain => exact Event.balanced_nil
  | introspection | host =>
      intro path
      by_cases hpath : params.info.path = path <;>
        simp [Note.events, Note.event?, Event.isCallAt, Event.isFinishAt, hpath]

theorem Moves.balanced {c : Continuation} (h : setting.Moves n task notes m c) :
    Balanced (Note.events notes) := by
  cases h with
  | failed _ h => exact h.balanced
  | resolved _ h => exact h.balanced
  | refused | tooDeep | wrongObject | members => exact Event.balanced_nil
  | null | notAList | items | misfit | leaf | object => exact fun path => rfl

theorem balanced_notes {outcomes : Job.Outcomes Completion}
    (h : ∀ outcome ∈ outcomes, Balanced (Note.events outcome.2)) :
    Balanced (Note.events outcomes.notes) := by
  induction outcomes with
  | nil => exact Event.balanced_nil
  | cons outcome outcomes ih =>
      rw [Job.Outcomes.notes_cons, Note.events_append]
      have hrest := ih fun outcome hmem => h outcome (List.mem_cons_of_mem _ hmem)
      exact (h outcome List.mem_cons_self).append hrest

/-- When a part has ended, each resolver that was called for it has finished. -/
theorem Ends.balanced (h : setting.Ends n task result notes) : Balanced (Note.events notes) := by
  induction h with
  | done hmoves => exact hmoves.balanced
  | goOn hmoves _ ih =>
      rw [Note.events_append]
      exact hmoves.balanced.append ih
  | parts outcomes hmoves hlength _ hmore ih =>
      have hnotes : Balanced (Note.events outcomes.notes) := by
        refine balanced_notes fun outcome hmem => ?_
        obtain ⟨i, hi, rfl⟩ := List.mem_iff_getElem.mp hmem
        exact ih _ _ (List.mem_iff_getElem.mpr ⟨i, by simp; omega, List.getElem_zip⟩)
      rw [Note.events_append]
      exact hmoves.balanced.append (hnotes.perm (hmore.filterMap _).symm)
  | @orNull n type task result notes _ ih =>
      rw [Note.events_append, events_contained, List.append_nil]
      exact ih

/-! ## One root field after the other -/

variable (setting) in
/-- The fields that the operation selects of its root type, by their keys. -/
def rootFields (rootType : TypeDef) : List (String × FieldDef × List Field) :=
  setting.selectedFields rootType (setting.groupsOf rootType [setting.operation.selectionSet])

variable (setting) in
/-- A root field as a part of the response. -/
def rootPart (rootType : TypeDef) (field : String × FieldDef × List Field) : PathSegment × Task :=
  (.key field.1, .orNull field.2.1.type
    (.field rootType setting.rootValue field.2.1 field.2.2 [.key field.1]))

variable (setting) in
/-- The job of a root field. -/
def rootJob (limit : ℕ) (rootType : TypeDef) (field : String × FieldDef × List Field) :
    Running Completion :=
  setting.resolveField (setting.completeObject limit) rootType setting.rootValue field.2.1 field.2.2
    [.key field.1]

theorem rootParts_eq (rootType : TypeDef) :
    setting.rootParts rootType = (setting.rootFields rootType).map (setting.rootPart rootType) :=
  rfl

variable {limit : ℕ} {rootType : TypeDef}
  {fields : List (String × FieldDef × List Field)} {outcomes : Job.Outcomes Completion}

/-- What is noted for some root fields belongs to one of them. -/
theorem exists_of_mem_notes {note : Note}
    (hmeet : Job.MeetInTurn
      (fields.map fun field => setting.Ends limit (setting.rootPart rootType field).2) outcomes)
    (hnote : note ∈ outcomes.notes) : ∃ key ∈ fields.map (·.1), [.key key] <+: note.path := by
  have hfound : setting.Found limit (fields.map (setting.rootPart rootType)) outcomes
      outcomes.notes := found_of_meetInTurn (by rwa [List.map_map])
  obtain ⟨part, outcome, hmem, hnote⟩ := hfound.mem_iff.mp hnote
  obtain ⟨field, hfield, rfl⟩ := List.mem_map.mp (List.of_mem_zip hmem).1
  have hbelow := (hfound.ends _ outcome hmem).isBelow.notes note hnote
  exact ⟨field.1, List.mem_map_of_mem hfield, hbelow⟩

/-- Two keys lead to different places. -/
theorem key_eq_of_above {key key' : String} {below : List PathSegment}
    (h : [.key key] <+: below) (h' : [.key key'] <+: below) : key = key' := by
  obtain ⟨rest, rfl⟩ := h
  obtain ⟨rest', heq⟩ := h'
  cases heq
  rfl

end Setting

/-- The history at a time when a resolver is called: what belongs to the key is over, and each
resolver that was called for it has finished. -/
structure Event.Over (key : String) (before after : List Event) : Prop where
  none : ∀ event ∈ after, ¬ [.key key] <+: event.path
  finished : ∀ path, [.key key] <+: path →
    before.countP (isCallAt path) = before.countP (isFinishAt path)

namespace Event

variable {key : String} {events more : List Event}

/-- Where all calls have finished, they still have when something else has happened. -/
theorem finished_append {path : List PathSegment} (h : Balanced events)
    (hmore : ∀ event ∈ more, ¬ [.key key] <+: event.path) (hpath : [.key key] <+: path) :
    (events ++ more).countP (isCallAt path) = (events ++ more).countP (isFinishAt path) := by
  have hcalls : more.countP (isCallAt path) = 0 :=
    List.countP_eq_zero.mpr fun event hmem hcall =>
      hmore event hmem (path_of_isCallAt hcall ▸ hpath)
  have hfinishes : more.countP (isFinishAt path) = 0 :=
    List.countP_eq_zero.mpr fun event hmem hfinish =>
      hmore event hmem (path_of_isFinishAt hfinish ▸ hpath)
  rw [List.countP_append, List.countP_append, h path, hcalls, hfinishes]

theorem Over.append_left {before after : List Event} (h : Over key before after)
    (hmore : Balanced more) : Over key (more ++ before) after := by
  refine ⟨h.none, fun path hpath => ?_⟩
  rw [List.countP_append, List.countP_append, hmore path, h.finished path hpath]

end Event

namespace Setting

open Event (Over)

variable {setting : Setting} {limit : ℕ} {rootType : TypeDef}
  {fields : List (String × FieldDef × List Field)} {outcomes : Job.Outcomes Completion}

theorem exists_split_of_not_mem {α : Type} {xs ys before after : List α} {x : α}
    (h : xs ++ ys = before ++ x :: after) (hx : x ∉ xs) :
    ∃ middle, before = xs ++ middle ∧ ys = middle ++ x :: after := by
  rcases List.append_eq_append_iff.mp h with ⟨middle, hbefore, hys⟩ | ⟨middle, hxs, hafter⟩
  · exact ⟨middle, hbefore, hys⟩
  · cases middle with
    | nil => exact ⟨[], by simpa using hxs.symm, by simpa using hafter.symm⟩
    | cons y middle =>
        obtain ⟨rfl, -⟩ := List.cons.inj hafter
        exact absurd (hxs ▸ by simp) hx

/-- When a resolver is called for a root field, what belongs to an earlier one is over. -/
theorem over_of_split {before after : List Event} {params : ResolveParams} {earlier later : String}
    (hmeet : Job.MeetInTurn
      (fields.map fun field => setting.Ends limit (setting.rootPart rootType field).2) outcomes)
    (hkeys : (fields.map (·.1)).Nodup)
    (hevents : Note.events outcomes.notes = before ++ .called params :: after)
    (horder : [earlier, later].Sublist (fields.map (·.1)))
    (hlater : [.key later] <+: params.info.path) : Over earlier before after := by
  induction fields generalizing outcomes before with
  | nil => cases horder
  | cons field fields ih =>
      obtain ⟨hfresh, hkeys⟩ := List.nodup_cons.mp hkeys
      have hmem : later ∈ fields.map (·.1) := by
        cases horder with
        | cons _ h => exact h.subset (by simp)
        | cons_cons _ h => exact h.subset (by simp)
      -- The call does not belong to the first field, so it comes after all that does.
      have hseg {notes : List Note} {result : Completion}
          (hends : setting.Ends limit (setting.rootPart rootType field).2 result notes) :
          .called params ∉ Note.events notes := by
        intro hcalled
        have hbelow := hends.isBelow.notes _ (Note.mem_events_iff.mp hcalled)
        obtain rfl : later = field.1 := key_eq_of_above hlater hbelow
        exact hfresh hmem
      cases hmeet with
      | failed hends =>
          rw [Job.Outcomes.notes_cons, Note.events_append] at hevents
          obtain ⟨before', -, hafter⟩ := exists_split_of_not_mem hevents (hseg hends)
          exact absurd hafter (by simp [Job.Outcomes.notes, Note.events])
      | @cons _ _ value notes outcomes hends hrest =>
          rw [Job.Outcomes.notes_cons, Note.events_append] at hevents
          obtain ⟨before', rfl, hafter⟩ := exists_split_of_not_mem hevents (hseg hends)
          have hbalanced := hends.balanced
          cases horder with
          | cons _ h => exact (ih hrest hkeys hafter h).append_left hbalanced
          | cons_cons _ h =>
              have hother : ∀ event ∈ before' ++ .called params :: after,
                  ¬ [.key field.1] <+: event.path := by
                intro event hevent habove
                rw [← hafter] at hevent
                obtain ⟨key, hkey, hbelow⟩ :=
                  exists_of_mem_notes hrest (Note.mem_events_iff.mp hevent)
                obtain rfl : field.1 = key := key_eq_of_above habove hbelow
                exact hfresh hkey
              refine ⟨fun event hevent => hother event ?_, fun path hpath => ?_⟩
              · exact List.mem_append_right _ (List.mem_cons_of_mem _ hevent)
              · refine Event.finished_append hbalanced (fun event hevent => hother event ?_) hpath
                exact List.mem_append_left _ hevent

/-! ## After a field without a value -/

theorem run_inTurn_of_failed {σ α ε : Type} {done later : List (Job σ (Except ε α))}
    {failed : Job σ (Except ε α)} {before between after : σ} {values : List α} {e : ε}
    (hdone : (Job.inTurn done).run before = (.ok values, between))
    (hfailed : failed.run between = (.error e, after)) :
    (Job.inTurn (done ++ failed :: later)).run before = (.error e, after) := by
  induction done generalizing before values with
  | nil =>
      obtain ⟨-, rfl⟩ := Prod.mk.inj hdone
      simp [Job.inTurn, hfailed]
  | cons job done ih =>
      simp only [Job.inTurn, Job.run_bind, List.cons_append] at hdone ⊢
      cases hjob : job.run before with
      | mk result next =>
          cases result with
          | error e =>
              simp only [hjob, Job.run_pure] at hdone
              cases hdone
          | ok value =>
              simp only [hjob, Job.run_bind] at hdone ⊢
              cases hrest : (Job.inTurn done).run next with
              | mk rest last =>
                  cases rest with
                  | error e =>
                      simp only [hrest, Job.run_pure] at hdone
                      cases hdone
                  | ok others =>
                      simp only [hrest, Job.run_pure] at hdone
                      cases hdone
                      rw [ih hrest]
                      rfl

theorem run_resolveRoot_of_failed {done later : List (String × FieldDef × List Field)}
    {failed : String × FieldDef × List Field} {before after : Progress} {values : List Json}
    {e : FieldError} (hkind : setting.operation.operation = .mutation)
    (hfields : setting.rootFields rootType = done ++ failed :: later)
    (hdone : (Job.inTurn (done.map (setting.rootJob limit rootType))).run {} = (.ok values, before))
    (hfailed : (setting.rootJob limit rootType failed).run before = (.error e, after)) :
    (setting.resolveRoot limit rootType).run {} =
      (.null, { after with errors := e :: after.errors }) := by
  have hrun : (Job.inTurn ((setting.rootFields rootType).map
      (setting.rootJob limit rootType))).run {} = (.error e, after) := by
    rw [hfields, List.map_append, List.map_cons]
    exact run_inTurn_of_failed hdone hfailed
  have hroot : (setting.resolveFields (setting.completeObject limit)
      (rootOrder setting.operation.operation) rootType setting.rootValue []
      (setting.groupsOf rootType [setting.operation.selectionSet])).run {} = (.error e, after) := by
    rw [hkind, resolveFields]
    refine (Job.run_bind _ _ _).trans ?_
    -- The jobs are those of the root fields, up to how a field is taken apart.
    erw [hrun]
    rfl
  simp only [resolveRoot, Job.run_bind, hroot]
  rfl

/-- The job of a root field gives what the field can end with. -/
theorem gives_rootJob (field : String × FieldDef × List Field) :
    (setting.rootJob limit rootType field).Gives
      (setting.Ends limit (setting.rootPart rootType field).2) := by
  have hgives := @gives_resolveField setting id repliesAlike_id limit _
    (gives_completeObject repliesAlike_id limit) rootType setting.rootValue field.2.1 field.2.2
    [.key field.1]
  rwa [mapCalls_id, TypeDef.mapCalls_id, FieldDef.mapCalls_id] at hgives

/-- Events that were noted before a failure belong to the fields that were resolved before, or to
the one that failed. -/
theorem exists_key_of_failed {done : List (String × FieldDef × List Field)}
    {failed : String × FieldDef × List Field} {before after : Progress} {values : List Json}
    {e : FieldError} {event : Event}
    (hdone : (Job.inTurn (done.map (setting.rootJob limit rootType))).run {} = (.ok values, before))
    (hfailed : (setting.rootJob limit rootType failed).run before = (.error e, after))
    (hevent : event ∈ after.events) :
    ∃ key ∈ (done ++ [failed]).map (·.1), [.key key] <+: event.path := by
  have hrun : (Job.inTurn ((done ++ [failed]).map (setting.rootJob limit rootType))).run {} =
      (.error e, after) := by
    rw [List.map_append]
    exact run_inTurn_of_failed hdone hfailed
  have hjobs : List.Forall₂ Job.Gives ((done ++ [failed]).map (setting.rootJob limit rootType))
      ((done ++ [failed]).map fun field =>
        setting.Ends limit (setting.rootPart rootType field).2) := by
    rw [List.forall₂_map_left_iff, List.forall₂_map_right_iff, List.forall₂_same]
    exact fun field _ => gives_rootJob field
  obtain ⟨notes, ⟨outcomes, hmeet, -, rfl⟩, -, hevents⟩ := (Job.gives_inTurn hjobs).run
  have hnote : .event event ∈ outcomes.notes := by
    rw [← Note.mem_events_iff, ← hevents, hrun]
    exact List.mem_reverse.mpr hevent
  exact exists_of_mem_notes hmeet hnote

end Setting

/-- Calls of resolvers belong to keys, and when a resolver is called, all that belongs to keys
before its own is over. -/
structure Execution.TakesTurns (execution : Execution) (keys : List String) : Prop where
  distinct : keys.Nodup
  root : ∀ params, .called params ∈ execution.events →
    ∃ key ∈ keys, [.key key] <+: params.info.path
  order : ∀ before params after, execution.events = before ++ .called params :: after →
    ∀ earlier later, [earlier, later].Sublist keys → [.key later] <+: params.info.path →
      Event.Over earlier before after

namespace Document

variable {document : Document} {schema : Schema} {input : ExecutionInput}
  {operation : OperationDefinition} {bindings : Json.Members} {rootType : TypeDef}

/-- What the root job of an operation leaves is shown. -/
theorem executeWithin_of_root (limit : ℕ)
    (hoperation : document.chooseOperation input.operationName = .ok operation)
    (hbindings : Variables.coerce schema operation.variableDefinitions input.variableValues =
      .ok bindings)
    (hroot : schema.rootType? operation.operation = some rootType) :
    let run := ((document.setting schema input operation bindings).resolveRoot limit rootType).run {}
    (document.executeWithin limit schema input).response.data = some run.1 ∧
      (document.executeWithin limit schema input).events = run.2.events.reverse := by
  unfold executeWithin
  rw [hoperation]
  simp only [hbindings, Execution.ofSetting, hroot, Execution.inDocument]
  exact ⟨rfl, rfl⟩

/-- The root fields of a mutation are resolved in turn, and none of them after one that has no
value. -/
theorem mutation_takes_turns (limit : ℕ)
    (hoperation : document.chooseOperation input.operationName = .ok operation)
    (hkind : operation.operation = .mutation)
    (hbindings : Variables.coerce schema operation.variableDefinitions input.variableValues =
      .ok bindings)
    (hroot : schema.rootType? .mutation = some rootType) :
    let setting := document.setting schema input operation bindings
    let execution := document.executeWithin limit schema input
    execution.TakesTurns ((setting.rootFields rootType).map (·.1)) ∧
    ∀ done failed later values before e after,
      setting.rootFields rootType = done ++ failed :: later →
      (Job.inTurn (done.map (setting.rootJob limit rootType))).run {} = (.ok values, before) →
      (setting.rootJob limit rootType failed).run before = (.error e, after) →
      failed.2.1.type.isNullable = false ∧ execution.response.data = some .null ∧
        ∀ event ∈ execution.events, ∀ field ∈ later, ¬ [.key field.1] <+: event.path := by
  intro setting execution
  have hroot : schema.rootType? operation.operation = some rootType := hkind ▸ hroot
  have hkeys : ((setting.rootFields rootType).map (·.1)).Nodup :=
    Setting.nodup_keys_selectedFields rootType rootType _
  refine ⟨?_, ?_⟩
  · obtain ⟨data, notes, hends, hexecution⟩ := exists_rootEnds limit hoperation hbindings hroot
    cases hends with
    | @settle outcomes notes htogether =>
        rw [show (document.setting schema input operation bindings).operation.operation = .mutation
          from hkind, Setting.rootParts_eq, List.map_map] at htogether
        obtain ⟨hmeet, rfl⟩ := htogether
        have hevents : execution.events = Note.events outcomes.notes := by
          have happend := congrArg Execution.events hexecution
          rwa [Note.events_append, Setting.events_settled, List.append_nil] at happend
        refine ⟨hkeys, fun params hcalled => ?_, fun before params after hsplit => ?_⟩
        · rw [hevents] at hcalled
          exact Setting.exists_of_mem_notes hmeet (Note.mem_events_iff.mp hcalled)
        · intro earlier later horder hlater
          exact Setting.over_of_split hmeet hkeys (hevents ▸ hsplit) horder hlater
  · intro done failed later values before e after hfields hdone hfailed
    obtain ⟨hdata, hevents⟩ := executeWithin_of_root limit hoperation hbindings hroot
    rw [Setting.run_resolveRoot_of_failed hkind hfields hdone hfailed] at hdata hevents
    refine ⟨?_, hdata, fun event hevent field hfield habove => ?_⟩
    · obtain ⟨notes, -, hends⟩ := (Setting.gives_rootJob failed before).finish
      have hresult := congrArg Prod.fst hfailed
      exact Setting.Ends.isNullable_of_error (hresult ▸ hends)
    · rw [hevents, List.mem_reverse] at hevent
      obtain ⟨key, hkey, hbelow⟩ := Setting.exists_key_of_failed hdone hfailed hevent
      obtain rfl : field.1 = key := Setting.key_eq_of_above habove hbelow
      rw [hfields, ← List.singleton_append, ← List.append_assoc, List.map_append] at hkeys
      exact List.disjoint_of_nodup_append hkeys hkey (List.mem_map_of_mem hfield)

/-! ### An example -/

/-- The type of two fields, the first of which fails and must not be null. -/
def strictType : TypeDef where
  name := "Mutation"
  origin := .host 0
  body := .object { fields := [
    ("a", { name := "a", type := .named Scalar.stringName false, resolver := some (.host refuse) }),
    ("b", { name := "b", type := .named Scalar.stringName true, resolver := some (.host echo) })] }

def strictSchema : Schema :=
  { echoSchema with mutationType := some strictType, types := [("Mutation", strictType)] }

def strictOperation : OperationDefinition := { echoOperation with operation := .mutation }

def strictDocument : Document where
  definitions := [.operation strictOperation]

/-- The second field is not resolved after the first one has failed. -/
theorem mutation_takes_turns_of_refusal :
    let setting := strictDocument.setting strictSchema {} strictOperation []
    let execution := strictDocument.executeWithin 1 strictSchema {}
    strictDocument.chooseOperation none = .ok strictOperation ∧
      Variables.coerce strictSchema strictOperation.variableDefinitions [] = .ok [] ∧
      strictSchema.rootType? .mutation = some strictType ∧
      execution.TakesTurns ((setting.rootFields strictType).map (·.1)) ∧
      ∃ failed field e after, setting.rootFields strictType = [failed, field] ∧
        (setting.rootJob 1 strictType failed).run {} = (.error e, after) ∧
        execution.response.data = some .null ∧
        ∀ event ∈ execution.events, ¬ [.key field.1] <+: event.path := by
  intro setting execution
  obtain ⟨hturns, hfailed⟩ := @mutation_takes_turns strictDocument strictSchema {} strictOperation []
    strictType 1 rfl rfl rfl rfl
  refine ⟨rfl, rfl, rfl, hturns, _, _, _, _, rfl, rfl, ?_⟩
  obtain ⟨-, hdata, hlater⟩ := hfailed [] _ _ [] {} _ _ rfl rfl rfl
  exact ⟨hdata, fun event hevent => hlater event hevent _ List.mem_cons_self⟩

end Document

end GraphQL
