import GraphQL.Proofs.Execution.Endings

/-!
# The outcome does not depend on the schedule

How long a call of the host takes decides which job goes on when, and so in what order errors are
noted and the memory is changed.  If the outcomes of calls do not depend on the memory, nothing
else depends on it: the parts of a response end with the same results, and the same errors in
some order (`Ends.deterministic`).  Hence executions that only differ in how long the calls take
have the same data, with all keys in the same order, and the same errors up to their order
(`data_eq_and_errors_perm_of_delays`).
-/

namespace GraphQL

/-! ## Delays -/

/-- The same calls, each with a number of polls until the outcome is there.  The number may depend
on whatever the call is told, and on the memory at that time. -/
def HostCall.delayed (delay : ResolveParams → Json → ℕ) (call : HostCall) : HostCall :=
  fun params memory =>
    ({ (call params memory).1 with pendings := delay params memory }, (call params memory).2)

/-- The same schema, with calls that take as long as `delay` says. -/
def Schema.withDelays (schema : Schema) (delay : ResolveParams → Json → ℕ) : Schema :=
  schema.mapCalls (HostCall.delayed delay)

theorem repliesAlike_delayed (delay : ResolveParams → Json → ℕ) :
    Setting.RepliesAlike (HostCall.delayed delay) :=
  ⟨fun _ _ _ => rfl, fun _ _ _ => rfl⟩

/-- The outcome of the field depends on nothing but what its resolver is told. -/
def FieldDef.IsMemoryFree (d : FieldDef) : Prop :=
  ∀ call, d.resolver = some (.host call) → ∀ params memory other,
    (call params memory).1.outcome = (call params other).1.outcome

/-- The outcomes of all fields depend on nothing but what their resolvers are told. -/
def Schema.IsMemoryFree (schema : Schema) : Prop :=
  ∀ typeName t fieldName d, schema.type? typeName = some t → t.field? fieldName = some d →
    d.IsMemoryFree

/-- A field that can be selected is declared, or it is a field of introspection. -/
theorem Schema.field?_or_of_fieldDef? {schema : Schema} {t : TypeDef} {name : String}
    {d : FieldDef} (h : schema.fieldDef? t name = some d) :
    t.field? name = some d ∨ ∃ field, d.resolver = some (.introspection field) := by
  simp only [Schema.fieldDef?] at h
  split at h
  · cases h
    exact .inr ⟨_, rfl⟩
  split at h
  · cases h
    exact .inr ⟨_, rfl⟩
  split at h
  · cases h
    exact .inr ⟨_, rfl⟩
  · exact .inl h

theorem Schema.isMemoryFree_of_forall {schema : Schema}
    (h : ∀ entry ∈ schema.types, ∀ field ∈ entry.2.fields?.getD [], field.2.IsMemoryFree) :
    schema.IsMemoryFree := by
  intro typeName t fieldName d ht hd
  obtain ⟨table, htable, hget⟩ := Option.bind_eq_some_iff.mp hd
  have hfield := h _ (Assoc.mem_of_get? ht) (fieldName, d)
  rw [htable] at hfield
  exact hfield (Assoc.mem_of_get? hget)

theorem Schema.IsMemoryFree.fieldDef? {schema : Schema} {t : TypeDef} {typeName name : String}
    {d : FieldDef} (h : schema.IsMemoryFree) (ht : schema.type? typeName = some t)
    (hd : schema.fieldDef? t name = some d) : d.IsMemoryFree := by
  rcases Schema.field?_or_of_fieldDef? hd with hfield | ⟨field, hmeta⟩
  · exact h typeName t name d ht hfield
  · intro call hcall
    cases hmeta.symm.trans hcall

/-- The outcomes of all fields in a part depend on nothing but what their resolvers are told. -/
def Task.IsMemoryFree : Task → Prop
  | .field _ _ d _ _ => d.IsMemoryFree
  | .orNull _ task => task.IsMemoryFree
  | .value .. | .object .. => True

namespace Setting

variable {setting : Setting} {n m m' : ℕ} {task : Task} {notes notes' : List Note}

/-! ## One step -/

theorem Answers.outcome_eq {d : FieldDef} {params : ResolveParams}
    {outcome outcome' : Except String Json} (hfree : d.IsMemoryFree)
    (h : setting.Answers d params outcome notes) (h' : setting.Answers d params outcome' notes') :
    outcome = outcome' := by
  cases h with
  | plain hd =>
      cases h' with
      | plain => rfl
      | introspection hd' => cases hd.symm.trans hd'
      | host hd' => cases hd.symm.trans hd'
  | introspection hd =>
      cases h' with
      | plain hd' => cases hd.symm.trans hd'
      | introspection hd' =>
          cases hd.symm.trans hd'
          rfl
      | host hd' => cases hd.symm.trans hd'
  | host hd memory =>
      cases h' with
      | plain hd' => cases hd.symm.trans hd'
      | introspection hd' => cases hd.symm.trans hd'
      | host hd' memory' =>
          cases hd.symm.trans hd'
          exact hfree _ hd _ _ _

/-- It goes on with a part in one way only. -/
theorem Moves.deterministic {c c' : Continuation} (hfree : task.IsMemoryFree)
    (h : setting.Moves n task notes m c) (h' : setting.Moves n task notes' m' c') :
    m = m' ∧ c = c' := by
  cases h with
  | refused hargs =>
      cases h' with
      | refused hargs' =>
          cases hargs.symm.trans hargs'
          exact ⟨rfl, rfl⟩
      | failed hargs' | resolved hargs' => cases hargs.symm.trans hargs'
  | failed hargs hanswers =>
      cases h' with
      | refused hargs' => cases hargs.symm.trans hargs'
      | failed hargs' hanswers' =>
          cases hargs.symm.trans hargs'
          cases hanswers.outcome_eq hfree hanswers'
          exact ⟨rfl, rfl⟩
      | resolved hargs' hanswers' =>
          cases hargs.symm.trans hargs'
          cases hanswers.outcome_eq hfree hanswers'
  | resolved hargs hanswers =>
      cases h' with
      | refused hargs' => cases hargs.symm.trans hargs'
      | failed hargs' hanswers' =>
          cases hargs.symm.trans hargs'
          cases hanswers.outcome_eq hfree hanswers'
      | resolved hargs' hanswers' =>
          cases hargs.symm.trans hargs'
          cases hanswers.outcome_eq hfree hanswers'
          exact ⟨rfl, rfl⟩
  | null => cases h' <;> simp_all
  | notAList hnull harray => cases h' <;> simp_all
  | items => cases h' <;> simp_all
  | misfit hnull htarget => cases h' <;> simp_all
  | leaf hnull htarget => cases h' <;> simp_all
  | object hnull htarget => cases h' <;> simp_all
  | tooDeep =>
      cases h'
      exact ⟨rfl, rfl⟩
  | wrongObject haccepts => cases h' <;> simp_all
  | members haccepts => cases h' <;> simp_all

theorem isMemoryFree_of_mem_members {parent : TypeDef} {source : Json} {path : List PathSegment}
    {groups : FieldGroups} {part : PathSegment × Task} (hfree : setting.schema.IsMemoryFree)
    (hpart : part ∈ setting.members parent source path groups) : part.2.IsMemoryFree := by
  obtain ⟨⟨key, d, nodes⟩, hmem, rfl⟩ := List.mem_map.mp hpart
  obtain ⟨node, rest, rfl, -, hd⟩ := exists_of_mem_selectedFields hmem
  obtain ⟨t, ht, hd⟩ := Option.bind_eq_some_iff.mp hd
  exact hfree.fieldDef? ht hd

/-- The parts of a part are as free of the memory as the schema. -/
theorem Moves.isMemoryFree_goOn {next : Task}
    (h : setting.Moves n task notes m (.goOn next)) : next.IsMemoryFree := by
  cases h <;> trivial

theorem Moves.isMemoryFree_parts {whole : Whole} {parts : Parts} {part : PathSegment × Task}
    (hfree : setting.schema.IsMemoryFree) (h : setting.Moves n task notes m (.parts whole parts))
    (hpart : part ∈ parts) : part.2.IsMemoryFree := by
  cases h with
  | items =>
      obtain ⟨_, -, rfl⟩ := List.mem_map.mp hpart
      trivial
  | members => exact isMemoryFree_of_mem_members hfree hpart

/-! ## Whole parts -/

/-- Two outcomes with the same result, and the same errors in some order. -/
def SameOutcome (o o' : Completion × List Note) : Prop :=
  o.1 = o'.1 ∧ (Note.errors o.2).Perm (Note.errors o'.2)

theorem values_eq_of_sameOutcome {outcomes outcomes' : Job.Outcomes Completion}
    (h : List.Forall₂ SameOutcome outcomes outcomes') : outcomes.values = outcomes'.values := by
  induction h with
  | nil => rfl
  | cons hsame _ ih => rw [Job.Outcomes.values_cons, Job.Outcomes.values_cons, hsame.1, ih]

theorem errors_perm_of_sameOutcome {outcomes outcomes' : Job.Outcomes Completion}
    (h : List.Forall₂ SameOutcome outcomes outcomes') :
    (Note.errors outcomes.notes).Perm (Note.errors outcomes'.notes) := by
  induction h with
  | nil => exact .refl _
  | cons hsame _ ih =>
      rw [Job.Outcomes.notes_cons, Job.Outcomes.notes_cons, Note.errors_append,
        Note.errors_append]
      exact hsame.2.append ih

/-- Outcomes of the same parts are the same, if each part has only one. -/
theorem forall₂_sameOutcome {parts : Parts} {outcomes outcomes' : Job.Outcomes Completion}
    (hlength : parts.length = outcomes.length) (hlength' : parts.length = outcomes'.length)
    (hsame : ∀ part outcome outcome', (part, outcome) ∈ parts.zip outcomes →
      (part, outcome') ∈ parts.zip outcomes' → SameOutcome outcome outcome') :
    List.Forall₂ SameOutcome outcomes outcomes' := by
  rw [List.forall₂_iff_get]
  refine ⟨hlength.symm.trans hlength', fun i hi hi' => ?_⟩
  have hpart : i < parts.length := hlength ▸ hi
  have hmem : (parts[i], outcomes[i]) ∈ parts.zip outcomes := by
    rw [List.mem_iff_getElem]
    exact ⟨i, by simp; omega, by simp⟩
  have hmem' : (parts[i], outcomes'[i]) ∈ parts.zip outcomes' := by
    rw [List.mem_iff_getElem]
    exact ⟨i, by simp; omega, by simp⟩
  exact hsame _ _ _ hmem hmem'

/-- A part ends in one way only, up to the order of its notes. -/
theorem Ends.deterministic {result result' : Completion} (hschema : setting.schema.IsMemoryFree)
    (hfree : task.IsMemoryFree) (h : setting.Ends n task result notes)
    (h' : setting.Ends n task result' notes') :
    SameOutcome (result, notes) (result', notes') := by
  induction h generalizing result' notes' with
  | done hmoves =>
      cases h' with
      | done hmoves' =>
          obtain ⟨rfl, heq⟩ := hmoves.deterministic hfree hmoves'
          cases heq
          exact ⟨rfl, by rw [hmoves.errors_eq_nil, hmoves'.errors_eq_nil]⟩
      | goOn hmoves' => cases (hmoves.deterministic hfree hmoves').2
      | parts _ hmoves' => cases (hmoves.deterministic hfree hmoves').2
      | orNull => cases hmoves
  | goOn hmoves _ ih =>
      cases h' with
      | done hmoves' => cases (hmoves.deterministic hfree hmoves').2
      | goOn hmoves' hnext' =>
          obtain ⟨rfl, heq⟩ := hmoves.deterministic hfree hmoves'
          cases heq
          have hsame := ih (hmoves.isMemoryFree_goOn) hnext'
          refine ⟨hsame.1, ?_⟩
          simpa [hmoves.errors_eq_nil, hmoves'.errors_eq_nil] using hsame.2
      | parts _ hmoves' => cases (hmoves.deterministic hfree hmoves').2
      | orNull => cases hmoves
  | parts outcomes hmoves hlength _ hmore ih =>
      cases h' with
      | done hmoves' => cases (hmoves.deterministic hfree hmoves').2
      | goOn hmoves' => cases (hmoves.deterministic hfree hmoves').2
      | parts outcomes' hmoves' hlength' hparts' hmore' =>
          obtain ⟨rfl, heq⟩ := hmoves.deterministic hfree hmoves'
          cases heq
          have hsame := forall₂_sameOutcome hlength hlength'
            fun part outcome outcome' hmem hmem' => ih part outcome hmem
              (hmoves.isMemoryFree_parts hschema (List.of_mem_zip hmem).1)
              (hparts' part outcome' hmem')
          refine ⟨?_, ?_⟩
          · rw [assembled, assembled, values_eq_of_sameOutcome hsame]
          · simp only [Note.errors_append, hmoves.errors_eq_nil, hmoves'.errors_eq_nil,
              List.nil_append]
            exact (hmore.filterMap _).trans
              ((errors_perm_of_sameOutcome hsame).trans (hmore'.filterMap _).symm)
      | orNull => cases hmoves
  | orNull _ ih =>
      cases h' with
      | done hmoves' => cases hmoves'
      | goOn hmoves' => cases hmoves'
      | parts _ hmoves' => cases hmoves'
      | orNull hends' =>
          obtain ⟨hresult, herrors⟩ := ih hfree hends'
          dsimp only at hresult herrors
          subst hresult
          refine ⟨rfl, ?_⟩
          rw [Note.errors_append, Note.errors_append]
          exact herrors.append_right _

/-! ## Whole operations -/

theorem forall₂_sameOutcome_of_together {limit : ℕ} {kind : OperationKind} {parts : Parts}
    {outcomes outcomes' : Job.Outcomes Completion} (hschema : setting.schema.IsMemoryFree)
    (hfree : ∀ part ∈ parts, part.2.IsMemoryFree)
    (h : Together kind (parts.map fun part => setting.Ends limit part.2) outcomes notes)
    (h' : Together kind (parts.map fun part => setting.Ends limit part.2) outcomes' notes') :
    List.Forall₂ SameOutcome outcomes outcomes' ∧
      notes.Perm outcomes.notes ∧ notes'.Perm outcomes'.notes := by
  cases kind with
  | mutation =>
      obtain ⟨hmeet, rfl⟩ := h
      obtain ⟨hmeet', rfl⟩ := h'
      refine ⟨?_, .refl _, .refl _⟩
      induction parts generalizing outcomes outcomes' with
      | nil =>
          cases hmeet
          cases hmeet'
          exact .nil
      | cons part parts ih =>
          have hpart := hfree part List.mem_cons_self
          cases hmeet with
          | failed hends =>
              cases hmeet' with
              | failed hends' => exact .cons (hends.deterministic hschema hpart hends') .nil
              | cons hends' => cases (hends.deterministic hschema hpart hends').1
          | cons hends hrest =>
              cases hmeet' with
              | failed hends' => cases (hends.deterministic hschema hpart hends').1
              | cons hends' hrest' =>
                  exact .cons (hends.deterministic hschema hpart hends')
                    (ih (fun part hmem => hfree part (List.mem_cons_of_mem _ hmem)) hrest hrest')
  | query | subscription =>
      obtain ⟨hmeet, hnotes⟩ := h
      obtain ⟨hmeet', hnotes'⟩ := h'
      obtain ⟨hlength, hparts⟩ := List.forall₂_iff_zip.mp (List.forall₂_map_left_iff.mp hmeet)
      obtain ⟨hlength', hparts'⟩ := List.forall₂_iff_zip.mp (List.forall₂_map_left_iff.mp hmeet')
      refine ⟨forall₂_sameOutcome hlength hlength' ?_, hnotes, hnotes'⟩
      intro part outcome outcome' hmem hmem'
      exact (hparts hmem).deterministic hschema (hfree part (List.of_mem_zip hmem).1)
        (hparts' hmem')

/-- An operation ends in one way only, up to the order of its notes. -/
theorem RootEnds.deterministic {limit : ℕ} {rootType : TypeDef} {data data' : Json}
    (hschema : setting.schema.IsMemoryFree) (h : setting.RootEnds limit rootType data notes)
    (h' : setting.RootEnds limit rootType data' notes') :
    data = data' ∧ (Note.errors notes).Perm (Note.errors notes') := by
  cases h with
  | @settle outcomes notes htogether =>
  cases h' with
  | @settle outcomes' notes' htogether' =>
  obtain ⟨hsame, hnotes, hnotes'⟩ := forall₂_sameOutcome_of_together hschema
    (fun part hmem => isMemoryFree_of_mem_members hschema hmem) htogether htogether'
  have hassembled : assembled .object (setting.rootParts rootType) outcomes =
      assembled .object (setting.rootParts rootType) outcomes' := by
    rw [assembled, assembled, values_eq_of_sameOutcome hsame]
  refine ⟨by rw [hassembled], ?_⟩
  rw [Note.errors_append, Note.errors_append, hassembled]
  refine List.Perm.append_right _ ?_
  exact (hnotes.filterMap _).trans ((errors_perm_of_sameOutcome hsame).trans
    (hnotes'.filterMap _).symm)

end Setting

namespace Document

variable {document : Document} {schema : Schema} {input : ExecutionInput}

/-- An execution that does not get to resolve a field knows nothing of the calls. -/
theorem executeWithin_mapCalls_of_not_started {h : HostCall → HostCall} {limit : ℕ}
    (hstart : ∀ operation bindings rootType,
      document.chooseOperation input.operationName = .ok operation →
      Variables.coerce schema operation.variableDefinitions input.variableValues = .ok bindings →
      schema.rootType? operation.operation ≠ some rootType) :
    document.executeWithin limit (schema.mapCalls h) input =
      document.executeWithin limit schema input := by
  unfold executeWithin
  cases hoperation : document.chooseOperation input.operationName with
  | error fault => rfl
  | ok operation =>
      simp only [Variables.coerce_mapCalls]
      cases hbindings : Variables.coerce schema operation.variableDefinitions
        input.variableValues with
      | error errors => rfl
      | ok bindings =>
          have hroot : schema.rootType? operation.operation = none :=
            Option.eq_none_iff_forall_ne_some.mpr fun rootType =>
              hstart operation bindings rootType hoperation hbindings
          simp only [Execution.ofSetting, Schema.rootType?_mapCalls, hroot, Option.map_none]

/-- However long the calls of the host take, the data are the same, and the errors are the same
up to their order. -/
theorem data_eq_and_errors_perm_of_delays (limit : ℕ) (schema : Schema) (document : Document)
    (input : ExecutionInput) (delay delay' : ResolveParams → Json → ℕ)
    (hfree : schema.IsMemoryFree) :
    (document.executeWithin limit (schema.withDelays delay) input).response.data =
        (document.executeWithin limit (schema.withDelays delay') input).response.data ∧
      (document.executeWithin limit (schema.withDelays delay) input).response.errors.Perm
        (document.executeWithin limit (schema.withDelays delay') input).response.errors := by
  by_cases hstart : ∃ operation bindings rootType,
      document.chooseOperation input.operationName = .ok operation ∧
      Variables.coerce schema operation.variableDefinitions input.variableValues = .ok bindings ∧
      schema.rootType? operation.operation = some rootType
  · obtain ⟨operation, bindings, rootType, hoperation, hbindings, hroot⟩ := hstart
    obtain ⟨data, notes, hends, heq⟩ :=
      exists_rootEnds_mapCalls (repliesAlike_delayed delay) limit hoperation hbindings hroot
    obtain ⟨data', notes', hends', heq'⟩ :=
      exists_rootEnds_mapCalls (repliesAlike_delayed delay') limit hoperation hbindings hroot
    obtain ⟨rfl, herrors⟩ := hends.deterministic hfree hends'
    rw [Schema.withDelays, Schema.withDelays, heq, heq']
    exact ⟨rfl, herrors.map _⟩
  · push Not at hstart
    rw [Schema.withDelays, Schema.withDelays, executeWithin_mapCalls_of_not_started hstart,
      executeWithin_mapCalls_of_not_started hstart]
    exact ⟨rfl, .refl _⟩

/-! ### An example -/

/-- A call that counts in the memory how often it is made, and only answers what it was asked. -/
def echo : HostCall := fun params memory =>
  ({ outcome := .ok (.string params.info.fieldName) }, .array [memory])

/-- A call that counts in the same memory, and fails. -/
def refuse : HostCall := fun params memory =>
  ({ outcome := .error params.info.fieldName }, .array [memory])

def echoType : TypeDef where
  name := "Query"
  origin := .host 0
  body := .object { fields := [
    ("a", { name := "a", type := .named Scalar.stringName true, resolver := some (.host refuse) }),
    ("b", { name := "b", type := .named Scalar.stringName true, resolver := some (.host echo) })] }

def echoSchema : Schema where
  directives := []
  queryType := echoType
  mutationType := none
  subscriptionType := none
  types := [("Query", echoType)]
  possible := []

theorem isMemoryFree_echoSchema : echoSchema.IsMemoryFree := by
  refine Schema.isMemoryFree_of_forall ?_
  simp only [echoSchema, echoType, TypeDef.fields?, Option.getD_some, List.forall_mem_cons,
    List.not_mem_nil, false_imp_iff, implies_true, and_true]
  constructor
  · rintro call ⟨⟩ params memory other
    rfl
  · rintro call ⟨⟩ params memory other
    rfl

/-- Both fields of the type, side by side. -/
def echoOperation : OperationDefinition where
  operation := .query
  name := none
  variableDefinitions := []
  directives := []
  selectionSet := ⟨["a", "b"].map fun name => .field {
    responseName := none
    name := ⟨name, none⟩
    arguments := []
    directives := []
    selectionSet := none }, none⟩

def echoDocument : Document where
  definitions := [.operation echoOperation]

/-- The first field takes longer than the second, or the other way around. -/
theorem data_eq_of_either_first :
    echoSchema.IsMemoryFree ∧
      (echoDocument.executeWithin 1 (echoSchema.withDelays fun params _ =>
          if params.info.fieldName = "a" then 3 else 0) {}).response.data =
        (echoDocument.executeWithin 1 (echoSchema.withDelays fun params _ =>
          if params.info.fieldName = "a" then 0 else 2) {}).response.data ∧
      (echoDocument.executeWithin 1 (echoSchema.withDelays fun params _ =>
          if params.info.fieldName = "a" then 3 else 0) {}).response.errors.Perm
        (echoDocument.executeWithin 1 (echoSchema.withDelays fun params _ =>
          if params.info.fieldName = "a" then 0 else 2) {}).response.errors :=
  ⟨isMemoryFree_echoSchema, data_eq_and_errors_perm_of_delays 1 echoSchema echoDocument {} _ _
    isMemoryFree_echoSchema⟩

end Document

end GraphQL
