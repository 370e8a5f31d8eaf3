import GraphQL.Execution.Basic
import GraphQL.Proofs.Execution.Company
import GraphQL.Proofs.Schema.Calls

/-!
# How the parts of a response end

A response is put together of parts (`Task`): fields, values that are completed, and objects.
`Setting.Moves` says what is done first for a part, and what is noted on the way: the part is
done, or it goes on as another one, or it is put together of several parts.  From that
`Setting.Ends` says with which results and notes a part can end.  It knows of no schedule: only
that the notes of parts that are found side by side come in some order, and that a resolver
finds the memory as others have left it.

The jobs of execution keep to it, however they are polled (`gives_completeObject`,
`gives_resolveRoot`), also if other functions resolve the fields that reply with the same
outcomes, but later or earlier (`RepliesAlike`).
-/

namespace GraphQL

/-! ## Parts -/

/-- A part of a response that is still to be found. -/
inductive Task where
  | field (parent : TypeDef) (source : Json) (definition : FieldDef) (nodes : List Field)
    (path : List PathSegment)
  /-- A value that is completed by a type. -/
  | value (info : ResolveInfo) (type : TypeRef) (path : List PathSegment) (value : Json)
  /-- A value that is completed by an object type. -/
  | object (info : ResolveInfo) (objectType : TypeDef) (path : List PathSegment) (value : Json)
  /-- A part in the place of which null may stand if the type allows it. -/
  | orNull (type : TypeRef) (task : Task)

/-- The place of a part in the response. -/
def Task.path : Task → List PathSegment
  | field _ _ _ _ path | value _ _ path _ | object _ _ path _ => path
  | orNull _ task => task.path

/-- What several parts are put together to. -/
inductive Whole where
  | array
  | object

/-- Parts that are found together, each with where it stands in the whole. -/
abbrev Parts := List (PathSegment × Task)

namespace Whole

/-- The value that is put together of the values of its parts. -/
def build : Whole → List (PathSegment × Json) → Json
  | array, parts => .array (parts.map (·.2))
  | object, parts => .object (parts.filterMap fun
    | (.key key, value) => some (key, value)
    | (.index _, _) => none)

theorem build_object_zip (keys : List String) (values : List Json) :
    object.build ((keys.map .key).zip values) = .object (keys.zip values) := by
  rw [build, List.zip_map_left, List.filterMap_map]
  congr 1
  exact List.filterMap_some

end Whole

/-- How it goes on with a part. -/
inductive Continuation where
  | done (result : Completion)
  | goOn (task : Task)
  | parts (whole : Whole) (parts : Parts)

/-- What a named type makes of a value that is not null. -/
inductive Target where
  | leaf (value : Json)
  | object (objectType : TypeDef)

namespace Setting

variable (setting : Setting)

/-! ## What is done first -/

/-- What a resolver is called with for a field. -/
def params (parent : TypeDef) (source : Json) (definition : FieldDef) (nodes : List Field)
    (path : List PathSegment) (args : Json.Members) : ResolveParams where
  source
  args
  info := setting.info parent definition nodes path
  context := setting.context

/-- The values of the arguments of the first of some selections of a field. -/
def arguments (definition : FieldDef) (nodes : List Field) : Except ArgumentError Json.Members :=
  Arguments.coerce setting.schema setting.bindings ((nodes.head?.map (·.arguments)).getD [])
    definition.arguments

/-- What the named type makes of a value that is not null. -/
def target (info : ResolveInfo) (name : String) (value : Json) : Except FieldFault Target :=
  match setting.schema.type? name with
  | none => .error (.unknownType name)
  | some t =>
    if t.isAbstractType then (setting.schema.runtimeType t value info).map .object
    else if t.isObjectType then .ok (.object t)
    else (completeLeaf t value).map .leaf

/-- The outcome of a field, and what is noted.  A function of the host is called with some
memory. -/
inductive Answers (d : FieldDef) (params : ResolveParams) : Except String Json → List Note → Prop
  | plain (h : d.resolver = none) :
      Answers d params (.ok ((params.source.get? d.name).getD .null)) []
  | introspection {field : MetaResolver} (h : d.resolver = some (.introspection field)) :
      Answers d params (.ok (field.value setting.schema params))
        [.event (.called params), .event (.finished params.info.path none)]
  | host {call : HostCall} (h : d.resolver = some (.host call)) (memory : Json) :
      Answers d params (call params memory).1.outcome
        [.event (.called params), .event (.finished params.info.path (call params memory).1.label)]

/-- The items of a list, as parts. -/
def items (info : ResolveInfo) (item : TypeRef) (path : List PathSegment) (values : List Json) :
    Parts :=
  values.zipIdx.map fun (value, i) =>
    (.index i, .orNull item (.value info item (path ++ [.index i]) value))

/-- The fields that groups select of an object, as parts. -/
def members (parent : TypeDef) (source : Json) (path : List PathSegment) (groups : FieldGroups) :
    Parts :=
  (setting.selectedFields parent groups).map fun (key, d, nodes) =>
    (.key key, .orNull d.type (.field parent source d nodes (path ++ [.key key])))

/-- The fields that are selected of the value of a field, as parts. -/
def subfields (info : ResolveInfo) (objectType : TypeDef) (path : List PathSegment)
    (value : Json) : Parts :=
  setting.members objectType value path
    (setting.groupsOf objectType (info.fieldNodes.filterMap (·.selectionSet)))

/-- What is done first for a part, what is noted, and how it goes on.  The numbers say how deeply
objects may still be nested, before and after. -/
inductive Moves : ℕ → Task → List Note → ℕ → Continuation → Prop
  | refused {n : ℕ} {parent : TypeDef} {source : Json} {d : FieldDef} {nodes : List Field}
      {path : List PathSegment} {e : ArgumentError} (h : setting.arguments d nodes = .error e) :
      Moves n (.field parent source d nodes path) [] n
        (.done (.error (.ofInfo (setting.info parent d nodes path) path (.arguments e))))
  | failed {n : ℕ} {parent : TypeDef} {source : Json} {d : FieldDef} {nodes : List Field}
      {path : List PathSegment} {args : Json.Members} {message : String} {notes : List Note}
      (hargs : setting.arguments d nodes = .ok args)
      (h : setting.Answers d (setting.params parent source d nodes path args) (.error message)
        notes) :
      Moves n (.field parent source d nodes path) notes n
        (.done (.error (.ofInfo (setting.info parent d nodes path) path (.resolver message))))
  | resolved {n : ℕ} {parent : TypeDef} {source : Json} {d : FieldDef} {nodes : List Field}
      {path : List PathSegment} {args : Json.Members} {value : Json} {notes : List Note}
      (hargs : setting.arguments d nodes = .ok args)
      (h : setting.Answers d (setting.params parent source d nodes path args) (.ok value) notes) :
      Moves n (.field parent source d nodes path) notes n
        (.goOn (.value (setting.info parent d nodes path) d.type path value))
  | null {n : ℕ} {info : ResolveInfo} {type : TypeRef} {path : List PathSegment} :
      Moves n (.value info type path .null) [.event (.completing path type .null)] n
        (.done (if type.isNullable then .ok .null else .error (.ofInfo info path .null)))
  | notAList {n : ℕ} {info : ResolveInfo} {item : TypeRef} {nullable : Bool}
      {path : List PathSegment} {value : Json} (hnull : value ≠ .null)
      (harray : ∀ items, value ≠ .array items) :
      Moves n (.value info (.list item nullable) path value)
        [.event (.completing path (.list item nullable) value)] n
        (.done (.error (.ofInfo info path .notAList)))
  | items {n : ℕ} {info : ResolveInfo} {item : TypeRef} {nullable : Bool}
      {path : List PathSegment} {values : List Json} :
      Moves n (.value info (.list item nullable) path (.array values))
        [.event (.completing path (.list item nullable) (.array values))] n
        (.parts .array (Setting.items info item path values))
  | misfit {n : ℕ} {info : ResolveInfo} {name : String} {nullable : Bool}
      {path : List PathSegment} {value : Json} {fault : FieldFault} (hnull : value ≠ .null)
      (h : setting.target info name value = .error fault) :
      Moves n (.value info (.named name nullable) path value)
        [.event (.completing path (.named name nullable) value)] n
        (.done (.error (.ofInfo info path fault)))
  | leaf {n : ℕ} {info : ResolveInfo} {name : String} {nullable : Bool}
      {path : List PathSegment} {value leaf : Json} (hnull : value ≠ .null)
      (h : setting.target info name value = .ok (.leaf leaf)) :
      Moves n (.value info (.named name nullable) path value)
        [.event (.completing path (.named name nullable) value)] n (.done (.ok leaf))
  | object {n : ℕ} {info : ResolveInfo} {name : String} {nullable : Bool}
      {path : List PathSegment} {value : Json} {t : TypeDef} (hnull : value ≠ .null)
      (h : setting.target info name value = .ok (.object t)) :
      Moves n (.value info (.named name nullable) path value)
        [.event (.completing path (.named name nullable) value)] n
        (.goOn (.object info t path value))
  | tooDeep {info : ResolveInfo} {t : TypeDef} {path : List PathSegment} {value : Json} :
      Moves 0 (.object info t path value) [] 0 (.done (.error (.ofInfo info path .tooDeep)))
  | wrongObject {n : ℕ} {info : ResolveInfo} {t : TypeDef} {path : List PathSegment} {value : Json}
      (h : t.accepts? value info = some false) :
      Moves (n + 1) (.object info t path value) [] n
        (.done (.error (.ofInfo info path (.wrongObject t.name value))))
  | members {n : ℕ} {info : ResolveInfo} {t : TypeDef} {path : List PathSegment} {value : Json}
      (h : t.accepts? value info ≠ some false) :
      Moves (n + 1) (.object info t path value) [] n
        (.parts .object (setting.subfields info t path value))

section

variable {setting} {n m : ℕ} {task : Task} {notes : List Note}

theorem Answers.errors_eq_nil {d : FieldDef} {params : ResolveParams}
    {outcome : Except String Json} (h : setting.Answers d params outcome notes) :
    Note.errors notes = [] := by
  cases h <;> rfl

theorem Moves.errors_eq_nil {c : Continuation} (h : setting.Moves n task notes m c) :
    Note.errors notes = [] := by
  cases h with
  | failed _ h => exact h.errors_eq_nil
  | resolved _ h => exact h.errors_eq_nil
  | _ => rfl

/-- A value is said to be completed when this starts, and nowhere else. -/
theorem Moves.eq_value_of_completing {c : Continuation} {path : List PathSegment}
    {type : TypeRef} {value : Json} (h : setting.Moves n task notes m c)
    (hevent : .event (.completing path type value) ∈ notes) :
    ∃ info, task = .value info type path value := by
  have hanswers {d : FieldDef} {params : ResolveParams} {outcome : Except String Json}
      (h : setting.Answers d params outcome notes) : False := by
    cases h <;> simp at hevent
  cases h with
  | failed _ h => exact (hanswers h).elim
  | resolved _ h => exact (hanswers h).elim
  | refused | tooDeep | wrongObject | members => cases hevent
  | null | notAList | items | misfit | leaf | object =>
      cases List.mem_singleton.mp hevent
      exact ⟨_, rfl⟩

end

/-! ## How parts end -/

/-- Where null may stand, an error is noted and null stands instead. -/
def contained (type : TypeRef) : Completion → Completion × List Note
  | .ok value => (.ok value, [])
  | .error e => if type.isNullable then (.ok .null, [.error e]) else (.error e, [])

/-- What parts are put together to, given what each of them ended with. -/
def assembled (whole : Whole) (parts : Parts) (outcomes : Job.Outcomes Completion) : Completion :=
  (outcomes.values.mapM id).map fun values => whole.build ((parts.map (·.1)).zip values)

/-- With which results and notes a part can end. -/
inductive Ends : ℕ → Task → Claim Completion
  | done {n m : ℕ} {task : Task} {notes : List Note} {result : Completion}
      (h : setting.Moves n task notes m (.done result)) : Ends n task result notes
  | goOn {n m : ℕ} {task next : Task} {notes more : List Note} {result : Completion}
      (h : setting.Moves n task notes m (.goOn next)) (hnext : Ends m next result more) :
      Ends n task result (notes ++ more)
  | parts {n m : ℕ} {task : Task} {notes more : List Note} {whole : Whole} {parts : Parts}
      (outcomes : Job.Outcomes Completion)
      (h : setting.Moves n task notes m (.parts whole parts))
      (hlength : parts.length = outcomes.length)
      (hparts : ∀ part outcome, (part, outcome) ∈ parts.zip outcomes →
        Ends m part.2 outcome.1 outcome.2)
      (hmore : more.Perm outcomes.notes) :
      Ends n task (assembled whole parts outcomes) (notes ++ more)
  | orNull {n : ℕ} {type : TypeRef} {task : Task} {result : Completion} {notes : List Note}
      (h : Ends n task result notes) :
      Ends n (.orNull type task) (contained type result).1 (notes ++ (contained type result).2)

section

variable {setting} {n m : ℕ} {task : Task} {notes more : List Note} {whole : Whole} {parts : Parts}
  {outcomes : Job.Outcomes Completion}

/-- An error that is noted instead of a value is no event. -/
theorem events_contained (type : TypeRef) (result : Completion) :
    Note.events (contained type result).2 = [] := by
  cases result with
  | ok value => rfl
  | error e => cases hnullable : type.isNullable <;> simp [contained, hnullable] <;> rfl

theorem event_mem_contained_iff {type : TypeRef} {result : Completion} {event : Event} :
    .event event ∈ notes ++ (contained type result).2 ↔ .event event ∈ notes := by
  rw [← Note.mem_events_iff, Note.events_append, events_contained, List.append_nil,
    Note.mem_events_iff]

theorem exists_of_mem_selectedFields {parent : TypeDef} {groups : FieldGroups} {key : String}
    {d : FieldDef} {nodes : List Field}
    (h : (key, d, nodes) ∈ setting.selectedFields parent groups) :
    ∃ node rest, nodes = node :: rest ∧ (key, nodes) ∈ groups ∧
      setting.definition? parent node = some d := by
  obtain ⟨⟨key', nodes'⟩, hmem, hfound⟩ := List.mem_filterMap.mp h
  obtain ⟨node, hnode, hfound⟩ := Option.bind_eq_some_iff.mp hfound
  obtain ⟨d', hd, heq⟩ := Option.bind_eq_some_iff.mp hfound
  cases heq
  cases nodes with
  | nil => cases hnode
  | cons first rest =>
      cases hnode
      exact ⟨node, rest, rfl, hmem, hd⟩

theorem ends_of_meet (hmoves : setting.Moves n task notes m (.parts whole parts))
    (hmeet : Job.Outcomes.Meet (parts.map fun part => setting.Ends m part.2) outcomes)
    (hmore : more.Perm outcomes.notes) :
    setting.Ends n task (assembled whole parts outcomes) (notes ++ more) := by
  obtain ⟨hlength, hparts⟩ := List.forall₂_iff_zip.mp (List.forall₂_map_left_iff.mp hmeet)
  exact .parts outcomes hmoves hlength (fun part outcome hmem => hparts hmem) hmore

/-- The values of all parts of a list are its items. -/
theorem assembled_array (hlength : parts.length = outcomes.length) :
    assembled .array parts outcomes = (outcomes.values.mapM id).map .array := by
  unfold assembled
  cases hvalues : outcomes.values.mapM id with
  | error e => rfl
  | ok values =>
      have hall := congrArg List.length (Job.mapM_id_eq_ok_iff.mp hvalues)
      simp only [Job.Outcomes.values, List.length_map] at hall
      simp only [Except.map, Whole.build]
      rw [List.map_snd_zip]
      simp [← hall, hlength]

theorem assembled_members (parent : TypeDef) (source : Json) (path : List PathSegment)
    (groups : FieldGroups) :
    assembled .object (setting.members parent source path groups) outcomes =
      (outcomes.values.mapM id).map fun values =>
        .object (((setting.selectedFields parent groups).map (·.1)).zip values) := by
  have hkeys : (setting.members parent source path groups).map (·.1) =
      ((setting.selectedFields parent groups).map (·.1)).map .key := by
    rw [members, List.map_map, List.map_map]
    rfl
  simp only [assembled, hkeys, Whole.build_object_zip]

/-! ## How an operation ends -/

/-- Null instead of what has no value, and the error on account of which. -/
def settled : Completion → Json × List Note
  | .ok value => (value, [])
  | .error e => (.null, [.error e])

theorem events_settled (result : Completion) : Note.events (settled result).2 = [] := by
  cases result <;> rfl

variable (setting) in
/-- The fields that the operation selects of its root type, as parts. -/
def rootParts (rootType : TypeDef) : Parts :=
  setting.members rootType setting.rootValue []
    (setting.groupsOf rootType [setting.operation.selectionSet])

/-- The outcomes of the root fields of an operation, and all that is noted: those of a mutation
come in turn, up to one that fails. -/
def Together (kind : OperationKind) (claims : List (Claim Completion))
    (outcomes : Job.Outcomes Completion) (notes : List Note) : Prop :=
  match kind with
  | .mutation => Job.MeetInTurn claims outcomes ∧ notes = outcomes.notes
  | .query | .subscription => Job.Outcomes.Meet claims outcomes ∧ notes.Perm outcomes.notes

variable (setting) in
/-- With which data and notes an operation can end. -/
inductive RootEnds (limit : ℕ) (rootType : TypeDef) : Claim Json
  | settle {outcomes : Job.Outcomes Completion} {notes : List Note}
      (h : Together setting.operation.operation
        ((setting.rootParts rootType).map fun part => setting.Ends limit part.2) outcomes notes) :
      RootEnds limit rootType (settled (assembled .object (setting.rootParts rootType) outcomes)).1
        (notes ++ (settled (assembled .object (setting.rootParts rootType) outcomes)).2)

variable (setting) in
/-- What is known of the outcomes of parts that are found together: they are those of the first
parts, and of all of them unless one failed. -/
structure Found (n : ℕ) (parts : Parts) (outcomes : Job.Outcomes Completion)
    (notes : List Note) : Prop where
  length_le : outcomes.length ≤ parts.length
  length_eq : ∀ values : List Json, outcomes.values = values.map .ok →
    outcomes.length = parts.length
  ends : ∀ part outcome, (part, outcome) ∈ parts.zip outcomes →
    setting.Ends n part.2 outcome.1 outcome.2
  notes : notes.Perm outcomes.notes

/-- What is noted for parts is noted for one of them. -/
theorem Found.mem_iff {note : Note} (h : setting.Found n parts outcomes notes) :
    note ∈ notes ↔ ∃ part outcome, (part, outcome) ∈ parts.zip outcomes ∧ note ∈ outcome.2 := by
  rw [h.notes.mem_iff, Job.Outcomes.notes, List.mem_flatMap]
  constructor
  · rintro ⟨outcome, hmem, hnote⟩
    rw [← List.map_snd_zip h.length_le] at hmem
    obtain ⟨pair, hpair, rfl⟩ := List.mem_map.mp hmem
    exact ⟨pair.1, pair.2, hpair, hnote⟩
  · rintro ⟨part, outcome, hmem, hnote⟩
    exact ⟨outcome, (List.of_mem_zip hmem).2, hnote⟩

/-- If none failed, there are as many values as parts. -/
theorem Found.length_values {values : List Json} (h : setting.Found n parts outcomes notes)
    (hresults : outcomes.values.mapM id = .ok values) : values.length = parts.length := by
  have hvalues : outcomes.values = values.map .ok := Job.mapM_id_eq_ok_iff.mp hresults
  have hlength := congrArg List.length hvalues
  simp only [Job.Outcomes.values, List.length_map] at hlength
  exact hlength ▸ h.length_eq values hvalues

theorem exists_value_of_mem_zip {values : List Json} {part : PathSegment × Task}
    {outcome : Completion × List Note} (hresults : outcomes.values.mapM id = .ok values)
    (hmem : (part, outcome) ∈ parts.zip outcomes) :
    ∃ value, outcome.1 = .ok value ∧ (part, value) ∈ parts.zip values := by
  have hresult : (part, outcome.1) ∈ parts.zip outcomes.values := by
    rw [Job.Outcomes.values, List.zip_map_right]
    exact List.mem_map.mpr ⟨_, hmem, rfl⟩
  rw [Job.mapM_id_eq_ok_iff.mp hresults, List.zip_map_right] at hresult
  obtain ⟨⟨part', value⟩, hvalue, heq⟩ := List.mem_map.mp hresult
  obtain ⟨rfl, hok⟩ := Prod.mk.inj heq
  exact ⟨value, hok.symm, hvalue⟩

theorem exists_outcome_of_mem_zip {values : List Json} {part : PathSegment × Task} {value : Json}
    (hresults : outcomes.values.mapM id = .ok values) (hmem : (part, value) ∈ parts.zip values) :
    ∃ notes, (part, (.ok value, notes)) ∈ parts.zip outcomes := by
  have hresult : (part, (.ok value : Completion)) ∈ parts.zip (values.map .ok) := by
    rw [List.zip_map_right]
    exact List.mem_map.mpr ⟨_, hmem, rfl⟩
  rw [← Job.mapM_id_eq_ok_iff.mp hresults, Job.Outcomes.values, List.zip_map_right] at hresult
  obtain ⟨⟨part', result, notes⟩, houtcome, heq⟩ := List.mem_map.mp hresult
  cases heq
  exact ⟨notes, houtcome⟩

theorem found_of_meet
    (hmeet : Job.Outcomes.Meet (parts.map fun part => setting.Ends n part.2) outcomes)
    (hnotes : notes.Perm outcomes.notes) : setting.Found n parts outcomes notes := by
  obtain ⟨hlength, hparts⟩ := List.forall₂_iff_zip.mp (List.forall₂_map_left_iff.mp hmeet)
  exact ⟨hlength.ge, fun _ _ => hlength.symm, fun _ _ hmem => hparts hmem, hnotes⟩

theorem found_of_meetInTurn
    (hmeet : Job.MeetInTurn (parts.map fun part => setting.Ends n part.2) outcomes) :
    setting.Found n parts outcomes outcomes.notes := by
  induction parts generalizing outcomes with
  | nil =>
      cases hmeet
      exact ⟨le_rfl, fun _ _ => rfl, by simp, .refl _⟩
  | cons part parts ih =>
      cases hmeet with
      | failed hends =>
          refine ⟨by simp, fun values hvalues => ?_, ?_, .refl _⟩
          · cases values <;> cases hvalues
          · rintro _ _ hmem
            obtain ⟨rfl, rfl⟩ : _ = part ∧ _ = _ := by simpa using hmem
            exact hends
      | cons hends hrest =>
          obtain ⟨hle, heq, hparts, -⟩ := ih hrest
          refine ⟨Nat.succ_le_succ hle, fun values hvalues => ?_, ?_, .refl _⟩
          · cases values with
            | nil => cases hvalues
            | cons _ values => exact congrArg _ (heq values (List.cons.inj hvalues).2)
          · intro part' outcome hmem
            rcases List.mem_cons.mp hmem with hfirst | hmem
            · cases hfirst
              exact hends
            · exact hparts part' outcome hmem

theorem found_of_together {kind : OperationKind}
    (h : Together kind (parts.map fun part => setting.Ends n part.2) outcomes notes) :
    setting.Found n parts outcomes notes := by
  cases kind with
  | mutation =>
      obtain ⟨hmeet, rfl⟩ := h
      exact found_of_meetInTurn hmeet
  | query | subscription => exact found_of_meet h.1 h.2

end

/-! ## The jobs keep to it -/

variable {setting} {h : HostCall → HostCall}

/-- The setting with other calls. -/
def mapCalls (setting : Setting) (h : HostCall → HostCall) : Setting :=
  { setting with schema := setting.schema.mapCalls h }

/-- Other calls that reply with the same outcomes and labels. -/
structure RepliesAlike (h : HostCall → HostCall) : Prop where
  outcome : ∀ call params memory,
    (h call params memory).1.outcome = (call params memory).1.outcome
  label : ∀ call params memory, (h call params memory).1.label = (call params memory).1.label

theorem gives_contain {type : TypeRef} {job : Running Completion} {claim goal : Claim Completion}
    (hjob : job.Gives claim)
    (hgoal : ∀ result notes, claim result notes →
      goal (contained type result).1 (notes ++ (contained type result).2)) :
    (contain type job).Gives goal := by
  refine hjob.bind fun result notes hclaim => ?_
  have hresult := hgoal result notes hclaim
  cases result with
  | ok value => exact Job.gives_pure hresult
  | error e =>
      by_cases hnullable : type.isNullable = true
      · simp only [contained, hnullable, if_true] at hresult ⊢
        refine (Job.gives_record e).bind ?_
        rintro _ _ rfl
        exact Job.gives_pure hresult
      · simp only [contained, hnullable] at hresult ⊢
        exact Job.gives_pure hresult

theorem gives_await (path : List PathSegment) (reply : Reply) :
    (await path reply).Gives fun outcome notes =>
      outcome = reply.outcome ∧ notes = [.event (.finished path reply.label)] := by
  refine (Job.gives_wait _).bind ?_
  rintro _ _ rfl
  refine (Job.gives_note _).bind ?_
  rintro _ _ rfl
  exact Job.gives_pure ⟨rfl, rfl⟩

section

variable (hreplies : RepliesAlike h)
include hreplies

theorem gives_resolve (d : FieldDef) (params : ResolveParams) :
    (resolve (setting.mapCalls h) (d.mapCalls h).resolver (d.mapCalls h) params).Gives
      (setting.Answers d params) := by
  have hresolver : (d.mapCalls h).resolver = d.resolver.map (·.mapCalls h) := rfl
  unfold resolve
  rw [hresolver]
  cases hd : d.resolver with
  | none => exact Job.gives_pure (.plain hd)
  | some resolver =>
      refine (Job.gives_note _).bind ?_
      rintro _ _ rfl
      cases resolver with
      | introspection field =>
          have hvalue : field.value (setting.mapCalls h).schema params =
              field.value setting.schema params := field.value_mapCalls h _ params
          refine (gives_await _ _).mono ?_
          rintro _ _ ⟨rfl, rfl⟩
          rw [hvalue]
          exact .introspection hd
      | host call =>
          refine (Job.gives_call _).bind ?_
          rintro _ _ ⟨rfl, memory, rfl⟩
          refine (gives_await _ _).mono ?_
          rintro _ _ ⟨rfl, rfl⟩
          rw [hreplies.outcome, hreplies.label]
          exact .host hd memory

omit hreplies in
theorem completeLeaf_mapCalls (t : TypeDef) (value : Json) :
    completeLeaf (t.mapCalls h) value = completeLeaf t value := by
  cases t with | mk _ _ _ body => cases body <;> rfl

variable {n : ℕ} {object : ObjectCompletion}
  (hobject : ∀ info t path value, (object info (t.mapCalls h) path value).Gives
    (setting.Ends n (.object info t path value)))
include hobject

omit hreplies in
/-- A value that is not null is completed by a named type as its target says. -/
theorem gives_completeNamed {info : ResolveInfo} {name : String} {nullable : Bool}
    {path : List PathSegment} {value : Json} (hnull : value ≠ .null) :
    (completeNamed (setting.mapCalls h) object info name path value).Gives
      (Claim.after (setting.Ends n (.value info (.named name nullable) path value))
        [.event (.completing path (.named name nullable) value)]) := by
  have hdone {result : Completion} (hmoves : setting.Moves n
      (.value info (.named name nullable) path value)
      [.event (.completing path (.named name nullable) value)] n (.done result)) :
      (pure result : Running Completion).Gives
        (Claim.after (setting.Ends n (.value info (.named name nullable) path value))
          [.event (.completing path (.named name nullable) value)]) :=
    Job.gives_pure (.done hmoves)
  have hgoOn {t : TypeDef} (htarget : setting.target info name value = .ok (.object t)) :
      (object info (t.mapCalls h) path value).Gives
        (Claim.after (setting.Ends n (.value info (.named name nullable) path value))
          [.event (.completing path (.named name nullable) value)]) :=
    (hobject info t path value).mono fun _ _ hends => .goOn (.object hnull htarget) hends
  have htype : (setting.mapCalls h).schema.type? name =
      (setting.schema.type? name).map (·.mapCalls h) := Schema.type?_mapCalls h _ name
  rw [completeNamed, htype]
  cases hfound : setting.schema.type? name with
  | none => exact hdone (.misfit hnull (by rw [target, hfound]))
  | some t =>
      simp only [Option.map_some, TypeDef.isAbstractType_mapCalls, TypeDef.isObjectType_mapCalls]
      by_cases habstract : t.isAbstractType = true
      · have htarget : setting.target info name value =
            (setting.schema.runtimeType t value info).map .object := by
          simp only [target, hfound, habstract, if_true]
        have hruntime : (setting.mapCalls h).schema.runtimeType (t.mapCalls h) value info =
            (setting.schema.runtimeType t value info).map (·.mapCalls h) :=
          Schema.runtimeType_mapCalls h _ t value info
        rw [if_pos habstract, hruntime]
        cases hresult : setting.schema.runtimeType t value info with
        | error fault => exact hdone (.misfit hnull (by rw [htarget, hresult]; rfl))
        | ok objectType => exact hgoOn (by rw [htarget, hresult]; rfl)
      rw [if_neg habstract]
      by_cases hobjectType : t.isObjectType = true
      · rw [if_pos hobjectType]
        exact hgoOn (by simp only [target, hfound, habstract, hobjectType, if_true]; rfl)
      · have htarget : setting.target info name value = (completeLeaf t value).map .leaf := by
          simp only [target, hfound, habstract, hobjectType]
          rfl
        rw [if_neg hobjectType, completeLeaf_mapCalls]
        cases hleaf : completeLeaf t value with
        | error fault => exact hdone (.misfit hnull (by rw [htarget, hleaf]; rfl))
        | ok leaf => exact hdone (.leaf hnull (by rw [htarget, hleaf]; rfl))

omit hreplies in
theorem gives_complete (info : ResolveInfo) (type : TypeRef) (path : List PathSegment)
    (value : Json) :
    (complete (setting.mapCalls h) object info type path value).Gives
      (setting.Ends n (.value info type path value)) := by
  induction type generalizing path value with
  | named name nullable =>
      rw [complete]
      refine (Job.gives_note _).bind ?_
      rintro _ _ rfl
      by_cases hnull : value = .null
      · subst hnull
        exact Job.gives_pure (.done .null)
      · have hisNull : value.isNull = false := by cases value <;> simp_all [Json.isNull]
        rw [hisNull]
        exact gives_completeNamed hobject hnull
  | list item nullable ih =>
      have hdone {result : Completion} (hmoves : setting.Moves n
          (.value info (.list item nullable) path value)
          [.event (.completing path (.list item nullable) value)] n (.done result)) :
          (pure result : Running Completion).Gives
            (Claim.after (setting.Ends n (.value info (.list item nullable) path value))
              [.event (.completing path (.list item nullable) value)]) :=
        Job.gives_pure (.done hmoves)
      cases value with
      | null =>
          refine (Job.gives_note _).bind ?_
          rintro _ _ rfl
          exact hdone .null
      | array values =>
          have hjobs : List.Forall₂ Job.Gives
              (values.zipIdx.map fun (value, i) => contain item
                (complete (setting.mapCalls h) object info item (path ++ [.index i]) value))
              ((items info item path values).map fun part => setting.Ends n part.2) := by
            rw [items, List.map_map, List.forall₂_map_left_iff, List.forall₂_map_right_iff,
              List.forall₂_same]
            rintro ⟨value, i⟩ -
            exact gives_contain (ih (path ++ [.index i]) value) fun _ _ => .orNull
          refine (Job.gives_note _).bind ?_
          rintro _ _ rfl
          refine (Job.gives_sideBySide values.length hjobs).bind ?_
          rintro _ more ⟨outcomes, hmeet, rfl, hmore⟩
          refine Job.gives_pure ?_
          have hmoves : setting.Moves n (.value info (.list item nullable) path (.array values)) _ n
              (.parts .array (items info item path values)) := .items
          have hends := ends_of_meet hmoves hmeet hmore
          rw [assembled_array (by simpa using hmeet.length_eq)] at hends
          simpa [Claim.after] using hends
      | _ =>
          refine (Job.gives_note _).bind ?_
          rintro _ _ rfl
          exact hdone (.notAList (by simp) (by simp))

theorem gives_resolveField (parent : TypeDef) (source : Json) (d : FieldDef) (nodes : List Field)
    (path : List PathSegment) :
    (resolveField (setting.mapCalls h) object (parent.mapCalls h) source (d.mapCalls h) nodes
      path).Gives (setting.Ends n (.orNull d.type (.field parent source d nodes path))) := by
  have hcoerce : Arguments.coerce (setting.mapCalls h).schema (setting.mapCalls h).bindings
      ((nodes.head?.map (·.arguments)).getD []) (d.mapCalls h).arguments =
      setting.arguments d nodes := Arguments.coerce_mapCalls h setting.schema _ _ _
  rw [resolveField]
  refine gives_contain ?_ fun _ _ => .orNull
  rw [hcoerce]
  cases hargs : setting.arguments d nodes with
  | error e => exact Job.gives_pure (.done (.refused hargs))
  | ok args =>
      refine (gives_resolve hreplies d (setting.params parent source d nodes path args)).bind ?_
      intro outcome notes hanswers
      cases outcome with
      | error message =>
          refine Job.gives_pure ?_
          rw [Claim.after, List.append_nil]
          exact .done (.failed hargs hanswers)
      | ok value =>
          exact (gives_complete hobject _ d.type path value).mono fun _ _ hends =>
            .goOn (.resolved hargs hanswers) hends

omit hreplies hobject in
theorem selectedFields_mapCalls (parent : TypeDef) (groups : FieldGroups) :
    (setting.mapCalls h).selectedFields (parent.mapCalls h) groups =
      (setting.selectedFields parent groups).map fun (key, d, nodes) =>
        (key, d.mapCalls h, nodes) := by
  have hdefinition (node : Field) : (setting.mapCalls h).definition? (parent.mapCalls h) node =
      (setting.definition? parent node).map (·.mapCalls h) := by
    have htype : (setting.mapCalls h).schema.type? parent.name =
        (setting.schema.type? parent.name).map (·.mapCalls h) := Schema.type?_mapCalls h _ _
    simp only [definition?, TypeDef.name_mapCalls, htype, bind, Option.bind_map, Option.map_bind]
    congr 1
    funext t
    exact Schema.fieldDef?_mapCalls h setting.schema t node.name.text
  rw [selectedFields, selectedFields, List.map_filterMap]
  congr 1
  funext ⟨key, nodes⟩
  cases nodes with
  | nil => rfl
  | cons node rest =>
      simp only [List.head?_cons, bind, Option.bind_some, hdefinition]
      cases setting.definition? parent node <;> rfl

omit hreplies hobject in
theorem keys_selectedFields_mapCalls (parent : TypeDef) (groups : FieldGroups) :
    ((setting.mapCalls h).selectedFields (parent.mapCalls h) groups).map (·.1) =
      (setting.selectedFields parent groups).map (·.1) := by
  rw [selectedFields_mapCalls, List.map_map]
  rfl

/-- The jobs of the fields of an object. -/
theorem gives_fields (parent : TypeDef) (source : Json) (path : List PathSegment)
    (groups : FieldGroups) :
    List.Forall₂ Job.Gives
      (((setting.mapCalls h).selectedFields (parent.mapCalls h) groups).map
        fun (key, definition, nodes) =>
          resolveField (setting.mapCalls h) object (parent.mapCalls h) source definition nodes
            (path ++ [.key key]))
      ((setting.members parent source path groups).map fun part => setting.Ends n part.2) := by
  rw [selectedFields_mapCalls, members, List.map_map, List.map_map, List.forall₂_map_left_iff,
    List.forall₂_map_right_iff, List.forall₂_same]
  rintro ⟨key, d, nodes⟩ -
  exact gives_resolveField hreplies hobject parent source d nodes (path ++ [.key key])

omit hreplies hobject in
theorem groupsOf_mapCalls (t : TypeDef) (sets : List SelectionSet) :
    (setting.mapCalls h).groupsOf (t.mapCalls h) sets = setting.groupsOf t sets :=
  groupFields_mapCalls h setting.schema _ _ _ _

/-- Fields that are resolved side by side make an object together. -/
theorem gives_members {task : Task} {k : ℕ} {parent : TypeDef} {source : Json}
    {path : List PathSegment} {groups : FieldGroups}
    (hmoves : setting.Moves k task [] n
      (.parts .object (setting.members parent source path groups))) :
    (resolveFields (setting.mapCalls h) object Job.sideBySide (parent.mapCalls h) source path
      groups).Gives (setting.Ends k task) := by
  refine (Job.gives_sideBySide groups.length
    (gives_fields hreplies hobject parent source path groups)).bind ?_
  rintro _ more ⟨outcomes, hmeet, rfl, hmore⟩
  refine Job.gives_pure ?_
  have hends := ends_of_meet hmoves hmeet hmore
  rw [assembled_members] at hends
  simpa [Claim.after, keys_selectedFields_mapCalls] using hends

end

theorem gives_completeObject (hreplies : RepliesAlike h) (n : ℕ) (info : ResolveInfo)
    (t : TypeDef) (path : List PathSegment) (value : Json) :
    (completeObject (setting.mapCalls h) n info (t.mapCalls h) path value).Gives
      (setting.Ends n (.object info t path value)) := by
  induction n generalizing info t path value with
  | zero => exact Job.gives_pure (.done .tooDeep)
  | succ n ih =>
      rw [completeObject, TypeDef.accepts?_mapCalls]
      split
      · rename_i haccepts
        exact Job.gives_pure (.done (.wrongObject haccepts))
      · rename_i haccepts
        rw [groupsOf_mapCalls]
        exact gives_members hreplies ih (.members haccepts)

omit setting h in
theorem gives_rootOrder (kind : OperationKind) (size : ℕ) {jobs : List (Running Completion)}
    {claims : List (Claim Completion)} (hjobs : List.Forall₂ Job.Gives jobs claims) :
    (rootOrder kind size jobs).Gives fun result notes =>
      ∃ outcomes, Together kind claims outcomes notes ∧ result = outcomes.values.mapM id := by
  cases kind with
  | mutation =>
      refine (Job.gives_inTurn hjobs).mono ?_
      rintro _ _ ⟨outcomes, hmeet, rfl, rfl⟩
      exact ⟨outcomes, ⟨hmeet, rfl⟩, rfl⟩
  | query | subscription =>
      refine (Job.gives_sideBySide size hjobs).mono ?_
      rintro _ _ ⟨outcomes, hmeet, rfl, hnotes⟩
      exact ⟨outcomes, ⟨hmeet, hnotes⟩, rfl⟩

/-- The job of an operation. -/
theorem gives_resolveRoot (hreplies : RepliesAlike h) (limit : ℕ) (rootType : TypeDef) :
    ((setting.mapCalls h).resolveRoot limit (rootType.mapCalls h)).Gives
      (setting.RootEnds limit rootType) := by
  have hjobs := @gives_fields setting h hreplies limit _ (gives_completeObject hreplies limit)
    rootType setting.rootValue [] (setting.groupsOf rootType [setting.operation.selectionSet])
  have hfields : (resolveFields (setting.mapCalls h) (completeObject (setting.mapCalls h) limit)
      (rootOrder setting.operation.operation) (rootType.mapCalls h) setting.rootValue []
      (setting.groupsOf rootType [setting.operation.selectionSet])).Gives fun result notes =>
        ∃ outcomes, Together setting.operation.operation
          ((setting.rootParts rootType).map fun part => setting.Ends limit part.2) outcomes notes ∧
        result = assembled .object (setting.rootParts rootType) outcomes := by
    refine (gives_rootOrder _ _ hjobs).bind ?_
    rintro _ notes ⟨outcomes, htogether, rfl⟩
    refine Job.gives_pure ⟨outcomes, ?_, ?_⟩
    · rwa [List.append_nil]
    · rw [rootParts, assembled_members, keys_selectedFields_mapCalls]
  unfold resolveRoot
  rw [groupsOf_mapCalls]
  refine hfields.bind ?_
  rintro _ notes ⟨outcomes, htogether, rfl⟩
  have hends := RootEnds.settle htogether
  cases hresult : assembled .object (setting.rootParts rootType) outcomes with
  | ok data =>
      rw [hresult] at hends
      exact Job.gives_pure hends
  | error e =>
      rw [hresult] at hends
      refine (Job.gives_record e).bind ?_
      rintro _ _ rfl
      refine Job.gives_pure ?_
      simpa [Claim.after, settled] using hends

/-- The calls as they are are others that reply alike. -/
theorem repliesAlike_id : RepliesAlike id := ⟨fun _ _ _ => rfl, fun _ _ _ => rfl⟩

theorem mapCalls_id (setting : Setting) : setting.mapCalls id = setting := by
  rw [mapCalls, Schema.mapCalls_id]

end Setting

namespace Document

/-- What stays the same while an operation of the document is executed. -/
def setting (document : Document) (schema : Schema) (input : ExecutionInput)
    (operation : OperationDefinition) (bindings : Json.Members) : Setting where
  schema
  fragments := document.fragmentTable
  operation
  bindings
  rootValue := input.rootValue
  context := input.context

/-- An error of a field, as a response to the document shows it. -/
def shown (document : Document) (e : FieldError) : ResponseError :=
  { e.toResponse with
    sourceName := e.toResponse.sourceName <|> document.source.map (·.name) }

variable {document : Document} {schema : Schema} {input : ExecutionInput} {h : HostCall → HostCall}
  {operation : OperationDefinition} {bindings : Json.Members} {rootType : TypeDef}

/-- An execution that has a root type shows the data and the notes with which the operation can
end. -/
theorem exists_rootEnds_mapCalls (hreplies : Setting.RepliesAlike h) (limit : ℕ)
    (hoperation : document.chooseOperation input.operationName = .ok operation)
    (hbindings : Variables.coerce schema operation.variableDefinitions input.variableValues =
      .ok bindings)
    (hroot : schema.rootType? operation.operation = some rootType) :
    ∃ data notes,
      (document.setting schema input operation bindings).RootEnds limit rootType data notes ∧
      document.executeWithin limit (schema.mapCalls h) input =
        { response :=
            { data := some data, errors := (Note.errors notes).map document.shown }
          events := Note.events notes } := by
  have hgives := @Setting.gives_resolveRoot (document.setting schema input operation bindings) h
    hreplies limit rootType
  obtain ⟨notes, hends, herrors, hevents⟩ := hgives.run
  refine ⟨_, notes, hends, ?_⟩
  have hbindings' : Variables.coerce (schema.mapCalls h) operation.variableDefinitions
      input.variableValues = .ok bindings := by
    rw [Variables.coerce_mapCalls, hbindings]
  have hroot' : (schema.mapCalls h).rootType? operation.operation = some (rootType.mapCalls h) := by
    rw [Schema.rootType?_mapCalls, hroot]
    rfl
  unfold executeWithin
  rw [hoperation]
  simp only [hbindings', Execution.ofSetting, hroot', Execution.inDocument]
  rw [← hevents, ← herrors]
  simp only [List.map_map]
  rfl

theorem exists_rootEnds (limit : ℕ)
    (hoperation : document.chooseOperation input.operationName = .ok operation)
    (hbindings : Variables.coerce schema operation.variableDefinitions input.variableValues =
      .ok bindings)
    (hroot : schema.rootType? operation.operation = some rootType) :
    ∃ data notes,
      (document.setting schema input operation bindings).RootEnds limit rootType data notes ∧
      document.executeWithin limit schema input =
        { response :=
            { data := some data, errors := (Note.errors notes).map document.shown }
          events := Note.events notes } := by
  have hends := exists_rootEnds_mapCalls Setting.repliesAlike_id limit hoperation hbindings hroot
  rwa [Schema.mapCalls_id] at hends

/-- What there is when a response has data. -/
theorem exists_of_data {limit : ℕ} {data : Json}
    (hdata : (document.executeWithin limit schema input).response.data = some data) :
    ∃ operation bindings, document.chooseOperation input.operationName = .ok operation ∧
      Variables.coerce schema operation.variableDefinitions input.variableValues = .ok bindings ∧
      (schema.rootType? operation.operation = none →
        data = .null ∧ (document.executeWithin limit schema input).events = []) := by
  unfold executeWithin at hdata ⊢
  cases hoperation : document.chooseOperation input.operationName with
  | error fault =>
      rw [hoperation] at hdata
      cases hdata
  | ok operation =>
      simp only [hoperation] at hdata
      cases hbindings : Variables.coerce schema operation.variableDefinitions
          input.variableValues with
      | error errors =>
          rw [hbindings] at hdata
          cases hdata
      | ok bindings =>
          refine ⟨operation, bindings, rfl, hbindings, fun hroot => ?_⟩
          simp only [hbindings, Execution.ofSetting, hroot] at hdata ⊢
          cases hdata
          exact ⟨rfl, rfl⟩

end Document

end GraphQL
