import GraphQL.Proofs.Execution.Paths
import GraphQL.Proofs.Execution.Schedules

/-!
# Errors and nulls

Where something has no value, null stands instead, or the error goes on to what is around it.  So
the errors that are noted and the nulls of the data account for each other (`Accounted`): no two
errors have one path, each error is at or below a null, and each null in the place of a value
that is not null has an error at or below it, unless a scalar was serialized to null.

What holds of the parts holds of the whole (`Accounted.assembled`), also when only some of the
parts were looked at because one of them had an error.  The main statement is
`errors_account_for_nulls`.
-/

namespace GraphQL

/-- The value is one that a serializer of the host makes null. -/
def Schema.SerializesToNull (schema : Schema) (type : TypeRef) (value : Json) : Prop :=
  ∃ name nullable t d serialize, type = .named name nullable ∧ schema.type? name = some t ∧
    t.body = .scalar d ∧ d.serialize = some serialize ∧ serialize value = .ok .null

/-- The error that is left instead of a value. -/
def Completion.errors : Completion → List FieldError
  | .ok _ => []
  | .error e => [e]

theorem Completion.mem_errors_iff {result : Completion} {e : FieldError} :
    e ∈ Completion.errors result ↔ result = .error e := by
  cases result with
  | ok value => simp [errors]
  | error e' => simp [errors, eq_comm]

namespace Setting

variable {setting : Setting} {n m : ℕ} {task : Task} {path : List PathSegment}
  {result : Completion} {notes more : List Note}

/-- The errors that were noted for a part, the one that is left, and the nulls in its value
account for each other. -/
structure Accounted (schema : Schema) (path : List PathSegment) (result : Completion)
    (notes : List Note) : Prop where
  /-- No two errors have one path. -/
  distinct : ((Note.errors notes ++ Completion.errors result).map (·.path)).Nodup
  /-- Each error that was noted is at or below a null. -/
  null : ∀ value, result = .ok value → ∀ e ∈ Note.errors notes,
    ∃ rest, path ++ rest <+: e.path ∧ value.at? rest = some .null
  /-- Each null instead of a value that is not null has an error at or below it. -/
  covered : ∀ value, result = .ok value → ∀ rest type v,
    .event (.completing (path ++ rest) type v) ∈ notes → v ≠ .null →
    value.at? rest = some .null →
      (∃ e ∈ Note.errors notes, path ++ rest <+: e.path) ∨ schema.SerializesToNull type v

/-! ## A single part -/

/-- A leaf that is null where a value is not was serialized to null. -/
theorem serializesToNull_of_target {info : ResolveInfo} {name : String} {nullable : Bool}
    {value : Json} (hvalue : value ≠ .null)
    (h : setting.target info name value = .ok (.leaf .null)) :
    setting.schema.SerializesToNull (.named name nullable) value := by
  unfold target at h
  split at h
  · cases h
  rename_i t ht
  split at h
  · cases hruntime : setting.schema.runtimeType t value info <;> simp [hruntime, Except.map] at h
  split at h
  · cases h
  cases hleaf : completeLeaf t value with
  | error fault => simp [hleaf, Except.map] at h
  | ok leaf =>
      obtain rfl : leaf = .null := by simpa [hleaf, Except.map] using h
      unfold completeLeaf at hleaf
      split at hleaf
      · rename_i d hbody
        cases hserialize : d.serialize with
        | none =>
            simp [ScalarDef.toResponse, hserialize, Except.mapError] at hleaf
            exact absurd hleaf hvalue
        | some serialize =>
            refine ⟨name, nullable, t, d, serialize, rfl, ht, hbody, hserialize, ?_⟩
            simp only [ScalarDef.toResponse, hserialize] at hleaf
            cases hresult : serialize value <;> simp_all [Except.mapError]
      · rename_i d hbody
        unfold EnumDef.toResponse at hleaf
        split at hleaf <;> simp [Except.mapError] at hleaf
      · cases hleaf

theorem Moves.eq_nil_of_completing {c : Continuation} {rest : List PathSegment} {type : TypeRef}
    {v : Json} (h : setting.Moves n task notes m c)
    (hevent : .event (.completing (task.path ++ rest) type v) ∈ notes) : rest = [] := by
  have hpath : task.path ++ rest = task.path := h.path_of_mem hevent
  simpa using hpath

theorem Moves.accounted_done (h : setting.Moves n task notes m (.done result)) :
    Accounted setting.schema task.path result notes := by
  have herrors := h.errors_eq_nil
  refine ⟨?_, fun value hvalue e he => ?_, ?_⟩
  · rw [herrors]
    cases result <;> simp [Completion.errors]
  · rw [herrors] at he
    cases he
  · rintro value rfl rest type v hevent hv hnull
    obtain rfl := h.eq_nil_of_completing hevent
    obtain rfl : value = .null := by simpa [Json.at?] using hnull
    obtain ⟨info, htask⟩ := h.eq_value_of_completing hevent
    rw [List.append_nil] at htask
    generalize task.path = path at htask
    subst htask
    right
    generalize hdone : Continuation.done (.ok .null) = c at h
    cases h with
    | null => exact absurd rfl hv
    | leaf _ htarget =>
        cases hdone
        exact serializesToNull_of_target hv htarget
    | notAList | items | misfit | object => cases hdone

/-- What is put together of parts is not null. -/
theorem ne_null_of_assembled {whole : Whole} {parts : Parts} {outcomes : Job.Outcomes Completion}
    {value : Json} (h : assembled whole parts outcomes = .ok value) : value ≠ .null := by
  unfold assembled at h
  cases hvalues : outcomes.values.mapM id with
  | error e => simp [hvalues, Except.map] at h
  | ok values =>
      obtain rfl := Except.ok.inj (hvalues ▸ h)
      cases whole <;> simp [Whole.build]

theorem Ends.ne_null_of_object {info : ResolveInfo} {t : TypeDef} {value data : Json}
    (h : setting.Ends n (.object info t path value) (.ok data) notes) : data ≠ .null := by
  generalize hresult : Except.ok data = result at h
  cases h with
  | done hmoves => cases hmoves <;> cases hresult
  | goOn hmoves => cases hmoves
  | parts outcomes => exact ne_null_of_assembled hresult.symm

/-- A value that is not null in the end does not become null for what is noted first. -/
theorem Accounted.of_moves {c : Continuation} (hmoves : setting.Moves n task notes m c)
    (hresult : ∀ info type v, task = .value info type task.path v → result ≠ .ok .null)
    (h : Accounted setting.schema task.path result more) :
    Accounted setting.schema task.path result (notes ++ more) := by
  have herrors : Note.errors (notes ++ more) = Note.errors more := by
    rw [Note.errors_append, hmoves.errors_eq_nil, List.nil_append]
  refine ⟨herrors ▸ h.distinct, herrors ▸ h.null, ?_⟩
  rintro value rfl rest type v hevent hv hnull
  rw [herrors]
  rcases List.mem_append.mp hevent with hown | hevent
  · obtain rfl := hmoves.eq_nil_of_completing hown
    obtain rfl : value = .null := by simpa [Json.at?] using hnull
    obtain ⟨info, htask⟩ := hmoves.eq_value_of_completing hown
    rw [List.append_nil] at htask
    exact absurd rfl (hresult info type v htask)
  · exact h.covered value rfl rest type v hevent hv hnull

theorem Accounted.goOn {next : Task} (hmoves : setting.Moves n task notes m (.goOn next))
    (hends : setting.Ends m next result more)
    (h : Accounted setting.schema next.path result more) :
    Accounted setting.schema task.path result (notes ++ more) := by
  refine .of_moves hmoves ?_ (hmoves.path_of_goOn ▸ h)
  rintro info type v htask rfl
  generalize task.path = path at htask
  subst htask
  cases hmoves with
  | object => exact hends.ne_null_of_object rfl

/-! ## Null instead of an error -/

theorem Accounted.contained (h : Accounted setting.schema path result notes)
    (hbelow : Below path result notes) (type : TypeRef) :
    Accounted setting.schema path (contained type result).1
      (notes ++ (contained type result).2) := by
  cases result with
  | ok value =>
      rw [Setting.contained, List.append_nil]
      exact h
  | error e =>
      cases hnullable : type.isNullable with
      | false =>
          have hcontained : Setting.contained type (.error e) = (.error e, []) := by
            simp [Setting.contained, hnullable]
          rw [hcontained, List.append_nil]
          exact h
      | true =>
          have hcontained : Setting.contained type (.error e) = (.ok .null, [.error e]) := by
            simp [Setting.contained, hnullable]
          have herrors : Note.errors (notes ++ [.error e]) = Note.errors notes ++ [e] :=
            Note.errors_append notes [.error e]
          rw [hcontained]
          -- All of what was below the null has its errors there.
          have hpath : ∀ e' ∈ Note.errors notes ++ [e], path <+: e'.path := by
            intro e' hmem
            rcases List.mem_append.mp hmem with hmem | hmem
            · exact hbelow.notes _ (Note.mem_errors_iff.mp hmem)
            · obtain rfl := List.mem_singleton.mp hmem
              exact hbelow.error e' rfl
          refine ⟨?_, ?_, ?_⟩
          · rw [herrors]
            simpa [Completion.errors] using h.distinct
          · rintro value heq e' hmem
            cases heq
            rw [herrors] at hmem
            exact ⟨[], by simpa using hpath e' hmem, rfl⟩
          · rintro value heq rest t v - - hnull
            cases heq
            obtain ⟨rfl, -⟩ := Json.null_at?_eq_some_iff.mp hnull
            refine .inl ⟨e, ?_, by simpa using hbelow.error e rfl⟩
            simp [herrors]

/-! ## Several parts -/

/-- Of the steps at one place only one leads to something below it. -/
theorem segment_eq_of_above {segment segment' : PathSegment} {below : List PathSegment}
    (h : path ++ [segment] <+: below) (h' : path ++ [segment'] <+: below) :
    segment = segment' := by
  obtain ⟨rest, rfl⟩ := h
  obtain ⟨rest', heq⟩ := h'
  simp only [List.append_assoc, List.append_cancel_left_eq, List.cons_append, List.nil_append,
    List.cons.injEq] at heq
  exact heq.1.symm

section

variable {whole : Whole} {parts : Parts} {outcomes : Job.Outcomes Completion}

/-- The errors of some parts, noted and left: that of the whole is one of them. -/
theorem errors_assembled_subperm (hfound : setting.Found n parts outcomes more) :
    (Note.errors more ++ Completion.errors (assembled whole parts outcomes)).Subperm
      (outcomes.flatMap fun outcome => Note.errors outcome.2 ++ Completion.errors outcome.1) := by
  have hnoted : (Note.errors more).Perm (outcomes.flatMap fun outcome => Note.errors outcome.2) := by
    have herrors := hfound.notes.filterMap Note.error?
    rwa [Job.Outcomes.notes, List.filterMap_flatMap] at herrors
  have hleft : (Completion.errors (assembled whole parts outcomes)).Sublist
      (outcomes.flatMap fun outcome => Completion.errors outcome.1) := by
    cases hresult : assembled whole parts outcomes with
    | ok value => exact List.nil_sublist _
    | error e =>
        obtain ⟨outcome, hmem, houtcome⟩ := exists_error_of_assembled hresult
        refine List.singleton_sublist.mpr (List.mem_flatMap.mpr ⟨outcome, hmem, ?_⟩)
        simp [houtcome, Completion.errors]
  exact ((hnoted.append_right _).subperm.trans
    ((List.Sublist.append (.refl _) hleft).subperm)).trans
      (List.flatMap_append_perm outcomes _ _).subperm

theorem nodup_segments (hseats : (parts.map (·.1)).Nodup) :
    ((parts.zip outcomes).map (·.1.1)).Nodup := by
  rw [List.Nodup, List.pairwise_map, List.pairwise_iff_getElem]
  intro i j hi hj hij
  rw [List.length_zip] at hi hj
  have hne := List.pairwise_iff_getElem.mp (List.pairwise_map.mp hseats) i j (by omega) (by omega)
    hij
  simpa using hne

/-- The errors of different parts have different paths. -/
theorem nodup_paths_of_parts (hseats : (parts.map (·.1)).Nodup)
    (hlength : outcomes.length ≤ parts.length)
    (hbelow : ∀ part outcome, (part, outcome) ∈ parts.zip outcomes →
      Below (path ++ [part.1]) outcome.1 outcome.2)
    (hparts : ∀ part outcome, (part, outcome) ∈ parts.zip outcomes →
      ((Note.errors outcome.2 ++ Completion.errors outcome.1).map (·.path)).Nodup) :
    ((outcomes.flatMap fun outcome =>
      Note.errors outcome.2 ++ Completion.errors outcome.1).map (·.path)).Nodup := by
  have hzip : outcomes = (parts.zip outcomes).map (·.2) := (List.map_snd_zip hlength).symm
  rw [hzip, List.flatMap_map, List.map_flatMap, List.nodup_flatMap]
  refine ⟨fun ⟨part, outcome⟩ hmem => hparts part outcome hmem, ?_⟩
  have hdistinct := List.pairwise_map.mp (@nodup_segments _ outcomes hseats)
  refine hdistinct.imp_of_mem ?_
  rintro ⟨part, outcome⟩ ⟨part', outcome'⟩ hmem hmem' hne
  have hpath {part : PathSegment × Task} {outcome : Completion × List Note} {p : List PathSegment}
      (hmem : (part, outcome) ∈ parts.zip outcomes)
      (hp : p ∈ (Note.errors outcome.2 ++ Completion.errors outcome.1).map (·.path)) :
      path ++ [part.1] <+: p := by
    obtain ⟨e, he, rfl⟩ := List.mem_map.mp hp
    rcases List.mem_append.mp he with he | he
    · exact (hbelow part outcome hmem).notes _ (Note.mem_errors_iff.mp he)
    · exact (hbelow part outcome hmem).error e (Completion.mem_errors_iff.mp he)
  intro p hp hp'
  exact hne (segment_eq_of_above (hpath hmem hp) (hpath hmem' hp'))

/-- The values of the parts are found in that of the whole. -/
theorem exists_child?_of_assembled {value : Json} (hseats : whole.Seats (parts.map (·.1)))
    (hfound : setting.Found n parts outcomes more)
    (h : assembled whole parts outcomes = .ok value) (part : PathSegment × Task)
    (outcome : Completion × List Note) (hmem : (part, outcome) ∈ parts.zip outcomes) :
    ∃ data, outcome.1 = .ok data ∧ value.child? part.1 = some data := by
  unfold assembled at h
  cases hresults : outcomes.values.mapM id with
  | error e => simp [hresults, Except.map] at h
  | ok values =>
      obtain rfl := Except.ok.inj (hresults ▸ h)
      have hlength := hfound.length_values hresults
      obtain ⟨data, hdata, hvalue⟩ := exists_value_of_mem_zip hresults hmem
      refine ⟨data, hdata, Whole.child?_build hseats (by simp [hlength]) ?_⟩
      rw [List.zip_map_left]
      exact List.mem_map.mpr ⟨_, hvalue, rfl⟩

/-- Where the errors and the nulls of the parts account for each other, those of the whole do. -/
theorem Accounted.assembled {schema : Schema} (hseats : whole.Seats (parts.map (·.1)))
    (hfound : setting.Found n parts outcomes more)
    (hbelow : ∀ part outcome, (part, outcome) ∈ parts.zip outcomes →
      Below (path ++ [part.1]) outcome.1 outcome.2)
    (hparts : ∀ part outcome, (part, outcome) ∈ parts.zip outcomes →
      Accounted schema (path ++ [part.1]) outcome.1 outcome.2) :
    Accounted schema path (assembled whole parts outcomes) more := by
  refine ⟨?_, ?_, ?_⟩
  · have hnodup := nodup_paths_of_parts hseats.nodup hfound.length_le hbelow
      fun part outcome hmem => (hparts part outcome hmem).distinct
    obtain ⟨errors, hperm, hsublist⟩ := errors_assembled_subperm hfound
    exact (hperm.map _).nodup_iff.mp ((hsublist.map _).nodup hnodup)
  · intro value hvalue e he
    obtain ⟨part, outcome, hmem, hnote⟩ := hfound.mem_iff.mp (Note.mem_errors_iff.mp he)
    obtain ⟨data, hdata, hchild⟩ := exists_child?_of_assembled hseats hfound hvalue _ _ hmem
    obtain ⟨rest, hpath, hnull⟩ :=
      (hparts _ _ hmem).null data hdata e (Note.mem_errors_iff.mpr hnote)
    refine ⟨part.1 :: rest, by simpa using hpath, ?_⟩
    rw [Json.at?, hchild]
    exact hnull
  · intro value hvalue rest type v hevent hv hnull
    obtain ⟨part, outcome, hmem, hnote⟩ := hfound.mem_iff.mp hevent
    obtain ⟨data, hdata, hchild⟩ := exists_child?_of_assembled hseats hfound hvalue _ _ hmem
    obtain ⟨rest', hrest⟩ : path ++ [part.1] <+: path ++ rest := (hbelow _ _ hmem).notes _ hnote
    obtain rfl : part.1 :: rest' = rest := by simpa using hrest
    rw [Json.at?, hchild] at hnull
    have hcovered := (hparts _ _ hmem).covered data hdata rest' type v (by simpa using hnote) hv hnull
    refine hcovered.imp_left ?_
    rintro ⟨e, he, hpath⟩
    exact ⟨e, Note.mem_errors_iff.mpr (hfound.mem_iff.mpr ⟨_, _, hmem, Note.mem_errors_iff.mp he⟩),
      by simpa using hpath⟩

end

/-- The notes of a part and its nulls account for each other. -/
theorem Ends.accounted (h : setting.Ends n task result notes) :
    Accounted setting.schema task.path result notes := by
  induction h with
  | done hmoves => exact hmoves.accounted_done
  | goOn hmoves hnext ih => exact .goOn hmoves hnext ih
  | parts outcomes hmoves hlength hparts hmore ih =>
      have hfound : setting.Found _ _ outcomes _ :=
        ⟨hlength.ge, fun _ _ => hlength.symm, hparts, hmore⟩
      have hpath {part : PathSegment × Task} {outcome : Completion × List Note}
          (hmem : (part, outcome) ∈ List.zip _ outcomes) := hmoves.path_of_parts (List.of_mem_zip hmem).1
      refine .of_moves hmoves (fun _ _ _ _ h => ne_null_of_assembled h rfl) ?_
      refine .assembled hmoves.seats hfound (fun part outcome hmem => ?_)
        (fun part outcome hmem => ?_)
      · exact hpath hmem ▸ (hparts part outcome hmem).isBelow
      · exact hpath hmem ▸ ih part outcome hmem
  | orNull h ih => exact ih.contained h.isBelow _

/-! ## Whole operations -/

theorem Accounted.settled (h : Accounted setting.schema path result notes)
    (hbelow : Below path result notes) :
    Accounted setting.schema path (.ok (settled result).1) (notes ++ (settled result).2) := by
  -- The data of a response are null where a nullable value would be.
  have hsettled : Setting.contained (.named "" true) result =
      (.ok (Setting.settled result).1, (Setting.settled result).2) := by
    cases result <;> rfl
  have haccounted := h.contained hbelow (.named "" true)
  rwa [hsettled] at haccounted

theorem RootEnds.accounted {limit : ℕ} {rootType : TypeDef} {data : Json}
    (h : setting.RootEnds limit rootType data notes) :
    Accounted setting.schema [] (.ok data) notes := by
  cases h with
  | @settle outcomes notes htogether =>
      have hfound := found_of_together htogether
      have hpath {part : PathSegment × Task} {outcome : Completion × List Note}
          (hmem : (part, outcome) ∈ (setting.rootParts rootType).zip outcomes) :
          part.2.path = [part.1] :=
        path_of_mem_members (List.of_mem_zip hmem).1
      have hbelow (part : PathSegment × Task) (outcome : Completion × List Note)
          (hmem : (part, outcome) ∈ (setting.rootParts rootType).zip outcomes) :
          Below ([] ++ [part.1]) outcome.1 outcome.2 :=
        hpath hmem ▸ (hfound.ends part outcome hmem).isBelow
      have haccounted : Accounted setting.schema []
          (Setting.assembled .object (setting.rootParts rootType) outcomes) notes := by
        refine .assembled seats_members hfound hbelow fun part outcome hmem => ?_
        exact hpath hmem ▸ (hfound.ends part outcome hmem).accounted
      have hroot : Below [] (Setting.assembled .object (setting.rootParts rootType) outcomes)
          ([] ++ notes) := .assembled (by simp) hfound.length_le hbelow hfound.notes
      exact haccounted.settled hroot

end Setting

/-! ## The response -/

/-- The errors and the data of a response account for each other. -/
structure Execution.Accounted (execution : Execution) (schema : Schema) (data : Json) : Prop where
  path : ∀ e ∈ execution.response.errors, e.path.isSome
  distinct : (execution.response.errors.map (·.path)).Nodup
  /-- An error is at or below a null of the data. -/
  null : ∀ e ∈ execution.response.errors, ∀ path, e.path = some path →
    ∃ above, above <+: path ∧ data.at? above = some .null
  /-- Where a value that is not null became null, there is an error at or below it. -/
  covered : ∀ path type value, .completing path type value ∈ execution.events → value ≠ .null →
    data.at? path = some .null →
      (∃ e ∈ execution.response.errors, ∃ below, e.path = some below ∧ path <+: below) ∨
        schema.SerializesToNull type value

namespace Document

variable {document : Document} {schema : Schema} {input : ExecutionInput}
  {operation : OperationDefinition} {bindings : Json.Members} {rootType : TypeDef}

/-- Nothing is lost from the data without an error, and no error is about data that are there. -/
theorem errors_account_for_nulls (limit : ℕ)
    (hoperation : document.chooseOperation input.operationName = .ok operation)
    (hbindings : Variables.coerce schema operation.variableDefinitions input.variableValues =
      .ok bindings)
    (hroot : schema.rootType? operation.operation = some rootType) :
    ∃ data, (document.executeWithin limit schema input).response.data = some data ∧
      (document.executeWithin limit schema input).Accounted schema data := by
  obtain ⟨data, notes, hends, hexecution⟩ := exists_rootEnds limit hoperation hbindings hroot
  have haccounted := hends.accounted
  rw [hexecution]
  have hshown : (Note.errors notes).map (fun e => (document.shown e).path) =
      ((Note.errors notes).map (·.path)).map some := by
    rw [List.map_map]
    rfl
  refine ⟨data, rfl, ⟨?_, ?_, ?_, ?_⟩⟩
  · intro e he
    obtain ⟨e, -, rfl⟩ := List.mem_map.mp he
    rfl
  · have hdistinct := haccounted.distinct
    rw [Completion.errors, List.append_nil] at hdistinct
    rw [List.map_map]
    exact hshown ▸ hdistinct.map (Option.some_injective _)
  · intro e he path hpath
    obtain ⟨e, hnoted, rfl⟩ := List.mem_map.mp he
    cases hpath
    obtain ⟨above, habove, hnull⟩ := haccounted.null data rfl e hnoted
    exact ⟨above, habove, hnull⟩
  · intro path type value hevent hvalue hnull
    have hcovered := haccounted.covered data rfl path type value (Note.mem_events_iff.mp hevent)
      hvalue hnull
    refine hcovered.imp_left ?_
    rintro ⟨e, he, hpath⟩
    exact ⟨_, List.mem_map_of_mem he, _, rfl, hpath⟩

/-- A field that fails, and another one that does not. -/
theorem errors_account_for_nulls_of_refusal :
    echoDocument.chooseOperation none = .ok echoOperation ∧
      Variables.coerce echoSchema [] [] = .ok [] ∧
      echoSchema.rootType? .query = some echoType ∧
      ∃ data, (echoDocument.executeWithin 1 echoSchema {}).response.data = some data ∧
        (echoDocument.executeWithin 1 echoSchema {}).Accounted echoSchema data :=
  ⟨rfl, rfl, rfl, errors_account_for_nulls 1 rfl rfl rfl⟩

end Document

end GraphQL
