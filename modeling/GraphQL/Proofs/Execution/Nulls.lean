import GraphQL.Proofs.Execution.Accounts

/-!
# Where nulls stand

The data of a response have the shape of the field maps, and null stands only where the type
allows it, except for scalars of the host that are serialized to null: whether a value is null is
asked before it is completed, and what a serializer makes of it is not looked at again (`Fits`).

A value that is null where it must not be takes with it all up to the next place where null may
stand (`Stopped`), or the data as a whole, and there is an error there or below.
-/

namespace GraphQL

/-- What a value of the data is expected to be. -/
inductive Expected where
  /-- Some selections of a field, or an item of their value. -/
  | typed (type : TypeRef) (nodes : List Field)
  /-- The fields of an object. -/
  | fields (objectType : TypeDef) (groups : FieldGroups)

namespace Task

/-- The type by which the value of a part is completed. -/
def type? : Task → Option TypeRef
  | field _ _ d _ _ => some d.type
  | value _ type _ _ | orNull type _ => some type
  | object .. => none

/-- The type that says whether null may stand somewhere is the one of the value. -/
def WellTyped : Task → Prop
  | orNull type task => task.type? = some type ∧ task.WellTyped
  | _ => True

end Task

namespace Setting

variable (setting : Setting)

/-- The fields that are selected of an object in the place of some selections. -/
def subgroups (objectType : TypeDef) (nodes : List Field) : FieldGroups :=
  setting.groupsOf objectType (nodes.filterMap (·.selectionSet))

/-- The value is one that may stand there: it has the shape of its type and of the selections,
and is null only if the type allows it or a serializer of the host made it null. -/
inductive Fits : Expected → Json → Prop
  | null {type : TypeRef} {nodes : List Field} (h : type.isNullable = true) :
      Fits (.typed type nodes) .null
  | serialized {type : TypeRef} {nodes : List Field} {value : Json}
      (h : setting.schema.SerializesToNull type value) : Fits (.typed type nodes) .null
  | leaf {name : String} {nullable : Bool} {nodes : List Field} {info : ResolveInfo}
      {value leaf : Json} (h : setting.target info name value = .ok (.leaf leaf))
      (hleaf : leaf ≠ .null) : Fits (.typed (.named name nullable) nodes) leaf
  | list {item : TypeRef} {nullable : Bool} {nodes : List Field} {values : List Json}
      (h : ∀ value ∈ values, Fits (.typed item nodes) value) :
      Fits (.typed (.list item nullable) nodes) (.array values)
  | object {name : String} {nullable : Bool} {nodes : List Field} {info : ResolveInfo}
      {value data : Json} {t : TypeDef} (htarget : setting.target info name value = .ok (.object t))
      (h : Fits (.fields t (setting.subgroups t nodes)) data) :
      Fits (.typed (.named name nullable) nodes) data
  | members {t : TypeDef} {groups : FieldGroups} {members : Json.Members}
      (hkeys : members.map (·.1) = (setting.selectedFields t groups).map (·.1))
      (h : ∀ key d nodes value, ((key, d, nodes), value) ∈
        (setting.selectedFields t groups).zip (members.map (·.2)) → Fits (.typed d.type nodes) value) :
      Fits (.fields t groups) (.object members)

variable {setting} {n m : ℕ} {task : Task} {path : List PathSegment} {result : Completion}
  {notes more : List Note} {whole : Whole} {parts : Parts} {outcomes : Job.Outcomes Completion}

/-- Null stands in the place of a type that does not allow it only for a scalar of the host. -/
theorem Fits.serializesToNull {type : TypeRef} {nodes : List Field}
    (h : setting.Fits (.typed type nodes) .null) (htype : type.isNullable = false) :
    ∃ value, setting.schema.SerializesToNull type value := by
  cases h with
  | null hnullable => simp [htype] at hnullable
  | serialized h => exact ⟨_, h⟩
  | leaf _ hleaf => exact absurd rfl hleaf
  | object _ h => cases h

/-! ## The values of parts -/

variable (setting) in
/-- The values that a part may have. -/
def Admits : Task → Json → Prop
  | .field _ _ d nodes _, value => setting.Fits (.typed d.type nodes) value
  | .value info type _ _, value => setting.Fits (.typed type info.fieldNodes) value
  | .object info t _ _, value => setting.Fits (.fields t (setting.subgroups t info.fieldNodes)) value
  | .orNull type task, value => type.isNullable = true ∧ value = .null ∨ Admits task value

theorem Moves.admits_done {value : Json} (h : setting.Moves n task notes m (.done (.ok value))) :
    setting.Admits task value := by
  generalize hdone : Continuation.done (.ok value) = c at h
  cases h with
  | @null _ info type path =>
      cases hnullable : type.isNullable with
      | false => simp [hnullable] at hdone
      | true =>
          obtain rfl : value = .null := by simpa [hnullable] using hdone
          exact .null hnullable
  | leaf hnull htarget =>
      cases hdone
      by_cases hleaf : value = .null
      · subst hleaf
        exact .serialized (serializesToNull_of_target hnull htarget)
      · exact .leaf htarget hleaf
  | refused | failed | resolved | notAList | items | misfit | object | tooDeep | wrongObject
  | members => cases hdone

theorem Moves.admits_goOn {next : Task} {value : Json}
    (h : setting.Moves n task notes m (.goOn next)) (hvalue : setting.Admits next value) :
    setting.Admits task value := by
  cases h with
  | resolved => exact hvalue
  | object _ htarget => exact .object htarget hvalue

theorem admits_orNull {type : TypeRef} {nodes : List Field} {value : Json}
    (hvalue : type.isNullable = true ∧ value = .null ∨ setting.Fits (.typed type nodes) value) :
    setting.Fits (.typed type nodes) value := by
  rcases hvalue with ⟨hnullable, rfl⟩ | hvalue
  · exact .null hnullable
  · exact hvalue

/-- The members of an object have the keys of the fields, and their values. -/
theorem fits_members {t : TypeDef} {source : Json} {groups : FieldGroups} {value : Json}
    (hfound : setting.Found n (setting.members t source path groups) outcomes more)
    (h : assembled .object (setting.members t source path groups) outcomes = .ok value)
    (hparts : ∀ part outcome, (part, outcome) ∈ (setting.members t source path groups).zip outcomes →
      ∀ data, outcome.1 = .ok data → setting.Admits part.2 data) :
    setting.Fits (.fields t groups) value := by
  rw [assembled_members] at h
  cases hresults : outcomes.values.mapM id with
  | error e => simp [hresults, Except.map] at h
  | ok values =>
      obtain rfl := Except.ok.inj (hresults ▸ h)
      have hlength : values.length = (setting.selectedFields t groups).length := by
        simpa [members] using hfound.length_values hresults
      refine .members (List.map_fst_zip (by simp [hlength])) ?_
      intro key d nodes data hmem
      rw [List.map_snd_zip (by simp [hlength])] at hmem
      have hpart : ((.key key, .orNull d.type (.field t source d nodes (path ++ [.key key]))), data) ∈
          (setting.members t source path groups).zip values := by
        rw [members, List.zip_map_left]
        exact List.mem_map.mpr ⟨_, hmem, rfl⟩
      obtain ⟨notes, houtcome⟩ := exists_outcome_of_mem_zip hresults hpart
      exact admits_orNull (hparts _ _ houtcome data rfl)

theorem fits_items {info : ResolveInfo} {item : TypeRef} {nullable : Bool} {given : List Json}
    {value : Json} (hfound : setting.Found n (items info item path given) outcomes more)
    (h : assembled .array (items info item path given) outcomes = .ok value)
    (hparts : ∀ part outcome, (part, outcome) ∈ (items info item path given).zip outcomes →
      ∀ data, outcome.1 = .ok data → setting.Admits part.2 data) :
    setting.Fits (.typed (.list item nullable) info.fieldNodes) value := by
  unfold assembled at h
  cases hresults : outcomes.values.mapM id with
  | error e => simp [hresults, Except.map] at h
  | ok values =>
      have hlength := hfound.length_values hresults
      obtain rfl : Whole.array.build (((items info item path given).map (·.1)).zip values) = value :=
        Except.ok.inj (hresults ▸ h)
      rw [Whole.build, List.map_snd_zip (by simp [hlength])]
      refine .list fun data hdata => ?_
      obtain ⟨i, hi, rfl⟩ := List.mem_iff_getElem.mp hdata
      have hi' : i < (items info item path given).length := hlength ▸ hi
      have hzip : ((items info item path given)[i], values[i]) ∈
          (items info item path given).zip values :=
        List.mem_iff_getElem.mpr ⟨i, by simp; omega, by simp⟩
      obtain ⟨notes, houtcome⟩ := exists_outcome_of_mem_zip hresults hzip
      have hadmits := hparts _ _ houtcome _ rfl
      simp only [items, List.getElem_map] at hadmits
      exact admits_orNull hadmits

theorem Moves.admits_parts {value : Json} (h : setting.Moves n task notes m (.parts whole parts))
    (hfound : setting.Found m parts outcomes more)
    (hvalue : assembled whole parts outcomes = .ok value)
    (hparts : ∀ part outcome, (part, outcome) ∈ parts.zip outcomes →
      ∀ data, outcome.1 = .ok data → setting.Admits part.2 data) :
    setting.Admits task value := by
  cases h with
  | items => exact fits_items hfound hvalue hparts
  | members => exact fits_members hfound hvalue hparts

/-- A part that has a value has one that may stand there. -/
theorem Ends.admits (h : setting.Ends n task result notes) (value : Json)
    (hvalue : result = .ok value) : setting.Admits task value := by
  induction h generalizing value with
  | done hmoves => exact (hvalue ▸ hmoves).admits_done
  | goOn hmoves _ ih => exact hmoves.admits_goOn (ih value hvalue)
  | parts outcomes hmoves hlength hparts hmore ih =>
      have hfound : setting.Found _ _ outcomes _ :=
        ⟨hlength.ge, fun _ _ => hlength.symm, hparts, hmore⟩
      exact hmoves.admits_parts hfound hvalue fun part outcome hmem data hdata =>
        ih part outcome hmem data hdata
  | @orNull n type task result notes hends ih =>
      cases result with
      | ok data =>
          obtain rfl : data = value := Except.ok.inj hvalue
          exact .inr (ih data rfl)
      | error e =>
          cases hnullable : type.isNullable with
          | false => simp [contained, hnullable] at hvalue
          | true =>
              obtain rfl : value = .null := by simpa [contained, hnullable, eq_comm] using hvalue
              exact .inl ⟨hnullable, rfl⟩

/-! ## Types of places -/

theorem Moves.wellTyped_goOn {next : Task} (h : setting.Moves n task notes m (.goOn next)) :
    next.WellTyped := by
  cases h <;> trivial

/-- Parts that stand at the places of a whole, each of them with null in its place if its type
allows it. -/
structure Laid (path : List PathSegment) (whole : Whole) (parts : Parts) : Prop where
  seats : whole.Seats (parts.map (·.1))
  path : ∀ part ∈ parts, part.2.path = path ++ [part.1]
  orNull : ∀ part ∈ parts, ∃ type task, part.2 = .orNull type task ∧ part.2.WellTyped

theorem laid_members {parent objectType : TypeDef} {source : Json} {sets : List SelectionSet} :
    Laid path .object
      (setting.members parent source path (setting.groupsOf objectType sets)) where
  seats := seats_members
  path _ hpart := path_of_mem_members hpart
  orNull _ hpart := by
    obtain ⟨_, -, rfl⟩ := List.mem_map.mp hpart
    exact ⟨_, _, rfl, rfl, trivial⟩

theorem Moves.laid (h : setting.Moves n task notes m (.parts whole parts)) :
    Laid task.path whole parts := by
  cases h with
  | items =>
      refine ⟨seats_items, fun part hpart => ?_, fun part hpart => ?_⟩
      · obtain ⟨_, -, rfl⟩ := List.mem_map.mp hpart
        rfl
      · obtain ⟨_, -, rfl⟩ := List.mem_map.mp hpart
        exact ⟨_, _, rfl, rfl, trivial⟩
  | members => exact laid_members

/-- What is noted for one of several parts has a place below the whole. -/
theorem Laid.path_ne {note : Note} (hlaid : Laid path whole parts)
    (hfound : setting.Found n parts outcomes more) (hnote : note ∈ more) : note.path ≠ path := by
  obtain ⟨part, outcome, hmem, hnote⟩ := hfound.mem_iff.mp hnote
  have hbelow := (hfound.ends part outcome hmem).isBelow.notes note hnote
  rw [hlaid.path part (List.of_mem_zip hmem).1] at hbelow
  intro heq
  have hlength := hbelow.length_le
  rw [heq, List.length_append, List.length_singleton] at hlength
  omega

/-- A value is completed by the type of its place. -/
theorem Ends.type?_of_completing {type : TypeRef} {value : Json}
    (h : setting.Ends n task result notes) (hwell : task.WellTyped)
    (hevent : .event (.completing task.path type value) ∈ notes) : task.type? = some type := by
  have hown {n m : ℕ} {task : Task} {notes : List Note} {c : Continuation}
      (hmoves : setting.Moves n task notes m c)
      (hevent : .event (.completing task.path type value) ∈ notes) : task.type? = some type := by
    obtain ⟨info, htask⟩ := hmoves.eq_value_of_completing hevent
    rw [htask]
    rfl
  induction h with
  | done hmoves => exact hown hmoves hevent
  | goOn hmoves hnext ih =>
      rcases List.mem_append.mp hevent with hevent | hevent
      · exact hown hmoves hevent
      · have htype := ih hmoves.wellTyped_goOn (hmoves.path_of_goOn ▸ hevent)
        cases hmoves with
        | resolved => exact htype
        | object => cases htype
  | parts outcomes hmoves hlength hparts hmore =>
      rcases List.mem_append.mp hevent with hevent | hevent
      · exact hown hmoves hevent
      · have hfound : setting.Found _ _ outcomes _ :=
          ⟨hlength.ge, fun _ _ => hlength.symm, hparts, hmore⟩
        exact absurd rfl (hmoves.laid.path_ne hfound hevent)
  | @orNull n type' task result notes hends ih =>
      obtain ⟨htype, hwell⟩ := hwell
      exact htype.symm.trans (ih hwell (event_mem_contained_iff.mp hevent))

/-- Where a value is completed somewhere below a place, the value of the place is completed. -/
theorem Ends.exists_completing {q : List PathSegment} {type type' : TypeRef} {value : Json}
    (h : setting.Ends n task result notes) (hwell : task.WellTyped) (htype : task.type? = some type)
    (hevent : .event (.completing q type' value) ∈ notes) :
    ∃ value, .event (.completing task.path type value) ∈ notes := by
  have hown {n m : ℕ} {task : Task} {notes : List Note} {c : Continuation}
      (hmoves : setting.Moves n task notes m c) (htype : task.type? = some type)
      (hevent : .event (.completing q type' value) ∈ notes) :
      ∃ value, .event (.completing task.path type value) ∈ notes := by
    obtain ⟨info, htask⟩ := hmoves.eq_value_of_completing hevent
    subst htask
    cases htype
    exact ⟨value, hevent⟩
  induction h with
  | done hmoves => exact hown hmoves htype hevent
  | goOn hmoves hnext ih =>
      rcases List.mem_append.mp hevent with hevent | hevent
      · obtain ⟨value, hvalue⟩ := hown hmoves htype hevent
        exact ⟨value, List.mem_append_left _ hvalue⟩
      · cases hmoves with
        | resolved =>
            obtain ⟨value, hvalue⟩ := ih trivial htype hevent
            exact ⟨value, List.mem_append_right _ hvalue⟩
        | object =>
            cases htype
            exact ⟨_, List.mem_cons_self⟩
  | parts outcomes hmoves =>
      cases hmoves with
      | items =>
          cases htype
          exact ⟨_, List.mem_cons_self⟩
      | members => cases htype
  | @orNull n type task result notes hends ih =>
      cases htype
      obtain ⟨htype, hwell⟩ := hwell
      obtain ⟨value, hvalue⟩ := ih hwell htype (event_mem_contained_iff.mp hevent)
      exact ⟨value, List.mem_append_left _ hvalue⟩

/-! ## How far an error goes -/

/-- Nothing is completed by a type that allows null on the way from one place down to another. -/
def Unstopped (above below : List PathSegment) (notes : List Note) : Prop :=
  ∀ p type value, .event (.completing p type value) ∈ notes → above <+: p → p ≠ above →
    p <+: below → type.isNullable = false

/-- On the way from one place up to another, null stands at the next place that allows it, or
above, and there is an error at that place or below it. -/
structure StoppedAt (path below : List PathSegment) (result : Completion) (notes : List Note)
    (stop : List PathSegment) : Prop where
  nullable : ∃ type value, .event (.completing stop type value) ∈ notes ∧ type.isNullable = true
  above : stop <+: below
  ne : stop ≠ below
  next : Unstopped stop below notes
  error : ∃ e ∈ Note.errors notes, stop <+: e.path
  null : ∀ value, result = .ok value → ∃ rest, path ++ rest <+: stop ∧ value.at? rest = some .null

/-- Each null that is completed by a type that does not allow it is stopped, or the part has no
value because of it. -/
def Stops (path : List PathSegment) (result : Completion) (notes : List Note) : Prop :=
  ∀ below type, .event (.completing below type .null) ∈ notes → type.isNullable = false →
    (∃ e, result = .error e) ∧ Unstopped path below notes ∨
      ∃ stop, StoppedAt path below result notes stop

theorem Unstopped.of_moves {c : Continuation} {above below : List PathSegment}
    (hmoves : setting.Moves n task notes m c) (habove : task.path <+: above)
    (h : Unstopped above below more) : Unstopped above below (notes ++ more) := by
  intro p type value hevent hp hne hbelow
  rcases List.mem_append.mp hevent with hown | hevent
  · have hpath : p = task.path := hmoves.path_of_mem hown
    exact absurd (hp.eq_of_length_le (hpath ▸ habove.length_le)).symm hne
  · exact h p type value hevent hp hne hbelow

/-- What is noted first for a part does not stop an error. -/
theorem StoppedAt.of_moves {c : Continuation} {below stop : List PathSegment}
    (hmoves : setting.Moves n task notes m c) (hbelow : Below task.path result more)
    (h : StoppedAt task.path below result more stop) :
    StoppedAt task.path below result (notes ++ more) stop := by
  obtain ⟨type, value, hevent, hnullable⟩ := h.nullable
  obtain ⟨e, he, hpath⟩ := h.error
  refine ⟨⟨type, value, List.mem_append_right _ hevent, hnullable⟩, h.above, h.ne, ?_, ⟨e, ?_, hpath⟩,
    h.null⟩
  · exact h.next.of_moves hmoves (hbelow.notes _ hevent)
  · rw [Note.errors_append]
    exact List.mem_append_right _ he

theorem Stops.of_moves {c : Continuation} (hmoves : setting.Moves n task notes m c)
    (hbelow : Below task.path result more)
    (hresult : ∀ info type path, task = .value info type path .null → type.isNullable = false →
      ∃ e, result = .error e)
    (h : Stops task.path result more) : Stops task.path result (notes ++ more) := by
  intro below type hevent htype
  rcases List.mem_append.mp hevent with hown | hevent
  · obtain rfl : below = task.path := hmoves.path_of_mem hown
    obtain ⟨info, htask⟩ := hmoves.eq_value_of_completing hown
    refine .inl ⟨hresult info type _ htask htype, ?_⟩
    intro p type value _ hp hne hbelow
    exact absurd (hp.eq_of_length_le hbelow.length_le).symm hne
  · rcases h below type hevent htype with ⟨herror, hunstopped⟩ | ⟨stop, hstop⟩
    · exact .inl ⟨herror, hunstopped.of_moves hmoves (List.prefix_refl _)⟩
    · exact .inr ⟨stop, hstop.of_moves hmoves hbelow⟩

theorem Moves.stops_done (h : setting.Moves n task notes m (.done result)) :
    Stops task.path result notes := by
  have hbelow : Below task.path result [] := by
    refine ⟨by simp, fun e he => ?_⟩
    subst he
    exact h.path_of_done ▸ List.prefix_refl _
  have hstops : Stops task.path result (notes ++ []) := by
    refine .of_moves h hbelow ?_ fun _ _ hevent => by cases hevent
    rintro info type path rfl htype
    cases h with
    | null => exact ⟨_, by rw [htype]; rfl⟩
    | notAList hnull | misfit hnull | leaf hnull => exact absurd rfl hnull
  rwa [List.append_nil] at hstops

/-! ### Null instead of an error -/

theorem Unstopped.of_error {above below : List PathSegment} {e : FieldError}
    (h : Unstopped above below notes) : Unstopped above below (notes ++ [.error e]) :=
  fun p type value hevent => h p type value (by simpa using hevent)

/-- Where an error goes no further, what was stopped below it is now below a null. -/
theorem StoppedAt.of_error {below stop : List PathSegment} {e : FieldError} (hstop : path <+: stop)
    (h : StoppedAt path below (.error e) notes stop) :
    StoppedAt path below (.ok .null) (notes ++ [.error e]) stop := by
  obtain ⟨type, value, hevent, hnullable⟩ := h.nullable
  obtain ⟨e', he', hpath⟩ := h.error
  refine ⟨⟨type, value, List.mem_append_left _ hevent, hnullable⟩, h.above, h.ne, h.next.of_error,
    ⟨e', ?_, hpath⟩, ?_⟩
  · rw [Note.errors_append]
    exact List.mem_append_left _ he'
  · rintro value heq
    cases heq
    exact ⟨[], by rwa [List.append_nil], rfl⟩

theorem Stops.orNull {type : TypeRef} (hends : setting.Ends n task result notes)
    (hwell : task.WellTyped) (htype : task.type? = some type) (h : Stops task.path result notes) :
    Stops (Task.orNull type task).path (contained type result).1
      (notes ++ (contained type result).2) := by
  cases result with
  | ok value =>
      rw [contained, List.append_nil]
      exact h
  | error e =>
      cases hnullable : type.isNullable with
      | false =>
          have hcontained : contained type (.error e) = (.error e, []) := by
            simp [contained, hnullable]
          rw [hcontained, List.append_nil]
          exact h
      | true =>
          have hcontained : contained type (.error e) = (.ok .null, [.error e]) := by
            simp [contained, hnullable]
          intro below type' hevent hnonnull
          have hevent := event_mem_contained_iff.mp hevent
          rw [hcontained]
          right
          rcases h below type' hevent hnonnull with ⟨-, hunstopped⟩ | ⟨stop, hstop⟩
          · -- The place of the part itself is the next one that allows null.
            obtain ⟨value, hvalue⟩ := hends.exists_completing hwell htype hevent
            refine ⟨task.path, ⟨type, value, List.mem_append_left _ hvalue, hnullable⟩,
              hends.isBelow.notes _ hevent, ?_, hunstopped.of_error,
              ⟨e, ?_, hends.isBelow.error e rfl⟩, ?_⟩
            · rintro rfl
              have hsame := htype.symm.trans (hends.type?_of_completing hwell hevent)
              cases hsame
              simp [hnullable] at hnonnull
            · rw [Note.errors_append]
              exact List.mem_append_right _ List.mem_cons_self
            · rintro value heq
              cases heq
              exact ⟨[], by rw [List.append_nil]; exact List.prefix_refl _, rfl⟩
          · obtain ⟨type, value, hvalue, -⟩ := hstop.nullable
            have habove : task.path <+: stop := hends.isBelow.notes _ hvalue
            exact ⟨stop, hstop.of_error habove⟩

/-! ### Several parts -/

/-- What is noted on the way to a place below a part is noted for that part. -/
theorem Laid.mem_of_above {part : PathSegment × Task} {outcome : Completion × List Note}
    {note : Note} {below : List PathSegment} (hlaid : Laid path whole parts)
    (hfound : setting.Found n parts outcomes more) (hmem : (part, outcome) ∈ parts.zip outcomes)
    (hpart : path ++ [part.1] <+: below) (hnote : note ∈ more) (habove : note.path <+: below) :
    note ∈ outcome.2 := by
  obtain ⟨part', outcome', hmem', hnote'⟩ := hfound.mem_iff.mp hnote
  have hpath' := (hfound.ends part' outcome' hmem').isBelow.notes note hnote'
  rw [hlaid.path part' (List.of_mem_zip hmem').1] at hpath'
  have hsegment : part.1 = part'.1 := segment_eq_of_above hpart (hpath'.trans habove)
  have hsame := List.inj_on_of_nodup_map (nodup_segments hlaid.seats.nodup) hmem hmem' hsegment
  cases hsame
  exact hnote'

/-- An error is left only where null must not stand. -/
theorem Ends.isNullable_of_error {type : TypeRef} {e : FieldError}
    (h : setting.Ends n (.orNull type task) (.error e) notes) : type.isNullable = false := by
  generalize hresult : Except.error e = result at h
  cases h with
  | done hmoves => cases hmoves
  | goOn hmoves => cases hmoves
  | parts outcomes hmoves => cases hmoves
  | @orNull _ _ _ result =>
      cases hnullable : type.isNullable with
      | false => rfl
      | true => cases result <;> simp [contained, hnullable] at hresult

theorem Stops.assembled (hlaid : Laid path whole parts)
    (hfound : setting.Found n parts outcomes more)
    (hparts : ∀ part outcome, (part, outcome) ∈ parts.zip outcomes →
      Stops part.2.path outcome.1 outcome.2) :
    Stops path (assembled whole parts outcomes) more := by
  intro below type hevent htype
  obtain ⟨part, outcome, hmem, hnote⟩ := hfound.mem_iff.mp hevent
  have hpath := hlaid.path part (List.of_mem_zip hmem).1
  have hbelow := (hfound.ends part outcome hmem).isBelow.notes _ hnote
  rw [hpath] at hbelow
  have hown {p : List PathSegment} {type : TypeRef} {value : Json}
      (hevent : .event (.completing p type value) ∈ more) (hp : p <+: below) :
      .event (.completing p type value) ∈ outcome.2 :=
    hlaid.mem_of_above hfound hmem hbelow hevent hp
  rcases hparts part outcome hmem below type hnote htype with
    ⟨⟨e, he⟩, hunstopped⟩ | ⟨stop, hstop⟩
  · refine .inl ⟨?_, ?_⟩
    · cases hresult : Setting.assembled whole parts outcomes with
      | error e => exact ⟨e, rfl⟩
      | ok value =>
          obtain ⟨data, hdata, -⟩ := exists_child?_of_assembled hlaid.seats hfound hresult _ _ hmem
          cases he.symm.trans hdata
    · intro p type value hevent hp hne hpbelow
      have hevent := hown hevent hpbelow
      by_cases hplace : p = part.2.path
      · have hends := hfound.ends part outcome hmem
        obtain ⟨type', task', hpart, hwell⟩ := hlaid.orNull part (List.of_mem_zip hmem).1
        have htype := hends.type?_of_completing hwell (hplace ▸ hevent)
        rw [hpart] at htype
        cases htype
        rw [he, hpart] at hends
        exact hends.isNullable_of_error
      · have hpart := (hfound.ends part outcome hmem).isBelow.notes _ hevent
        exact hunstopped p type value hevent hpart hplace hpbelow
  · obtain ⟨type, value, hvalue, hstopType⟩ := hstop.nullable
    obtain ⟨e, he, herror⟩ := hstop.error
    refine .inr ⟨stop, ⟨type, value, hfound.mem_iff.mpr ⟨_, _, hmem, hvalue⟩, hstopType⟩,
      hstop.above, hstop.ne, ?_, ⟨e, ?_, herror⟩, ?_⟩
    · intro p type value hevent hp hne hpbelow
      exact hstop.next p type value (hown hevent hpbelow) hp hne hpbelow
    · exact Note.mem_errors_iff.mpr (hfound.mem_iff.mpr ⟨_, _, hmem, Note.mem_errors_iff.mp he⟩)
    · intro value hvalue
      obtain ⟨data, hdata, hchild⟩ :=
        exists_child?_of_assembled hlaid.seats hfound hvalue _ _ hmem
      obtain ⟨rest, hrest, hnull⟩ := hstop.null data hdata
      refine ⟨part.1 :: rest, ?_, ?_⟩
      · rw [hpath, List.append_assoc] at hrest
        exact hrest
      · rw [Json.at?, hchild]
        exact hnull

/-- The nulls of a part that must not be there are stopped. -/
theorem Ends.stops (h : setting.Ends n task result notes) (hwell : task.WellTyped) :
    Stops task.path result notes := by
  induction h with
  | done hmoves => exact hmoves.stops_done
  | goOn hmoves hnext ih =>
      have hpath := hmoves.path_of_goOn
      refine .of_moves hmoves (hpath ▸ hnext.isBelow) ?_ (hpath ▸ ih hmoves.wellTyped_goOn)
      rintro info type path rfl
      cases hmoves with
      | object hnull => exact absurd rfl hnull
  | parts outcomes hmoves hlength hparts hmore ih =>
      have hfound : setting.Found _ _ outcomes _ :=
        ⟨hlength.ge, fun _ _ => hlength.symm, hparts, hmore⟩
      have hbelow := (Ends.parts outcomes hmoves hlength hparts hmore).isBelow
      refine .of_moves hmoves ⟨fun note hnote => hbelow.notes note (List.mem_append_right _ hnote),
        hbelow.error⟩ ?_ (.assembled hmoves.laid hfound fun part outcome hmem =>
          have ⟨_, _, _, hwell⟩ := hmoves.laid.orNull part (List.of_mem_zip hmem).1
          ih part outcome hmem hwell)
      rintro info type path rfl
      cases hmoves
  | orNull hends ih => exact .orNull hends hwell.2 hwell.1 (ih hwell.2)

/-! ## Whole operations -/

theorem RootEnds.fits {limit : ℕ} {rootType : TypeDef} {data : Json}
    (h : setting.RootEnds limit rootType data notes) :
    data = .null ∨ setting.Fits
      (.fields rootType (setting.groupsOf rootType [setting.operation.selectionSet])) data := by
  cases h with
  | @settle outcomes notes htogether =>
      have hfound := found_of_together htogether
      cases hresult : assembled .object (setting.rootParts rootType) outcomes with
      | error e => exact .inl rfl
      | ok value =>
          refine .inr (fits_members hfound hresult fun part outcome hmem data hdata => ?_)
          exact (hfound.ends part outcome hmem).admits data hdata

/-- What is noted for an operation has a place below that of the data. -/
theorem Found.path_ne_nil {rootType : TypeDef} {note : Note}
    (hfound : setting.Found n (setting.rootParts rootType) outcomes notes) (hnote : note ∈ notes) :
    note.path ≠ [] :=
  laid_members.path_ne hfound hnote

theorem RootEnds.stops {limit : ℕ} {rootType : TypeDef} {data : Json} {below : List PathSegment}
    {type : TypeRef} (h : setting.RootEnds limit rootType data notes)
    (hevent : .event (.completing below type .null) ∈ notes) (htype : type.isNullable = false) :
    data = .null ∧ below ≠ [] ∧ Unstopped [] below notes ∧ Note.errors notes ≠ [] ∨
      ∃ stop, StoppedAt [] below (.ok data) notes stop := by
  cases h with
  | @settle outcomes notes htogether =>
      have hfound := found_of_together htogether
      have hlaid : Laid [] .object (setting.rootParts rootType) := laid_members
      have hstops : Stops [] (assembled .object (setting.rootParts rootType) outcomes) notes := by
        refine .assembled hlaid hfound fun part outcome hmem => ?_
        obtain ⟨_, _, _, hwell⟩ := hlaid.orNull part (List.of_mem_zip hmem).1
        exact (hfound.ends part outcome hmem).stops hwell
      cases hresult : assembled .object (setting.rootParts rootType) outcomes with
      | ok value =>
          rw [hresult] at hstops hevent
          rw [settled, List.append_nil] at hevent ⊢
          rcases hstops below type hevent htype with ⟨⟨e, he⟩, -⟩ | hstop
          · cases he
          · exact .inr hstop
      | error e =>
          rw [hresult] at hstops hevent
          have hevent : .event (.completing below type .null) ∈ notes := by
            simpa [settled] using hevent
          rcases hstops below type hevent htype with ⟨-, hunstopped⟩ | ⟨stop, hstop⟩
          · refine .inl ⟨rfl, hfound.path_ne_nil hevent, hunstopped.of_error, ?_⟩
            simp [settled, Note.errors, Note.error?]
          · exact .inr ⟨stop, hstop.of_error List.nil_prefix⟩

end Setting

/-! ## The response -/

/-- From a place in the data upwards, null stands at the next place that allows it, or above that,
or in the place of all data; and there is an error at the place or below it. -/
structure Execution.StopsAt (execution : Execution) (data : Json) (below stop : List PathSegment) :
    Prop where
  nullable : stop = [] ∨
    ∃ type value, .completing stop type value ∈ execution.events ∧ type.isNullable = true
  above : stop <+: below
  ne : stop ≠ below
  next : ∀ path type value, .completing path type value ∈ execution.events → stop <+: path →
    path ≠ stop → path <+: below → type.isNullable = false
  null : ∃ path, path <+: stop ∧ data.at? path = some .null
  error : ∃ e ∈ execution.response.errors, ∃ path, e.path = some path ∧ stop <+: path

namespace Document

variable {document : Document} {schema : Schema} {input : ExecutionInput} {data : Json}

/-- The data are null or as the root type and the selections say, with null only where it is
allowed and for scalars that are serialized to null, and a null that must not be there takes the
next place with it that allows null. -/
theorem data_fits_and_nulls_stop (limit : ℕ)
    (hdata : (document.executeWithin limit schema input).response.data = some data) :
    (data = .null ∨ ∃ operation bindings rootType,
      document.chooseOperation input.operationName = .ok operation ∧
      Variables.coerce schema operation.variableDefinitions input.variableValues = .ok bindings ∧
      schema.rootType? operation.operation = some rootType ∧
      (document.setting schema input operation bindings).Fits (.fields rootType
        ((document.setting schema input operation bindings).groupsOf rootType
          [operation.selectionSet])) data) ∧
    ∀ below type, .completing below type .null ∈ (document.executeWithin limit schema input).events →
      type.isNullable = false →
      ∃ stop, (document.executeWithin limit schema input).StopsAt data below stop := by
  obtain ⟨operation, bindings, hoperation, hbindings, hnone⟩ := exists_of_data hdata
  cases hroot : schema.rootType? operation.operation with
  | none =>
      obtain ⟨rfl, hevents⟩ := hnone hroot
      refine ⟨.inl rfl, fun below type hevent => ?_⟩
      rw [hevents] at hevent
      cases hevent
  | some rootType =>
      obtain ⟨_, notes, hends, hexecution⟩ := exists_rootEnds limit hoperation hbindings hroot
      rw [hexecution] at hdata ⊢
      cases hdata
      refine ⟨?_, fun below type hevent htype => ?_⟩
      · refine hends.fits.imp_right fun hfits => ?_
        exact ⟨operation, bindings, rootType, hoperation, hbindings, hroot, hfits⟩
      · have hevents {path : List PathSegment} {type : TypeRef} {value : Json} :
            .completing path type value ∈ Note.events notes ↔
              .event (.completing path type value) ∈ notes := Note.mem_events_iff
        rcases hends.stops (hevents.mp hevent) htype with
          ⟨rfl, hne, hunstopped, herrors⟩ | ⟨stop, hstop⟩
        · -- Nothing stopped it, so all data are null.
          obtain ⟨e, he⟩ := List.exists_mem_of_ne_nil _ herrors
          refine ⟨[], .inl rfl, List.nil_prefix, hne.symm, ?_, ⟨[], List.nil_prefix, rfl⟩,
            ⟨_, List.mem_map_of_mem he, e.path, rfl, List.nil_prefix⟩⟩
          exact fun path type value hevent => hunstopped path type value (hevents.mp hevent)
        · obtain ⟨type, value, hvalue, hnullable⟩ := hstop.nullable
          obtain ⟨e, he, herror⟩ := hstop.error
          obtain ⟨rest, hrest, hnull⟩ := hstop.null data rfl
          refine ⟨stop, .inr ⟨type, value, hevents.mpr hvalue, hnullable⟩, hstop.above, hstop.ne, ?_,
            ⟨rest, hrest, hnull⟩, ⟨_, List.mem_map_of_mem he, e.path, rfl, herror⟩⟩
          exact fun path type value hevent => hstop.next path type value (hevents.mp hevent)

/-! ### An example -/

/-- A scalar that is serialized to null. -/
def muteType : TypeDef where
  name := "Mute"
  origin := .host 0
  body := .scalar { serialize := some fun _ => .ok .null }

/-- A field that must not be null, of that scalar. -/
def mutedType : TypeDef where
  name := "Query"
  origin := .host 1
  body := .object { fields := [
    ("f", { name := "f", type := .named "Mute" false,
            resolver := some (.host fun _ memory => ({ outcome := .ok (.int 1) }, memory)) })] }

def mutedSchema : Schema where
  directives := []
  queryType := mutedType
  mutationType := none
  subscriptionType := none
  types := [("Query", mutedType), ("Mute", muteType)]
  possible := []

def mutedDocument : Document where
  definitions := [.operation {
    operation := .query
    name := none
    variableDefinitions := []
    directives := []
    selectionSet := ⟨[.field {
      responseName := none
      name := ⟨"f", none⟩
      arguments := []
      directives := []
      selectionSet := none }], none⟩ }]

/-- Null stands where the type does not allow it, and nothing stops it. -/
theorem data_fits_and_nulls_stop_of_muted :
    (mutedDocument.executeWithin 1 mutedSchema {}).response.data = some (.object [("f", .null)]) ∧
    ((Json.object [("f", .null)] = .null ∨ ∃ operation bindings rootType,
      mutedDocument.chooseOperation none = .ok operation ∧
      Variables.coerce mutedSchema operation.variableDefinitions [] = .ok bindings ∧
      mutedSchema.rootType? operation.operation = some rootType ∧
      (mutedDocument.setting mutedSchema {} operation bindings).Fits (.fields rootType
        ((mutedDocument.setting mutedSchema {} operation bindings).groupsOf rootType
          [operation.selectionSet])) (.object [("f", .null)])) ∧
    ∀ below type, .completing below type .null ∈
        (mutedDocument.executeWithin 1 mutedSchema {}).events →
      type.isNullable = false →
      ∃ stop, (mutedDocument.executeWithin 1 mutedSchema {}).StopsAt
        (.object [("f", .null)]) below stop) := by
  have hdata : (mutedDocument.executeWithin 1 mutedSchema {}).response.data =
      some (.object [("f", .null)]) := by cbv
  exact ⟨hdata, data_fits_and_nulls_stop 1 hdata⟩

end Document

end GraphQL
