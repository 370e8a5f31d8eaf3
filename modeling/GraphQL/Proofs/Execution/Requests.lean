import Mathlib
import GraphQL.Proofs.Execution.Endings
import GraphQL.Proofs.Execution.FieldMaps

/-!
# Fields that are asked for

The parts of a response are those that the operation asks for (`Setting.Asks`): fields of the
field maps, their values, and the objects among these.  What is done first for one of them keeps
to that (`Asks.of_goOn`, `Asks.of_parts`), so whatever happens is done first for such a part
(`RootEnds.exists_moves`).  In particular every call of a resolver is made for a group of a field
map, with the values of its arguments (`RootEnds.calledFor`).

Each part is asked for at its path.  Where it is below fields with resolvers, these have been
called: `noted` holds of the events that are known to have happened.
-/

namespace GraphQL

/-- The keys on a path, without the indices of lists. -/
def keysOf (path : List PathSegment) : List String :=
  path.filterMap fun
    | .key key => some key
    | .index _ => none

@[simp] theorem keysOf_append (path rest : List PathSegment) :
    keysOf (path ++ rest) = keysOf path ++ keysOf rest :=
  List.filterMap_append

@[simp] theorem keysOf_key (key : String) : keysOf [.key key] = [key] := rfl

@[simp] theorem keysOf_indices (indices : List ℕ) : keysOf (indices.map .index) = [] := by
  induction indices with
  | nil => rfl
  | cons i rest ih => exact ih

/-- Whether a resolver is called with parameters of the given kind. -/
def Event.isCallWith (p : ResolveParams → Bool) : Event → Bool
  | called params => p params
  | _ => false

namespace Setting

variable (setting : Setting) (noted : Event → Prop)

/-- The fields form a group of a field map for objects of the type, which have the field as it
is defined by `d`. -/
def Groups (t : TypeDef) (nodes : List Field) (d : FieldDef) : Prop :=
  ∃ groups key node rest, setting.FieldMap t groups ∧ (key, nodes) ∈ groups ∧
    nodes = node :: rest ∧ setting.definition? t node = some d

/-- If the field has a resolver, it has been called for the path. -/
def HasCalled (path : List PathSegment) (d : FieldDef) : Prop :=
  d.resolver ≠ none → ∃ params, noted (.called params) ∧ params.info.path = path ∧
    params.info.fieldName = d.name

/-- The field maps with the paths of the objects that they are for. -/
inductive FieldMapAt : List PathSegment → TypeDef → FieldGroups → Prop where
  | root {t : TypeDef} (ht : setting.schema.rootType? setting.operation.operation = some t) :
      FieldMapAt [] t (setting.groupsOf t [setting.operation.selectionSet])
  | next {path : List PathSegment} {outer object : TypeDef} {groups : FieldGroups} {key : String}
      {node : Field} {nodes : List Field} {d : FieldDef} (h : FieldMapAt path outer groups)
      (hgroup : (key, node :: nodes) ∈ groups) (hd : setting.definition? outer node = some d)
      (hcalled : HasCalled noted (path ++ [.key key]) d)
      (hobject : setting.schema.Occupies object.name d.type) (indices : List ℕ) :
      FieldMapAt (path ++ [.key key] ++ indices.map .index) object
        (setting.groupsOf object ((node :: nodes).filterMap (·.selectionSet)))

/-- The fields form a group, and stand at the path. -/
def GroupsAt (path : List PathSegment) (t : TypeDef) (nodes : List Field) (d : FieldDef) : Prop :=
  ∃ outer groups key node rest, setting.FieldMapAt noted outer t groups ∧ (key, nodes) ∈ groups ∧
    nodes = node :: rest ∧ setting.definition? t node = some d ∧ path = outer ++ [.key key]

/-- The part is a field of a field map, or its value, or an object among that. -/
inductive Asks : Task → Prop
  | field {parent : TypeDef} {source : Json} {d : FieldDef} {nodes : List Field}
      {path : List PathSegment} (h : setting.GroupsAt noted path parent nodes d) :
      Asks (.field parent source d nodes path)
  | value {parent : TypeDef} {d : FieldDef} {info : ResolveInfo} {type : TypeRef}
      {path : List PathSegment} {value : Json}
      (h : setting.GroupsAt noted path parent info.fieldNodes d) (hcalled : HasCalled noted path d)
      (htype : type.innermostName = d.type.innermostName) (indices : List ℕ)
      (hwhole : indices = [] → type = d.type) :
      Asks (.value info type (path ++ indices.map .index) value)
  | object {parent t : TypeDef} {d : FieldDef} {info : ResolveInfo} {path : List PathSegment}
      {value : Json} (h : setting.GroupsAt noted path parent info.fieldNodes d)
      (hcalled : HasCalled noted path d) (hobject : setting.schema.Occupies t.name d.type)
      (indices : List ℕ) : Asks (.object info t (path ++ indices.map .index) value)
  | orNull {type : TypeRef} {task : Task} (h : Asks task) : Asks (.orNull type task)

variable {setting noted} {n m : ℕ} {task : Task} {notes : List Note} {path : List PathSegment}

theorem FieldMapAt.fieldMap {t : TypeDef} {groups : FieldGroups}
    (h : setting.FieldMapAt noted path t groups) : setting.FieldMap t groups := by
  induction h with
  | root ht => exact .root ht
  | next _ hgroup hd _ hobject _ ih => exact .next ih hgroup hd hobject

theorem GroupsAt.groups {t : TypeDef} {nodes : List Field} {d : FieldDef}
    (h : setting.GroupsAt noted path t nodes d) : setting.Groups t nodes d := by
  obtain ⟨outer, groups, key, node, rest, hmap, hgroup, hnodes, hd, -⟩ := h
  exact ⟨groups, key, node, rest, hmap.fieldMap, hgroup, hnodes, hd⟩

/-- The fields that groups of a field map select of an object are asked for. -/
theorem asks_of_mem_members {t : TypeDef} {source : Json} {groups : FieldGroups}
    {part : PathSegment × Task} (h : setting.FieldMapAt noted path t groups)
    (hpart : part ∈ setting.members t source path groups) : setting.Asks noted part.2 := by
  obtain ⟨⟨key, d, nodes⟩, hselected, rfl⟩ := List.mem_map.mp hpart
  obtain ⟨node, rest, hnodes, hgroup, hd⟩ := exists_of_mem_selectedFields hselected
  exact .orNull (.field ⟨path, groups, key, node, rest, h, hgroup, hnodes, hd, rfl⟩)

/-- An object that a value is completed as may be the value. -/
theorem occupies_of_target {info : ResolveInfo}
    {name : String} {value : Json} {t : TypeDef} {type : TypeRef}
    (h : setting.target info name value = .ok (.object t)) (hname : name = type.innermostName) :
    setting.schema.Occupies t.name type := by
  subst hname
  unfold target at h
  split at h
  · cases h
  rename_i u hu
  split at h
  · cases hruntime : setting.schema.runtimeType u value info with
    | error fault => simp [hruntime, Except.map] at h
    | ok object =>
        obtain rfl : object = t := by simpa [hruntime, Except.map] using h
        refine ⟨u, hu, Or.inr ?_⟩
        obtain ⟨name?, -, hruntime⟩ := Schema.exists_of_bind hruntime
        split at hruntime
        · cases hruntime
        · split at hruntime
          · rename_i hpossible
            obtain rfl := Except.ok.inj hruntime
            exact hpossible
          · cases hruntime
  · split at h
    · rename_i hobject
      obtain rfl : u = t := by simpa using h
      exact ⟨u, hu, Or.inl ⟨hobject, rfl⟩⟩
    · cases hleaf : completeLeaf u value <;> simp [hleaf, Except.map] at h

/-- What happens when a field is resolved. -/
theorem Answers.hasCalled {d : FieldDef} {params : ResolveParams} {outcome : Except String Json}
    (h : setting.Answers d params outcome notes) (hname : params.info.fieldName = d.name)
    (hnoted : ∀ event, .event event ∈ notes → noted event) :
    HasCalled noted params.info.path d := by
  intro hresolver
  cases h with
  | plain h => exact (hresolver h).elim
  | introspection | host => exact ⟨params, hnoted _ List.mem_cons_self, rfl, hname⟩

theorem Asks.of_goOn {next : Task} (h : setting.Asks noted task)
    (hmoves : setting.Moves n task notes m (.goOn next))
    (hnoted : ∀ event, .event event ∈ notes → noted event) : setting.Asks noted next := by
  cases hmoves with
  | @resolved _ _ _ d _ path _ _ _ _ hanswers =>
      cases h with
      | field h =>
          have hcalled : HasCalled noted path d := hanswers.hasCalled rfl hnoted
          have hvalue : path ++ ([] : List ℕ).map .index = path := List.append_nil path
          exact hvalue ▸ .value h hcalled rfl [] fun _ => rfl
  | object _ htarget =>
      cases h with
      | value h hcalled htype indices =>
          exact .object h hcalled (occupies_of_target htarget htype) indices

theorem Asks.of_parts {whole : Whole} {parts : Parts} (h : setting.Asks noted task)
    (hmoves : setting.Moves n task notes m (.parts whole parts)) :
    ∀ part ∈ parts, setting.Asks noted part.2 := by
  intro part hpart
  cases hmoves with
  | @items _ _ item =>
      cases h with
      | @value _ d _ _ path _ h hcalled htype indices =>
          obtain ⟨⟨value, i⟩, -, rfl⟩ := List.mem_map.mp hpart
          have htype : item.innermostName = d.type.innermostName := htype
          have hitem : path ++ (indices ++ [i]).map .index =
              path ++ indices.map .index ++ [.index i] := by
            rw [List.map_append, List.append_assoc]
            rfl
          exact .orNull (hitem ▸ .value h hcalled htype (indices ++ [i]) (by simp))
  | members =>
      cases h with
      | object h hcalled hobject indices =>
          obtain ⟨outer, groups, key, node, rest, hmap, hgroup, hnodes, hd, rfl⟩ := h
          rw [subfields, hnodes] at hpart
          exact asks_of_mem_members (.next hmap (hnodes ▸ hgroup) hd hcalled hobject indices) hpart

/-! ## Events -/

/-- Whatever happens is done first for a part that is asked for. -/
theorem Ends.exists_moves {result : Completion} {event : Event}
    (hends : setting.Ends n task result notes) (h : setting.Asks noted task)
    (hnoted : ∀ event, .event event ∈ notes → noted event) (hevent : .event event ∈ notes) :
    ∃ n m task added c, setting.Asks noted task ∧ setting.Moves n task added m c ∧
      (∀ event, .event event ∈ added → noted event) ∧ .event event ∈ added := by
  induction hends with
  | done hmoves => exact ⟨_, _, _, _, _, h, hmoves, hnoted, hevent⟩
  | goOn hmoves _ ih =>
      have hfirst := fun event hmem => hnoted event (List.mem_append_left _ hmem)
      rcases List.mem_append.mp hevent with hevent | hevent
      · exact ⟨_, _, _, _, _, h, hmoves, hfirst, hevent⟩
      · exact ih (h.of_goOn hmoves hfirst) (fun event hmem => hnoted event
          (List.mem_append_right _ hmem)) hevent
  | parts outcomes hmoves hlength hparts hmore ih =>
      rcases List.mem_append.mp hevent with hevent | hevent
      · exact ⟨_, _, _, _, _, h, hmoves,
          fun event hmem => hnoted event (List.mem_append_left _ hmem), hevent⟩
      · obtain ⟨outcome, houtcome, hnote⟩ := List.mem_flatMap.mp (hmore.mem_iff.mp hevent)
        have houtcomes := houtcome
        rw [← List.map_snd_zip hlength.ge] at houtcome
        obtain ⟨⟨part, _⟩, hpair, rfl⟩ := List.mem_map.mp houtcome
        have hasks := h.of_parts hmoves part (List.of_mem_zip hpair).1
        refine ih part _ hpair hasks (fun event hmem => hnoted event ?_) hnote
        exact List.mem_append_right _
          (hmore.mem_iff.mpr (List.mem_flatMap.mpr ⟨_, houtcomes, hmem⟩))
  | orNull _ ih =>
      cases h with
      | orNull h =>
          exact ih h (fun event hmem => hnoted event (List.mem_append_left _ hmem))
            (event_mem_contained_iff.mp hevent)

/-- Whatever happens in an operation is done first for a part that the operation asks for. -/
theorem RootEnds.exists_moves {limit : ℕ} {rootType : TypeDef} {data : Json} {event : Event}
    (hroot : setting.schema.rootType? setting.operation.operation = some rootType)
    (hends : setting.RootEnds limit rootType data notes)
    (hnoted : ∀ event, .event event ∈ notes → noted event) (hevent : .event event ∈ notes) :
    ∃ n m task added c, setting.Asks noted task ∧ setting.Moves n task added m c ∧
      (∀ event, .event event ∈ added → noted event) ∧ .event event ∈ added := by
  cases hends with
  | settle htogether =>
      rw [← Note.mem_events_iff, Note.events_append, events_settled, List.append_nil,
        Note.mem_events_iff] at hevent
      have hfound := found_of_together htogether
      obtain ⟨part, outcome, hpair, hnote⟩ := hfound.mem_iff.mp hevent
      have hasks : setting.Asks noted part.2 :=
        asks_of_mem_members (.root hroot) (List.of_mem_zip hpair).1
      refine (hfound.ends part outcome hpair).exists_moves hasks (fun event hmem => ?_) hnote
      exact hnoted event (List.mem_append_left _ (hfound.mem_iff.mpr ⟨part, outcome, hpair, hmem⟩))

/-! ## Calls -/

variable (setting) in
/-- The call of a resolver for a group of fields, with the values of its arguments. -/
def CalledFor (params : ResolveParams) : Prop :=
  ∃ parent source d nodes path args, setting.Groups parent nodes d ∧
    setting.arguments d nodes = .ok args ∧
    params = setting.params parent source d nodes path args

theorem Answers.eq_of_called {d : FieldDef} {params other : ResolveParams}
    {outcome : Except String Json} (h : setting.Answers d params outcome notes)
    (hcalled : .event (.called other) ∈ notes) : other = params := by
  cases h <;> simp_all

/-- A resolver is called when the field is resolved, and nowhere else. -/
theorem Moves.exists_of_called {c : Continuation} {params : ResolveParams}
    (h : setting.Moves n task notes m c) (hcalled : .event (.called params) ∈ notes) :
    ∃ parent source d nodes path args, task = .field parent source d nodes path ∧
      setting.arguments d nodes = .ok args ∧
      params = setting.params parent source d nodes path args := by
  cases h with
  | failed hargs hanswers =>
      exact ⟨_, _, _, _, _, _, rfl, hargs, hanswers.eq_of_called hcalled⟩
  | resolved hargs hanswers =>
      exact ⟨_, _, _, _, _, _, rfl, hargs, hanswers.eq_of_called hcalled⟩
  | _ => simp at hcalled

/-- Every call of a resolver in an operation is made for a group of a field map. -/
theorem RootEnds.calledFor {limit : ℕ} {rootType : TypeDef} {data : Json} {params : ResolveParams}
    (hroot : setting.schema.rootType? setting.operation.operation = some rootType)
    (hends : setting.RootEnds limit rootType data notes)
    (hcalled : .event (.called params) ∈ notes) : setting.CalledFor params := by
  obtain ⟨_, _, task, _, _, hasks, hmoves, -, hcalled⟩ :=
    hends.exists_moves hroot (fun _ hevent => hevent) hcalled
  obtain ⟨_, _, _, _, _, _, rfl, hargs, hparams⟩ := hmoves.exists_of_called hcalled
  cases hasks with
  | field h => exact ⟨_, _, _, _, _, _, h.groups, hargs, hparams⟩

end Setting

/-! ## Operations of a document -/

namespace Document

variable {document : Document} {operation : OperationDefinition}

theorem mem_operations_of_chooseOperation {name : Option String}
    (h : document.chooseOperation name = .ok operation) : operation ∈ document.operations := by
  unfold chooseOperation at h
  split at h
  · split at h
    · rename_i found hfound
      obtain rfl := Except.ok.inj h
      exact List.mem_of_find?_eq_some hfound
    · cases h
  · split at h
    · cases h
    · rename_i found hall
      obtain rfl := Except.ok.inj h
      rw [hall]
      exact List.mem_singleton_self found
    · cases h

/-- The operation that is chosen is executed. -/
theorem executes_setting {schema : Schema} {input : ExecutionInput} {bindings : Json.Members}
    (h : document.chooseOperation input.operationName = .ok operation) :
    (document.setting schema input operation bindings).Executes document :=
  ⟨rfl, mem_operations_of_chooseOperation h⟩

end Document

end GraphQL
