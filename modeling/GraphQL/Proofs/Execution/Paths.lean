import GraphQL.Proofs.Execution.Endings

/-!
# Where errors and events belong

Everything that is noted for a part of a response belongs to its place or to one below it
(`Ends.isBelow`).  The parts that are found together stand at different places: the items of a
list have different indices, and the members of an object different keys
(`nodup_keys_groupFields`), under which their values are found again (`child?_build`).
-/

namespace GraphQL

/-! ## Paths -/

/-- The place in the response that an event belongs to. -/
def Event.path : Event → List PathSegment
  | called params => params.info.path
  | finished path _ | completing path _ _ => path

/-- The place in the response that a note belongs to. -/
def Note.path : Note → List PathSegment
  | error e => e.path
  | event e => e.path

namespace Json

/-- The value at one step from another. -/
def child? : Json → PathSegment → Option Json
  | object members, .key key => Assoc.get? members key
  | array items, .index i => items[i]?
  | _, _ => none

/-- The value that a path leads to. -/
def at? (value : Json) : List PathSegment → Option Json
  | [] => some value
  | segment :: rest => (value.child? segment).bind (·.at? rest)

theorem null_at?_eq_some_iff {path : List PathSegment} {found : Json} :
    null.at? path = some found ↔ path = [] ∧ found = null := by
  cases path with
  | nil => simp [at?, eq_comm]
  | cons segment rest => simp [at?, child?]

end Json

namespace Whole

/-- Where the parts of a whole stand: the items of a list in order, and the members of an object
under different keys. -/
inductive Seats : Whole → List PathSegment → Prop
  | array (n : ℕ) : Seats array ((List.range n).map .index)
  | object {keys : List String} (h : keys.Nodup) : Seats object (keys.map .key)

variable {whole : Whole} {segments : List PathSegment}

theorem Seats.nodup (h : whole.Seats segments) : segments.Nodup := by
  cases h with
  | array n => exact List.nodup_range.map fun i j hij => PathSegment.index.inj hij
  | object hkeys => exact hkeys.map fun i j hij => PathSegment.key.inj hij

/-- The value of a part is found where the part stands. -/
theorem child?_build {values : List Json} {segment : PathSegment} {value : Json}
    (h : whole.Seats segments) (hlength : segments.length = values.length)
    (hmem : (segment, value) ∈ segments.zip values) :
    (whole.build (segments.zip values)).child? segment = some value := by
  cases h with
  | array n =>
      obtain ⟨i, hi, heq⟩ := List.mem_iff_getElem.mp hmem
      simp only [List.getElem_zip, List.getElem_map, List.getElem_range, Prod.mk.injEq] at heq
      obtain ⟨rfl, rfl⟩ := heq
      rw [build, List.map_snd_zip hlength.ge]
      exact List.getElem?_eq_getElem _
  | @object keys hkeys =>
      rw [build_object_zip]
      rw [List.zip_map_left] at hmem
      obtain ⟨⟨key, value'⟩, hmember, heq⟩ := List.mem_map.mp hmem
      simp only [Prod.map_apply, id_eq, Prod.mk.injEq] at heq
      obtain ⟨rfl, rfl⟩ := heq
      refine Assoc.get?_of_mem ?_ hmember
      rwa [List.map_fst_zip (by simpa using hlength.le)]

end Whole

/-! ## Keys -/

namespace Grouping

variable {α β : Type} {P : FieldGroups → Prop}

/-- A step keeps a property of the groups. -/
def KeepsGroups (P : FieldGroups → Prop) (step : StateM Gathered α) : Prop :=
  ∀ gathered, P gathered.groups → P (step gathered).2.groups

theorem KeepsGroups.bind {step : StateM Gathered α} {next : α → StateM Gathered β}
    (h : KeepsGroups P step) (hnext : ∀ value, KeepsGroups P (next value)) :
    KeepsGroups P (step >>= next) :=
  fun gathered hgathered => hnext _ _ (h gathered hgathered)

theorem keepsGroups_pure (value : α) : KeepsGroups P (pure value) := fun _ h => h

theorem keepsGroups_claim? (name : String) : KeepsGroups P (claim? name) := by
  intro gathered h
  have hgroups : ((claim? name).run gathered).2.groups = gathered.groups := by
    cases hfind : Assoc.get? gathered.unfollowed name with
    | none => simp [claim?, hfind]; rfl
    | some fragment => simp [claim?, hfind]; rfl
  exact hgroups ▸ h

/-- The property is kept when a field is put into its group. -/
def KeptByPush (P : FieldGroups → Prop) : Prop :=
  ∀ field groups, P groups → P (Assoc.push groups (Field.responseKey field) field)

variable {target : Target} {follow : SelectionSet → StateM Gathered Unit}

mutual

theorem keepsGroups_gather (hadd : KeptByPush P)
    (hfollow : ∀ set, KeepsGroups P (follow set)) (set : SelectionSet) :
    KeepsGroups P (gather target follow set) := by
  match set with
  | ⟨selections, span⟩ =>
      rw [gather]
      exact keepsGroups_gatherEach hadd hfollow selections

theorem keepsGroups_gatherEach (hadd : KeptByPush P)
    (hfollow : ∀ set, KeepsGroups P (follow set))
    (selections : List Selection) : KeepsGroups P (gatherEach target follow selections) := by
  match selections with
  | [] => exact keepsGroups_pure ()
  | .field field :: rest =>
      have hfield : KeepsGroups P (add field) := fun gathered h => hadd field _ h
      rw [gatherEach]
      split
      · exact hfield.bind fun _ => keepsGroups_gatherEach hadd hfollow rest
      · exact keepsGroups_gatherEach hadd hfollow rest
  | .inline ⟨condition, directives, set, span⟩ :: rest =>
      rw [gatherEach]
      split
      · exact (keepsGroups_gather hadd hfollow set).bind fun _ => keepsGroups_gatherEach hadd hfollow rest
      · exact keepsGroups_gatherEach hadd hfollow rest
  | .spread spread :: rest =>
      rw [gatherEach]
      split
      · refine (keepsGroups_claim? _).bind fun fragment? => ?_
        cases fragment? with
        | none => exact keepsGroups_gatherEach hadd hfollow rest
        | some fragment =>
            dsimp only
            split
            · exact (hfollow _).bind fun _ => keepsGroups_gatherEach hadd hfollow rest
            · exact keepsGroups_gatherEach hadd hfollow rest
      · exact keepsGroups_gatherEach hadd hfollow rest

end

theorem keepsGroups_gatherThrough (hadd : KeptByPush P) (depth : ℕ) (set : SelectionSet) :
    KeepsGroups P (gatherThrough target depth set) := by
  induction depth generalizing set with
  | zero => exact keepsGroups_gather hadd (fun _ => keepsGroups_pure ()) set
  | succ depth ih => exact keepsGroups_gather hadd ih set

end Grouping

theorem nodup_keys_groupFields (schema : Schema) (bindings : Json.Members)
    (fragments : FragmentTable) (objectName : String) (sets : List SelectionSet) :
    ((groupFields schema bindings fragments objectName sets).map (·.1)).Nodup := by
  have hkeeps : Grouping.KeepsGroups (fun groups => (groups.map (·.1)).Nodup)
      (sets.forM (Grouping.gatherThrough ⟨schema, bindings, objectName⟩ fragments.length)) := by
    induction sets with
    | nil => exact Grouping.keepsGroups_pure ()
    | cons set rest ih =>
        refine Grouping.KeepsGroups.bind ?_ fun _ => ih
        exact Grouping.keepsGroups_gatherThrough
          (fun field groups h => Assoc.nodup_keys_push h field.responseKey field) _ set
  exact hkeeps { unfollowed := fragments } List.nodup_nil

namespace Setting

variable {setting : Setting} {n m : ℕ} {task : Task} {notes : List Note}

theorem nodup_keys_selectedFields (parent : TypeDef) (objectType : TypeDef)
    (sets : List SelectionSet) :
    ((setting.selectedFields parent (setting.groupsOf objectType sets)).map (·.1)).Nodup := by
  have hkeys := nodup_keys_groupFields setting.schema setting.bindings setting.fragments
    objectType.name sets
  rw [List.Nodup, List.pairwise_map] at hkeys ⊢
  refine hkeys.filterMap _ fun group other hne field hfield field' hfield' => ?_
  have hkey {group : String × List Field} {field : String × FieldDef × List Field}
      (hfield : field ∈ (do
        let node ← group.2.head?
        let definition ← setting.definition? parent node
        return (group.1, definition, group.2) : Option _)) : field.1 = group.1 := by
    obtain ⟨node, -, hfield⟩ := Option.bind_eq_some_iff.mp hfield
    obtain ⟨d, -, heq⟩ := Option.bind_eq_some_iff.mp hfield
    cases heq
    rfl
  rwa [hkey hfield, hkey hfield']

/-! ## Parts -/

theorem seats_items {info : ResolveInfo} {item : TypeRef} {path : List PathSegment}
    {values : List Json} : Whole.array.Seats ((items info item path values).map (·.1)) := by
  have hsegments : (items info item path values).map (·.1) =
      (List.range values.length).map .index := by
    rw [items, List.map_map, List.range_eq_range', ← List.zipIdx_map_snd 0 values, List.map_map]
    rfl
  exact hsegments ▸ .array values.length

theorem seats_members {parent : TypeDef} {source : Json} {path : List PathSegment}
    {objectType : TypeDef} {sets : List SelectionSet} :
    Whole.object.Seats
      ((setting.members parent source path (setting.groupsOf objectType sets)).map (·.1)) := by
  have hsegments : (setting.members parent source path (setting.groupsOf objectType sets)).map
      (·.1) = ((setting.selectedFields parent (setting.groupsOf objectType sets)).map (·.1)).map
        .key := by
    rw [members, List.map_map, List.map_map]
    rfl
  exact hsegments ▸ .object (nodup_keys_selectedFields parent objectType sets)

theorem Moves.seats {whole : Whole} {parts : Parts}
    (h : setting.Moves n task notes m (.parts whole parts)) : whole.Seats (parts.map (·.1)) := by
  cases h with
  | items => exact seats_items
  | members => exact seats_members

/-! ## Where it is noted -/

theorem Moves.path_of_mem {c : Continuation} {note : Note} (h : setting.Moves n task notes m c)
    (hnote : note ∈ notes) : note.path = task.path := by
  have hanswers {d : FieldDef} {params : ResolveParams} {outcome : Except String Json}
      (h : setting.Answers d params outcome notes) : note.path = params.info.path := by
    cases h with
    | plain => cases hnote
    | introspection | host =>
        rcases List.mem_cons.mp hnote with rfl | hnote
        · rfl
        · obtain rfl := List.mem_singleton.mp hnote
          rfl
  cases h with
  | failed _ h => exact hanswers h
  | resolved _ h => exact hanswers h
  | refused | tooDeep | wrongObject | members => cases hnote
  | null | notAList | items | misfit | leaf | object =>
      obtain rfl := List.mem_singleton.mp hnote
      rfl

theorem Moves.path_of_done {e : FieldError}
    (h : setting.Moves n task notes m (.done (.error e))) : e.path = task.path := by
  generalize hdone : Continuation.done (.error e) = c at h
  cases h with
  | null =>
      split at hdone
      · cases hdone
      · cases hdone
        rfl
  | refused | failed | notAList | misfit | tooDeep | wrongObject =>
      cases hdone
      rfl
  | resolved | items | leaf | object | members => cases hdone

theorem Moves.path_of_goOn {next : Task} (h : setting.Moves n task notes m (.goOn next)) :
    next.path = task.path := by
  cases h <;> rfl

theorem path_of_mem_members {parent : TypeDef} {source : Json} {path : List PathSegment}
    {groups : FieldGroups} {part : PathSegment × Task}
    (h : part ∈ setting.members parent source path groups) :
    part.2.path = path ++ [part.1] := by
  obtain ⟨_, -, rfl⟩ := List.mem_map.mp h
  rfl

theorem Moves.path_of_parts {whole : Whole} {parts : Parts} {part : PathSegment × Task}
    (h : setting.Moves n task notes m (.parts whole parts)) (hpart : part ∈ parts) :
    part.2.path = task.path ++ [part.1] := by
  cases h with
  | items =>
      obtain ⟨_, -, rfl⟩ := List.mem_map.mp hpart
      rfl
  | members => exact path_of_mem_members hpart

/-- All notes belong to a place or to one below it, and so does the error that is left. -/
structure Below (path : List PathSegment) (result : Completion) (notes : List Note) : Prop where
  notes : ∀ note ∈ notes, path <+: note.path
  error : ∀ e, result = .error e → path <+: e.path

theorem Below.contained {path : List PathSegment} {type : TypeRef} {result : Completion}
    (h : Below path result notes) :
    Below path (contained type result).1 (notes ++ (contained type result).2) := by
  cases result with
  | ok value =>
      refine ⟨fun note hnote => h.notes note ?_, fun e he => by cases he⟩
      simpa [Setting.contained] using hnote
  | error e =>
      cases hnullable : type.isNullable with
      | false =>
          have hcontained : Setting.contained type (.error e) = (.error e, []) := by
            simp [Setting.contained, hnullable]
          rw [hcontained, List.append_nil]
          exact h
      | true =>
          have hcontained : Setting.contained type (.error e) = (.ok .null, [.error e]) := by
            simp [Setting.contained, hnullable]
          rw [hcontained]
          refine ⟨fun note hnote => ?_, fun e he => by cases he⟩
          rcases List.mem_append.mp hnote with hnote | hnote
          · exact h.notes note hnote
          · obtain rfl := List.mem_singleton.mp hnote
            exact h.error e rfl

theorem exists_error_of_assembled {whole : Whole} {parts : Parts}
    {outcomes : Job.Outcomes Completion} {e : FieldError}
    (h : assembled whole parts outcomes = .error e) :
    ∃ outcome ∈ outcomes, outcome.1 = .error e := by
  cases hvalues : outcomes.values.mapM id with
  | ok values => simp [assembled, hvalues, Except.map] at h
  | error e' =>
      obtain rfl : e' = e := by simpa [assembled, hvalues, Except.map] using h
      obtain ⟨values, rest, heq⟩ := Job.exists_of_mapM_id_eq_error hvalues
      have hmem : Except.error e' ∈ outcomes.values := by simp [heq]
      obtain ⟨outcome, houtcome, hresult⟩ := List.mem_map.mp hmem
      exact ⟨outcome, houtcome, hresult⟩

theorem Below.assembled {path : List PathSegment} {whole : Whole} {parts : Parts}
    {outcomes : Job.Outcomes Completion} {more : List Note}
    (hnotes : ∀ note ∈ notes, note.path = path) (hlength : outcomes.length ≤ parts.length)
    (hparts : ∀ part outcome, (part, outcome) ∈ parts.zip outcomes →
      Below (path ++ [part.1]) outcome.1 outcome.2) (hmore : more.Perm outcomes.notes) :
    Below path (assembled whole parts outcomes) (notes ++ more) := by
  have hbelow : ∀ outcome ∈ outcomes, Below path outcome.1 outcome.2 := by
    intro outcome hmem
    obtain ⟨i, hi, rfl⟩ := List.mem_iff_getElem.mp hmem
    have hzip : (parts[i], outcomes[i]) ∈ parts.zip outcomes :=
      List.mem_iff_getElem.mpr ⟨i, by simp; omega, by simp⟩
    obtain ⟨hnotes, herror⟩ := hparts _ _ hzip
    exact ⟨fun note hnote => (List.prefix_append _ _).trans (hnotes note hnote),
      fun e he => (List.prefix_append _ _).trans (herror e he)⟩
  refine ⟨fun note hnote => ?_, fun e he => ?_⟩
  · rcases List.mem_append.mp hnote with hnote | hnote
    · exact (hnotes note hnote) ▸ List.prefix_refl _
    · obtain ⟨outcome, hmem, hnote⟩ := List.mem_flatMap.mp (hmore.mem_iff.mp hnote)
      exact (hbelow outcome hmem).notes note hnote
  · obtain ⟨outcome, hmem, hresult⟩ := exists_error_of_assembled he
    exact (hbelow outcome hmem).error e hresult

/-- What is noted for a part belongs to its place or to one below it. -/
theorem Ends.isBelow {result : Completion} (h : setting.Ends n task result notes) :
    Below task.path result notes := by
  induction h with
  | done hmoves =>
      refine ⟨fun note hnote => (hmoves.path_of_mem hnote) ▸ List.prefix_refl _, ?_⟩
      rintro e rfl
      exact hmoves.path_of_done ▸ List.prefix_refl _
  | goOn hmoves _ ih =>
      rw [hmoves.path_of_goOn] at ih
      refine ⟨fun note hnote => ?_, ih.error⟩
      rcases List.mem_append.mp hnote with hnote | hnote
      · exact (hmoves.path_of_mem hnote) ▸ List.prefix_refl _
      · exact ih.notes note hnote
  | parts outcomes hmoves hlength _ hmore ih =>
      refine Below.assembled (fun note hnote => hmoves.path_of_mem hnote) hlength.ge
        (fun part outcome hmem => ?_) hmore
      rw [← hmoves.path_of_parts (List.of_mem_zip hmem).1]
      exact ih part outcome hmem
  | orNull _ ih => exact ih.contained

end Setting

end GraphQL
