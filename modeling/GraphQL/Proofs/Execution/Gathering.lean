import GraphQL.Execution.Field
import GraphQL.Proofs.Rows

/-!
# What field collection gathers

Which fields selections select of an object, one after the other as they are written, is told
by `Grouping.Gathers`: fragments are followed where they are spread for the first time, and what is
skipped or does not apply to the object is left out.  The groups of a field map are these fields in
rows, in the order of the first use of each key (`Grouping.exists_gathers`): the depth through which
spreads are followed is always enough, since every fragment that is followed is taken out of those
that are left.
-/

namespace GraphQL

namespace Grouping

/-- The fragments under other names. -/
def unclaimed (unfollowed : FragmentTable) (name : String) : FragmentTable :=
  unfollowed.filter (·.1 ≠ name)

/-- The selection is left out: it is skipped, or made on other types. -/
inductive LeftOut (target : Target) : Selection → Prop
  | skipped {selection : Selection}
      (h : takesPart target.schema target.bindings selection.directives = false) :
      LeftOut target selection
  | otherType {f : InlineFragment}
      (h : applies target.schema target.objectName f.typeCondition = false) :
      LeftOut target (.inline f)

/-- What selections select of an object, in order, while some fragments have not been followed,
and the fragments that have not been followed in the end. -/
inductive Gathers (target : Target) :
    List Selection → FragmentTable → List Field → FragmentTable → Prop
  | nil {unfollowed : FragmentTable} : Gathers target [] unfollowed [] unfollowed
  | field {f : Field} {rest : List Selection} {unfollowed left : FragmentTable}
      {fields : List Field} (htakes : takesPart target.schema target.bindings f.directives)
      (hrest : Gathers target rest unfollowed fields left) :
      Gathers target (.field f :: rest) unfollowed (f :: fields) left
  | inline {f : InlineFragment} {rest : List Selection} {unfollowed between left : FragmentTable}
      {fields more : List Field} (htakes : takesPart target.schema target.bindings f.directives)
      (happlies : applies target.schema target.objectName f.typeCondition)
      (hinner : Gathers target f.selectionSet.selections unfollowed fields between)
      (hrest : Gathers target rest between more left) :
      Gathers target (.inline f :: rest) unfollowed (fields ++ more) left
  | spread {s : FragmentSpread} {fragment : FragmentDefinition} {rest : List Selection}
      {unfollowed between left : FragmentTable} {fields more : List Field}
      (htakes : takesPart target.schema target.bindings s.directives)
      (hfragment : Assoc.get? unfollowed s.name.text = some fragment)
      (happlies : applies target.schema target.objectName (some fragment.typeCondition))
      (hinner : Gathers target fragment.selectionSet.selections
        (unclaimed unfollowed s.name.text) fields between)
      (hrest : Gathers target rest between more left) :
      Gathers target (.spread s :: rest) unfollowed (fields ++ more) left
  | otherSpread {s : FragmentSpread} {fragment : FragmentDefinition} {rest : List Selection}
      {unfollowed left : FragmentTable} {fields : List Field}
      (htakes : takesPart target.schema target.bindings s.directives)
      (hfragment : Assoc.get? unfollowed s.name.text = some fragment)
      (happlies : applies target.schema target.objectName (some fragment.typeCondition) = false)
      (hrest : Gathers target rest (unclaimed unfollowed s.name.text) fields left) :
      Gathers target (.spread s :: rest) unfollowed fields left
  | followed {s : FragmentSpread} {rest : List Selection} {unfollowed left : FragmentTable}
      {fields : List Field} (hnone : Assoc.get? unfollowed s.name.text = none)
      (hrest : Gathers target rest unfollowed fields left) :
      Gathers target (.spread s :: rest) unfollowed fields left
  | leftOut {selection : Selection} {rest : List Selection} {unfollowed left : FragmentTable}
      {fields : List Field} (h : LeftOut target selection)
      (hrest : Gathers target rest unfollowed fields left) :
      Gathers target (selection :: rest) unfollowed fields left

variable {target : Target} {selections more : List Selection}
  {unfollowed between left : FragmentTable} {fields others : List Field}

theorem length_unclaimed_le (unfollowed : FragmentTable) (name : String) :
    (unclaimed unfollowed name).length ≤ unfollowed.length :=
  List.length_filter_le _ _

/-- A fragment that is followed is not left. -/
theorem length_unclaimed_lt {name : String} {fragment : FragmentDefinition}
    (h : Assoc.get? unfollowed name = some fragment) :
    (unclaimed unfollowed name).length < unfollowed.length :=
  List.length_filter_lt_length_iff_exists.mpr ⟨_, Assoc.mem_of_get? h, by simp⟩

theorem Gathers.length_le (h : Gathers target selections unfollowed fields left) :
    left.length ≤ unfollowed.length := by
  induction h with
  | nil => exact Nat.le_refl _
  | field _ _ ih | followed _ _ ih | leftOut _ _ ih => exact ih
  | inline _ _ _ _ ihinner ihrest => exact ihrest.trans ihinner
  | spread _ _ _ _ _ ihinner ihrest =>
      exact (ihrest.trans ihinner).trans (length_unclaimed_le _ _)
  | otherSpread _ _ _ _ ih => exact ih.trans (length_unclaimed_le _ _)

theorem Gathers.append (h : Gathers target selections unfollowed fields between)
    (hmore : Gathers target more between others left) :
    Gathers target (selections ++ more) unfollowed (fields ++ others) left := by
  induction h with
  | nil => exact hmore
  | field htakes _ ih => exact .field htakes (ih hmore)
  | inline htakes happlies hinner _ _ ih =>
      rw [List.append_assoc]
      exact .inline htakes happlies hinner (ih hmore)
  | spread htakes hfragment happlies hinner _ _ ih =>
      rw [List.append_assoc]
      exact .spread htakes hfragment happlies hinner (ih hmore)
  | otherSpread htakes hfragment happlies _ ih =>
      exact .otherSpread htakes hfragment happlies (ih hmore)
  | followed hnone _ ih => exact .followed hnone (ih hmore)
  | leftOut hout _ ih => exact .leftOut hout (ih hmore)

/-! ## What a step does -/

/-- The groups with some fields put into them, one after the other. -/
def pushAll (groups : FieldGroups) (fields : List Field) : FieldGroups :=
  fields.foldl (fun groups f => Assoc.push groups f.responseKey f) groups

theorem pushAll_append (groups : FieldGroups) (fields others : List Field) :
    pushAll groups (fields ++ others) = pushAll (pushAll groups fields) others :=
  List.foldl_append

theorem claim?_bind_of_none {name : String} {gathered : Gathered}
    {next : Option FragmentDefinition → StateM Gathered Unit}
    (h : Assoc.get? gathered.unfollowed name = none) :
    (claim? name >>= next) gathered = next none gathered := by
  have hclaim : claim? name gathered = (none, gathered) := by
    show (claim? name).run gathered = _
    simp [claim?, h]
    rfl
  show (fun p => next p.1 p.2) (claim? name gathered) = _
  rw [hclaim]

theorem claim?_bind_of_some {name : String} {gathered : Gathered} {fragment : FragmentDefinition}
    {next : Option FragmentDefinition → StateM Gathered Unit}
    (h : Assoc.get? gathered.unfollowed name = some fragment) :
    (claim? name >>= next) gathered =
      next (some fragment) ⟨gathered.groups, unclaimed gathered.unfollowed name⟩ := by
  have hclaim : claim? name gathered =
      (some fragment, ⟨gathered.groups, unclaimed gathered.unfollowed name⟩) := by
    show (claim? name).run gathered = _
    simp [claim?, h, unclaimed]
    rfl
  show (fun p => next p.1 p.2) (claim? name gathered) = _
  rw [hclaim]

/-- A step puts what the selections select into the groups. -/
def Collects (target : Target) (step : StateM Gathered Unit) (selections : List Selection)
    (gathered : Gathered) : Prop :=
  ∃ fields left, Gathers target selections gathered.unfollowed fields left ∧
    step gathered = ((), ⟨pushAll gathered.groups fields, left⟩)

section

variable {follow : SelectionSet → StateM Gathered Unit} {n : ℕ}

mutual

theorem collects_gather (hfollow : ∀ set gathered, gathered.unfollowed.length < n →
      Collects target (follow set) set.selections gathered) : ∀ (set : SelectionSet) (gathered : Gathered),
    gathered.unfollowed.length ≤ n →
    Collects target (gather target follow set) set.selections gathered
  | ⟨selections, span⟩, gathered, hlength => by
      rw [gather]
      exact collects_gatherEach hfollow selections gathered hlength

theorem collects_gatherEach (hfollow : ∀ set gathered, gathered.unfollowed.length < n →
      Collects target (follow set) set.selections gathered) : ∀ (selections : List Selection) (gathered : Gathered),
    gathered.unfollowed.length ≤ n →
    Collects target (gatherEach target follow selections) selections gathered
  | [], gathered, _ => by
      rw [gatherEach]
      exact ⟨[], _, .nil, rfl⟩
  | .field f :: rest, gathered, hlength => by
      rw [gatherEach]
      split
      · rename_i htakes
        obtain ⟨fields, left, hgathers, hstep⟩ := collects_gatherEach hfollow rest
          ⟨Assoc.push gathered.groups f.responseKey f, gathered.unfollowed⟩ hlength
        exact ⟨f :: fields, left, .field htakes hgathers, hstep⟩
      · rename_i htakes
        obtain ⟨fields, left, hgathers, hstep⟩ := collects_gatherEach hfollow rest gathered hlength
        exact ⟨fields, left, .leftOut (.skipped (Bool.eq_false_iff.mpr htakes)) hgathers, hstep⟩
  | .inline ⟨condition, directives, inner, span⟩ :: rest, gathered, hlength => by
      rw [gatherEach]
      split
      · rename_i htaken
        obtain ⟨htakes, happlies⟩ := Bool.and_eq_true_iff.mp htaken
        obtain ⟨fields, between, hinner, hset⟩ := collects_gather hfollow inner gathered hlength
        obtain ⟨others, left, hrest, hstep⟩ := collects_gatherEach hfollow rest
          ⟨pushAll gathered.groups fields, between⟩ (hinner.length_le.trans hlength)
        refine ⟨fields ++ others, left, .inline htakes happlies hinner hrest, ?_⟩
        show (gatherEach target follow rest) ((gather target follow inner) gathered).2 = _
        rw [hset, hstep, pushAll_append]
      · rename_i htaken
        obtain ⟨fields, left, hgathers, hstep⟩ := collects_gatherEach hfollow rest gathered hlength
        refine ⟨fields, left, .leftOut ?_ hgathers, hstep⟩
        rcases (Bool.and_eq_false_iff.mp (by simpa using htaken)) with hskip | hother
        · exact .skipped hskip
        · exact .otherType hother
  | .spread s :: rest, gathered, hlength => by
      rw [gatherEach]
      split
      · rename_i htakes
        cases hfragment : Assoc.get? gathered.unfollowed s.name.text with
        | none =>
            obtain ⟨fields, left, hgathers, hstep⟩ := collects_gatherEach hfollow rest gathered hlength
            refine ⟨fields, left, .followed hfragment hgathers, ?_⟩
            rw [claim?_bind_of_none hfragment]
            exact hstep
        | some fragment =>
            have hlt := length_unclaimed_lt hfragment
            cases happlies : applies target.schema target.objectName
                (some fragment.typeCondition) with
            | false =>
                obtain ⟨fields, left, hgathers, hstep⟩ := collects_gatherEach hfollow rest
                  ⟨gathered.groups, unclaimed gathered.unfollowed s.name.text⟩
                  (hlt.le.trans hlength)
                refine ⟨fields, left, .otherSpread htakes hfragment happlies hgathers, ?_⟩
                rw [claim?_bind_of_some hfragment]
                simpa [happlies] using hstep
            | true =>
                obtain ⟨fields, between, hinner, hset⟩ := hfollow fragment.selectionSet
                  ⟨gathered.groups, unclaimed gathered.unfollowed s.name.text⟩
                  (hlt.trans_le hlength)
                obtain ⟨others, left, hrest, hstep⟩ := collects_gatherEach hfollow rest
                  ⟨pushAll gathered.groups fields, between⟩
                  (hinner.length_le.trans (hlt.le.trans hlength))
                refine ⟨fields ++ others, left,
                  .spread htakes hfragment happlies hinner hrest, ?_⟩
                rw [claim?_bind_of_some hfragment, pushAll_append, ← hstep]
                simp only [happlies, if_true]
                show (gatherEach target follow rest) ((follow fragment.selectionSet) _).2 = _
                rw [hset]
      · rename_i htakes
        obtain ⟨fields, left, hgathers, hstep⟩ := collects_gatherEach hfollow rest gathered hlength
        exact ⟨fields, left, .leftOut (.skipped (Bool.eq_false_iff.mpr htakes)) hgathers, hstep⟩

end

end

/-- Following spreads through as many fragments as have not been followed is enough. -/
theorem collects_gatherThrough (depth : ℕ) (set : SelectionSet) (gathered : Gathered)
    (hlength : gathered.unfollowed.length ≤ depth) :
    Collects target (gatherThrough target depth set) set.selections gathered := by
  induction depth generalizing set gathered with
  | zero =>
      rw [gatherThrough]
      exact collects_gather (fun _ _ hlt => absurd hlt (Nat.not_lt_zero _)) set gathered hlength
  | succ depth ih =>
      rw [gatherThrough]
      refine collects_gather (fun inner gathered hlength => ?_) set gathered hlength
      exact ih inner gathered (Nat.le_of_lt_succ hlength)

theorem collects_forM (depth : ℕ) (sets : List SelectionSet) (gathered : Gathered)
    (hlength : gathered.unfollowed.length ≤ depth) :
    Collects target (sets.forM (gatherThrough target depth)) (sets.flatMap (·.selections))
      gathered := by
  induction sets generalizing gathered with
  | nil => exact ⟨[], _, .nil, rfl⟩
  | cons set rest ih =>
      obtain ⟨fields, between, hset, hfirst⟩ := collects_gatherThrough depth set gathered hlength
      obtain ⟨others, left, hrest, hstep⟩ := ih ⟨pushAll gathered.groups fields, between⟩
        (hset.length_le.trans hlength)
      refine ⟨fields ++ others, left, hset.append hrest, ?_⟩
      rw [pushAll_append, ← hstep]
      show (rest.forM (gatherThrough target depth)) ((gatherThrough target depth set) gathered).2 = _
      rw [hfirst]

/-- The groups that are formed from some sets are the fields that are gathered from them, in
rows. -/
theorem exists_gathers (target : Target) (fragments : FragmentTable) (sets : List SelectionSet) :
    ∃ fields left, Gathers target (sets.flatMap (·.selections)) fragments fields left ∧
      groupFields target.schema target.bindings fragments target.objectName sets =
        Assoc.rows Field.responseKey fields := by
  obtain ⟨fields, left, hgathers, hstep⟩ : Collects target _ _ _ :=
    collects_forM fragments.length sets ⟨[], fragments⟩ (Nat.le_refl _)
  exact ⟨fields, left, hgathers, congrArg (·.2.groups) hstep⟩

end Grouping

namespace Setting

/-- Some selection sets select the fields of an object of the type, in this order. -/
def Selects (setting : Setting) (objectType : TypeDef) (sets : List SelectionSet)
    (fields : List Field) : Prop :=
  ∃ left, Grouping.Gathers ⟨setting.schema, setting.bindings, objectType.name⟩
    (sets.flatMap (·.selections)) setting.fragments fields left

/-- The groups that are formed for an object are the fields that are selected of it, in rows. -/
theorem exists_selects (setting : Setting) (objectType : TypeDef) (sets : List SelectionSet) :
    ∃ fields, setting.Selects objectType sets fields ∧
      setting.groupsOf objectType sets = Assoc.rows Field.responseKey fields := by
  obtain ⟨fields, left, hgathers, hgroups⟩ :=
    Grouping.exists_gathers ⟨setting.schema, setting.bindings, objectType.name⟩
      setting.fragments sets
  exact ⟨fields, ⟨left, hgathers⟩, hgroups⟩

end Setting

end GraphQL
