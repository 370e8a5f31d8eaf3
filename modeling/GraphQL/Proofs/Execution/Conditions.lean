import Mathlib
import GraphQL.Proofs.Coercion.Booleans
import GraphQL.Proofs.Execution.Collection
import GraphQL.Proofs.Introspection.Descriptions
import GraphQL.Proofs.Validation.Directives
import GraphQL.Proofs.Validation.Operations
import GraphQL.Proofs.Validation.References

/-!
# Selections under conditions

Where field collection comes to a selection of a valid document, the condition of every `@skip`
and `@include` on it is a Boolean, unless it is a variable with a default that is null all the
same (`Setting.Unset`): validation counts such a variable as one that is never null, and collection
goes on as if the directive were not there.  Of several directives of one name on a selection, which
no rule forbids, only the first is looked at.  Apart from these two cases a selection takes part
just if no `@skip` on it is true and no `@include` on it is false
(`Document.honours_conditions`).
-/

namespace GraphQL

open Merging (rootOf? innerSet?)

variable {schema : Schema} {document : Document} {operation : OperationDefinition}

/-! ## The directives of every schema -/

namespace Schema

/-- A directive that is added is known by its name, and those from before stay known. -/
theorem get?_of_addDirective {directives directives' : List (String × DirectiveDef)}
    {d : DirectiveDef} (h : addDirective directives d = .ok directives') :
    (∀ name found, Assoc.get? directives name = some found →
      Assoc.get? directives' name = some found) ∧ Assoc.get? directives' d.name = some d := by
  unfold addDirective at h
  split at h
  · cases h
  · rename_i hnew
    obtain rfl := Except.ok.inj h
    have hnone : Assoc.get? directives d.name = none := by simpa [Assoc.contains] using hnew
    refine ⟨fun name found hfound => ?_, ?_⟩
    · rw [Assoc.get?_append, hfound, Option.some_or]
    · rw [Assoc.get?_append, hnone, Option.none_or, Assoc.get?_cons, if_pos rfl]

theorem get?_of_foldlM_addDirective {given : List DirectiveDef}
    {directives directives' : List (String × DirectiveDef)}
    (h : given.foldlM addDirective directives = .ok directives') :
    (∀ name found, Assoc.get? directives name = some found →
      Assoc.get? directives' name = some found) ∧
      ∀ d ∈ given, Assoc.get? directives' d.name = some d := by
  induction given generalizing directives with
  | nil =>
      cases h
      exact ⟨fun _ _ => id, by simp⟩
  | cons first rest ih =>
      rw [List.foldlM_cons] at h
      obtain ⟨between, hbetween, hrest⟩ := exists_of_bind h
      obtain ⟨hstays, hfirst⟩ := get?_of_addDirective hbetween
      obtain ⟨hstays', hothers⟩ := ih hrest
      exact ⟨fun name found hfound => hstays' name found (hstays name found hfound),
        List.forall_mem_cons.mpr ⟨hstays' _ _ hfirst, hothers⟩⟩

/-- A schema that is built knows the directives of every schema by their names. -/
theorem directive?_of_build {draft : Draft} {d : DirectiveDef} (h : draft.build = .ok schema)
    (hd : d ∈ DirectiveDef.builtins) : schema.directive? d.name = some d := by
  obtain ⟨directives, _, _, -, hdirectives, -, -, rfl, -⟩ := exists_of_build h
  exact (get?_of_foldlM_addDirective hdirectives).2 d (List.mem_append_left _ hd)

end Schema

/-! ## Conditions -/

namespace DirectiveDef

/-- The directives that make a selection conditional. -/
def conditionals : List DirectiveDef := [skipIf, includeIf]

variable {definition : DirectiveDef}

theorem mem_builtins_of_mem_conditionals (h : definition ∈ conditionals) :
    definition ∈ builtins := by
  rcases List.mem_pair.mp h with rfl | rfl <;> simp [builtins]

/-- A conditional directive needs a Boolean. -/
theorem exists_input_of_mem_conditionals (h : definition ∈ conditionals) :
    ∃ input, Assoc.get? definition.arguments condition = some input ∧ input.name = condition ∧
      input.type = .required Scalar.booleanName ∧ input.isRequired := by
  rcases List.mem_pair.mp h with rfl | rfl <;> exact ⟨_, rfl, rfl, rfl, rfl⟩

end DirectiveDef

namespace Grouping

variable {bindings : Json.Members} {definition : DirectiveDef} {directive : Directive}
  {directives : List Directive}

theorem condition?_singleton {a : Argument} {input : InputDef} {b : Bool}
    (hname : directive.name.text = definition.name)
    (ha : directive.argument? DirectiveDef.condition = some a)
    (hinput : Assoc.get? definition.arguments DirectiveDef.condition = some input)
    (h : Literal.coerce? schema (some bindings) a.value input.type = some (.bool b)) :
    condition? schema bindings definition [directive] = some b := by
  simp [condition?, hname, ha, hinput, h]

/-- A variable without a value, or with null, counts as no condition. -/
theorem condition?_singleton_of_null {a : Argument} {v : Variable} {input : InputDef}
    (hname : directive.name.text = definition.name)
    (ha : directive.argument? DirectiveDef.condition = some a) (hvalue : a.value = .var v)
    (hinput : Assoc.get? definition.arguments DirectiveDef.condition = some input)
    (htype : input.type = .required Scalar.booleanName)
    (h : ∀ value, Assoc.get? bindings v.name.text = some value → value = .null) :
    condition? schema bindings definition [directive] = none := by
  have hnone : Literal.coerce? schema (some bindings) a.value input.type = none := by
    rw [hvalue, htype, Literal.coerce?, Literal.read, Literal.readVariable, Option.bind_some]
    cases hget : Assoc.get? bindings v.name.text with
    | none => rfl
    | some value =>
        obtain rfl := h value hget
        rfl
  simp [condition?, hname, ha, hinput, hnone]

theorem condition?_eq_none_of_ne (h : directive.name.text ≠ definition.name) :
    condition? schema bindings definition [directive] = none := by
  simp [condition?, h]

/-- Only the first directive of a name is looked at. -/
theorem condition?_eq_of_find? (h : directives.find? (·.name.text = definition.name) =
    some directive) : condition? schema bindings definition directives =
      condition? schema bindings definition [directive] := by
  have hname : directive.name.text = definition.name := by simpa using List.find?_some h
  simp [condition?, h, hname]

theorem condition?_of_find?_none (h : directives.find? (·.name.text = definition.name) = none) :
    condition? schema bindings definition directives = none := by
  simp [condition?, h]

/-- If a directive is applied once at most, its condition is that of any directive of the name. -/
theorem condition?_ne_iff (honce : (directives.filter (·.name.text = definition.name)).length ≤ 1)
    (b : Bool) : condition? schema bindings definition directives ≠ some b ↔
      ∀ directive ∈ directives, condition? schema bindings definition [directive] ≠ some b := by
  cases hfind : directives.find? (·.name.text = definition.name) with
  | none =>
      rw [condition?_of_find?_none hfind]
      refine iff_of_true nofun fun directive hmem => ?_
      rw [condition?_eq_none_of_ne (by simpa using List.find?_eq_none.mp hfind directive hmem)]
      nofun
  | some first =>
      rw [condition?_eq_of_find? hfind]
      refine ⟨fun hne directive hmem => ?_, fun h => h first (List.mem_of_find?_eq_some hfind)⟩
      by_cases hname : directive.name.text = definition.name
      · have hfirstName : first.name.text = definition.name := by simpa using List.find?_some hfind
        have hfirst : first ∈ directives.filter (·.name.text = definition.name) :=
          List.mem_filter.mpr ⟨List.mem_of_find?_eq_some hfind, decide_eq_true hfirstName⟩
        have hother : directive ∈ directives.filter (·.name.text = definition.name) :=
          List.mem_filter.mpr ⟨hmem, decide_eq_true hname⟩
        have hsame : directive = first := by
          match hall : directives.filter (·.name.text = definition.name), honce with
          | [], _ => simp [hall] at hfirst
          | [only], _ =>
              rw [hall, List.mem_singleton] at hfirst hother
              rw [hfirst, hother]
          | _ :: _ :: _, honce => simp [hall] at honce
        rwa [hsame]
      · rw [condition?_eq_none_of_ne hname]
        nofun

/-- Where `@skip` and `@include` are applied once at most, a selection takes part just if no `@skip`
on it is true and no `@include` on it is false. -/
theorem takesPart_iff (honce : ∀ definition ∈ DirectiveDef.conditionals,
      (directives.filter (·.name.text = definition.name)).length ≤ 1) :
    takesPart schema bindings directives ↔
      ∀ directive ∈ directives, condition? schema bindings .skipIf [directive] ≠ some true ∧
        condition? schema bindings .includeIf [directive] ≠ some false := by
  rw [takesPart, Bool.and_eq_true, decide_eq_true_eq, decide_eq_true_eq,
    condition?_ne_iff (honce _ (by simp [DirectiveDef.conditionals])),
    condition?_ne_iff (honce _ (by simp [DirectiveDef.conditionals])), ← forall₂_and]

end Grouping

/-! ## Where selections stand -/

/-- The selection set stands in a definition that the operation reaches. -/
inductive InReach (schema : Schema) (document : Document) (operation : OperationDefinition)
    (set : SelectionSet) : Prop
  | intro {d : Definition} {c : TypeContext} {parent : Option TypeDef} {root : SelectionSet}
      (hmem : d ∈ document.definitions) (hreaches : document.Reaches operation d)
      (hstands : Stands schema d (.selectionSet set) c)
      (hroot : rootOf? (.ofDocument schema document) d = some (parent, root))
      (hspreads : set.spreads ⊆ root.spreads) : InReach schema document operation set

section

variable {set below : SelectionSet} {selection : Selection}

theorem inReach_operation (h : operation ∈ document.operations) :
    InReach schema document operation operation.selectionSet :=
  have hroot : rootOf? (.ofDocument schema document) (.operation operation) =
      some (_, operation.selectionSet) := rfl
  .intro (Document.mem_definitions_of_mem_operations h) .operation
    (.child .root trivial (.root hroot)) hroot (List.Subset.refl _)

theorem InReach.inner (h : InReach schema document operation set) (hmem : selection ∈ set.selections)
    (hinner : innerSet? selection = some below) : InReach schema document operation below := by
  obtain ⟨hd, hreaches, hstands, hroot, hspreads⟩ := h
  exact .intro hd hreaches ((hstands.child trivial (.selection hmem)).child trivial (.inner hinner))
    hroot (List.Subset.trans (SelectionSet.spreads_subset hmem hinner) hspreads)

theorem InReach.fragment {s : FragmentSpread} {fragment : FragmentDefinition}
    (h : InReach schema document operation set) (hvalid : document.IsValid schema)
    (hmem : .spread s ∈ set.selections)
    (hfragment : Assoc.get? document.fragmentTable s.name.text = some fragment) :
    InReach schema document operation fragment.selectionSet := by
  obtain ⟨hd, hreaches, hstands, hroot, hspreads⟩ := h
  obtain ⟨other, hother, heq⟩ :=
    List.mem_map.mp (Assoc.ofList_subset _ (Assoc.mem_of_get? hfragment))
  obtain ⟨hname, rfl⟩ := Prod.mk.inj heq
  obtain ⟨definition, hdefinition, hisFragment⟩ := List.mem_filterMap.mp hother
  have hspread : s ∈ set.spreads :=
    SelectionSet.mem_spreads.mpr (.inl (SelectionSet.mem_directSpreads hmem))
  have hnodup := Document.nodup_fragmentNames_of_isValid hvalid
  rw [Document.map_fst_placedFragments] at hnodup
  cases definition with
  | fragment found =>
      obtain rfl := Option.some.inj hisFragment
      have hrootOf : rootOf? (.ofDocument schema document) (.fragment found) =
          some (_, found.selectionSet) := rfl
      exact .intro hdefinition
        (hreaches.of_spread hnodup hroot (hspreads hspread) hother hname.symm)
        (.child .root trivial (.root hrootOf)) hrootOf (List.Subset.refl _)
  | _ => cases hisFragment

end

namespace Setting

variable {setting : Setting} {t : TypeDef} {sets : List SelectionSet} {selection : Selection}
  (hvalid : document.IsValid setting.schema) (hexecutes : setting.Executes document)
include hvalid hexecutes

/-- What field collection comes to stands in a definition that the operation reaches, if the sets
that it starts from do. -/
theorem exists_inReach_of_comes
    (hsets : ∀ set ∈ sets, InReach setting.schema document setting.operation set)
    (hcomes : setting.Comes t sets selection) :
    ∃ set, InReach setting.schema document setting.operation set ∧ selection ∈ set.selections := by
  induction hcomes with
  | own hset hmem => exact ⟨_, hsets _ hset, hmem⟩
  | inline _ _ _ hmem ih =>
      obtain ⟨set, hreach, hinline⟩ := ih
      exact ⟨_, hreach.inner hinline rfl, hmem⟩
  | spread _ _ hfragment _ hmem ih =>
      obtain ⟨set, hreach, hspread⟩ := ih
      exact ⟨_, hreach.fragment hvalid hspread (hexecutes.fragments ▸ hfragment), hmem⟩

/-- So do all sets that execution collects fields from. -/
theorem inReach_of_collectsFrom (h : setting.CollectsFrom t sets) :
    ∀ set ∈ sets, InReach setting.schema document setting.operation set := by
  induction h with
  | root ht =>
      intro set hset
      obtain rfl := List.mem_singleton.mp hset
      exact inReach_operation hexecutes.operation
  | next _ hgroup _ _ ih =>
      intro set hset
      obtain ⟨f, hf, hinner⟩ := List.mem_filterMap.mp hset
      obtain rfl := responseKey_of_mem_groupsOf hgroup hf
      obtain ⟨hcomes, -⟩ := mem_groupsOf_iff.mp ⟨_, hgroup, hf⟩
      obtain ⟨around, hreach, hmem⟩ := exists_inReach_of_comes hvalid hexecutes ih hcomes
      exact hreach.inner hmem hinner

end Setting

/-! ## What conditions evaluate to -/

section

variable {inputs bindings : Json.Members}
  (hboolean : schema.type? Scalar.booleanName = some Scalar.boolean)
  (hvalid : document.IsValid schema) (h : operation ∈ document.operations)
  (hbindings : Variables.coerce schema operation.variableDefinitions inputs = .ok bindings)
include hboolean hvalid h hbindings

/-- A variable that an operation uses where a Boolean is required is a Boolean, or it has a default
and is null all the same. -/
theorem isBoolean_or_default_of_usage {usage : VariableUsage}
    (husage : usage ∈ document.operationUsages schema operation)
    (hexpected : usage.inputType = some (.required Scalar.booleanName)) :
    (∃ b, Assoc.get? bindings usage.name = some (.bool b)) ∨
      ∃ d ∈ operation.variableDefinitions, d.var.name.text = usage.name ∧
        d.defaultValue.isSome ∧
        ∀ value, Assoc.get? bindings usage.name = some value → value = .null := by
  obtain ⟨d, hd, hname⟩ := Document.exists_definition_of_usage hvalid h husage
  obtain ⟨found?, hfound⟩ := Variables.exists_value?_of_coerce hbindings hd
  obtain ⟨type, htype⟩ := Variables.exists_type_of_value? hfound
  have hnodup := Document.nodup_variableNames hvalid h
  have heffective := schema.eq_of_isSubtype_boolean hboolean
    (Document.isSubtype_of_usage hvalid h hd husage hname htype hexpected)
  cases hdefault : d.defaultValue with
  | none =>
      obtain rfl : type = .named Scalar.booleanName false := by
        simpa [Rule.effectiveType, hdefault] using heffective
      obtain ⟨found, rfl, b, rfl⟩ :=
        Variables.exists_isBoolean_of_value? hboolean htype hdefault hfound
      exact .inl ⟨b, hname ▸ Variables.get?_of_coerce hbindings hnodup hd hfound⟩
  | some literal =>
      obtain ⟨nullable, rfl⟩ : ∃ nullable, type = .named Scalar.booleanName nullable := by
        simp only [Rule.effectiveType, hdefault, Option.isSome_some, if_true] at heffective
        cases type with
        | named name nullable => exact ⟨nullable, by simp_all [TypeRef.withNullable]⟩
        | list item nullable => simp [TypeRef.withNullable] at heffective
      refine or_iff_not_imp_right.mpr fun hset => ?_
      obtain ⟨value, hvalue, hne⟩ : ∃ value, Assoc.get? bindings usage.name = some value ∧
          value ≠ .null := by
        by_contra hnone
        push Not at hnone
        exact hset ⟨d, hd, hname, by simp [hdefault], hnone⟩
      obtain ⟨d', hd', hname', hread⟩ := Variables.exists_value?_of_get? hbindings hvalue
      obtain rfl := List.inj_on_of_nodup_map hnodup hd' hd (hname'.trans hname.symm)
      obtain ⟨b, rfl⟩ :=
        (Variables.isBoolean_or_null_of_value? hboolean htype hread).resolve_left hne
      exact ⟨b, hvalue⟩

end

namespace Setting

variable {setting : Setting} {t : TypeDef} {sets : List SelectionSet} {selection : Selection}
  {directive : Directive} {definition : DirectiveDef}

/-- The condition of the directive is a variable that has a default and is null all the same: the
request gives null for it, or the default is null.  (It has no value at all if the default is not
a constant, as it is wherever the grammar allows a default.) -/
inductive Unset (setting : Setting) (directive : Directive) : Prop
  | intro {a : Argument} {v : Variable} {d : VariableDefinition}
      (ha : directive.argument? DirectiveDef.condition = some a) (hvalue : a.value = .var v)
      (hd : d ∈ setting.operation.variableDefinitions) (hname : d.var.name.text = v.name.text)
      (hdefault : d.defaultValue.isSome)
      (hnull : ∀ value, Assoc.get? setting.bindings v.name.text = some value → value = .null) :
      Unset setting directive

section

variable {draft : Schema.Draft} {inputs : Json.Members}
  (hbuild : draft.build = .ok setting.schema)
  (hboolean : setting.schema.type? Scalar.booleanName = some Scalar.boolean)
  (hvalid : document.IsValid setting.schema) (hexecutes : setting.Executes document)
  (hbindings : Variables.coerce setting.schema setting.operation.variableDefinitions inputs =
    .ok setting.bindings)
include hbuild hboolean hvalid hexecutes hbindings

/-- The condition of `@skip` and `@include` is a Boolean, wherever the operation reaches one, or it
is a variable that is null, and then it counts as none. -/
theorem exists_condition_of_inReach {set : SelectionSet}
    (hreach : InReach setting.schema document setting.operation set)
    (hselection : selection ∈ set.selections) (hdirective : directive ∈ selection.directives)
    (hconditional : definition ∈ DirectiveDef.conditionals)
    (hname : directive.name.text = definition.name) :
    (∃ b, Grouping.condition? setting.schema setting.bindings definition [directive] = some b) ∨
      setting.Unset directive ∧
        Grouping.condition? setting.schema setting.bindings definition [directive] = none := by
  obtain ⟨hd, hreaches, hset, -, -⟩ := hreach
  have hstands := hset.child trivial (.selection hselection)
  have hdefinition : setting.schema.directive? directive.name.text = some definition :=
    hname ▸ Schema.directive?_of_build hbuild
      (DirectiveDef.mem_builtins_of_mem_conditionals hconditional)
  obtain ⟨input, hinput, hinputName, htype, hrequired⟩ :=
    DirectiveDef.exists_input_of_mem_conditionals hconditional
  -- The argument is given, and what it gives was checked.
  obtain ⟨given, hgiven, hgivenName⟩ := exists_given_of_directive hvalid hd hstands hdirective
    hdefinition (List.mem_map_of_mem (f := (·.2)) (Assoc.mem_of_get? hinput)) hrequired
  obtain ⟨a, ha⟩ : ∃ a, directive.argument? DirectiveDef.condition = some a :=
    Option.isSome_iff_exists.mp (List.find?_isSome.mpr
      ⟨given, hgiven, decide_eq_true (hgivenName.trans hinputName)⟩)
  have hmem := List.mem_of_find?_eq_some ha
  have haName : a.name.text = DirectiveDef.condition := by simpa using List.find?_some ha
  have hargument : Assoc.get? definition.arguments a.name.text = some input := by rwa [haName]
  have hproblems := problems_eq_nil_of_directive hvalid hd hstands hdirective hdefinition hmem
    hargument
  rw [htype] at hproblems
  rcases Literal.boolean_or_var_of_problems hboolean hproblems with ⟨b, span, hvalue⟩ | ⟨v, hvalue⟩
  · refine .inl ⟨b, Grouping.condition?_singleton hname ha hinput ?_⟩
    rw [hvalue, htype]
    exact Literal.coerce?_boolean hboolean b span
  · have husage := hreaches.usages_subset (usage_mem_of_directive hstands hdirective hdefinition
      hmem hvalue hargument (htype ▸ setting.schema.isInputRef_boolean hboolean false))
    rcases isBoolean_or_default_of_usage hboolean hvalid hexecutes.operation hbindings husage
      (congrArg some htype) with ⟨b, hb⟩ | ⟨d, hd, hdName, hdefault, hnull⟩
    · refine .inl ⟨b, Grouping.condition?_singleton hname ha hinput ?_⟩
      have hb : Assoc.get? setting.bindings v.name.text = some (.bool b) := hb
      simp [hvalue, Literal.coerce?, Literal.read, Literal.readVariable, hb, Json.isNull,
        Reading.value?]
    · refine .inr ⟨.intro ha hvalue hd hdName hdefault hnull, ?_⟩
      exact Grouping.condition?_singleton_of_null hname ha hvalue hinput htype hnull

end

end Setting

/-- Where field collection comes to a selection, every `@skip` and `@include` on it has a condition
that is a Boolean, unless this is a variable with a default that is null all the same, and then it
counts as none.  If neither of them is applied twice, the selection takes part just if no `@skip` on
it is true and no `@include` on it is false; and a field is in the groups just if it takes
part. -/
theorem Document.honours_conditions {draft : Schema.Draft} {inputs : Json.Members}
    {setting : Setting} {t : TypeDef} {sets : List SelectionSet} {selection : Selection}
    (hbuild : draft.build = .ok setting.schema)
    (hboolean : setting.schema.type? Scalar.booleanName = some Scalar.boolean)
    (hvalid : document.validate? setting.schema = some []) (hexecutes : setting.Executes document)
    (hbindings : Variables.coerce setting.schema setting.operation.variableDefinitions inputs =
      .ok setting.bindings)
    (hcollects : setting.CollectsFrom t sets) (hcomes : setting.Comes t sets selection) :
    (∀ directive ∈ selection.directives, ∀ definition ∈ DirectiveDef.conditionals,
      directive.name.text = definition.name →
        (∃ b, Grouping.condition? setting.schema setting.bindings definition [directive] =
            some b) ∨
          setting.Unset directive ∧
            Grouping.condition? setting.schema setting.bindings definition [directive] = none) ∧
    ((∀ definition ∈ DirectiveDef.conditionals,
        (selection.directives.filter (·.name.text = definition.name)).length ≤ 1) →
      (Grouping.takesPart setting.schema setting.bindings selection.directives ↔
        ∀ directive ∈ selection.directives,
          Grouping.condition? setting.schema setting.bindings .skipIf [directive] ≠ some true ∧
          Grouping.condition? setting.schema setting.bindings .includeIf [directive] ≠
            some false)) ∧
    ∀ f, selection = .field f →
      ((∃ row, (f.responseKey, row) ∈ setting.groupsOf t sets ∧ f ∈ row) ↔
        Grouping.takesPart setting.schema setting.bindings selection.directives) := by
  have hsets := Setting.inReach_of_collectsFrom hvalid hexecutes hcollects
  obtain ⟨set, hreach, hselection⟩ := Setting.exists_inReach_of_comes hvalid hexecutes hsets hcomes
  refine ⟨fun directive hdirective definition hconditional hname => ?_, Grouping.takesPart_iff,
    ?_⟩
  · exact Setting.exists_condition_of_inReach hbuild hboolean hvalid hexecutes hbindings hreach
      hselection hdirective hconditional hname
  · rintro f rfl
    rw [Setting.mem_groupsOf_iff]
    exact and_iff_right hcomes

/-! ### An example -/

/-- The field `person(id: 1) @skip(if: $brief) { name }`. -/
def skippedPerson : Field where
  responseName := none
  name := ⟨"person", none⟩
  arguments := [{ name := ⟨"id", none⟩, value := .int "1" none }]
  directives := [{
    name := ⟨"skip", none⟩
    arguments := [{ name := ⟨"if", none⟩, value := .var ⟨⟨"brief", none⟩, none⟩ }] }]
  selectionSet := some ⟨[.field {
    responseName := none
    name := ⟨"name", none⟩
    arguments := []
    directives := []
    selectionSet := none }], none⟩

/-- A query for a person that is skipped unless the request says otherwise. -/
def briefOperation : OperationDefinition where
  operation := .query
  name := none
  variableDefinitions := [{
    var := ⟨⟨"brief", none⟩, none⟩
    type := .named ⟨⟨"Boolean", none⟩, none⟩
    defaultValue := some (.boolean true none) }]
  directives := []
  selectionSet := ⟨[.field skippedPerson], none⟩

def briefDocument : Document where
  definitions := [.operation briefOperation]

set_option maxRecDepth 3000 in
theorem isValid_briefDocument : briefDocument.IsValid peopleSchema :=
  Document.isValid_of_all 8 (by decide +kernel) (by decide +kernel)

def briefSetting : Setting where
  schema := peopleSchema
  fragments := briefDocument.fragmentTable
  operation := briefOperation
  bindings := [("brief", .bool true)]
  rootValue := .null
  context := none

/-- The default counts, and the person is in no group. -/
theorem Document.honours_conditions_of_brief :
    peopleDraft.build = .ok briefSetting.schema ∧
      briefSetting.schema.type? Scalar.booleanName = some Scalar.boolean ∧
      briefDocument.validate? briefSetting.schema = some [] ∧
      briefSetting.Executes briefDocument ∧
      Variables.coerce briefSetting.schema briefOperation.variableDefinitions [] =
        .ok briefSetting.bindings ∧
      briefSetting.CollectsFrom peopleSchema.queryType [briefOperation.selectionSet] ∧
      briefSetting.Comes peopleSchema.queryType [briefOperation.selectionSet]
        (.field skippedPerson) ∧
      ¬ ∃ row, ("person", row) ∈ briefSetting.groupsOf peopleSchema.queryType
        [briefOperation.selectionSet] ∧ skippedPerson ∈ row := by
  have hbuild : peopleDraft.build = .ok briefSetting.schema := build_peopleDraft
  have hboolean : briefSetting.schema.type? Scalar.booleanName = some Scalar.boolean :=
    Schema.type?_eq_of_isSameDefinition build_peopleDraft
      (Schema.Draft.identifies_of_nodup (by decide)) (by simp [Schema.builtinTypes, Scalar.all])
      (by decide +kernel)
  have hvalid : briefDocument.validate? briefSetting.schema = some [] := isValid_briefDocument
  have hexecutes : briefSetting.Executes briefDocument := ⟨rfl, List.mem_singleton_self _⟩
  have hbindings : Variables.coerce briefSetting.schema briefOperation.variableDefinitions [] =
      .ok briefSetting.bindings := by
    have htype : briefSetting.schema.resolve? (.named ⟨⟨"Boolean", none⟩, none⟩) =
        some (.named Scalar.booleanName true) := by
      have hboolean : briefSetting.schema.type? "Boolean" = some Scalar.boolean := hboolean
      simp [Schema.resolve?, TypeExpr.innermostName, hboolean, TypeRef.ofExpr, Except.toOption,
        Scalar.booleanName]
    have hvalue : Variables.value? briefSetting.schema [] briefOperation.variableDefinitions[0] =
        .ok (some (.bool true)) := by
      simp [Variables.value?, briefOperation, htype, Option.filter_some,
        Schema.isInputRef_boolean hboolean, Literal.coerce?_boolean hboolean, Assoc.get?]
    simp only [briefOperation, List.getElem_cons_zero] at hvalue
    simp [Variables.coerce, briefOperation, hvalue]
    rfl
  have hcollects : briefSetting.CollectsFrom peopleSchema.queryType
      [briefOperation.selectionSet] := .root rfl
  have hcomes : briefSetting.Comes peopleSchema.queryType [briefOperation.selectionSet]
      (.field skippedPerson) := .own (List.mem_singleton_self _) (List.mem_singleton_self _)
  obtain ⟨-, htakes, hgroups⟩ :=
    Document.honours_conditions hbuild hboolean hvalid hexecutes hbindings hcollects hcomes
  refine ⟨hbuild, hboolean, hvalid, hexecutes, hbindings, hcollects, hcomes, fun hgroup => ?_⟩
  have hnone := (htakes (by decide)).mp ((hgroups _ rfl).mp hgroup) _ (List.mem_singleton_self _)
  exact hnone.1 (by decide +kernel)

end GraphQL
