import Mathlib
import GraphQL.Proofs.Schema.Roles
import GraphQL.Proofs.Typing.Trails

/-!
# What an argument belongs to

An argument is looked up in the definition of what it stands in, which is a field or a directive.
The field is known by the innermost selection around (`fieldAround?`), and stays known within its
directives.  So the directive that is at hand has to come first: where there is one, an argument
belongs to it, and else to the field.

A context does not tell a directive that has no definition from no directive at all.  Within such a
directive there is nothing at hand that would come first, and its arguments are taken for those of
the field around (`TypeContext.argument_of_owner`).
-/

namespace GraphQL

open Traversal (Guide Simulates Trail)

variable {schema : Schema} {draft : Schema.Draft}

/-! ## Fields around a node -/

/-- The definition of a field that is selected below the given nodes. -/
def selectedField? (schema : Schema) (above : List Node) (f : Field) : Option FieldDef :=
  (TypeContext.along schema above).parentType?.bind (schema.fieldDef? · f.name.text)

/-- The definition of the innermost of the fields among the nodes, which are given from the
innermost on. -/
def fieldAround? (schema : Schema) : List Node → Option FieldDef
  | [] => none
  | .selection (.field f) :: above => selectedField? schema above f
  | _ :: above => fieldAround? schema above

namespace TypeContext

variable {c : TypeContext} {node : Node} {above : List Node} {t : TypeDef} {a : Argument}

/-- The field that is known along a trail is the innermost one. -/
theorem field?_along (schema : Schema) (above : List Node) :
    (along schema above).field? = fieldAround? schema above := by
  induction above with
  | nil => rfl
  | cons node above ih =>
      -- Nothing but a field changes which field is known.
      cases node with
      | selection s =>
          cases s with
          | field f => rfl
          | _ => exact ih
      | definition d => cases d <;> exact ih
      | value v => cases v <;> exact ih
      | _ => exact ih

/-- The types of which fields are selected are types of the schema. -/
theorem type?_of_parentType? (hcoherent : schema.Coherent)
    (h : (along schema above).parentType? = some t) : schema.type? t.name = some t := by
  induction above with
  | nil => cases h
  | cons node above ih =>
      -- A type from which fields are selected is brought in by the set of selections.
      by_cases hset : ∃ set, node = .selectionSet set
      · obtain ⟨set, rfl⟩ := hset
        have hnamed : ((along schema above).namedOutputType? schema).filter (·.isCompositeType) =
            some t := h
        obtain ⟨type, -, ht⟩ :=
          Option.bind_eq_some_iff.mp (Option.filter_eq_some_iff.mp hnamed).1
        have ht : schema.type? type.innermostName = some t := ht
        rwa [hcoherent.name_of_type? ht]
      · refine ih ?_
        have hparents : ((along schema above).enter schema node).parentTypes =
            (along schema above).parentTypes := by
          cases node with
          | selectionSet set => exact absurd ⟨set, rfl⟩ hset
          | definition d => cases d <;> rfl
          | selection s => cases s <;> rfl
          | value v => cases v <;> rfl
          | _ => rfl
        rw [← h, parentType?, parentType?, ← hparents]
        rfl

theorem isInputRef_of_fieldAround? {d : FieldDef} (hbuild : draft.build = .ok schema)
    (h : fieldAround? schema above = some d) :
    ∀ argument ∈ d.arguments, schema.isInputRef argument.2.type := by
  induction above with
  | nil => cases h
  | cons node above ih =>
      unfold fieldAround? at h
      split at h
      · cases h
      · rename_i f above' heq
        cases heq
        obtain ⟨t, ht, hd⟩ := Option.bind_eq_some_iff.mp h
        have hknown := type?_of_parentType? (Schema.coherent_of_build hbuild) ht
        exact Schema.argumentsAreInputs_of_build hbuild hknown hd
      · rename_i heq
        cases heq
        exact ih h

/-! ## Arguments -/

/-- What is known within an argument is what a definition says of it, and nothing if there is
none. -/
structure KnowsArgument (c : TypeContext) (definition? : Option InputDef) : Prop where
  argument : c.argument? = definition?
  inputType : c.inputType? = definition?.map (·.type)
  default : c.default? = definition?.bind (·.defaultValue)

/-- The arguments among which one is looked up. -/
def arguments? (c : TypeContext) : Option (List (String × InputDef)) :=
  match c.directive? with
  | some directive => some directive.arguments
  | none => c.field?.map (·.arguments)

theorem knowsArgument_enter
    (h : ∀ arguments, c.arguments? = some arguments →
      ∀ argument ∈ arguments, schema.isInputRef argument.2.type) :
    (c.enter schema (.argument a)).KnowsArgument
      (c.arguments?.bind (Assoc.get? · a.name.text)) where
  argument := rfl
  default := rfl
  inputType := by
    show ((c.arguments?.bind (Assoc.get? · a.name.text)).map (·.type)).filter schema.isInputRef = _
    cases hinput : c.arguments?.bind (Assoc.get? · a.name.text) with
    | none => rfl
    | some input =>
        obtain ⟨arguments, harguments, hget⟩ := Option.bind_eq_some_iff.mp hinput
        have href := h arguments harguments _ (Assoc.mem_of_get? hget)
        rw [Option.map_some, Option.filter_some, if_pos href]

/-- Nothing that stands in an argument changes which argument it is. -/
theorem argument?_enter_of_rank (h : 2 ≤ node.rank) :
    (c.enter schema node).argument? = c.argument? := by
  cases node with
  | name n => rfl
  | value v => cases v <;> rfl
  | objectField f => rfl
  | _ => exact absurd h (by simp [Node.rank])

end TypeContext

/-- What may only stand in arguments holds only what may stand there. -/
theorem Node.two_le_rankBelow {node : Node} (h : 2 ≤ node.rank) : 2 ≤ node.rankBelow := by
  cases node with
  | name n => exact le_refl 2
  | value v => exact le_refl 2
  | objectField f => exact le_refl 2
  | _ => exact absurd h (by simp [Node.rank])

theorem Schema.isInputRef_of_directive? {name : String} {definition : DirectiveDef}
    (hbuild : draft.build = .ok schema) (h : schema.directive? name = some definition) :
    ∀ argument ∈ definition.arguments, schema.isInputRef argument.2.type := by
  intro argument hargument
  obtain ⟨reached, hbuilt⟩ := exists_isBuilt hbuild
  have hfaults := (List.append_eq_nil_iff.mp hbuilt.faults).2
  have hdirective := List.flatMap_eq_nil_iff.mp hfaults _ (Assoc.mem_of_get? h)
  exact isInputRef_of_inputFaults (List.flatMap_eq_nil_iff.mp hdirective argument hargument)

namespace Traversal

variable {trail : Trail} {step : Step} {node : Node}

/-- A trail leads to every node that it goes through, and each of them can hold the next. -/
theorem Trail.LeadsTo.above (h : Trail.LeadsTo (step :: trail) node) :
    trail.LeadsTo step.above ∧ step.above.rankBelow ≤ node.rank := by
  generalize hall : step :: trail = all at h
  induction h with
  | root node => cases hall
  | @child trail' above child step' h hmem _ =>
      cases hall
      obtain ⟨rfl, -, hchild⟩ := mem_of_mem_steps hmem
      exact ⟨h, (step.above.holds_contents step.slot).nodes child hchild⟩
  | @replaced trail' node replacement h hfits ih =>
      subst hall
      -- What replaces a node stands in the same slot, so it has to fit there as well.
      refine ⟨(ih rfl).1, ?_⟩
      refine (step.above.holds_contents step.slot).replace step.index replacement ?_
      rw [Trail.misfit?] at hfits
      split at hfits
      · next hreplace => exact Option.isSome_of_eq_some hreplace
      · cases hfits

/-- The argument is known in all that it holds. -/
theorem argument?_along_of_leadsTo (schema : Schema) {a : Argument} {inner outer : Trail}
    (h : Trail.LeadsTo (inner ++ step :: outer) node) (hstep : step.above = .argument a) :
    (TypeContext.along schema (node :: Trail.above (inner ++ step :: outer))).argument? =
      (TypeContext.along schema (.argument a :: outer.above)).argument? ∧ 2 ≤ node.rank := by
  induction inner generalizing node with
  | nil =>
      have hrank : step.above.rankBelow ≤ node.rank := h.above.2
      rw [hstep] at hrank
      have hbelow : ((TypeContext.along schema (Trail.above (step :: outer))).enter schema
          node).argument? = (TypeContext.along schema (Trail.above (step :: outer))).argument? :=
        TypeContext.argument?_enter_of_rank hrank
      refine ⟨hbelow.trans ?_, hrank⟩
      rw [Trail.above, List.map_cons, hstep]
      rfl
  | cons first inner ih =>
      obtain ⟨habove, hrank⟩ := h.above
      obtain ⟨hsame, hfirst⟩ := ih habove
      have hrank := (Node.two_le_rankBelow hfirst).trans hrank
      exact ⟨(TypeContext.argument?_enter_of_rank hrank).trans hsame, hrank⟩

end Traversal

/-! ## The definition that an argument has -/

namespace TypeContext

variable {above : List Node} {a : Argument}

/-- Where no directive is at hand, an argument is one of the field around. -/
theorem knowsArgument_of_directive?_eq_none (hbuild : draft.build = .ok schema)
    (h : (along schema above).directive? = none) :
    (along schema (.argument a :: above)).KnowsArgument
      ((fieldAround? schema above).bind (Assoc.get? ·.arguments a.name.text)) := by
  have harguments : (along schema above).arguments? =
      (fieldAround? schema above).map (·.arguments) := by
    rw [arguments?, h, field?_along]
  have hknows : (along schema (.argument a :: above)).KnowsArgument
      ((along schema above).arguments?.bind (Assoc.get? · a.name.text)) :=
    knowsArgument_enter fun arguments hmem => by
      obtain ⟨d, hd, rfl⟩ := Option.map_eq_some_iff.mp (harguments ▸ hmem)
      exact isInputRef_of_fieldAround? hbuild hd
  rwa [harguments, Option.bind_map] at hknows

/-- A directive that is at hand comes before the field around. -/
theorem knowsArgument_of_directive?_eq_some {name : String} {definition : DirectiveDef}
    (hbuild : draft.build = .ok schema) (hdefinition : schema.directive? name = some definition)
    (h : (along schema above).directive? = some definition) :
    (along schema (.argument a :: above)).KnowsArgument
      (Assoc.get? definition.arguments a.name.text) := by
  have harguments : (along schema above).arguments? = some definition.arguments := by
    rw [arguments?, h]
  have hknows : (along schema (.argument a :: above)).KnowsArgument
      ((along schema above).arguments?.bind (Assoc.get? · a.name.text)) :=
    knowsArgument_enter fun arguments hmem => by
      obtain rfl := Option.some.inj (harguments.symm.trans hmem)
      exact Schema.isInputRef_of_directive? hbuild hdefinition
  rwa [harguments] at hknows

/-- What an argument is known to be, where a visitor is told the types.  It is an argument of the
field or of the directive that it stands in, and is known in all that it holds; but if it stands in
a directive that has no definition, it is taken for one of the field around the directive. -/
theorem argument_of_owner (hbuild : draft.build = .ok schema) :
    (∀ {σ : Type} (hooks : TypeContext → Visitor σ),
      Simulates (Visitor.typed schema (.reading hooks)) (.typed schema hooks)
        fun above s => (along schema above, s)) ∧
    ∀ (step : Traversal.Step) (rest : Trail) (a : Argument),
      Trail.LeadsTo (step :: rest) (.argument a) →
      let c := along schema (.argument a :: Trail.above (step :: rest))
      (∀ f, step.above = .selection (.field f) → c.KnowsArgument
        ((selectedField? schema rest.above f).bind (Assoc.get? ·.arguments a.name.text))) ∧
      (∀ d definition, step.above = .directive d →
        schema.directive? d.name.text = some definition →
        c.KnowsArgument (Assoc.get? definition.arguments a.name.text)) ∧
      (∀ d, step.above = .directive d → schema.directive? d.name.text = none → c.KnowsArgument
        ((fieldAround? schema rest.above).bind (Assoc.get? ·.arguments a.name.text))) ∧
      ∀ (inner : Trail) (below : Traversal.Step) (node : Node), below.above = .argument a →
        Trail.LeadsTo (inner ++ below :: step :: rest) node →
        (along schema (node :: Trail.above (inner ++ below :: step :: rest))).argument? =
          c.argument? := by
  refine ⟨fun hooks => Visitor.simulates_typed schema hooks, fun step rest a h => ?_⟩
  have habove {node : Node} (hstep : step.above = node) :
      Trail.above (step :: rest) = node :: rest.above := congrArg (· :: rest.above) hstep
  refine ⟨fun f hstep => ?_, fun d definition hstep hdefinition => ?_, fun d hstep hnone => ?_,
    fun inner below node hbelow hnode =>
      (Traversal.argument?_along_of_leadsTo schema hnode hbelow).1⟩
  · -- No directive is at hand around a field, and the field itself is the innermost one.
    have hready : (along schema rest.above).Ready step.above :=
      ((h.ready schema).2 step rest rfl).1
    rw [hstep] at hready
    have hdirective :
        ((along schema rest.above).enter schema (.selection (.field f))).directive? = none :=
      directive?_enter (fun hkind => nomatch hkind) (hready.directive Nat.one_pos)
    rw [habove hstep]
    exact knowsArgument_of_directive?_eq_none hbuild hdirective
  · rw [habove hstep]
    exact knowsArgument_of_directive?_eq_some hbuild hdefinition hdefinition
  · rw [habove hstep]
    exact knowsArgument_of_directive?_eq_none hbuild hnone

end TypeContext

/-! ### A directive without a definition, on a field with arguments -/

/-- Stamps, of some width. -/
def stampDraft : Schema.Draft where
  query := {
    name := "Query"
    origin := .host 0
    body := .object { fields := FieldDef.table [{
      name := "stamp"
      type := .named "Int" true
      arguments := InputDef.table [{
        name := "width", type := .named "Int" true, defaultValue := some (.int 3) }] }] } }

@[irreducible] def stampSchema : Schema := stampDraft.built (by decide +kernel)

theorem build_stampDraft : stampDraft.build = .ok stampSchema := by
  unfold stampSchema
  exact Schema.Draft.build_eq_ok_built _ _

/-- The argument `width: 1`. -/
def widthArgument : Argument where
  name := ⟨"width", none⟩
  value := .int "1" none

/-- The directive `@glue(width: 1)`, which nobody has defined. -/
def glueDirective : Directive where
  name := ⟨"glue", none⟩
  arguments := [widthArgument]

def gluedStamp : Field where
  responseName := none
  name := ⟨"stamp", none⟩
  arguments := []
  directives := [glueDirective]
  selectionSet := none

def gluedSelection : SelectionSet where
  selections := [.field gluedStamp]

def gluedOperation : OperationDefinition where
  operation := .query
  name := none
  variableDefinitions := []
  directives := []
  selectionSet := gluedSelection

/-- The steps to the argument of the directive. -/
def widthTrail : Trail := [
  ⟨.directive glueDirective, 1, .arguments, 0⟩,
  ⟨.selection (.field gluedStamp), 1, .directives, 0⟩,
  ⟨.selectionSet gluedSelection, 0, .selections, 0⟩,
  ⟨.definition (.operation gluedOperation), 0, .selectionSet, 0⟩,
  ⟨.document { definitions := [.operation gluedOperation] }, 0, .definitions, 0⟩]

theorem leadsTo_widthTrail : widthTrail.LeadsTo (.argument widthArgument) := by
  have hdocument : Trail.LeadsTo [] (.document { definitions := [.operation gluedOperation] }) :=
    .root _
  have hoperation : Trail.LeadsTo (widthTrail.drop 4) (.definition (.operation gluedOperation)) :=
    hdocument.child (List.mem_of_getElem? (i := 0) rfl)
  have hset : Trail.LeadsTo (widthTrail.drop 3) (.selectionSet gluedSelection) :=
    hoperation.child (List.mem_of_getElem? (i := 0) rfl)
  have hfield : Trail.LeadsTo (widthTrail.drop 2) (.selection (.field gluedStamp)) :=
    hset.child (List.mem_of_getElem? (i := 0) rfl)
  have hdirective : Trail.LeadsTo (widthTrail.drop 1) (.directive glueDirective) :=
    hfield.child (List.mem_of_getElem? (i := 1) rfl)
  exact hdirective.child (List.mem_of_getElem? (i := 1) rfl)

/-- The argument is taken for the one of the field around, which has a type and a default. -/
theorem argument_of_owner_of_glue : ∃ input : InputDef, stampDraft.build = .ok stampSchema ∧
    widthTrail.LeadsTo (.argument widthArgument) ∧
    stampSchema.directive? glueDirective.name.text = none ∧
    input.type = .named "Int" true ∧ input.defaultValue.isSome ∧
    (TypeContext.along stampSchema (.argument widthArgument :: widthTrail.above)).KnowsArgument
      (some input) := by
  have hunknown : stampSchema.directive? glueDirective.name.text = none :=
    Option.isNone_iff_eq_none.mp (by decide +kernel)
  have hinput : ((fieldAround? stampSchema (Trail.above (widthTrail.drop 1))).bind
      (Assoc.get? ·.arguments widthArgument.name.text)).any (fun input =>
        decide (input.type = .named "Int" true) && input.defaultValue.isSome) = true := by
    decide +kernel
  obtain ⟨input, hinput, hlooks⟩ := (Option.any_eq_true _ _).mp hinput
  obtain ⟨htype, hdefault⟩ := Bool.and_eq_true_iff.mp hlooks
  have hknows := ((TypeContext.argument_of_owner build_stampDraft).2 _ _ widthArgument
    leadsTo_widthTrail).2.2.1 glueDirective rfl hunknown
  refine ⟨input, build_stampDraft, leadsTo_widthTrail, hunknown, of_decide_eq_true htype, hdefault,
    ?_⟩
  rwa [← hinput]

end GraphQL
