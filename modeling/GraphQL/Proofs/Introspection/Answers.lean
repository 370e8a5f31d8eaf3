import Mathlib
import GraphQL.Proofs.Execution.Depth
import GraphQL.Proofs.Execution.Paths
import GraphQL.Proofs.Introspection.Arguments
import GraphQL.Proofs.Validation.Cycles

/-!
# Introspection always answers

A valid query without variables that selects only `__schema`, `__type` and `__typename` of its
root has data and no errors (`Document.introspection_answers`), if no declared field has a name
that is kept for introspection.

Three things could go wrong.  A value might not fit its type: but every introspection field has a
value that does, and so has every member of a description.  Arguments might not be read: but
validation has seen to the few that there are.  And objects might be nested too deeply: but no
fragment of a valid document is spread within itself (`Document.acyclic_of_isValid`).
`Setting.Answerable` says of a part of the response that none of this happens there; what a part
goes on with, or is put together of, is answerable in turn (`Setting.Answerable.goOn`,
`Setting.Answerable.parts`), so it has a value in the end (`Setting.Ends.succeeds`).
-/

namespace GraphQL

open Introspection FragmentTable

/-! ## Fragments of valid documents -/

/-- No fragment of a valid document is spread within itself. -/
theorem Document.acyclic_of_isValid {schema : Schema} {document : Document}
    (hvalid : document.IsValid schema) : document.fragmentTable.Acyclic := by
  have hnodup : (document.fragments.map (·.name.text)).Nodup :=
    map_fst_placedFragments document ▸ nodup_fragmentNames_of_isValid hvalid
  have hcycles : FragmentCycles.errors document = [] :=
    errors_eq_nil_of_satisfies (satisfies_of_isValid hvalid (by simp [Rule.all]))
  have hspreads {name other : String} (h : document.fragmentTable.Spreads name other) :
      document.Spreads name other := by
    obtain ⟨fragment, spread, hfragment, hspread⟩ := h
    obtain ⟨found, hfound, heq⟩ :=
      List.mem_map.mp (Assoc.ofList_subset _ (Assoc.mem_of_get? hfragment))
    cases heq
    exact ⟨fragment, spread, fragment?_of_mem hnodup hfound, hspread⟩
  intro name hloop
  have hloop : Relation.TransGen document.Spreads name name :=
    Relation.TransGen.mono (fun _ _ h => hspreads h) _ _ hloop
  exact Merging.not_transGen_self_of_acc (ends_of_errors_eq_nil hcycles name) hloop

/-! ## Parts that can be answered -/

namespace Setting

variable {setting : Setting} {document : Document} {draft : Schema.Draft}

/-- The part has a value, as far as one can see from it: its value fits the type, and what is
selected of it is not nested too deeply. -/
inductive Answerable (setting : Setting) : ℕ → Task → Prop
  | field {n : ℕ} {parent : TypeDef} {source : Json} {d : FieldDef} {node : Field}
      {rest : List Field} {path : List PathSegment}
      (hd : (node.name.text, d) ∈ Introspection.fields)
      (hvalue : d.resolver = none →
        setting.schema.Describes d.type ((source.get? d.name).getD .null))
      (hnests : SetsNestWithin setting.fragments n ((node :: rest).filterMap (·.selectionSet))) :
      Answerable setting n (.field parent source d (node :: rest) path)
  | value {n : ℕ} {info : ResolveInfo} {type : TypeRef} {path : List PathSegment} {value : Json}
      (h : setting.schema.Describes type value)
      (hnests : SetsNestWithin setting.fragments n (info.fieldNodes.filterMap (·.selectionSet))) :
      Answerable setting n (.value info type path value)
  | object {n : ℕ} {info : ResolveInfo} {t : TypeDef} {path : List PathSegment}
      {members : Json.Members} (ht : t ∈ types)
      (h : ∀ field ∈ plainFields t,
        setting.schema.Describes field.2 ((Assoc.get? members field.1).getD .null))
      (hnests : SetsNestWithin setting.fragments n (info.fieldNodes.filterMap (·.selectionSet))) :
      Answerable setting n (.object info t path (.object members))
  | orNull {n : ℕ} {type : TypeRef} {task : Task} (h : Answerable setting n task) :
      Answerable setting n (.orNull type task)

/-- A part has a value, and no error is noted for it. -/
structure Succeeds (result : Completion) (notes : List Note) : Prop where
  value : ∃ value, result = .ok value
  errors : Note.errors notes = []

variable {n m : ℕ} {task : Task} {notes : List Note} {result : Completion}

/-- The fields of an object can be answered if they are those of introspection and have values that
fit. -/
theorem answerable_of_mem_members {parent : TypeDef} {source : Json} {path : List PathSegment}
    {groups : FieldGroups} {part : PathSegment × Task}
    (hfields : ∀ key node rest d, (key, node :: rest) ∈ groups →
      setting.definition? parent node = some d → (node.name.text, d) ∈ Introspection.fields ∧
        (d.resolver = none → setting.schema.Describes d.type ((source.get? d.name).getD .null)))
    (hnests : ∀ key nodes, (key, nodes) ∈ groups → nodes ≠ [] →
      SetsNestWithin setting.fragments n (nodes.filterMap (·.selectionSet)))
    (hpart : part ∈ setting.members parent source path groups) :
    setting.Answerable n part.2 := by
  obtain ⟨⟨key, d, nodes⟩, hselected, rfl⟩ := List.mem_map.mp hpart
  obtain ⟨node, rest, rfl, hgroup, hd⟩ := exists_of_mem_selectedFields hselected
  obtain ⟨hd, hvalue⟩ := hfields key node rest d hgroup hd
  exact .orNull (.field hd hvalue (hnests key _ hgroup (List.cons_ne_nil node rest)))

/-- What is selected of a described object are fields of its type, or those that lead to
introspection. -/
theorem mem_fields_of_definition? {t : TypeDef} {node : Field} {d : FieldDef}
    {members : Json.Members} (hdescribing : setting.schema.SelfDescribing) (ht : t ∈ types)
    (hmembers : ∀ field ∈ plainFields t,
      setting.schema.Describes field.2 ((Assoc.get? members field.1).getD .null))
    (hd : setting.definition? t node = some d) :
    (node.name.text, d) ∈ Introspection.fields ∧ (d.resolver = none →
      setting.schema.Describes d.type (((Json.object members).get? d.name).getD .null)) := by
  obtain ⟨u, hu, hfound⟩ := Option.bind_eq_some_iff.mp hd
  obtain rfl := Option.some.inj (hu.symm.trans (hdescribing.type t ht))
  rcases Schema.mem_fields_or_of_fieldDef? hfound with ⟨hmem, hresolver⟩ | hdeclared
  · exact ⟨hmem, fun hnone => absurd hnone hresolver⟩
  · obtain ⟨fields, hfields, hget⟩ := Option.bind_eq_some_iff.mp hdeclared
    have hmem : (node.name.text, d) ∈ u.fields?.getD [] := by
      rw [hfields]
      exact Assoc.mem_of_get? hget
    refine ⟨List.mem_append_right _ (List.mem_flatMap.mpr ⟨u, ht, hmem⟩), fun hnone => ?_⟩
    have hplain : (d.name, d.type) ∈ plainFields u :=
      List.mem_map.mpr ⟨_, List.mem_filter.mpr ⟨hmem, by simp [hnone]⟩, rfl⟩
    exact hmembers _ hplain

/-! ### What is done first -/

/-- No introspection field refuses to answer. -/
theorem not_answers_error {node : Field} {d : FieldDef} {params : ResolveParams} {message : String}
    (hd : (node.name.text, d) ∈ Introspection.fields) :
    ¬ setting.Answers d params (.error message) notes := by
  intro hanswers
  generalize houtcome : Except.error message = outcome at hanswers
  cases hanswers with
  | plain | introspection => cases houtcome
  | host hresolver =>
      obtain ⟨field, heq, -⟩ := exists_of_resolver hd hresolver
      cases heq

/-- What an introspection field answers fits its type. -/
theorem describes_of_answers (hdescribing : setting.schema.SelfDescribing) {node : Field}
    {d : FieldDef} {params : ResolveParams} {value : Json}
    (hd : (node.name.text, d) ∈ Introspection.fields)
    (hvalue : d.resolver = none →
      setting.schema.Describes d.type ((params.source.get? d.name).getD .null))
    (hanswers : setting.Answers d params (.ok value) notes) :
    setting.schema.Describes d.type value := by
  generalize houtcome : Except.ok value = outcome at hanswers
  cases hanswers with
  | plain hnone =>
      obtain rfl := Except.ok.inj houtcome
      exact hvalue hnone
  | introspection hresolver =>
      obtain rfl := Except.ok.inj houtcome
      obtain ⟨field, heq, htype⟩ := exists_of_resolver hd hresolver
      obtain rfl := Resolver.introspection.inj heq
      have htype : d.type = MetaResolver.type _ := htype
      exact htype ▸ hdescribing.describes_value _ params
  | host hresolver =>
      obtain ⟨field, heq, -⟩ := exists_of_resolver hd hresolver
      cases heq

/-- What a named type makes of a value that fits it: a leaf, or an object of an introspection
type. -/
theorem target_of_describes (hdescribing : setting.schema.SelfDescribing) {name : String}
    {nullable : Bool} {value : Json} (info : ResolveInfo) (hnull : value ≠ .null)
    (h : setting.schema.Describes (.named name nullable) value) :
    (∃ leaf, setting.target info name value = .ok (.leaf leaf)) ∨
      ∃ t members, t ∈ types ∧ value = .object members ∧
        (∀ field ∈ plainFields t,
          setting.schema.Describes field.2 ((Assoc.get? members field.1).getD .null)) ∧
        setting.target info name value = .ok (.object t) := by
  cases h with
  | null => exact absurd rfl hnull
  | @leaf _ _ t _ found ht hleaf _ hvalue =>
      have hkind : t.isAbstractType = false ∧ t.isObjectType = false := by
        unfold TypeDef.isLeafType at hleaf
        unfold TypeDef.isAbstractType TypeDef.isObjectType
        split at hleaf <;> simp_all
      exact .inl ⟨found, by simp [target, ht, hkind, hvalue, Except.map]⟩
  | @object _ t members ht hobject hmembers =>
      have habstract : t.isAbstractType = false := by
        unfold TypeDef.isObjectType at hobject
        unfold TypeDef.isAbstractType
        split at hobject <;> simp_all
      refine .inr ⟨t, members, ht, rfl, hmembers, ?_⟩
      simp [target, hdescribing.type t ht, habstract, hobject]

theorem Succeeds.assembled {whole : Whole} {parts : Parts} {outcomes : Job.Outcomes Completion}
    {more : List Note} (hnotes : Note.errors notes = [])
    (hlength : outcomes.length ≤ parts.length)
    (hparts : ∀ part outcome, (part, outcome) ∈ parts.zip outcomes →
      Succeeds outcome.1 outcome.2) (hmore : more.Perm outcomes.notes) :
    Succeeds (Setting.assembled whole parts outcomes) (notes ++ more) := by
  have hall : ∀ outcome ∈ outcomes, Succeeds outcome.1 outcome.2 := by
    intro outcome hmem
    rw [← List.map_snd_zip hlength] at hmem
    obtain ⟨pair, hpair, rfl⟩ := List.mem_map.mp hmem
    exact hparts pair.1 pair.2 hpair
  constructor
  · cases hresult : Setting.assembled whole parts outcomes with
    | ok value => exact ⟨value, rfl⟩
    | error e =>
        obtain ⟨outcome, hmem, herror⟩ := exists_error_of_assembled hresult
        obtain ⟨value, hvalue⟩ := (hall outcome hmem).value
        cases hvalue.symm.trans herror
  · rw [Note.errors_append, hnotes, List.nil_append, List.eq_nil_iff_forall_not_mem]
    intro e he
    have hnote := hmore.mem_iff.mp (Note.mem_errors_iff.mp he)
    -- The notes of the parts come in another order, but they are no others.
    obtain ⟨outcome, hmem, hnote⟩ := List.mem_flatMap.mp hnote
    have hnone := (hall outcome hmem).errors
    exact List.not_mem_nil (hnone ▸ Note.mem_errors_iff.mpr hnote)

section

variable (hexamines : setting.Examines document draft)
include hexamines

/-- A part that is done has a value. -/
theorem Answerable.exists_ok {noted : Event → Prop} (h : setting.Answerable n task)
    (hasks : setting.Asks noted task) (hmoves : setting.Moves n task notes m (.done result)) :
    ∃ value, result = .ok value := by
  -- Each way in which a part is done with an error is one that being answerable excludes.
  cases h with
  | field hd hvalue hnests =>
      cases hasks with
      | field hgroups =>
          obtain ⟨args, hargs⟩ := hexamines.exists_arguments hgroups.groups hd
          cases hmoves with
          | refused hrefused => cases hargs.symm.trans hrefused
          | failed _ hanswers => exact (not_answers_error hd hanswers).elim
  | value hdescribes hnests =>
      cases hmoves with
      | null =>
          cases hdescribes with
          | null hnullable => exact ⟨.null, if_pos hnullable⟩
          | leaf _ _ hnull => exact absurd rfl hnull
      | notAList hnull harray =>
          cases hdescribes with
          | null => exact absurd rfl hnull
          | list => exact absurd rfl (harray _)
      | misfit hnull htarget =>
          rcases target_of_describes hexamines.describing _ hnull hdescribes with
            ⟨leaf, hleaf⟩ | ⟨t, members, -, -, -, hobject⟩
          · cases hleaf.symm.trans htarget
          · cases hobject.symm.trans htarget
      | leaf => exact ⟨_, rfl⟩
  | object ht h hnests =>
      cases hmoves with
      | tooDeep => exact hnests.elim
      | wrongObject haccepts => simp [accepts?_eq_none ht] at haccepts
  | orNull => cases hmoves

/-- A part that goes on as another goes on as one that can be answered. -/
theorem Answerable.goOn {next : Task} (h : setting.Answerable n task)
    (hmoves : setting.Moves n task notes m (.goOn next)) : setting.Answerable m next := by
  cases h with
  | field hd hvalue hnests =>
      cases hmoves with
      | resolved _ hanswers =>
          have hdescribes := describes_of_answers hexamines.describing hd hvalue hanswers
          exact .value hdescribes hnests
  | value hdescribes hnests =>
      cases hmoves with
      | object hnull htarget =>
          rcases target_of_describes hexamines.describing _ hnull hdescribes with
            ⟨leaf, hleaf⟩ | ⟨t, members, ht, rfl, hmembers, hobject⟩
          · cases hleaf.symm.trans htarget
          · cases hobject.symm.trans htarget
            exact .object ht hmembers hnests
  | object => cases hmoves
  | orNull => cases hmoves

/-- All parts of a part that can be answered can be answered. -/
theorem Answerable.parts {whole : Whole} {parts : Parts} (h : setting.Answerable n task)
    (hmoves : setting.Moves n task notes m (.parts whole parts)) :
    ∀ part ∈ parts, setting.Answerable m part.2 := by
  intro part hpart
  cases h with
  | field => cases hmoves
  | value hdescribes hnests =>
      cases hmoves with
      | items =>
          cases hdescribes with
          | list hitems =>
              obtain ⟨⟨value, i⟩, hvalue, rfl⟩ := List.mem_map.mp hpart
              exact .orNull (.value (hitems value (List.fst_mem_of_mem_zipIdx hvalue)) hnests)
  | object ht hmembers hnests =>
      cases hmoves with
      | members =>
          refine answerable_of_mem_members (fun key node rest d _ hd => ?_)
            (fun key nodes hgroup hne => setsNestWithin_of_mem_groupsOf hnests hgroup hne) hpart
          exact mem_fields_of_definition? hexamines.describing ht hmembers hd
  | orNull => cases hmoves

/-! ### What comes of it -/

/-- What can be answered has a value in the end, and no error is noted on the way. -/
theorem Ends.succeeds (hends : setting.Ends n task result notes) (h : setting.Answerable n task)
    (hasks : setting.Asks (fun _ => True) task) : Succeeds result notes := by
  -- Along the run: being answerable passes to what a part goes on with and to its parts.
  induction hends with
  | done hmoves => exact ⟨h.exists_ok hexamines hasks hmoves, hmoves.errors_eq_nil⟩
  | goOn hmoves _ ih =>
      have hnext := hasks.of_goOn hmoves fun _ _ => trivial
      obtain ⟨hvalue, hnone⟩ := ih (h.goOn hexamines hmoves) hnext
      exact ⟨hvalue, by rw [Note.errors_append, hmoves.errors_eq_nil, hnone, List.append_nil]⟩
  | parts outcomes hmoves hlength _ hmore ih =>
      refine .assembled hmoves.errors_eq_nil hlength.ge (fun part outcome hmem => ?_) hmore
      have hpart := (List.of_mem_zip hmem).1
      exact ih part outcome hmem (h.parts hexamines hmoves part hpart)
        (hasks.of_parts hmoves part hpart)
  | orNull _ ih =>
      cases h with
      | orNull h =>
          cases hasks with
          | orNull hasks =>
              obtain ⟨⟨value, rfl⟩, hnone⟩ := ih h hasks
              exact ⟨⟨value, rfl⟩, by rw [Note.errors_append, hnone]; rfl⟩

/-- A query that leads to introspection ends with an object, and no error is noted. -/
theorem RootEnds.succeeds {limit : ℕ} {rootType : TypeDef} {data : Json}
    (hends : setting.RootEnds limit rootType data notes)
    (hroot : setting.schema.rootType? setting.operation.operation = some rootType)
    (hfields : ∀ key node rest d,
      (key, node :: rest) ∈ setting.groupsOf rootType [setting.operation.selectionSet] →
      setting.definition? rootType node = some d →
        (node.name.text, d) ∈ Introspection.fields ∧ d.resolver ≠ none)
    (hnests : NestsWithin setting.fragments (limit + 1) setting.operation.selectionSet.selections) :
    (∃ members, data = .object members) ∧ Note.errors notes = [] := by
  cases hends with
  | @settle outcomes notes htogether =>
      have hfound := found_of_together htogether
      have hsucceeds : Succeeds (Setting.assembled .object (setting.rootParts rootType) outcomes)
          ([] ++ notes) := by
        refine .assembled rfl hfound.length_le (fun part outcome hmem => ?_) hfound.notes
        have hpart := (List.of_mem_zip hmem).1
        refine (hfound.ends part outcome hmem).succeeds hexamines ?_
          (asks_of_mem_members (.root hroot) hpart)
        refine answerable_of_mem_members (fun key node rest d hgroup hd => ?_)
          (fun key nodes hgroup hne => setsNestWithin_of_mem_rootGroups hnests hgroup hne) hpart
        obtain ⟨hmem, hresolver⟩ := hfields key node rest d hgroup hd
        exact ⟨hmem, fun hnone => absurd hnone hresolver⟩
      obtain ⟨⟨value, hvalue⟩, hnone⟩ := hsucceeds
      -- What the members are put together to is an object.
      obtain ⟨values, -, hbuilt⟩ := Schema.exists_of_bind (show (outcomes.values.mapM id >>=
        fun values => .ok (Whole.object.build
          (((setting.rootParts rootType).map (·.1)).zip values))) = .ok value from hvalue)
      rw [hvalue]
      refine ⟨⟨_, (Except.ok.inj hbuilt).symm⟩, ?_⟩
      simp only [settled, List.append_nil]
      exact hnone

end

/-- All that the operation selects of its root type leads to introspection, through all fragments
and under whichever keys. -/
def SelectsIntrospection (setting : Setting) (rootType : TypeDef) : Prop :=
  ∀ group ∈ setting.groupsOf rootType [setting.operation.selectionSet], ∀ node ∈ group.2,
    node.name.text ∈ [schemaFieldName, typeFieldName, typenameFieldName]

end Setting

/-! ## Queries -/

/-- A query that selects only `__schema`, `__type` and `__typename` of its root has data and no
errors. -/
theorem Document.introspection_answers {schema : Schema} {draft : Schema.Draft}
    {document : Document} {input : ExecutionInput} {operation : OperationDefinition}
    (hbuild : draft.build = .ok schema) (hidentifies : draft.Identifies)
    (hreserves : schema.ReservesNames)
    (hstring : schema.type? Scalar.stringName = some Scalar.string)
    (hboolean : schema.type? Scalar.booleanName = some Scalar.boolean)
    (hvalid : document.IsValid schema)
    (hoperation : document.chooseOperation input.operationName = .ok operation)
    (hquery : operation.operation = .query) (hvariables : operation.variableDefinitions = [])
    (hselects : (document.setting schema input operation []).SelectsIntrospection
      schema.queryType) :
    ∃ members, (document.execute schema input).response.data = some (.object members) ∧
      (document.execute schema input).response.errors = [] := by
  have hroot : schema.rootType? operation.operation = some schema.queryType := by
    rw [hquery]
    rfl
  have hbindings : Variables.coerce schema operation.variableDefinitions input.variableValues =
      .ok [] := by
    rw [hvariables]
    rfl
  have hexamines : (document.setting schema input operation []).Examines document draft :=
    ⟨hbuild, hreserves, Schema.selfDescribing_of_build hbuild hidentifies hstring hboolean, hvalid,
      executes_setting hoperation, hvariables⟩
  obtain ⟨data, notes, hends, hexecution⟩ :=
    exists_rootEnds document.nestingLimit hoperation hbindings hroot
  have hnests := (nestsWithin_nestingLimit (acyclic_of_isValid hvalid)
    (mem_operations_of_chooseOperation hoperation)).mono (Nat.le_succ _)
  have hfields (key : String) (node : Field) (rest : List Field) (d : FieldDef)
      (hgroup : (key, node :: rest) ∈ (document.setting schema input operation []).groupsOf
        schema.queryType [operation.selectionSet])
      (hd : (document.setting schema input operation []).definition? schema.queryType node =
        some d) : (node.name.text, d) ∈ Introspection.fields ∧ d.resolver ≠ none := by
    obtain ⟨t, ht, hd⟩ := Option.bind_eq_some_iff.mp hd
    have hcoherent := Schema.coherent_of_build hbuild
    have hcomposite := Schema.isCompositeType_of_isObjectType (hcoherent.query ht)
    exact Schema.mem_fields_of_root (hcoherent.name_of_type? ht) hcomposite
      (hselects _ hgroup node List.mem_cons_self) hd
  obtain ⟨⟨members, rfl⟩, hnone⟩ := hends.succeeds hexamines hroot hfields hnests
  refine ⟨members, ?_, ?_⟩
  · rw [execute, hexecution]
  · rw [execute, hexecution, hnone]
    rfl

/-! ### An example -/

/-- A schema in which only a size can be asked for. -/
def sizeDraft : Schema.Draft where
  query := {
    name := "Query"
    origin := .host 0
    body := .object {
      fields := FieldDef.table [{ name := "size", type := .named Scalar.intName true }] } }

@[irreducible] def sizeSchema : Schema := sizeDraft.built (by decide +kernel)

theorem build_sizeDraft : sizeDraft.build = .ok sizeSchema := by
  unfold sizeSchema
  exact Schema.Draft.build_eq_ok_built _ _

/-- The field of an introspection type with what is selected of it. -/
def metaField (name : String) (arguments : List Argument) (selections : List Selection) :
    Field where
  responseName := none
  name := ⟨name, none⟩
  arguments
  directives := []
  selectionSet := if selections.isEmpty then none else some ⟨selections, none⟩

/-- The names of all types, and the fields of one of them with their types. -/
def typesOperation : OperationDefinition where
  operation := .query
  name := none
  variableDefinitions := []
  directives := []
  selectionSet := ⟨[
    .field (metaField schemaFieldName [] [
      .field (metaField "types" [] [.field (metaField "name" [] [])])]),
    .field (metaField typeFieldName
      [{ name := ⟨nameArgument, none⟩, value := .string "Query" false none }]
      [.field (metaField "fields" [] [
        .field (metaField "type" [] [.field (metaField "name" [] [])])])]),
    .field (metaField typenameFieldName [] [])], none⟩

def typesDocument : Document where
  definitions := [.operation typesOperation]

set_option maxRecDepth 3000 in
theorem isValid_typesDocument : typesDocument.IsValid sizeSchema :=
  Document.isValid_of_all 8 (by decide +kernel) (by decide +kernel)

theorem Document.introspection_answers_of_types :
    sizeDraft.build = .ok sizeSchema ∧ sizeDraft.Identifies ∧ sizeSchema.ReservesNames ∧
      sizeSchema.type? Scalar.stringName = some Scalar.string ∧
      sizeSchema.type? Scalar.booleanName = some Scalar.boolean ∧
      typesDocument.IsValid sizeSchema ∧
      typesDocument.chooseOperation none = .ok typesOperation ∧
      typesOperation.operation = .query ∧ typesOperation.variableDefinitions = [] ∧
      (typesDocument.setting sizeSchema {} typesOperation []).SelectsIntrospection
        sizeSchema.queryType ∧
      ∃ members, (typesDocument.execute sizeSchema {}).response.data = some (.object members) ∧
        (typesDocument.execute sizeSchema {}).response.errors = [] := by
  have hidentifies : sizeDraft.Identifies := Schema.Draft.identifies_of_nodup (by decide)
  have hreserves : sizeSchema.ReservesNames := by
    unfold Schema.ReservesNames
    decide +kernel
  have hstring : sizeSchema.type? Scalar.stringName = some Scalar.string :=
    Schema.type?_eq_of_isSameDefinition build_sizeDraft hidentifies
      (by simp [Schema.builtinTypes, Scalar.all]) (by decide +kernel)
  have hboolean : sizeSchema.type? Scalar.booleanName = some Scalar.boolean :=
    Schema.type?_eq_of_isSameDefinition build_sizeDraft hidentifies
      (by simp [Schema.builtinTypes, Scalar.all]) (by decide +kernel)
  have hselects : (typesDocument.setting sizeSchema {} typesOperation []).SelectsIntrospection
      sizeSchema.queryType := by
    unfold Setting.SelectsIntrospection
    decide +kernel
  exact ⟨build_sizeDraft, hidentifies, hreserves, hstring, hboolean, isValid_typesDocument, rfl,
    rfl, rfl, hselects, Document.introspection_answers build_sizeDraft hidentifies hreserves hstring
      hboolean isValid_typesDocument rfl rfl rfl hselects⟩

end GraphQL
