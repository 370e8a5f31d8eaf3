import Mathlib
import GraphQL.Proofs.Coercion.Provided
import GraphQL.Proofs.Execution.ArgumentValues

/-!
# Arguments that cannot be read

When the arguments of a field of a valid document cannot be read, one of two things has happened
(`Document.nulls_or_defaults_of_arguments_error`).  A variable is null although it has a default,
or although its type does not allow null: validation counts such a variable as one that is never
null.  Or the field of the object requires an argument that was left out: validation has looked at
the field of an abstract type around the object, which has a default for that argument, and a
schema may well leave the default out in the field of the object.
-/

namespace GraphQL

variable {schema : Schema} {document : Document} {operation : OperationDefinition}

/-- A type that does not allow null can only be used for by such a type. -/
theorem Schema.isNonNull_of_isSubtype {sub super : TypeRef} (h : schema.isSubtype sub super)
    (hsuper : super.isNonNull) : sub.isNonNull := by
  cases sub <;> cases super <;> simp_all [isSubtype, TypeRef.isNonNull, TypeRef.isNullable]

/-! ## Variables where null may not stand -/

namespace OperationDefinition

/-- The defaults of the variables are constants, as the grammar has them. -/
def HasConstantDefaults (operation : OperationDefinition) : Prop :=
  ∀ d ∈ operation.variableDefinitions, ∀ literal, d.defaultValue = some literal → literal.isConst

/-- A variable is null although it has a default or its type does not allow null. -/
def HasNull (schema : Schema) (operation : OperationDefinition) (bindings : Json.Members) : Prop :=
  ∃ d ∈ operation.variableDefinitions, Assoc.get? bindings d.var.name.text = some .null ∧
    (d.defaultValue.isSome ∨ ∃ type, schema.resolve? d.type = some type ∧ type.isNonNull)

end OperationDefinition

/-- A variable that has no value, or null, where an operation uses it and null may not stand. -/
theorem Document.hasNull_of_usage {inputs bindings : Json.Members} {usage : VariableUsage}
    {expected : TypeRef} (hinputs : schema.InputsSound) (hfields : schema.FieldsAreInputs)
    (hvalid : document.IsValid schema) (h : operation ∈ document.operations)
    (hconstant : operation.HasConstantDefaults)
    (hbindings : Variables.coerce schema operation.variableDefinitions inputs = .ok bindings)
    (husage : usage ∈ document.operationUsages schema operation)
    (hexpected : usage.inputType = some expected) (hnonNull : expected.isNonNull)
    (hnull : ∀ value, Assoc.get? bindings usage.name = some value → value = .null) :
    operation.HasNull schema bindings := by
  obtain ⟨d, hd, hname⟩ := exists_definition_of_usage hvalid h husage
  obtain ⟨found, hfound⟩ := Variables.exists_value?_of_coerce hbindings hd
  obtain ⟨type, htype⟩ := Variables.exists_type_of_value? hfound
  have hsub := isSubtype_of_usage hvalid h hd husage hname htype hexpected
  have heffective := Schema.isNonNull_of_isSubtype hsub hnonNull
  have hcannot : d.defaultValue.isSome ∨ type.isNonNull := by
    unfold Rule.effectiveType at heffective
    split at heffective
    · rename_i hdefault
      exact Or.inl hdefault
    · exact Or.inr heffective
  obtain ⟨value, hvalue⟩ := Variables.exists_get?_of_coerce hinputs hfields hbindings
    (nodup_variableNames hvalid h) hd htype
    (fun literal hliteral => ⟨hconstant d hd literal hliteral,
      (defaultErrors_eq_nil hvalid h hd hliteral htype).2⟩) hcannot
  obtain rfl := hnull value (hname ▸ hvalue)
  exact ⟨d, hd, hvalue, hcannot.imp_right fun hnonNull => ⟨type, htype, hnonNull⟩⟩

/-! ## Arguments that are left out -/

/-- A field that is selected leaves an argument out which the field of the object requires, though
that of an abstract type around the object has a default for it. -/
structure Schema.DefaultsAbove (schema : Schema) (object : String) (node : Field) (d : FieldDef)
    (argument : String) : Prop where
  leftOut : ∀ a ∈ node.arguments, a.name.text ≠ argument
  required : ∃ input, (argument, input) ∈ d.arguments ∧ input.isRequired
  above : ∃ parent field input, schema.type? parent.name = some parent ∧
    schema.isPossibleType parent object ∧
    schema.fieldDef? parent node.name.text = some field ∧
    Assoc.get? field.arguments argument = some input ∧ input.defaultValue.isSome

section

variable {node : Field} {object : String} {found : FieldDef} {definition : Definition}
  {c : TypeContext} {parent u : TypeDef} {field : FieldDef} {input : InputDef} {name : String}

/-- An argument that the object requires is given, unless the field that validation has looked at
has a default for it. -/
theorem FieldSite.defaultsAbove
    (h : FieldSite schema document operation node object definition c parent field)
    (hvalid : document.IsValid schema) (hcoherent : schema.Coherent)
    (harguments : schema.ArgumentsSound) (hu : schema.type? object = some u)
    (hfound : schema.fieldDef? u node.name.text = some found)
    (hprovides : schema.Provides field found) (hinput : (name, input) ∈ found.arguments)
    (hrequired : input.isRequired) (hleft : ∀ a ∈ node.arguments, a.name.text ≠ name) :
    schema.DefaultsAbove object node found name := by
  obtain ⟨hnonNull, hnone⟩ : input.type.isNonNull ∧ input.defaultValue = none := by
    simpa [InputDef.isRequired] using hrequired
  have hsound := harguments.of_fieldDef? h.covers.known h.fieldDef
  -- Validation has seen to the arguments that are required where it has looked.
  have hseen {other : InputDef} (hother : (name, other) ∈ field.arguments)
      (htype : other.type.isNonNull) : other.defaultValue.isSome := by
    by_contra hdefault
    have hrequired : other.isRequired := by
      simpa [InputDef.isRequired, htype] using hdefault
    obtain ⟨a, ha, hname⟩ :=
      h.exists_given hvalid (List.mem_map_of_mem (f := (·.2)) hother) hrequired
    exact hleft a ha (hname.trans (hsound.name _ hother))
  have hobject : schema.isPossibleType parent object := by
    refine h.covers.object.resolve_left fun hname => ?_
    obtain rfl := Option.some.inj (h.covers.known.symm.trans (hname ▸ hu))
    obtain rfl := Option.some.inj (h.fieldDef.symm.trans hfound)
    exact absurd (hseen hinput hnonNull) (by simp [hnone])
  refine ⟨hleft, ⟨input, hinput, hrequired⟩, ?_⟩
  cases hget : Assoc.get? field.arguments name with
  | none =>
      -- What the object adds to the arguments of the field is never required.
      rcases hprovides with rfl | hfaults
      · simp [Assoc.get?_of_mem hsound.nodup hinput] at hget
      · have hadded := Schema.isNonNull_eq_false_of_implements hfaults hinput (by
          rw [Assoc.contains, hget]
          rfl)
        exact absurd hnonNull (by simp [hadded])
  | some other =>
      obtain ⟨given, hgiven, htype⟩ := hprovides.exists_argument hget
      have hknown := (hcoherent.name_of_type? hu).symm ▸ hu
      have hnodup := (harguments.of_fieldDef? hknown hfound).nodup
      obtain rfl := Option.some.inj (hgiven.symm.trans (Assoc.get?_of_mem hnodup hinput))
      exact ⟨parent, field, other, h.covers.known, hobject, h.fieldDef, hget,
        hseen (Assoc.mem_of_get? hget) (htype ▸ hnonNull)⟩

end

/-! ## Why arguments cannot be read -/

/-- The arguments of a field of a valid document cannot be read only if a variable is null that
has a default or a type without null, or if an argument is left out that the object requires and
an abstract type around it does not. -/
theorem Document.nulls_or_defaults_of_arguments_error {draft : Schema.Draft}
    {input : ExecutionInput} {bindings : Json.Members} {t : TypeDef} {d : FieldDef}
    {nodes : List Field} {e : ArgumentError}
    (hoperation : document.chooseOperation input.operationName = .ok operation)
    (h : (document.setting schema input operation bindings).Groups t nodes d)
    (herror : (document.setting schema input operation bindings).arguments d nodes = .error e)
    (hbuild : draft.build = .ok schema) (hreserves : schema.ReservesNames)
    (hinputs : schema.InputsSound) (harguments : schema.ArgumentsSound)
    (hvalid : document.IsValid schema) (hconstant : operation.HasConstantDefaults)
    (hbindings : Variables.coerce schema operation.variableDefinitions input.variableValues =
      .ok bindings) :
    operation.HasNull schema bindings ∨
      ∃ node, nodes.head? = some node ∧ schema.DefaultsAbove t.name node d e.argument := by
  have hcoherent := Schema.coherent_of_build hbuild
  have hfields := Schema.fieldsAreInputs_of_build hbuild
  have hrefs : schema.ArgumentsAreInputs := Schema.argumentsAreInputs_of_build hbuild
  obtain ⟨node, rest, u, definition, c, parent, field, rfl, hu, hfound, hsite, hprovides⟩ :=
    h.exists_site (executes_setting hoperation) hbuild hreserves hvalid
  have hknown := (hcoherent.name_of_type? hu).symm ▸ hu
  have hnodup := (harguments.of_fieldDef? hknown hfound).nodup
  obtain ⟨argument, hargument, hfault⟩ := Arguments.exists_error_of_coerce herror
  have htype {a : Argument}
      (ha : node.arguments.find? (·.name.text = e.argument) = some a) :
      a ∈ node.arguments ∧ ∃ expected, Assoc.get? field.arguments a.name.text = some expected ∧
        Literal.problems schema a.value expected.type = [] ∧ argument.type = expected.type := by
    have hmem := List.mem_of_find?_eq_some ha
    have hname : a.name.text = e.argument := by simpa using List.find?_some ha
    obtain ⟨expected, hexpected, hproblems⟩ := hsite.exists_input hvalid hmem
    obtain ⟨given, hgiven, hsame⟩ := hprovides.exists_argument hexpected
    rw [hname, Assoc.get?_of_mem hnodup hargument] at hgiven
    obtain rfl := Option.some.inj hgiven
    exact ⟨hmem, expected, hexpected, hproblems, hsame⟩
  have hfails := Arguments.fails_of_error hinputs hfields (hrefs hknown hfound _ hargument)
    (fun a ha => by
      obtain ⟨-, expected, -, hproblems, hsame⟩ := htype ha
      rwa [hsame]) hfault
  cases hgiven : node.arguments.find? (·.name.text = e.argument) with
  | none =>
      have hleft (a : Argument) (ha : a ∈ node.arguments) : a.name.text ≠ e.argument := by
        simpa using List.find?_eq_none.mp hgiven a ha
      have hfails : Arguments.Fails schema bindings argument none := hgiven ▸ hfails
      cases hfails with
      | leftOut hrequired =>
          exact Or.inr ⟨node, rfl, hsite.defaultsAbove hvalid hcoherent harguments hu hfound
            hprovides hargument hrequired hleft⟩
  | some a =>
      have hfails : Arguments.Fails schema bindings argument (some a) := hgiven ▸ hfails
      cases hfails with
      | @unsupplied _ name expected huses hnonNull hnull =>
          obtain ⟨hmem, seen, hseen, -, hsame⟩ := htype hgiven
          rw [hsame] at huses
          obtain ⟨usage, husage, rfl, hexpected⟩ :=
            hsite.exists_usage hfields hrefs hmem hseen huses
          exact Or.inl (hasNull_of_usage hinputs hfields hvalid
            (mem_operations_of_chooseOperation hoperation) hconstant hbindings husage hexpected
            hnonNull hnull)

/-! ### An example -/

/-- What has a label in some size, which is known if none is given. -/
def labelledType : TypeDef where
  name := "Labelled"
  origin := .host 0
  body := .interface { fields := FieldDef.table [
    { name := "label"
      type := .named Scalar.stringName true
      arguments := InputDef.table [
        { name := "size", type := .named Scalar.intName false, defaultValue := some (.int 5) }] }] }

/-- A schema with a root type that implements this and leaves the default out. -/
def labelledDraft : Schema.Draft where
  query := {
    name := "Query"
    origin := .host 1
    body := .object {
      fields := FieldDef.table [
        { name := "label"
          type := .named Scalar.stringName true
          arguments := InputDef.table [{ name := "size", type := .named Scalar.intName false }] }]
      interfaces := ["Labelled"] } }
  types := [labelledType]

@[irreducible] def labelledSchema : Schema := labelledDraft.built (by decide +kernel)

theorem build_labelledDraft : labelledDraft.build = .ok labelledSchema := by
  unfold labelledSchema
  exact Schema.Draft.build_eq_ok_built _ _

/-- The label, in no size. -/
def labelOperation : OperationDefinition where
  operation := .query
  name := none
  variableDefinitions := []
  directives := []
  selectionSet := ⟨[.inline {
    typeCondition := some ⟨⟨"Labelled", none⟩, none⟩
    directives := []
    selectionSet := ⟨[.field {
      responseName := none
      name := ⟨"label", none⟩
      arguments := []
      directives := []
      selectionSet := none }], none⟩ }], none⟩

def labelDocument : Document where
  definitions := [.operation labelOperation]

set_option maxRecDepth 3000 in
theorem isValid_labelDocument : labelDocument.IsValid labelledSchema :=
  Document.isValid_of_all 6 (by decide +kernel) (by decide +kernel)

/-- The arguments of the label cannot be read. -/
theorem exists_arguments_error_label :
    let setting := labelDocument.setting labelledSchema {} labelOperation []
    ∃ nodes d e, setting.Groups labelledSchema.queryType nodes d ∧
      setting.arguments d nodes = .error e := by
  intro setting
  have hfails : (setting.groupsOf labelledSchema.queryType [labelOperation.selectionSet]).any
      fun group => match group.2 with
        | [] => false
        | node :: nodes => (setting.definition? labelledSchema.queryType node).any fun d =>
            !(setting.arguments d (node :: nodes)).isOk := by
    decide +kernel
  obtain ⟨⟨key, nodes⟩, hgroup, hfails⟩ := List.any_eq_true.mp hfails
  cases nodes with
  | nil => cases hfails
  | cons node nodes =>
      obtain ⟨d, hd, hfails⟩ := (Option.any_eq_true _ _).mp hfails
      cases hargs : setting.arguments d (node :: nodes) with
      | ok args => simp [hargs, Except.isOk, Except.toBool] at hfails
      | error e => exact ⟨_, d, e, ⟨_, key, node, nodes, .root rfl, hgroup, rfl, hd⟩, hargs⟩

/-- An abstract type around the object has a default for the size. -/
theorem Document.nulls_or_defaults_of_label :
    let setting := labelDocument.setting labelledSchema {} labelOperation []
    ∃ nodes d e, labelDocument.chooseOperation none = .ok labelOperation ∧
      setting.Groups labelledSchema.queryType nodes d ∧ setting.arguments d nodes = .error e ∧
      labelledDraft.build = .ok labelledSchema ∧ labelledSchema.ReservesNames ∧
      labelledSchema.InputsSound ∧ labelledSchema.ArgumentsSound ∧
      labelDocument.IsValid labelledSchema ∧ labelOperation.HasConstantDefaults ∧
      Variables.coerce labelledSchema labelOperation.variableDefinitions [] = .ok [] ∧
      (labelOperation.HasNull labelledSchema [] ∨ ∃ node, nodes.head? = some node ∧
        labelledSchema.DefaultsAbove labelledSchema.queryType.name node d e.argument) := by
  intro setting
  have hreserves : labelledSchema.ReservesNames := by
    unfold Schema.ReservesNames
    decide +kernel
  have hinputs : labelledSchema.InputsSound := Schema.inputsSound_of_all (by decide +kernel)
  have harguments : labelledSchema.ArgumentsSound :=
    Schema.argumentsSound_of_all (by decide +kernel)
  have hconstant : labelOperation.HasConstantDefaults := nofun
  obtain ⟨nodes, d, e, hgroups, herror⟩ := exists_arguments_error_label
  exact ⟨nodes, d, e, rfl, hgroups, herror, build_labelledDraft, hreserves, hinputs, harguments,
    isValid_labelDocument, hconstant, rfl,
    nulls_or_defaults_of_arguments_error rfl hgroups herror build_labelledDraft
      hreserves hinputs harguments isValid_labelDocument hconstant rfl⟩

end GraphQL
