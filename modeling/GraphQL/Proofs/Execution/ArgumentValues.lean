import Mathlib
import GraphQL.Proofs.Coercion.Arguments
import GraphQL.Proofs.Coercion.Definite
import GraphQL.Proofs.Execution.Requests
import GraphQL.Proofs.Execution.Sites
import GraphQL.Proofs.Validation.Operations

/-!
# Values of arguments in execution

Every resolver is called with values that conform to the types of the arguments of the field
(`Document.fills_of_called`).  The values of variables are put in without being looked at again:
that they fit rests on their definitions (`Variables.conforms_of_value?`) and on validation, which
compares the type of a variable with the type that is expected where it is used
(`Document.conforms_of_usage`).
-/

namespace GraphQL

variable {schema : Schema} {document : Document} {operation : OperationDefinition}

/-! ## Literals of a document -/

/-- The literal stands somewhere in the document. -/
def Document.Contains (document : Document) (literal : Value) : Prop :=
  Relation.ReflTransGen Node.HasChild (.document document) (.value literal)

theorem Document.ofParts_contains (document : Document) : Literal.OfParts document.Contains where
  items _ _ h _ hmem := h.tail (Node.hasChild_item hmem)
  fields _ _ h _ hmem := (h.tail (Node.hasChild_objectField hmem)).tail (Node.hasChild_fieldValue _)

theorem Node.hasChild_default {d : VariableDefinition} {literal : Value}
    (h : d.defaultValue = some literal) :
    Node.HasChild (.variableDefinition d) (.value literal) := by
  refine hasChild_iff.mpr ⟨.defaultValue, by simp [Node.kind, NodeKind.slots], ?_⟩
  simp [Node.children, Node.contents, Contents.optional, h, Part.toNode]

/-- The default of a variable of an operation is in the document. -/
theorem Document.contains_default (h : operation ∈ document.operations) {d : VariableDefinition}
    (hd : d ∈ operation.variableDefinitions) {literal : Value}
    (hliteral : d.defaultValue = some literal) : document.Contains literal := by
  have hoperation := Node.Lower.definition (mem_definitions_of_mem_operations h)
  have hvariable := Node.Lower.variableDefinition hd
  exact ((Relation.ReflTransGen.single hoperation.hasChild).tail hvariable.hasChild).tail
    (Node.hasChild_default hliteral)

/-- What is reached through frames is in the document. -/
theorem Stands.isBelow {d : Definition} {node : Node} {c : TypeContext}
    (h : Stands schema d node c) (hd : d ∈ document.definitions) :
    Relation.ReflTransGen Node.HasChild (.document document) node := by
  induction h with
  | root => exact .single (Node.Lower.definition hd).hasChild
  | child _ _ hlower ih => exact ih.tail hlower.hasChild

/-! ## Variables -/

/-- Where an operation uses a variable, the value of the variable conforms to the type that is
expected, null apart. -/
theorem Document.conforms_of_usage {inputs bindings : Json.Members} {usage : VariableUsage}
    {expected : TypeRef} {value : Json} (hinputs : schema.InputsSound)
    (hdefinite : schema.IsDefinite) (hvalid : document.IsValid schema)
    (h : operation ∈ document.operations)
    (hbindings : Variables.coerce schema operation.variableDefinitions inputs = .ok bindings)
    (husage : usage ∈ document.operationUsages schema operation)
    (hexpected : usage.inputType = some expected)
    (hvalue : Assoc.get? bindings usage.name = some value) (hnull : value ≠ .null) :
    schema.Conforms document.Contains expected value := by
  obtain ⟨d, hd, hname, hread⟩ := Variables.exists_of_get? hbindings hvalue
  obtain ⟨type, htype, hinput, hconforms⟩ :=
    Variables.conforms_of_value? hinputs hdefinite document.ofParts_contains
      (fun _ hliteral => document.contains_default h hd hliteral) hread
  have hsub := isSubtype_of_usage hvalid h hd husage hname htype hexpected
  unfold Rule.effectiveType at hsub
  split at hsub
  · have hinput : schema.isInputRef (type.withNullable false) := by
      cases type <;> exact hinput
    exact (hconforms.of_ne_null hnull false).of_isSubtype hinput hsub
  · exact hconforms.of_isSubtype hinput hsub

/-! ## Arguments -/

namespace Setting

variable {setting : Setting} {draft : Schema.Draft} {inputs : Json.Members}

/-- Where the first field of a group is selected, and what validation knows of it there. -/
theorem Groups.exists_site {t : TypeDef} {d : FieldDef} {nodes : List Field}
    (h : setting.Groups t nodes d) (hexecutes : setting.Executes document)
    (hbuild : draft.build = .ok setting.schema) (hreserves : setting.schema.ReservesNames)
    (hvalid : document.IsValid setting.schema) :
    ∃ node rest u definition c parent field, nodes = node :: rest ∧
      setting.schema.type? t.name = some u ∧ setting.schema.fieldDef? u node.name.text = some d ∧
      FieldSite setting.schema document setting.operation node t.name definition c parent field ∧
      setting.schema.Provides field d := by
  obtain ⟨groups, key, node, rest, hmap, hgroup, rfl, hd⟩ := h
  have hcoherent := Schema.coherent_of_build hbuild
  have himplements : setting.schema.Implements := Schema.implements_of_build hbuild
  obtain ⟨memory, hexamined⟩ :=
    exists_examined hcoherent (Schema.unshadowed_of_reserved hcoherent hreserves) hvalid
  obtain ⟨u, hu, hfound⟩ := Option.bind_eq_some_iff.mp hd
  have hknown := (hcoherent.name_of_type? hu).symm ▸ hu
  obtain ⟨definition, c, parent, field, hsite⟩ :=
    exists_fieldSite hexamined hexecutes himplements hreserves hmap hgroup List.mem_cons_self hu
      (Schema.isCompositeType_of_fieldDef? hcoherent hknown hfound)
  exact ⟨node, rest, u, definition, c, parent, field, rfl, hu, hfound, hsite,
    hsite.covers.field hcoherent himplements hreserves hsite.fieldDef hu hfound⟩

/-- The arguments that execution reads for the fields of a field map have values that conform to
their types. -/
theorem fills_of_arguments {t : TypeDef} {d : FieldDef} {nodes : List Field} {args : Json.Members}
    (h : setting.Groups t nodes d) (hargs : setting.arguments d nodes = .ok args)
    (hexecutes : setting.Executes document) (hbuild : draft.build = .ok setting.schema)
    (hreserves : setting.schema.ReservesNames) (hinputs : setting.schema.InputsSound)
    (harguments : setting.schema.ArgumentsSound) (hdefinite : setting.schema.IsDefinite)
    (hvalid : document.IsValid setting.schema)
    (hbindings : Variables.coerce setting.schema setting.operation.variableDefinitions inputs =
      .ok setting.bindings) :
    setting.schema.Fills document.Contains d.arguments args := by
  obtain ⟨node, rest, u, definition, c, parent, field, rfl, hu, hfound, hsite, hprovides⟩ :=
    h.exists_site hexecutes hbuild hreserves hvalid
  have hknown := ((Schema.coherent_of_build hbuild).name_of_type? hu).symm ▸ hu
  have hsound := harguments.of_fieldDef? hknown hfound
  refine Arguments.fills_of_coerce hinputs hdefinite document.ofParts_contains hsound ?_ hargs
  rintro name input a hinput ha rfl
  obtain ⟨expected, hexpected, -⟩ := hsite.exists_input hvalid ha
  obtain ⟨given, hgiven, htype⟩ := hprovides.exists_argument hexpected
  obtain rfl : input = given :=
    Option.some.inj ((Assoc.get?_of_mem hsound.nodup hinput).symm.trans hgiven)
  refine ⟨((hsite.stands_argument ha).isBelow hsite.mem).tail (Node.hasChild_argumentValue a), ?_⟩
  intro name type value huses hvalue hnull
  rw [htype] at huses
  obtain ⟨usage, husage, rfl, htype⟩ := hsite.exists_usage
    (Schema.fieldsAreInputs_of_build hbuild) (Schema.argumentsAreInputs_of_build hbuild) ha
    hexpected huses
  exact document.conforms_of_usage hinputs hdefinite hvalid hexecutes.operation hbindings husage
    htype hvalue hnull

end Setting

/-! ## Calls of resolvers -/

/-- Every resolver is called with values for the arguments of the field of its object: with no
others, with those that cannot be null, and with values that conform to their types.  Only for a
scalar that the host does not read, null may stand for a number of the document that is not
finite. -/
theorem Document.fills_of_called {draft : Schema.Draft} {input : ExecutionInput}
    {bindings : Json.Members} {rootType : TypeDef} {limit : ℕ} {params : ResolveParams}
    (hbuild : draft.build = .ok schema) (hreserves : schema.ReservesNames)
    (hinputs : schema.InputsSound) (harguments : schema.ArgumentsSound)
    (hdefinite : ∀ t ∈ draft.allTypes, t.IsDefinite) (hvalid : document.IsValid schema)
    (hoperation : document.chooseOperation input.operationName = .ok operation)
    (hbindings : Variables.coerce schema operation.variableDefinitions input.variableValues =
      .ok bindings)
    (hroot : schema.rootType? operation.operation = some rootType)
    (hcalled : .called params ∈ (document.executeWithin limit schema input).events) :
    ∃ t node d, schema.type? params.info.parentTypeName = some t ∧
      params.info.fieldNodes.head? = some node ∧ schema.fieldDef? t node.name.text = some d ∧
      schema.Fills document.Contains d.arguments params.args := by
  obtain ⟨data, notes, hends, hexecution⟩ := exists_rootEnds limit hoperation hbindings hroot
  rw [hexecution] at hcalled
  obtain ⟨parent, source, d, nodes, path, args, hgroups, hargs, rfl⟩ :=
    hends.calledFor hroot (Note.mem_events_iff.mp hcalled)
  have hfills := Setting.fills_of_arguments hgroups hargs (executes_setting hoperation) hbuild
    hreserves hinputs harguments (Schema.isDefinite_of_build hbuild hdefinite) hvalid hbindings
  obtain ⟨groups, key, node, rest, hmap, hgroup, rfl, hd⟩ := hgroups
  obtain ⟨t, ht, hfield⟩ := Option.bind_eq_some_iff.mp hd
  exact ⟨t, node, d, ht, rfl, hfield, hfills⟩

/-! ### An example -/

/-- A scalar that the host does not read. -/
def markType : TypeDef where
  name := "Mark"
  origin := .host 0
  body := .scalar {}

/-- A schema with a field that takes a mark, which must not be null. -/
def markDraft : Schema.Draft where
  query := {
    name := "Query"
    origin := .host 1
    body := .object { fields := FieldDef.table [
      { name := "mark", type := .named "Mark" true }] } }
  mutation := some {
    name := "Mutation"
    origin := .host 2
    body := .object { fields := FieldDef.table [
      { name := "set"
        type := .named Scalar.stringName true
        arguments := InputDef.table [{ name := "mark", type := .named "Mark" false }]
        resolver := some (.host fun _ memory =>
          ({ outcome := .ok (.string "set") }, memory)) }] } }
  types := [markType]

@[irreducible] def markSchema : Schema := markDraft.built (by decide +kernel)

theorem build_markDraft : markDraft.build = .ok markSchema := by
  unfold markSchema
  exact Schema.Draft.build_eq_ok_built _ _

/-- The mark is set to a number that is not finite. -/
@[irreducible] def markDocument : Document := .ofText "mutation { set(mark: 1e999) }"

set_option maxRecDepth 3000 in
theorem isValid_markDocument : markDocument.IsValid markSchema :=
  Document.isValid_of_all 6 (by decide +kernel) (by decide +kernel)

/-- The resolver is called. -/
theorem exists_called_markDocument :
    ∃ params, .called params ∈ (markDocument.executeWithin 1 markSchema {}).events := by
  have hcalled : (markDocument.executeWithin 1 markSchema {}).events.any (·.isCallWith fun _ => true) := by
    decide +kernel
  obtain ⟨event, hmem, hevent⟩ := List.any_eq_true.mp hcalled
  cases event with
  | called params => exact ⟨params, hmem⟩
  | _ => cases hevent

theorem isDefinite_of_mem_markDraft : ∀ t ∈ markDraft.allTypes, t.IsDefinite := by
  -- The root types are objects, so nothing is asked of them.
  have hobject {t : TypeDef} {d : ObjectDef} (h : t.body = .object d) : t.IsDefinite :=
    TypeDef.isDefinite_of_other (by simp [h]) (by simp [TypeDef.enum?, h])
  simp only [Schema.Draft.allTypes, markDraft, Option.toList, List.cons_append, List.nil_append,
    List.forall_mem_cons, List.not_mem_nil, false_imp_iff, implies_true, and_true]
  refine ⟨hobject rfl, hobject rfl, ?_, fun d hd => by cases hd⟩
  intro d hd
  cases hd
  refine ⟨fun parse hparse => ?_, fun parse hparse => ?_⟩
  · cases hparse
  · cases hparse

/-- What the resolver is called with conforms to the types of its arguments. -/
theorem Document.fills_of_called_mark :
    ∃ operation bindings rootType params, markDraft.build = .ok markSchema ∧
      markSchema.ReservesNames ∧ markSchema.InputsSound ∧ markSchema.ArgumentsSound ∧
      (∀ t ∈ markDraft.allTypes, t.IsDefinite) ∧ markDocument.IsValid markSchema ∧
      markDocument.chooseOperation none = .ok operation ∧
      Variables.coerce markSchema operation.variableDefinitions [] = .ok bindings ∧
      markSchema.rootType? operation.operation = some rootType ∧
      .called params ∈ (markDocument.executeWithin 1 markSchema {}).events ∧
      ∃ t node d, markSchema.type? params.info.parentTypeName = some t ∧
        params.info.fieldNodes.head? = some node ∧
        markSchema.fieldDef? t node.name.text = some d ∧
        markSchema.Fills markDocument.Contains d.arguments params.args := by
  have hreserves : markSchema.ReservesNames := by
    unfold Schema.ReservesNames
    decide +kernel
  have hinputs : markSchema.InputsSound := Schema.inputsSound_of_all (by decide +kernel)
  have harguments : markSchema.ArgumentsSound := Schema.argumentsSound_of_all (by decide +kernel)
  obtain ⟨params, hcalled⟩ := exists_called_markDocument
  have hdata : (markDocument.executeWithin 1 markSchema {}).response.data.isSome := by
    decide +kernel
  obtain ⟨data, hdata⟩ := Option.isSome_iff_exists.mp hdata
  obtain ⟨operation, bindings, hoperation, hbindings, hnone⟩ := exists_of_data hdata
  cases hroot : markSchema.rootType? operation.operation with
  | none =>
      rw [(hnone hroot).2] at hcalled
      cases hcalled
  | some rootType =>
      exact ⟨operation, bindings, rootType, params, build_markDraft, hreserves, hinputs, harguments,
        isDefinite_of_mem_markDraft, isValid_markDocument, hoperation, hbindings, hroot, hcalled,
        fills_of_called build_markDraft hreserves hinputs harguments isDefinite_of_mem_markDraft
          isValid_markDocument hoperation hbindings hroot hcalled⟩

end GraphQL
