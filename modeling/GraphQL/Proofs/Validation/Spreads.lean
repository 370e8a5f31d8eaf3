import Mathlib
import GraphQL.Proofs.Typing.Places
import GraphQL.Proofs.Validation.Findings
import GraphQL.Proofs.Validation.FragmentUses

/-!
# The fragments that are refused

Validation goes over a document with the types at hand, and looks at a fragment with the type that
is at hand where it stands.  What it finds is what is wrong with the uses of fragments that the text
tells of, one after the other (`Document.errorsOf?_possibleFragmentSpreads`).

The types at hand are those that the text tells of, but for one.  The type of an inline fragment is
looked up among all types from which fields can be selected or read, while the type around it is a
composite one.  No other type is ever refused, so only composite types matter (`judge_compositeOf`),
and for those both are the same (`TypeContext.compositeOf_enter_inline`).
-/

namespace GraphQL

open Grouping (applies)
open Selected (conditionType)

variable {schema : Schema} {document : Document} {depth : ℕ} {c : TypeContext}
  {memory : RuleMemory} {parent? : Option TypeDef}

/-! ## One fragment -/

namespace Rule

open TypeContext (SameLists)

theorem endures_possibleFragmentSpreads : possibleFragmentSpreads.Endures := by
  intro scope node memory
  refine ⟨?_, RuleAction.noConfusion⟩
  simp only [possibleFragmentSpreads, onEnter, pure, StateT.pure]
  split
  · split <;> exact RuleAction.noConfusion
  · split <;> exact RuleAction.noConfusion
  · exact RuleAction.noConfusion

/-- Nothing is found where nothing is selected. -/
theorem errors_of_isPlain {node : Node} (h : node.IsPlain) :
    (possibleFragmentSpreads.alone schema document depth node c memory).errors = [] := by
  induction depth generalizing node c memory with
  | zero => rfl
  | succ depth ih =>
      have henter : possibleFragmentSpreads.enter
          { schema, document, types := c.enter schema node } node memory = (.proceed, memory) := by
        cases node with
        | selection => exact h.elim
        | _ => rfl
      rw [errors_succ (f := fun _ => []) endures_possibleFragmentSpreads henter rfl
        (fun _ _ => rfl) fun child hchild c' memory _ => ih (h.of_mem_parts child hchild)]
      simp [Finding.proceed]

/-- What the rule says where a fragment of a type is used. -/
def judge (schema : Schema) (name? : Option String) (parent? type? : Option TypeDef)
    (span : Option Span) : Finding :=
  match type?, parent? with
  | some type, some parent => .andProceed (spreadErrors schema name? parent type span)
  | _, _ => .proceed

section

variable {name? : Option String} {type? : Option TypeDef} {span : Option Span}

theorem judge_compositeOf (schema : Schema) :
    judge schema name? parent? (compositeOf type?) span =
      judge schema name? parent? type? span := by
  cases type? with
  | none => rfl
  | some t =>
      by_cases hcomposite : t.isCompositeType
      · rw [compositeOf, Option.filter_some, if_pos hcomposite]
      · rw [compositeOf, Option.filter_some, if_neg hcomposite]
        cases parent? with
        | none => rfl
        | some parent => simp [judge, spreadErrors, hcomposite, Finding.proceed, Finding.andProceed]

/-- A fragment of the type around it is never refused. -/
theorem judge_of_eq (h : compositeOf type? = parent?) :
    judge schema name? parent? type? span = .proceed := by
  rw [← judge_compositeOf, h]
  cases parent? with
  | none => rfl
  | some parent => simp [judge, spreadErrors, Schema.overlap, Finding.proceed, Finding.andProceed]

end

theorem judge_eq (schema : Schema) (use : FragmentUse) :
    judge schema use.name? use.parent?
      (use.condition?.bind fun condition => schema.type? condition.name.text) use.span =
      .andProceed (use.error? schema).toList := by
  unfold judge FragmentUse.error?
  cases use.condition?.bind fun condition => schema.type? condition.name.text with
  | none => cases use.parent? <;> rfl
  | some type =>
      cases use.parent? with
      | none => rfl
      | some parent =>
          simp only [spreadErrors]
          split <;> rfl

end Rule

/-! ## The types around -/

namespace TypeContext

variable {c' : TypeContext}

theorem SameLists.namedOutputType? (h : SameLists c c') :
    c'.namedOutputType? schema = c.namedOutputType? schema := by
  rw [TypeContext.namedOutputType?, outputType?, h.outputTypes]
  rfl

theorem SameLists.parentType? (h : SameLists c c') : c'.parentType? = c.parentType? := by
  rw [TypeContext.parentType?, h.parentTypes]
  rfl

/-- Within a selection set, the type at hand is the one whose fields are selected. -/
def IsInside (schema : Schema) (c : TypeContext) : Prop :=
  c.parentType? = compositeOf (c.namedOutputType? schema)

theorem IsInside.of_sameLists {set : SelectionSet}
    (h : SameLists (c.enter schema (.selectionSet set)) c') :
    c'.IsInside schema ∧ c'.parentType? = compositeOf (c.namedOutputType? schema) := by
  have hparent : c'.parentType? = compositeOf (c.namedOutputType? schema) :=
    h.parentType?.trans (parentType?_enter_set set)
  refine ⟨?_, hparent⟩
  rw [IsInside, hparent, h.namedOutputType?]
  rfl

theorem compositeOf_enter_field (f : Field) :
    compositeOf ((c.enter schema (.selection (.field f))).namedOutputType? schema) =
      fieldType? schema c.parentType? f.name.text := by
  rw [compositeOf, namedOutputType?, outputType?_enter_field,
    Schema.filter_namedType?_of_isOutputRef, Option.bind_map]
  rfl

theorem compositeOf_enter_inline (hcoherent : schema.Coherent) (h : c.IsInside schema)
    (f : InlineFragment) :
    compositeOf ((c.enter schema (.selection (.inline f))).namedOutputType? schema) =
      compositeOf (conditionType schema c.parentType? f.typeCondition) := by
  obtain ⟨condition, directives, set, span⟩ := f
  cases condition with
  | some condition =>
      exact Schema.filter_namedType?_of_isOutputRef (some (.ofName condition.name.text))
  | none =>
      -- The type is looked up again by the name that it has.
      have hagain : ((c.namedOutputType? schema).map fun t => TypeRef.ofName t.name).bind
          schema.namedType? = c.namedOutputType? schema := by
        cases ht : c.namedOutputType? schema with
        | none => rfl
        | some t =>
            obtain ⟨type, -, ht⟩ := Option.bind_eq_some_iff.mp ht
            have hname := hcoherent.name_of_type? ht
            exact (congrArg schema.type? hname).trans ht
      have houtput : (c.enter schema
          (.selection (.inline ⟨none, directives, set, span⟩))).outputType? =
            ((c.namedOutputType? schema).map fun t => TypeRef.ofName t.name).filter
              schema.isOutputRef := by
        simp only [enter, enterSelection, pushOutput, outputType?, List.head?_cons,
          Option.join_some, Option.map_map]
        rfl
      rw [compositeOf, namedOutputType?, houtput, Schema.filter_namedType?_of_isOutputRef, hagain,
        conditionType, h, compositeOf_compositeOf]
      rfl

end TypeContext

/-! ## All fragments -/

namespace Rule

open TypeContext (SameLists IsInside)

theorem enter_spread (s : FragmentSpread) :
    possibleFragmentSpreads.enter { schema, document, types := c } (.selection (.spread s))
      memory = (.andProceed ((FragmentUse.mk c.parentType? (some s.name.text)
        ((document.fragment? s.name.text).map (·.typeCondition)) s.span).error? schema).toList,
          memory) := by
  rw [← judge_eq, Option.bind_map]
  rfl

theorem enter_inline (hcoherent : schema.Coherent) (h : c.IsInside schema) (f : InlineFragment) :
    possibleFragmentSpreads.enter
      { schema, document, types := c.enter schema (.selection (.inline f)) }
      (.selection (.inline f)) memory = (.andProceed ((FragmentUse.mk c.parentType? none
        f.typeCondition f.span).error? schema).toList, memory) := by
  have hjudge : possibleFragmentSpreads.enter
      { schema, document, types := c.enter schema (.selection (.inline f)) }
      (.selection (.inline f)) memory = (judge schema none c.parentType?
        ((c.enter schema (.selection (.inline f))).namedOutputType? schema) f.span, memory) := rfl
  rw [hjudge, ← judge_eq, ← judge_compositeOf, TypeContext.compositeOf_enter_inline hcoherent h]
  cases f.typeCondition with
  | some condition => rw [judge_compositeOf]; rfl
  | none =>
      have hself : compositeOf (compositeOf (conditionType schema c.parentType? none)) =
          c.parentType? := by
        rw [conditionType, h, compositeOf_compositeOf, compositeOf_compositeOf]
      rw [judge_of_eq hself]
      rfl

theorem filterMap_cons_toList {α β : Type} (f : α → Option β) (item : α) (rest : List α) :
    (item :: rest).filterMap f = (f item).toList ++ rest.filterMap f := by
  cases h : f item with
  | none => rw [List.filterMap_cons_none h, Option.toList_none, List.nil_append]
  | some result => rw [List.filterMap_cons_some h, Option.toList_some, List.singleton_append]

/-- What the rule finds in the selection sets among some nodes, with a type around them. -/
def ofSet (schema : Schema) (document : Document) (parent? : Option TypeDef) :
    Node → List ValidationError
  | .selectionSet set => (usesIn schema document parent? set).filterMap (·.error? schema)
  | _ => []

/-- The rule finds what is wrong with the uses of fragments in selection sets that are not too
high. -/
def FindsSets (schema : Schema) (document : Document) (depth : ℕ) : Prop :=
  ∀ (set : SelectionSet) (c : TypeContext) (memory : RuleMemory), set.height ≤ depth →
    (possibleFragmentSpreads.alone schema document depth (.selectionSet set) c memory).errors =
      ofSet schema document (compositeOf (c.namedOutputType? schema)) (.selectionSet set)

/-- Of the parts of a node, only the selection sets matter. -/
theorem FindsSets.parts (hsets : FindsSets schema document depth) (node : Node)
    (hheight : node.height ≤ depth + 1)
    (hparts : ∀ child ∈ node.parts, child.IsPlain ∨ ∃ set, child = .selectionSet set) :
    ∀ child ∈ node.parts, ∀ c' memory, SameLists (c.enter schema node) c' →
      (possibleFragmentSpreads.alone schema document depth child c' memory).errors =
        ofSet schema document (compositeOf ((c.enter schema node).namedOutputType? schema))
          child := by
  intro child hchild c' memory hlists
  rcases hparts child hchild with hplain | ⟨set, rfl⟩
  · rw [errors_of_isPlain hplain]
    cases child with
    | selectionSet set => exact hplain.elim
    | _ => rfl
  · have hlt : set.height < node.height := Node.height_lt_of_mem_parts _ _ hchild
    rw [hsets set c' memory (by omega), hlists.namedOutputType?]

/-- What the rule finds at a selection, if it finds what it should in the sets below. -/
theorem FindsSets.selection (hcoherent : schema.Coherent) (hsets : FindsSets schema document depth)
    {selection : Selection} (hheight : selection.height ≤ depth + 1) (h : c.IsInside schema) :
    (possibleFragmentSpreads.alone schema document (depth + 1) (.selection selection) c
      memory).errors =
      (usesAt schema document c.parentType? selection).filterMap (·.error? schema) := by
  have hparts := hsets.parts (c := c) (.selection selection) hheight
    Node.isPlain_or_set_of_selection
  cases selection with
  | field f =>
      rw [errors_succ endures_possibleFragmentSpreads rfl rfl (fun _ _ => rfl) hparts,
        TypeContext.compositeOf_enter_field]
      obtain ⟨key, name, arguments, directives, set?, span⟩ := f
      cases set? with
      | none => simp [Node.parts_field, List.flatMap_map, ofSet, usesAt, Finding.proceed]
      | some set => simp [Node.parts_field, List.flatMap_map, ofSet, usesAt, Finding.proceed]
  | spread s =>
      rw [errors_succ endures_possibleFragmentSpreads (enter_spread (c := c) s) rfl
        (fun _ _ => rfl) hparts]
      simp [Node.parts_spread, List.flatMap_map, ofSet, usesAt, Finding.andProceed,
        filterMap_cons_toList]
  | inline f =>
      rw [errors_succ endures_possibleFragmentSpreads (enter_inline hcoherent h f) rfl
        (fun _ _ => rfl) hparts, TypeContext.compositeOf_enter_inline hcoherent h]
      obtain ⟨condition, directives, set, span⟩ := f
      simp [Node.parts_inline, List.flatMap_map, ofSet, usesAt, Finding.andProceed,
        filterMap_cons_toList]

/-- What the rule finds in a selection set is what is wrong with the uses of fragments in it. -/
theorem findsSets (hcoherent : schema.Coherent) (depth : ℕ) : FindsSets schema document depth := by
  induction depth using Nat.strong_induction_on with
  | _ depth ih =>
      intro set c memory hheight
      let around := compositeOf (c.namedOutputType? schema)
      -- A walk that comes to the set goes on to its selections.
      have hselections (lower : ℕ) (hlower : depth = lower + 1) :
          ∀ selection ∈ set.selections, ∀ c' memory,
            SameLists (c.enter schema (.selectionSet set)) c' →
            (possibleFragmentSpreads.alone schema document lower (.selection selection) c'
              memory).errors =
              (usesAt schema document around selection).filterMap (·.error? schema) := by
        intro selection hselection c' memory hlists
        obtain ⟨hinside, hparent⟩ := IsInside.of_sameLists hlists
        have hlt := SelectionSet.height_lt_of_mem hselection
        have hpos := selection.height_pos
        obtain ⟨below, rfl⟩ : ∃ below, lower = below + 1 := ⟨lower - 1, by omega⟩
        rw [(ih below (by omega)).selection hcoherent (by omega) hinside, hparent]
      cases depth with
      | zero =>
          obtain ⟨selections, span⟩ := set
          simp [SelectionSet.height] at hheight
      | succ lower =>
          rw [errors_of_parts_eq_map endures_possibleFragmentSpreads rfl rfl (fun _ _ => rfl)
            (Node.parts_selectionSet set) (hselections lower rfl)]
          obtain ⟨selections, span⟩ := set
          rw [ofSet, usesIn, usesAmong_eq_flatMap, List.filterMap_flatMap]
          rfl

/-! ## Definitions -/

theorem compositeOf_enter_operation (d : OperationDefinition) :
    compositeOf ((c.enter schema (.definition (.operation d))).namedOutputType? schema) =
      compositeOf ((schema.rootType? d.operation).bind (schema.type? ·.name)) := by
  simp only [TypeContext.enter, TypeContext.enterDefinition, TypeContext.pushOutput,
    TypeContext.namedOutputType?, TypeContext.outputType?, List.head?_cons, Option.join_some,
    Option.bind_map]
  rfl

theorem compositeOf_enter_fragment (d : FragmentDefinition) :
    compositeOf ((c.enter schema (.definition (.fragment d))).namedOutputType? schema) =
      compositeOf (schema.type? d.typeCondition.name.text) :=
  Schema.filter_namedType?_of_isOutputRef (some (.ofName d.typeCondition.name.text))

theorem errors_usesInDefinition (hcoherent : schema.Coherent) {d : Definition}
    (hheight : d.height ≤ depth + 1) :
    (possibleFragmentSpreads.alone schema document (depth + 1) (.definition d) c memory).errors =
      (usesInDefinition schema document d).filterMap (·.error? schema) := by
  cases d with
  | operation d =>
      rw [errors_succ endures_possibleFragmentSpreads rfl rfl (fun _ _ => rfl)
        ((findsSets hcoherent depth).parts (.definition (.operation d)) hheight
          Node.isPlain_or_set_of_definition), compositeOf_enter_operation]
      simp [Node.parts_operation, List.flatMap_map, ofSet, usesInDefinition, Finding.proceed]
  | fragment d =>
      rw [errors_succ endures_possibleFragmentSpreads rfl rfl (fun _ _ => rfl)
        ((findsSets hcoherent depth).parts (.definition (.fragment d)) hheight
          Node.isPlain_or_set_of_definition), compositeOf_enter_fragment]
      simp [Node.parts_fragment, List.flatMap_map, ofSet, usesInDefinition, Finding.proceed]
  | _ => exact errors_of_isPlain trivial

end Rule

/-- The rule finds what is wrong with the uses of fragments in the document, in turn. -/
theorem Document.errorsOf?_possibleFragmentSpreads (hcoherent : schema.Coherent)
    (document : Document) : document.errorsOf? schema [Rule.possibleFragmentSpreads] =
      some ((document.fragmentUses schema).filterMap (·.error? schema)) := by
  obtain ⟨depth, hheight, herrors⟩ :=
    exists_errorsOf? schema document Rule.possibleFragmentSpreads rfl
  have hdefinitions : ∀ d ∈ document.definitions, ∀ c' memory,
      TypeContext.SameLists (TypeContext.enter schema (.document document) {}) c' →
      (Rule.possibleFragmentSpreads.alone schema document (depth + 1) (.definition d) c'
        memory).errors =
        (usesInDefinition schema document d).filterMap (·.error? schema) := by
    intro d hd c' memory _
    have hlt := (Node.Lower.definition hd).height_lt
    exact Rule.errors_usesInDefinition hcoherent (Nat.le_of_lt_succ (hlt.trans_le hheight))
  rw [herrors, Rule.errors_of_parts_eq_map Rule.endures_possibleFragmentSpreads rfl rfl
    (fun _ _ => rfl) (Node.parts_document document) hdefinitions, fragmentUses,
    List.filterMap_flatMap]
  rfl

/-! ## What is refused -/

namespace Schema

/-- In a schema that is built, two composite types of different names overlap if some object type of
the schema meets the conditions on both.  So a fragment is refused exactly if its type and the
type around it are composite types with different names, and no object type that may stand in its
place could enter it. -/
theorem refused_iff_never_applies {draft : Draft} (hbuild : draft.build = .ok schema) :
    (∀ a b : TypeDef, schema.type? a.name = some a → schema.type? b.name = some b →
      a.isCompositeType → b.isCompositeType → a.name ≠ b.name →
      schema.overlap a b = schema.overlap b a ∧
        (schema.overlap a b ↔ ∃ object, schema.type? object.name = some object ∧
          object.isObjectType ∧ applies schema object.name (some (condition a)) ∧
          applies schema object.name (some (condition b)))) ∧
    ∀ document : Document,
      document.errorsOf? schema [Rule.possibleFragmentSpreads] =
        some ((document.fragmentUses schema).filterMap (·.error? schema)) ∧
      ∀ use ∈ document.fragmentUses schema, ∀ error, use.error? schema = some error ↔
        ∃ parent type, use.IsImpossible schema parent type ∧
          error = use.impossible parent type := by
  have hcoherent := coherent_of_build hbuild
  constructor
  · intro a b ha hb ha' hb' hne
    exact ⟨overlap_comm hcoherent ha hb hne ha' hb',
      overlap_iff_exists_applies hcoherent ha hb hne ha' hb'⟩
  · intro document
    refine ⟨document.errorsOf?_possibleFragmentSpreads hcoherent, fun use huse error => ?_⟩
    exact FragmentUse.error?_eq_some_iff hcoherent (isKnown_of_mem_fragmentUses hcoherent huse)

/-- A query for things, `{ things { ... on Labelled { label } ... on Query { things } } }`. -/
def shelfDocument : Document where
  definitions := [.operation {
    operation := .query
    name := none
    variableDefinitions := []
    directives := []
    selectionSet := ⟨[.field {
      responseName := none
      name := ⟨"things", none⟩
      arguments := []
      directives := []
      selectionSet := some ⟨[onType "Labelled" "label", onType "Query" "things"], none⟩ }], none⟩ }]
where
  onType (type field : String) : Selection :=
    .inline {
      typeCondition := some { name := ⟨type, none⟩ }
      directives := []
      selectionSet := ⟨[.field {
        responseName := none
        name := ⟨field, none⟩
        arguments := []
        directives := []
        selectionSet := none }], none⟩ }

/-- Things may be labelled, as every thing is a book and books are labelled.  But no query is a
thing, so of the two fragments the second one is refused. -/
theorem refused_shelfDocument :
    shelfDraft.build = .ok shelfSchema ∧
      (∃ labelled thing : TypeDef, shelfSchema.type? "Labelled" = some labelled ∧
        shelfSchema.type? "Thing" = some thing ∧ ∃ object,
          shelfSchema.type? object.name = some object ∧ object.isObjectType ∧
          applies shelfSchema object.name (some (condition labelled)) ∧
          applies shelfSchema object.name (some (condition thing))) ∧
      (shelfDocument.errorsOf? shelfSchema [Rule.possibleFragmentSpreads]).map
        (·.map (·.fault.message)) = some ["Fragment cannot be spread here as objects of type " ++
          "\"Thing\" can never be of type \"Query\"."] ∧
      ∃ use ∈ shelfDocument.fragmentUses shelfSchema, ∃ parent type,
        use.IsImpossible shelfSchema parent type := by
  obtain ⟨hoverlaps, hrefused⟩ := refused_iff_never_applies build_shelfDraft
  obtain ⟨herrors, hwrong⟩ := hrefused shelfDocument
  refine ⟨build_shelfDraft, ?_, ?_, ?_⟩
  · have hlooked : (shelfSchema.type? "Labelled").bind (fun a => (shelfSchema.type? "Thing").map
        fun b => (a.isCompositeType && b.isCompositeType, shelfSchema.overlap a b)) =
          some (true, true) := by
      decide +kernel
    obtain ⟨labelled, hlabelled, hwith⟩ := Option.bind_eq_some_iff.mp hlooked
    obtain ⟨thing, hthing, hboth⟩ := Option.map_eq_some_iff.mp hwith
    obtain ⟨hcomposite, hoverlap⟩ := Prod.mk.inj hboth
    obtain ⟨hlabelledComposite, hthingComposite⟩ := Bool.and_eq_true_iff.mp hcomposite
    have hcoherent := coherent_of_build build_shelfDraft
    have hlabelledName := hcoherent.name_of_type? hlabelled
    have hthingName := hcoherent.name_of_type? hthing
    obtain ⟨-, hiff⟩ := hoverlaps labelled thing (by rwa [hlabelledName]) (by rwa [hthingName])
      hlabelledComposite hthingComposite (by rw [hlabelledName, hthingName]; decide)
    exact ⟨labelled, thing, hlabelled, hthing, hiff.mp hoverlap⟩
  · rw [herrors]
    decide +kernel
  · have hsome : ∃ use ∈ shelfDocument.fragmentUses shelfSchema,
        (use.error? shelfSchema).isSome := by
      decide +kernel
    obtain ⟨use, huse, hsome⟩ := hsome
    obtain ⟨error, herror⟩ := Option.isSome_iff_exists.mp hsome
    obtain ⟨parent, type, himpossible, -⟩ := (hwrong use huse error).mp herror
    exact ⟨use, huse, parent, type, himpossible⟩

end Schema

end GraphQL
