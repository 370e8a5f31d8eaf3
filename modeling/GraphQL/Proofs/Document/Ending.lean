import GraphQL.Proofs.Document.Acceptance
import GraphQL.Proofs.Document.RoundTrip
import GraphQL.Proofs.Document.Unbounded
import GraphQL.Proofs.Token.Tiling

/-!
# Reading ends

Each reader without bounds mirrors the reader of documents: it does the same, and what it reads has
no more levels than were left.  So it comes to a tree or an error whatever the text, and to the same
as the reader of documents (`Settles`).  All along, the counter of open levels is within its limits,
and tokens are never exhausted: to look for a token where there is none is an error of its own
(`Parser.fault_eq_iff_of_stops_peek`), which no reader recovers from and which is not among the
answers.
-/

namespace GraphQL

namespace Unbounded

section

open GraphQL.Parser Node

variable {left m : ℕ} {K : TokenKind → Prop} {constant : Bool}

/-! ## Types and values -/

theorem mirrors_nullableType {item : Unbounded TypeExpr} {item' : Parser TypeExpr} {start : Span}
    (hitem : Mirrors left m (fun _ => True) item item' (Within left <| .type ·)) :
    Mirrors left m K
      (afterMark .bracketOpen
        (do
          let item ← item
          let _ ← expect .bracketClose
          return .list item (← spanFrom start))
        (return .named (← namedType)))
      (nullableType start item') (Within (left + 1) <| .type ·) :=
  .afterMark
    (hitem.bind fun _ ht => .leaf (keeps_expect _) fun _ => .made fun _ =>
      .level (by simp [parts_listType, ht]))
    (.leaf keeps_namedType fun _ => .pure (within_named _))

theorem mirrors_typeExprWithin {calls : ℕ} (h : left < calls) :
    Mirrors left m K (typeExprWithin calls) (Parser.typeExpr left) (Within left <| .type ·) := by
  induction left generalizing calls K with
  | zero =>
      obtain ⟨calls, rfl⟩ := Nat.exists_eq_succ_of_ne_zero (Nat.ne_zero_of_lt h)
      exact mirrors_nested_zero
  | succ left ih =>
      obtain ⟨calls, rfl⟩ := Nat.exists_eq_succ_of_ne_zero (Nat.ne_zero_of_lt h)
      refine .nested <| .peek fun token => ?_
      refine (mirrors_nullableType (ih (Nat.lt_of_succ_lt_succ h))).bind fun t ht => ?_
      exact .afterMark (.made fun _ => .between rfl (by simp [parts_nonNull, ht])) (.pure ht)

theorem mirrors_typeExpr :
    Mirrors left m K typeExpr (Parser.typeExpr left) (Within left <| .type ·) :=
  .recursion mirrors_typeExprWithin

/-- A value that is one token. -/
theorem mirrors_literal {kind : TokenKind} {start : Span} {make : Option Span → Value}
    (hkind : kind ≠ .eof) (hparts : ∀ span, (Node.value (make span)).parts = []) :
    Mirrors left m (· = kind)
      (do
        let _ ← advance
        return make (← tokenSpan start))
      (do
        let _ ← advance
        return make (← tokenSpan start)) (Within (left + 1) <| .value ·) :=
  .leaf (keeps_advance fun _ heq => heq ▸ hkind) fun _ => .leaf (keeps_tokenSpan _) fun _ =>
    .pure (.level (by simp [hparts]))

theorem mirrors_objectField {item : Unbounded Value} {item' : Parser Value}
    (hitem : Mirrors left m (fun _ => True) item item' (Within left <| .value ·)) :
    Mirrors left m K
      (do
        let start := (← peek).span
        let name ← name
        let _ ← expect .colon
        let value ← item
        return { name, value, span := ← spanFrom start : ObjectField })
      (do
        let start := (← peek).span
        let name ← name
        let _ ← expect .colon
        let value ← item'
        return { name, value, span := ← spanFrom start : ObjectField })
      (Within left <| .objectField ·) :=
  .peek fun _ => .leaf keeps_name fun _ => .leaf (keeps_expect _) fun _ => hitem.bind fun _ hv =>
    .made fun _ => .between rfl (by simp [parts_objectField, hv])

/-- What something is made of is not the end of the text. -/
theorem ne_eof_of_isSome {β : Type} {read? : TokenKind → Option β} {kind : TokenKind}
    (heof : read? .eof = none) (h : (read? kind).isSome) : kind ≠ .eof := by
  rintro rfl
  rw [heof] at h
  cases h

theorem shrinks_value : Shrinks (fun _ => True) (Parser.value constant left) :=
  shrinks_of_follows (follows_value constant left)
    (begins_value (fun _ => ne_eof_of_isSome rfl) nofun nofun nofun left)

theorem mirrors_valueWithin {calls : ℕ} (h : left < calls) :
    Mirrors left m K (valueWithin constant calls) (Parser.value constant left)
      (Within left <| .value ·) := by
  induction left generalizing calls m K with
  | zero =>
      obtain ⟨calls, rfl⟩ := Nat.exists_eq_succ_of_ne_zero (Nat.ne_zero_of_lt h)
      exact mirrors_nested_zero
  | succ left ih =>
      obtain ⟨calls, rfl⟩ := Nat.exists_eq_succ_of_ne_zero (Nat.ne_zero_of_lt h)
      have hitem (m : ℕ) := ih (m := m) (K := fun _ => True) (Nat.lt_of_succ_lt_succ h)
      -- the next token decides which form is read
      refine .nested <| .peek fun token => ?_
      refine .restrict (K := (· = token.kind)) ?_ fun _ hkind => hkind.2
      cases token.kind with
      | punctuator p =>
          cases p with
          | dollar =>
              cases constant with
              | true => exact .refuse (.fail nofun) not_reads_fail
              | false => exact .leaf keeps_variableUse fun _ => .pure (within_var _)
          | bracketOpen =>
              refine .leaf (keeps_advance fun _ heq => by rw [heq]; nofun) fun _ => ?_
              refine (mirrors_row hitem shrinks_value).bind fun items hitems => ?_
              exact .made fun _ => .level (by simpa [parts_list] using hitems)
          | braceOpen =>
              refine .leaf (keeps_advance fun _ heq => by rw [heq]; nofun) fun _ => ?_
              refine (mirrors_row (fun m => mirrors_objectField (hitem m)) ?_).bind
                fun fields hfields => ?_
              · exact shrinks_of_follows (follows_objectField (follows_value constant left))
                  (begins_name fun _ => ne_eof_of_isSome rfl).andThen
              · exact .made fun _ => .level (by simpa [parts_object] using hfields)
          | _ => exact .refuse keeps_unexpected not_reads_unexpected
      | name text | int text | float text | string text | blockString text | boolean b | null =>
          exact mirrors_literal nofun fun _ => rfl
      | eof | error fault => exact .refuse keeps_unexpected not_reads_unexpected

theorem mirrors_value :
    Mirrors left m K (value constant) (Parser.value constant left) (Within left <| .value ·) :=
  .recursion mirrors_valueWithin

/-! ## Arguments and directives -/

theorem mirrors_argument :
    Mirrors left m K (argument constant) (Parser.argument constant left)
      (Within left <| .argument ·) :=
  .peek fun _ => .leaf keeps_name fun _ => .leaf (keeps_expect _) fun _ =>
    mirrors_value.bind fun _ hv => .made fun _ => .between rfl (by simp [parts_argument, hv])

theorem mirrors_arguments :
    Mirrors left m K (arguments constant) (Parser.arguments constant left)
      (∀ a ∈ ·, Within left (.argument a)) :=
  mirrors_parenthesized (fun _ => mirrors_argument)
    (shrinks_of_follows follows_argument (begins_name fun _ => ne_eof_of_isSome rfl).andThen)

theorem mirrors_directives :
    Mirrors left m K (directives constant) (Parser.directives constant left)
      (∀ d ∈ ·, Within left (.directive d)) :=
  mirrors_rowAfter follows_directiveBehind fun _ _ => .leaf keeps_name fun _ =>
    mirrors_arguments.bind fun _ has => .made fun _ =>
      .between rfl (by simpa [parts_directive] using has)

/-! ## Selections -/

variable {set : Unbounded SelectionSet} {set' : Parser SelectionSet}

theorem mirrors_field
    (hset : Mirrors left m (fun _ => True) set set' (Within left <| .selectionSet ·)) :
    Mirrors left m K (field set) (Parser.field left set')
      (Within left <| .selection <| .field ·) := by
  have hbelow : Mirrors left m (fun _ => True)
      (atMark .braceOpen (return some (← set)) (return none))
      (Parser.atMark .braceOpen (return some (← set')) (return none))
      (∀ s ∈ ·, Within left (.selectionSet s)) := by
    refine .atMark (.restrict (hset.bind fun _ h => .pure ?_) fun _ _ => trivial) (.pure nofun)
    simpa using h
  have halias (first : Name) : Keeps (fun _ => True)
      (Parser.afterMark .colon (return (some first, ← name)) (return (none, first))) :=
    .afterMark (keeps_name.bind fun _ => .pure) .pure
  refine .peek fun _ => .leaf keeps_name fun first => .leaf (halias first) fun ⟨_, _⟩ => ?_
  exact mirrors_arguments.bind fun _ has => mirrors_directives.bind fun _ hds =>
    hbelow.bind fun _ hs => .made fun _ =>
      .between rfl (by simp +contextual [parts_field, or_imp, forall_and, has, hds, hs])

theorem mirrors_inlineFragment {start : Span} {condition : Option NamedType}
    (hset : Mirrors left m (fun _ => True) set set' (Within left <| .selectionSet ·)) :
    Mirrors left m K (inlineFragment set start condition)
      (Parser.selection.inline left set' start condition) (Within left <| .selection ·) :=
  mirrors_directives.bind fun _ hds => hset.bind fun _ hs => .made fun _ =>
    .between rfl (by simp +contextual [parts_inline, or_imp, forall_and, hds, hs])

theorem mirrors_selection
    (hset : Mirrors left m (fun _ => True) set set' (Within left <| .selectionSet ·)) :
    Mirrors left m K (selection set) (Parser.selection left set')
      (Within left <| .selection ·) := by
  refine .test (fun kind => decide (kind = .punctuator .ellipsis)) ?_ ?_
  · refine .leaf (keeps_advance ?_) fun _ => .test (fun kind => decide (kind = .name "on")) ?_ ?_
    · rintro _ ⟨-, hdots⟩ rfl
      cases of_decide_eq_true hdots
    · refine .leaf (keeps_advance ?_) fun _ => .leaf keeps_namedType fun _ =>
        mirrors_inlineFragment hset
      rintro _ ⟨-, hon⟩ rfl
      cases of_decide_eq_true hon
    · refine .test (fun kind => (nameText? kind).isSome) ?_ (mirrors_inlineFragment hset)
      exact .leaf keeps_name fun _ => mirrors_directives.bind fun _ hds => .made fun _ =>
        .between rfl (by simp +contextual [parts_spread, hds])
  · exact (mirrors_field hset).bind fun _ h => .pure h

theorem mirrors_selections {item : Unbounded Selection} {item' : Parser Selection}
    {P : Selection → Prop} (hitem : ∀ m, Mirrors left m (fun _ => True) item item' P)
    (hshrinks : Shrinks (fun _ => True) item') :
    Mirrors left m K (selections item) (Parser.selections item') (∀ s ∈ ·, P s) := by
  refine .peek fun token => ?_
  split
  · exact .refuse (.fail nofun) not_reads_fail
  · exact mirrors_row hitem hshrinks

/-- A selection starts with a name or with dots. -/
theorem shrinks_selection :
    Shrinks (fun _ => True) (Parser.selection left (Parser.selectionSet left)) :=
  shrinks_of_follows (follows_selection (followsSet_selectionSet left)) (Grammar.begins_orElse
    (begins_name fun _ => ne_eof_of_isSome rfl).andThen.andThen (Grammar.begins_after_mark nofun))

theorem mirrors_selectionSetWithin {calls : ℕ} (h : left < calls) :
    Mirrors left m K (selectionSetWithin calls) (Parser.selectionSet left)
      (Within left <| .selectionSet ·) := by
  induction left generalizing calls m K with
  | zero =>
      obtain ⟨calls, rfl⟩ := Nat.exists_eq_succ_of_ne_zero (Nat.ne_zero_of_lt h)
      exact mirrors_nested_zero
  | succ left ih =>
      obtain ⟨calls, rfl⟩ := Nat.exists_eq_succ_of_ne_zero (Nat.ne_zero_of_lt h)
      have hitem (m : ℕ) := mirrors_selection (K := fun _ => True)
        (ih (m := m) (K := fun _ => True) (Nat.lt_of_succ_lt_succ h))
      refine .nested <| .leaf (keeps_expect _) fun _ => ?_
      refine (mirrors_selections hitem shrinks_selection).bind fun items hitems => ?_
      exact .made fun _ => .level (by simpa [parts_selectionSet] using hitems)

theorem mirrors_selectionSet :
    Mirrors left m K selectionSet (Parser.selectionSet left) (Within left <| .selectionSet ·) :=
  .recursion mirrors_selectionSetWithin

/-! ## Executable definitions -/

theorem mirrors_defaultValue :
    Mirrors maxDepth m K defaultValue Parser.defaultValue (∀ v ∈ ·, Within maxDepth (.value v)) :=
  .afterMark (mirrors_value.bind fun _ hv => .pure (by simpa using hv)) (.pure nofun)

/-- The variable that is defined is a value too, and it is not nested in any other. -/
theorem mirrors_variableDefinition :
    Mirrors maxDepth m K variableDefinition Parser.variableDefinition
      (Within maxDepth <| .variableDefinition ·) :=
  .peek fun _ => .leaf keeps_variableUse fun v => .leaf (keeps_expect _) fun _ =>
    mirrors_typeExpr.bind fun _ ht => mirrors_defaultValue.bind fun _ hv => .made fun _ =>
      have hvar : Within maxDepth (.value (.var v)) := within_var v
      .between rfl (by simp +contextual [parts_variableDefinition, or_imp, ht, hv, hvar])

theorem mirrors_operationDefinition :
    Mirrors maxDepth m K operationDefinition Parser.operationDefinition
      (Within maxDepth <| .definition <| .operation ·) := by
  have hvariables : Mirrors maxDepth m (fun _ => True) (parenthesized variableDefinition)
      (Parser.parenthesized Parser.variableDefinition)
      (∀ d ∈ ·, Within maxDepth (.variableDefinition d)) :=
    mirrors_parenthesized (fun _ => mirrors_variableDefinition)
      (shrinks_of_follows follows_variableDefinition (Grammar.begins_after_mark nofun).andThen)
  refine .peek fun _ => .atMark ?_ ?_
  · exact mirrors_selectionSet.bind fun _ hs => .made fun _ =>
      .between rfl (by simp [parts_operation, hs])
  · refine .leaf keeps_operationKind fun _ => .leaf keeps_optionalName fun _ => ?_
    exact hvariables.bind fun _ hvs => mirrors_directives.bind fun _ hds =>
      mirrors_selectionSet.bind fun _ hs => .made fun _ =>
        .between rfl (by simp +contextual [parts_operation, or_imp, forall_and, hvs, hds, hs])

theorem mirrors_fragmentDefinition :
    Mirrors maxDepth m K fragmentDefinition Parser.fragmentDefinition
      (Within maxDepth <| .definition <| .fragment ·) :=
  .leaf (keeps_expectKeyword _) fun _ => .leaf keeps_fragmentName fun _ =>
    .leaf (keeps_expectKeyword _) fun _ => .leaf keeps_namedType fun _ =>
      mirrors_directives.bind fun _ hds => mirrors_selectionSet.bind fun _ hs => .made fun _ =>
        .between rfl (by simp +contextual [parts_fragment, or_imp, hds, hs])

variable {start : Span} {description : Option String}

/-! ## Parts of definitions -/

/-- An item that has a description, or starts with its name. -/
theorem begins_item {β : Type} {f : Option String → Grammar β} {F : β → TokenKind → Prop}
    (hf : ∀ description, (f description).Begins F fun kind => (nameText? kind).isSome) :
    (Grammar.description >>= f).Begins F (· ≠ .eof) :=
  begins_described hf (fun _ => ne_eof_of_isSome rfl) fun _ => ne_eof_of_isSome rfl

theorem mirrors_inputValueDefinition :
    Mirrors maxDepth m K inputValueDefinition Parser.inputValueDefinition
      (Within maxDepth <| .inputValueDefinition ·) :=
  .peek fun _ => .leaf keeps_description fun _ => .leaf keeps_name fun _ =>
    .leaf (keeps_expect _) fun _ => mirrors_typeExpr.bind fun _ ht =>
      mirrors_defaultValue.bind fun _ hv => mirrors_directives.bind fun _ hds => .made fun _ =>
        .between rfl (by
          simp +contextual [parts_inputValueDefinition, or_imp, forall_and, ht, hv, hds])

theorem shrinks_inputValueDefinition : Shrinks (fun _ => True) Parser.inputValueDefinition :=
  shrinks_of_follows follows_inputValueDefinition
    (begins_item fun _ => (begins_name fun _ => id).andThen)

theorem mirrors_argumentsDefinition :
    Mirrors maxDepth m K argumentsDefinition Parser.argumentsDefinition
      (∀ d ∈ ·, Within maxDepth (.inputValueDefinition d)) :=
  mirrors_parenthesized (fun _ => mirrors_inputValueDefinition) shrinks_inputValueDefinition

theorem mirrors_fieldDefinition :
    Mirrors maxDepth m K fieldDefinition Parser.fieldDefinition
      (Within maxDepth <| .fieldDefinition ·) :=
  .peek fun _ => .leaf keeps_description fun _ => .leaf keeps_name fun _ =>
    mirrors_argumentsDefinition.bind fun _ has => .leaf (keeps_expect _) fun _ =>
      mirrors_typeExpr.bind fun _ ht => mirrors_directives.bind fun _ hds => .made fun _ =>
        .between rfl (by simp +contextual [parts_fieldDefinition, or_imp, forall_and, has, ht, hds])

theorem mirrors_fieldDefinitions :
    Mirrors maxDepth m K (braced fieldDefinition) (Parser.braced Parser.fieldDefinition)
      (∀ d ∈ ·, Within maxDepth (.fieldDefinition d)) :=
  mirrors_braced (fun _ => mirrors_fieldDefinition) (shrinks_of_follows follows_fieldDefinition
    (begins_item fun _ => (begins_name fun _ => id).andThen))

theorem mirrors_enumValueDefinition :
    Mirrors maxDepth m K enumValueDefinition Parser.enumValueDefinition
      (Within maxDepth <| .enumValueDefinition ·) :=
  .peek fun _ => .leaf keeps_description fun _ => .leaf keeps_enumValueName fun _ =>
    mirrors_directives.bind fun _ hds => .made fun _ =>
      .between rfl (by simp +contextual [parts_enumValueDefinition, or_imp, hds])

theorem mirrors_namedTypes {mark : Punctuator} :
    Mirrors maxDepth m K (separated mark namedType) (Parser.separated mark namedType)
      (∀ t ∈ ·, Within maxDepth (.type (.named t))) :=
  mirrors_separated follows_namedType fun _ => .lift keeps_namedType fun _ => within_named _

theorem mirrors_implementsInterfaces :
    Mirrors maxDepth m K implementsInterfaces Parser.implementsInterfaces
      (∀ t ∈ ·, Within maxDepth (.type (.named t))) := by
  refine .test (fun kind => decide (kind = .name "implements"))
    (.leaf (keeps_advance ?_) fun _ => mirrors_namedTypes) (.pure nofun)
  rintro _ ⟨-, hword⟩ rfl
  cases of_decide_eq_true hword

/-! ## Definitions -/

theorem mirrors_schemaDefinition :
    Mirrors maxDepth m K (schemaDefinition start) (Parser.schemaDefinition start)
      (Within maxDepth <| .definition <| .schema ·) := by
  have hshrinks : Shrinks (fun _ => True) operationTypeDefinition := by
    refine shrinks_of_follows follows_operationTypeDefinition (Grammar.begins_token ?_).andThen
    exact fun kind b hread => ne_eof_of_isSome rfl (Option.isSome_of_eq_some hread)
  have hitem (m : ℕ) : Mirrors maxDepth m (fun _ => True) (liftM operationTypeDefinition)
      operationTypeDefinition (Within maxDepth <| .operationTypeDefinition ·) :=
    .lift keeps_operationTypeDefinition fun _ =>
      .between rfl (by simp [parts_operationTypeDefinition])
  refine .leaf (keeps_expectKeyword _) fun _ => mirrors_directives.bind fun _ hds =>
    .leaf (keeps_expect _) fun _ => (mirrors_nonemptyRow hitem hshrinks).bind fun _ hts => ?_
  exact .made fun _ =>
    .between rfl (by simp +contextual [parts_schema, or_imp, forall_and, hds, hts])

theorem mirrors_scalarTypeDefinition :
    Mirrors maxDepth m K (scalarTypeDefinition start description)
      (Parser.scalarTypeDefinition start description)
      (Within maxDepth <| .definition <| .scalarType ·) :=
  .leaf (keeps_expectKeyword _) fun _ => .leaf keeps_name fun _ =>
    mirrors_directives.bind fun _ hds => .made fun _ =>
      .between rfl (by simp +contextual [parts_scalarType, or_imp, hds])

theorem mirrors_objectTypeDefinition :
    Mirrors maxDepth m K (objectTypeDefinition start description)
      (Parser.objectTypeDefinition start description)
      (Within maxDepth <| .definition <| .objectType ·) :=
  .leaf (keeps_expectKeyword _) fun _ => .leaf keeps_name fun _ =>
    mirrors_implementsInterfaces.bind fun _ _ => mirrors_directives.bind fun _ hds =>
      mirrors_fieldDefinitions.bind fun _ hfs => .made fun _ =>
        .between rfl (by simp +contextual [parts_objectType, or_imp, forall_and, hds, hfs])

theorem mirrors_interfaceTypeDefinition :
    Mirrors maxDepth m K (interfaceTypeDefinition start description)
      (Parser.interfaceTypeDefinition start description)
      (Within maxDepth <| .definition <| .interfaceType ·) :=
  .leaf (keeps_expectKeyword _) fun _ => .leaf keeps_name fun _ =>
    mirrors_directives.bind fun _ hds => mirrors_fieldDefinitions.bind fun _ hfs => .made fun _ =>
      .between rfl (by simp +contextual [parts_interfaceType, or_imp, forall_and, hds, hfs])

theorem mirrors_unionTypeDefinition :
    Mirrors maxDepth m K (unionTypeDefinition start description)
      (Parser.unionTypeDefinition start description)
      (Within maxDepth <| .definition <| .unionType ·) := by
  have htypes : Mirrors maxDepth m (fun _ => True)
      (afterMark .equals (separated .pipe namedType) (return []))
      (Parser.afterMark .equals (Parser.separated .pipe namedType) (return []))
      (∀ t ∈ ·, Within maxDepth (.type (.named t))) := .afterMark mirrors_namedTypes (.pure nofun)
  refine .leaf (keeps_expectKeyword _) fun _ => .leaf keeps_name fun _ => ?_
  exact mirrors_directives.bind fun _ hds => htypes.bind fun _ _ => .made fun _ =>
    .between rfl (by simp +contextual [parts_unionType, or_imp, forall_and, hds])

theorem mirrors_enumTypeDefinition :
    Mirrors maxDepth m K (enumTypeDefinition start description)
      (Parser.enumTypeDefinition start description)
      (Within maxDepth <| .definition <| .enumType ·) := by
  have hvalues : Mirrors maxDepth m (fun _ => True) (braced enumValueDefinition)
      (Parser.braced Parser.enumValueDefinition)
      (∀ d ∈ ·, Within maxDepth (.enumValueDefinition d)) :=
    mirrors_braced (fun _ => mirrors_enumValueDefinition)
      (shrinks_of_follows follows_enumValueDefinition
        (begins_item fun _ => (begins_nameBut fun _ => id).andThen))
  refine .leaf (keeps_expectKeyword _) fun _ => .leaf keeps_name fun _ => ?_
  exact mirrors_directives.bind fun _ hds => hvalues.bind fun _ hvs => .made fun _ =>
    .between rfl (by simp +contextual [parts_enumType, or_imp, forall_and, hds, hvs])

theorem mirrors_inputObjectTypeDefinition :
    Mirrors maxDepth m K (inputObjectTypeDefinition start description)
      (Parser.inputObjectTypeDefinition start description)
      (Within maxDepth <| .definition <| .inputObjectType ·) := by
  have hfields : Mirrors maxDepth m (fun _ => True) (braced inputValueDefinition)
      (Parser.braced Parser.inputValueDefinition)
      (∀ d ∈ ·, Within maxDepth (.inputValueDefinition d)) :=
    mirrors_braced (fun _ => mirrors_inputValueDefinition) shrinks_inputValueDefinition
  refine .leaf (keeps_expectKeyword _) fun _ => .leaf keeps_name fun _ => ?_
  exact mirrors_directives.bind fun _ hds => hfields.bind fun _ hfs => .made fun _ =>
    .between rfl (by simp +contextual [parts_inputObjectType, or_imp, forall_and, hds, hfs])

theorem mirrors_typeExtensionDefinition :
    Mirrors maxDepth m K (typeExtensionDefinition start) (Parser.typeExtensionDefinition start)
      (Within maxDepth <| .definition <| .typeExtension ·) :=
  .leaf (keeps_expectKeyword _) fun _ => .peek fun _ =>
    mirrors_objectTypeDefinition.bind fun _ hd => .made fun _ =>
      .between rfl (by simp [parts_typeExtension, hd])

theorem mirrors_directiveDefinition :
    Mirrors maxDepth m K (directiveDefinition start description)
      (Parser.directiveDefinition start description)
      (Within maxDepth <| .definition <| .directive ·) := by
  have hlocation : Follows directiveLocation Name.bare Grammar.directiveLocation Anything :=
    .look looks_peek fun _ => follows_nameBut fun text => (DirectiveLocation.ofText? text).isNone
  have hlocations : Mirrors maxDepth m (fun _ => True) (separated .pipe directiveLocation)
      (Parser.separated .pipe directiveLocation) (∀ n ∈ ·, Within maxDepth (.name n)) :=
    mirrors_separated hlocation fun _ => .lift keeps_directiveLocation fun _ => within_name _
  refine .leaf (keeps_expectKeyword _) fun _ => .leaf (keeps_expect _) fun _ => .leaf keeps_name
    fun _ => mirrors_argumentsDefinition.bind fun _ has => .leaf (keeps_expectKeyword _) fun _ => ?_
  exact hlocations.bind fun _ _ => .made fun _ =>
    .between rfl (by simp +contextual [parts_directiveDefinition, or_imp, forall_and, has])

/-- A definition of one kind among those of all kinds. -/
theorem Mirrors.definition {α : Type} {l : Unbounded α} {p : Parser α} {make : α → Definition}
    (hp : Mirrors maxDepth m K l p (Within maxDepth <| .definition <| make ·)) :
    Mirrors maxDepth m K (l >>= fun a => Pure.pure (make a)) (p >>= fun a => Pure.pure (make a))
      (Within maxDepth <| .definition ·) :=
  hp.bind fun _ h => .pure h

theorem mirrors_typeSystemDefinition :
    Mirrors maxDepth m K typeSystemDefinition Parser.typeSystemDefinition
      (Within maxDepth <| .definition ·) := by
  refine .peek fun start => .leaf keeps_description fun description => .peek fun token => ?_
  cases token.kind with
  | name word =>
      refine .restrict (K := fun _ => True) ?_ fun _ _ => trivial
      dsimp only
      split
      case h_1 heq => subst heq; exact mirrors_schemaDefinition.definition
      case h_2 heq => subst heq; exact mirrors_typeExtensionDefinition.definition
      case h_3 heq => subst heq; exact mirrors_scalarTypeDefinition.definition
      case h_4 heq => subst heq; exact mirrors_objectTypeDefinition.definition
      case h_5 heq => subst heq; exact mirrors_interfaceTypeDefinition.definition
      case h_6 heq => subst heq; exact mirrors_unionTypeDefinition.definition
      case h_7 heq => subst heq; exact mirrors_enumTypeDefinition.definition
      case h_8 heq => subst heq; exact mirrors_inputObjectTypeDefinition.definition
      case h_9 heq => subst heq; exact mirrors_directiveDefinition.definition
      case h_10 | h_11 =>
        -- no other word gets to the readers of definitions on the other side either
        simpa [*] using Mirrors.refuse keeps_unexpected not_reads_unexpected
  | _ => cases description <;> exact .refuse keeps_unexpected not_reads_unexpected

/-! ## Whole documents -/

theorem mirrors_definition :
    Mirrors maxDepth m K definition Parser.definition (Within maxDepth <| .definition ·) := by
  refine .peek fun token => ?_
  cases token.kind with
  | punctuator p =>
      cases p with
      | braceOpen => exact mirrors_operationDefinition.definition
      | _ => exact .refuse keeps_unexpected not_reads_unexpected
  | string text | blockString text => exact mirrors_typeSystemDefinition
  | name word =>
      dsimp only
      split
      · exact mirrors_operationDefinition.definition
      · split
        · exact mirrors_fragmentDefinition.definition
        · split
          · exact mirrors_typeSystemDefinition
          · exact .refuse keeps_unexpected not_reads_unexpected
  | _ => exact .refuse keeps_unexpected not_reads_unexpected

theorem shrinks_definition : Shrinks (fun _ => True) Parser.definition :=
  shrinks_of_follows follows_definition ne_eof_definition

theorem mirrors_definitions {rounds fuel : ℕ} (hrounds : m < rounds) (hfuel : m ≤ fuel) :
    Mirrors maxDepth m (fun _ => True) (definitions rounds) (Parser.definitions fuel)
      (∀ d ∈ ·, Within maxDepth (.definition d)) := by
  induction m generalizing rounds fuel with
  | zero => exact .of_no_token
  | succ m ih =>
      obtain ⟨rounds, rfl⟩ := Nat.exists_eq_succ_of_ne_zero (Nat.ne_zero_of_lt hrounds)
      obtain ⟨fuel, rfl⟩ := Nat.exists_eq_succ_of_ne_zero (Nat.ne_zero_of_lt hfuel)
      rw [definitions_succ]
      refine .peek fun token => .restrict (K := fun _ => True) ?_ fun _ _ => trivial
      split
      · next hkind =>
          rw [if_pos hkind]
          exact .pure nofun
      · next hkind =>
          rw [if_neg hkind]
          refine mirrors_definition.shrink shrinks_definition fun first hfirst => ?_
          refine (ih (Nat.lt_of_succ_lt_succ hrounds) (Nat.le_of_succ_le_succ hfuel)).bind ?_
          exact fun rest hrest => .pure (List.forall_mem_cons.mpr ⟨hfirst, hrest⟩)

theorem mirrors_document :
    Mirrors maxDepth m K document Parser.document (Within maxDepth <| .document ·) :=
  .peek fun _ => mirrors_definition.bind fun _ hfirst => .loop fun hlt =>
    (mirrors_definitions hlt le_rfl).bind fun _ hothers => .made fun _ =>
      .between rfl (by simp +contextual [parts_document, hfirst, hothers])

end

/-! ## Answers -/

open GraphQL.Parser (Stops State maxDepth)

variable {α : Type} {m : ℕ} {l : Unbounded α} {p : Parser α} {toNode : α → Node}
  {text : String} {options : ParseOptions}

/-- Reads with `item`, and after that the end of the text. -/
def toEnd (item : Unbounded α) : Unbounded α := do
  let a ← item
  Parser.expectEnd
  return a

/-- Where the reader of a whole text starts: no level is open. -/
def Config.ofText (text : String) (options : ParseOptions) : Config where
  state := .ofText text options
  depth := 0
  depths := [0]

/-- Wherever the end of the text is ahead and the counter within its limits, the reader comes to an
answer.  The counter stays within its limits, and is back at the end where it was. -/
def Restores (l : Unbounded α) : Prop :=
  ∀ ⦃patience c⦄, c.state.HasEnd → c.Bounded →
    c.state.tokens.length + maxDepth < patience →
    ∃ answer final, l patience c = some (answer, final) ∧ final.Bounded ∧ final.depth = c.depth

/-- The reader comes to the answer with which a whole text is read, however patient it is beyond the
length of the text.  All levels are closed then.  The tokens were never exhausted, and no way down
from the root of a tree comes by more levels than there may be. -/
structure Settles (l : Unbounded α) (toNode : α → Node) (text : String) (options : ParseOptions)
    (answer : Except SyntaxError α) : Prop where
  ends : ∀ patience, (Token.all text).length + maxDepth < patience →
    ∃ final, l patience (.ofText text options) = some (answer, final) ∧ final.Bounded ∧
      final.depth = 0
  not_exhausted : ∀ e, answer = .error e → e.fault ≠ .unexpectedEnd []
  levels : ∀ a, answer = .ok a → ∀ below, (toNode a).Path below →
    (toNode a :: below).countP Node.isLevel ≤ maxDepth

/-! ## Readers of parts -/

theorem Config.Bounded.exists_atLevel {c : Config} (h : c.Bounded) : ∃ left, c.AtLevel left := by
  have hdepth := h.depth
  exact ⟨(maxDepth - c.depth).toNat, h, by omega⟩

/-- What mirrors a reader of documents at all levels restores the counter. -/
theorem restores_of_mirrors {p : (left : ℕ) → Parser α} {Q : ℕ → α → Prop}
    (h : ∀ left m, Mirrors left m (fun _ => True) l (p left) (Q left)) : Restores l := by
  intro patience c hend hbounded hpatience
  obtain ⟨left, hlevel⟩ := hbounded.exists_atLevel
  have hanswers := h left _ hpatience ⟨hlevel, hend, le_rfl⟩ (.any _)
  have heq := hlevel.level
  generalize p left c.state = result at hanswers
  generalize l patience c = answer at hanswers ⊢
  cases hanswers with
  | reads hready _ =>
      have heq' := hready.level
      exact ⟨_, _, rfl, hready.toBounded, by omega⟩
  | stops hlevel' _ =>
      have heq' := hlevel'.level
      exact ⟨_, _, rfl, hlevel'.toBounded, by omega⟩

/-! ## Whole texts -/

theorem ready_ofText (text : String) (options : ParseOptions) :
    (Config.ofText text options).Ready maxDepth (Token.all text).length where
  depth := ⟨le_rfl, Nat.cast_nonneg _⟩
  depths := by simp [Config.ofText]
  level := zero_add _
  hasEnd := by
    obtain ⟨others, htokens, -⟩ := (Lexer.tiles_tokens [] text.toList).exists_eof
    have hall : Token.all text = others ++ [⟨.eof, _⟩] := htokens
    change ((Token.all text).map (·.kind)).getLast? = some .eof
    rw [hall, List.map_append]
    exact List.getLast?_concat
  length := le_rfl

/-- What there is to know of a reader at the end of a text. -/
structure Ended (Q : α → Prop) (answer : Except SyntaxError α)
    (run : Option (Except SyntaxError α × Config)) : Prop where
  ends : ∃ final, run = some (answer, final) ∧ final.AtLevel maxDepth
  not_exhausted : ∀ e, answer = .error e → e.fault ≠ .unexpectedEnd []
  holds : ∀ a, answer = .ok a → Q a

theorem Ended.read {Q : α → Prop} {a : α} {c : Config} (hlevel : c.AtLevel maxDepth) (ha : Q a) :
    Ended Q (.ok a) (some (.ok a, c)) where
  ends := ⟨c, rfl, hlevel⟩
  not_exhausted := nofun
  holds := by
    rintro _ ⟨⟩
    exact ha

theorem Ended.stopped {Q : α → Prop} {e : SyntaxError} {c : Config} (hlevel : c.AtLevel maxDepth)
    (he : e.fault ≠ .unexpectedEnd []) : Ended Q (.error e) (some (.error e, c)) where
  ends := ⟨c, rfl, hlevel⟩
  not_exhausted := by
    rintro _ ⟨⟩
    exact he
  holds := nofun

theorem Answers.ended {Q : α → Prop} {result : Except SyntaxError (α × State)}
    {run : Option (Except SyntaxError α × Config)} (h : Answers maxDepth m Q result run) :
    Ended Q (result.map (·.1)) run := by
  cases h with
  | reads hready ha => exact .read hready.toAtLevel ha
  | stops hlevel he => exact .stopped hlevel he

/-- The end of the text is looked for where it is still ahead. -/
theorem Answers.ended_toEnd {Q : α → Prop} {patience : ℕ} {c : Config}
    (h : Answers maxDepth m Q (p c.state) (l patience c)) :
    Ended Q ((Parser.toEnd p c.state).map (·.1)) (toEnd l patience c) := by
  simp only [Parser.toEnd, toEnd, Bind.bind, StateT.bind, Except.bind, lift_eq]
  generalize p c.state = result at h ⊢
  generalize l patience c = run at h ⊢
  cases h with
  | stops hlevel he => exact .stopped hlevel he
  | @reads a c' hready ha =>
      have hlevel := hready.toAtLevel
      dsimp only
      cases hend : Parser.expectEnd c'.state with
      | error e => exact .stopped hlevel (Parser.fault_of_stops_expectEnd hend hready.hasEnd)
      | ok result => exact .read ⟨⟨hlevel.depth, hlevel.depths⟩, hlevel.level⟩ ha

theorem settles_of_ended {answer : Except SyntaxError α}
    (h : ∀ patience, (Token.all text).length + maxDepth < patience →
      Ended (Node.Within maxDepth <| toNode ·) answer (l patience (.ofText text options))) :
    Settles l toNode text options answer where
  ends patience hpatience := by
    obtain ⟨final, hanswer, hlevel⟩ := (h patience hpatience).ends
    have heq := hlevel.level
    exact ⟨final, hanswer, hlevel.toBounded, by omega⟩
  not_exhausted := (h _ (Nat.lt_succ_self _)).not_exhausted
  levels a htree _ hpath := ((h _ (Nat.lt_succ_self _)).holds a htree).countP_le hpath

theorem settles_of_mirrors
    (h : ∀ m, Mirrors maxDepth m (fun _ => True) l p (Node.Within maxDepth <| toNode ·)) :
    Settles l toNode text options (Parser.run p text options) :=
  settles_of_ended fun _ hpatience =>
    (h _ hpatience (ready_ofText text options) (.any _)).ended

theorem settles_toEnd_of_mirrors
    (h : ∀ m, Mirrors maxDepth m (fun _ => True) l p (Node.Within maxDepth <| toNode ·)) :
    Settles (toEnd l) toNode text options (Parser.run (Parser.toEnd p) text options) :=
  settles_of_ended fun _ hpatience =>
    (h _ hpatience (ready_ofText text options) (.any _)).ended_toEnd

/-- Reading ends on every text, whichever part of the language it is read as, and it needs no bounds
for that: without them the answer is the same.  The readers that count levels restore the counter,
wherever they start. -/
theorem reading_ends (text : String) (options : ParseOptions) :
    (∀ s e, Stops Parser.peek s e ∨ Stops Parser.advance s e →
      (e.fault = .unexpectedEnd [] ↔ s.tokens = [])) ∧
    Settles document .document text options (Parser.run Parser.document text options) ∧
    Settles (toEnd (value false)) .value text options (Value.parse text options) ∧
    Settles (toEnd (value true)) .value text options (Value.parseConst text options) ∧
    Settles (toEnd typeExpr) .type text options (TypeExpr.parse text options) ∧
    Restores selectionSet ∧ (∀ constant, Restores (value constant)) ∧ Restores typeExpr :=
  ⟨fun _ _ h => Parser.fault_eq_iff_of_stops_peek (h.elim id Parser.stops_advance.mp),
    settles_of_mirrors fun _ => mirrors_document,
    settles_toEnd_of_mirrors fun _ => mirrors_value,
    settles_toEnd_of_mirrors fun _ => mirrors_value,
    settles_toEnd_of_mirrors fun _ => mirrors_typeExpr,
    restores_of_mirrors fun _ _ => mirrors_selectionSet,
    fun _ => restores_of_mirrors fun _ _ => mirrors_value,
    restores_of_mirrors fun _ _ => mirrors_typeExpr⟩

/-- What the counter has been when `[T]` is read as a type. -/
example : (toEnd typeExpr 70 (.ofText "[T]" { noLocation := true })).map (·.2.depths) =
    some [0, 1, 2, 1, 0] := by decide +kernel

end Unbounded

end GraphQL
