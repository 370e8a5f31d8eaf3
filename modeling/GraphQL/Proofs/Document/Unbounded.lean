import GraphQL.Proofs.Document.Reading.TypeSystem
import GraphQL.Proofs.Traversal.Parts

/-!
# Readers without bounds of their own

The readers of documents take as arguments what bounds their recursion: the levels that are left,
and a number of items that a row cannot have.  The readers here have neither.  The levels that are
open are counted in a variable, which is raised where a selection set, a value or a type begins
and lowered where it ends; a loop goes on until a token ends it, and a reader calls itself as
often as the text asks for.

So such a reader may go on for ever.  It is told how often a loop may go round, and how deep a
reader may call itself, before it counts as endless, and has no answer then: `none` is no error.
What never loops and never nests is read with the readers of documents themselves.

The variable is an integer, and all values that it ever has are noted in `depths`; so it can be
said of a whole run, whether there is a tree in the end or an error, that the variable stays within
its limits.

`Mirrors left m K l p Q` relates a reader `l` without bounds to a reader `p` of documents.  Where
the counter leaves `left` levels, at most `m` tokens are left, the end among them, and `K` holds of
the next one, `l` answers as `p` does: with the same tree, of which `Q` holds, or with the same
error.  The counter stays within its limits and is back in the end, and no error tells of exhausted
tokens.

There is one lemma for each way in which readers are put together.  Three of them are where the
bounds of a reader of documents are met.  The levels that are left to it are what the counter leaves
(`Mirrors.nested`), so no reader calls itself more often than there are levels
(`Mirrors.recursion`).  Every item of a row takes a token, so no loop goes round more often than
there are tokens (`Mirrors.loop`).
-/

namespace GraphQL

open GraphQL.Parser

/-- What a reader without bounds works on. -/
structure Unbounded.Config where
  state : Parser.State
  /-- How many selection sets, values and types are open. -/
  depth : ℤ
  /-- All values that the counter has had, the latest first. -/
  depths : List ℤ

/-- A reader without bounds.  It is told how patient to be, and if its patience ends it has no
answer. -/
def Unbounded (α : Type) : Type :=
  (patience : ℕ) → Unbounded.Config → Option (Except SyntaxError α × Unbounded.Config)

namespace Unbounded

variable {α : Type}

/-- An error ends the whole run. -/
instance : Monad Unbounded where
  pure a := fun _ c => some (.ok a, c)
  bind p f := fun patience c =>
    match p patience c with
    | none => none
    | some (.error e, c') => some (.error e, c')
    | some (.ok a, c') => f a patience c'

/-- A reader that neither loops nor nests leaves the counter alone. -/
instance : MonadLift Parser Unbounded where
  monadLift p := fun _ c =>
    match p c.state with
    | .ok (a, state) => some (.ok a, { c with state })
    | .error e => some (.error e, c)

/-! ## Loops -/

/-- No answer. -/
def endless : Unbounded α := fun _ _ => none

/-- How many rounds a loop may take. -/
def patience : Unbounded ℕ := fun patience c => some (.ok patience, c)

/-! ## The counter -/

def openLevels : Unbounded ℤ := fun _ c => some (.ok c.depth, c)

def setLevels (depth : ℤ) : Unbounded Unit := fun _ c =>
  some (.ok (), { c with depth, depths := depth :: c.depths })

/-- Opens a level, if the limit is not reached. -/
def enter : Unbounded Unit := do
  let depth ← openLevels
  if maxDepth ≤ depth then fail .tooDeep (← peek).span
  else setLevels (depth + 1)

/-- Closes a level. -/
def leave : Unbounded Unit := do setLevels ((← openLevels) - 1)

/-- What a reader comes to, be it a tree or an error. -/
def outcome (p : Unbounded α) : Unbounded (Except SyntaxError α) := fun patience c =>
  (p patience c).map fun (answer, c') => (.ok answer, c')

def ofOutcome (answer : Except SyntaxError α) : Unbounded α := fun _ c => some (answer, c)

/-- Reads one level further down.  The level is closed again in any case. -/
def nested (p : Unbounded α) : Unbounded α := do
  enter
  let answer ← outcome p
  leave
  ofOutcome answer

/-! ## Marks and rows -/

def afterMark (p : Punctuator) (item otherwise : Unbounded α) : Unbounded α := do
  if ← skipIf p then item else otherwise

def atMark (p : Punctuator) (item otherwise : Unbounded α) : Unbounded α := do
  if ← peekIs p then item else otherwise

/-- Reads items until the mark `close`, and that mark. -/
def itemsUntil (close : Punctuator) (item : Unbounded α) : (rounds : ℕ) → Unbounded (List α)
  | 0 => endless
  | rounds + 1 => do
    if ← skipIf close then return []
    let first ← item
    return first :: (← itemsUntil close item rounds)

def row (close : Punctuator) (item : Unbounded α) : Unbounded (List α) := do
  itemsUntil close item (← patience)

def nonemptyRow (close : Punctuator) (item : Unbounded α) : Unbounded (List α) := do
  let first ← item
  return first :: (← row close item)

/-- Reads items as long as the mark `mark` is in front of them. -/
def itemsAfter (mark : Punctuator) (item : Unbounded α) : (rounds : ℕ) → Unbounded (List α)
  | 0 => endless
  | rounds + 1 => do
    if ← peekIs mark then
      let first ← item
      return first :: (← itemsAfter mark item rounds)
    else return []

def rowAfter (mark : Punctuator) (item : Unbounded α) : Unbounded (List α) := do
  itemsAfter mark item (← patience)

def separated (mark : Punctuator) (item : Unbounded α) : Unbounded (List α) := do
  let _ ← skipIf mark
  let first ← item
  return first :: (← rowAfter mark (do let _ ← advance; item))

def parenthesized (item : Unbounded α) : Unbounded (List α) :=
  afterMark .parenOpen (nonemptyRow .parenClose item) (return [])

def braced (item : Unbounded α) : Unbounded (List α) :=
  afterMark .braceOpen (nonemptyRow .braceClose item) (return [])

/-! ## Types and values -/

/-- A type; `calls` bounds how deep the reader may call itself. -/
def typeExprWithin : (calls : ℕ) → Unbounded TypeExpr
  | 0 => endless
  | calls + 1 => nested do
    let start := (← peek).span
    let type ← afterMark .bracketOpen
      (do
        let item ← typeExprWithin calls
        let _ ← expect .bracketClose
        return .list item (← spanFrom start))
      (return .named (← namedType))
    afterMark .bang (return .nonNull type (← spanFrom start)) (return type)

def typeExpr : Unbounded TypeExpr := do typeExprWithin (← patience)

/-- A value; `calls` bounds how deep the reader may call itself. -/
def valueWithin (constant : Bool) : (calls : ℕ) → Unbounded Value
  | 0 => endless
  | calls + 1 => nested do
    let token ← peek
    match token.kind with
    | .punctuator .dollar =>
      if constant then fail .variableInConstant token.span else return .var (← variableUse)
    | .punctuator .bracketOpen =>
      let _ ← advance
      let items ← row .bracketClose (valueWithin constant calls)
      return .list items (← spanFrom token.span)
    | .punctuator .braceOpen =>
      let _ ← advance
      let fields ← row .braceClose do
        let start := (← peek).span
        let name ← name
        let _ ← expect .colon
        let value ← valueWithin constant calls
        return { name, value, span := ← spanFrom start : ObjectField }
      return .object fields (← spanFrom token.span)
    | .int text => let _ ← advance; return .int text (← tokenSpan token.span)
    | .float text => let _ ← advance; return .float text (← tokenSpan token.span)
    | .string text => let _ ← advance; return .string text false (← tokenSpan token.span)
    | .blockString text => let _ ← advance; return .string text true (← tokenSpan token.span)
    | .boolean b => let _ ← advance; return .boolean b (← tokenSpan token.span)
    | .null => let _ ← advance; return .null (← tokenSpan token.span)
    | .name text => let _ ← advance; return .enum text (← tokenSpan token.span)
    | _ => unexpected .value

def value (constant : Bool) : Unbounded Value := do valueWithin constant (← patience)

def argument (constant : Bool) : Unbounded Argument := do
  let start := (← peek).span
  let name ← name
  let _ ← expect .colon
  let value ← value constant
  return { name, value, span := ← spanFrom start }

def arguments (constant : Bool) : Unbounded (List Argument) := parenthesized (argument constant)

def directives (constant : Bool) : Unbounded (List Directive) :=
  rowAfter .atSign do
    let start := (← advance).span
    let name ← name
    let arguments ← arguments constant
    return { name, arguments, span := ← spanFrom start }

/-! ## Selections -/

def field (selectionSet : Unbounded SelectionSet) : Unbounded Field := do
  let start := (← peek).span
  let first ← name
  let (responseName, name) ← Parser.afterMark .colon (return (some first, ← name))
    (return (none, first))
  let arguments ← arguments false
  let directives ← directives false
  let below ← atMark .braceOpen (return some (← selectionSet)) (return none)
  return {
    responseName, name, arguments, directives, selectionSet := below, span := ← spanFrom start }

def inlineFragment (selectionSet : Unbounded SelectionSet) (start : Span)
    (typeCondition : Option NamedType) : Unbounded Selection := do
  let directives ← directives false
  let below ← selectionSet
  return .inline { typeCondition, directives, selectionSet := below, span := ← spanFrom start }

def selection (selectionSet : Unbounded SelectionSet) : Unbounded Selection := do
  if !(← peekIs .ellipsis) then return .field (← field selectionSet)
  let start := (← advance).span
  if ← peekIsKeyword "on" then
    let _ ← advance
    inlineFragment selectionSet start (some (← namedType))
  else if ← peekIsName then
    let name ← name
    let directives ← directives false
    return .spread { name, directives, span := ← spanFrom start }
  else inlineFragment selectionSet start none

def selections (item : Unbounded Selection) : Unbounded (List Selection) := do
  let next ← peek
  if next.kind = .punctuator .braceClose then fail .emptySelectionSet next.span
  else row .braceClose item

/-- A selection set; `calls` bounds how deep the reader may call itself. -/
def selectionSetWithin : (calls : ℕ) → Unbounded SelectionSet
  | 0 => endless
  | calls + 1 => nested do
    let start := (← expect .braceOpen).span
    let selections ← selections (selection (selectionSetWithin calls))
    return { selections, span := ← spanFrom start }

def selectionSet : Unbounded SelectionSet := do selectionSetWithin (← patience)

/-! ## Executable definitions -/

def defaultValue : Unbounded (Option Value) :=
  afterMark .equals (return some (← value true)) (return none)

def variableDefinition : Unbounded VariableDefinition := do
  let start := (← peek).span
  let var ← variableUse
  let _ ← expect .colon
  let type ← typeExpr
  let defaultValue ← defaultValue
  return { var, type, defaultValue, span := ← spanFrom start }

def operationDefinition : Unbounded OperationDefinition := do
  let start := (← peek).span
  atMark .braceOpen
    (do
      let selectionSet ← selectionSet
      return {
        operation := .query, name := none, variableDefinitions := [], directives := [],
        selectionSet, span := ← spanFrom start })
    (do
      let operation ← operationKind
      let name ← optionalName
      let variableDefinitions ← parenthesized variableDefinition
      let directives ← directives false
      let selectionSet ← selectionSet
      return {
        operation, name, variableDefinitions, directives, selectionSet, span := ← spanFrom start })

def fragmentDefinition : Unbounded FragmentDefinition := do
  let start := (← expectKeyword "fragment").span
  let name ← fragmentName
  let _ ← expectKeyword "on"
  let typeCondition ← namedType
  let directives ← directives false
  let selectionSet ← selectionSet
  return { name, typeCondition, directives, selectionSet, span := ← spanFrom start }

/-! ## Definitions of a type system -/

def schemaDefinition (start : Span) : Unbounded SchemaDefinition := do
  let _ ← expectKeyword "schema"
  let directives ← directives true
  let _ ← expect .braceOpen
  let operationTypes ← nonemptyRow .braceClose operationTypeDefinition
  return { directives, operationTypes, span := ← spanFrom start }

def scalarTypeDefinition (start : Span) (description : Option String) :
    Unbounded ScalarTypeDefinition := do
  let _ ← expectKeyword "scalar"
  let name ← name
  let directives ← directives true
  return { description, name, directives, span := ← spanFrom start }

def inputValueDefinition : Unbounded InputValueDefinition := do
  let start := (← peek).span
  let description ← description
  let name ← name
  let _ ← expect .colon
  let type ← typeExpr
  let defaultValue ← defaultValue
  let directives ← directives true
  return { description, name, type, defaultValue, directives, span := ← spanFrom start }

def argumentsDefinition : Unbounded (List InputValueDefinition) :=
  parenthesized inputValueDefinition

def fieldDefinition : Unbounded FieldDefinition := do
  let start := (← peek).span
  let description ← description
  let name ← name
  let arguments ← argumentsDefinition
  let _ ← expect .colon
  let type ← typeExpr
  let directives ← directives true
  return { description, name, arguments, type, directives, span := ← spanFrom start }

def implementsInterfaces : Unbounded (List NamedType) := do
  if ← peekIsKeyword "implements" then
    let _ ← advance
    separated .ampersand namedType
  else return []

def objectTypeDefinition (start : Span) (description : Option String) :
    Unbounded ObjectTypeDefinition := do
  let _ ← expectKeyword "type"
  let name ← name
  let interfaces ← implementsInterfaces
  let directives ← directives true
  let fields ← braced fieldDefinition
  return { description, name, interfaces, directives, fields, span := ← spanFrom start }

def interfaceTypeDefinition (start : Span) (description : Option String) :
    Unbounded InterfaceTypeDefinition := do
  let _ ← expectKeyword "interface"
  let name ← name
  let directives ← directives true
  let fields ← braced fieldDefinition
  return { description, name, directives, fields, span := ← spanFrom start }

def unionTypeDefinition (start : Span) (description : Option String) :
    Unbounded UnionTypeDefinition := do
  let _ ← expectKeyword "union"
  let name ← name
  let directives ← directives true
  let types ← afterMark .equals (separated .pipe namedType) (return [])
  return { description, name, directives, types, span := ← spanFrom start }

def enumValueDefinition : Unbounded EnumValueDefinition := do
  let start := (← peek).span
  let description ← description
  let name ← enumValueName
  let directives ← directives true
  return { description, name, directives, span := ← spanFrom start }

def enumTypeDefinition (start : Span) (description : Option String) :
    Unbounded EnumTypeDefinition := do
  let _ ← expectKeyword "enum"
  let name ← name
  let directives ← directives true
  let values ← braced enumValueDefinition
  return { description, name, directives, values, span := ← spanFrom start }

def inputObjectTypeDefinition (start : Span) (description : Option String) :
    Unbounded InputObjectTypeDefinition := do
  let _ ← expectKeyword "input"
  let name ← name
  let directives ← directives true
  let fields ← braced inputValueDefinition
  return { description, name, directives, fields, span := ← spanFrom start }

def typeExtensionDefinition (start : Span) : Unbounded TypeExtensionDefinition := do
  let _ ← expectKeyword "extend"
  let definitionStart := (← peek).span
  let definition ← objectTypeDefinition definitionStart none
  return { definition, span := ← spanFrom start }

def directiveDefinition (start : Span) (description : Option String) :
    Unbounded DirectiveDefinition := do
  let _ ← expectKeyword "directive"
  let _ ← expect .atSign
  let name ← name
  let arguments ← argumentsDefinition
  let _ ← expectKeyword "on"
  let locations ← separated .pipe directiveLocation
  return { description, name, arguments, locations, span := ← spanFrom start }

def typeSystemDefinition : Unbounded Definition := do
  let start := (← peek).span
  let description ← description
  let keyword := match (← peek).kind with
    | .name word => word
    | _ => ""
  match keyword, description with
  | "schema", none => return .schema (← schemaDefinition start)
  | "extend", none => return .typeExtension (← typeExtensionDefinition start)
  | "scalar", _ => return .scalarType (← scalarTypeDefinition start description)
  | "type", _ => return .objectType (← objectTypeDefinition start description)
  | "interface", _ => return .interfaceType (← interfaceTypeDefinition start description)
  | "union", _ => return .unionType (← unionTypeDefinition start description)
  | "enum", _ => return .enumType (← enumTypeDefinition start description)
  | "input", _ => return .inputObjectType (← inputObjectTypeDefinition start description)
  | "directive", _ => return .directive (← directiveDefinition start description)
  | _, some _ => unexpected .typeDefinition
  | _, none => unexpected .definition

/-! ## Whole texts -/

def definition : Unbounded Definition := do
  match (← peek).kind with
  | .punctuator .braceOpen => return .operation (← operationDefinition)
  | .string _ | .blockString _ => typeSystemDefinition
  | .name word =>
    if (OperationKind.ofKeyword? word).isSome then return .operation (← operationDefinition)
    else if word = "fragment" then return .fragment (← fragmentDefinition)
    else if word ∈ typeSystemKeywords then typeSystemDefinition
    else unexpected .definition
  | _ => unexpected .definition

/-- Reads definitions up to the end of the text. -/
def definitions : (rounds : ℕ) → Unbounded (List Definition)
  | 0 => endless
  | rounds + 1 => do
    match (← peek).kind with
    | .eof => return []
    | _ =>
      let first ← definition
      return first :: (← definitions rounds)

def document : Unbounded Document := do
  let start := (← peek).span
  let first ← definition
  let others ← definitions (← patience)
  return { definitions := first :: others, span := ← spanFrom start }

variable {β : Type} {left m : ℕ} {K : TokenKind → Prop}

/-! ## Configurations and answers -/

/-- The counter is within its limits, and has always been. -/
structure Config.Bounded (c : Config) : Prop where
  depth : 0 ≤ c.depth ∧ c.depth ≤ maxDepth
  depths : ∀ depth ∈ c.depths, 0 ≤ depth ∧ depth ≤ maxDepth

/-- The counter leaves so many levels. -/
structure Config.AtLevel (left : ℕ) (c : Config) : Prop extends c.Bounded where
  level : c.depth + left = maxDepth

/-- At most `m` tokens are left, and the end of the text is among them. -/
structure Config.Ready (left m : ℕ) (c : Config) : Prop extends c.AtLevel left where
  hasEnd : c.state.HasEnd
  length : c.state.tokens.length ≤ m

theorem Config.AtLevel.left_le {c : Config} (h : c.AtLevel left) : left ≤ maxDepth := by
  have hdepth := h.depth
  have hlevel := h.level
  omega

theorem Config.Ready.mono {c : Config} {n : ℕ} (h : c.Ready left m) (hle : m ≤ n) :
    c.Ready left n := ⟨h.toAtLevel, h.hasEnd, h.length.trans hle⟩

/-- The answer of a reader without bounds is the result of the other one. -/
inductive Answers (left m : ℕ) (Q : α → Prop) : Except SyntaxError (α × Parser.State) →
    Option (Except SyntaxError α × Config) → Prop
  | reads {a : α} {c : Config} : c.Ready left m → Q a →
      Answers left m Q (.ok (a, c.state)) (some (.ok a, c))
  | stops {e : SyntaxError} {c : Config} : c.AtLevel left → e.fault ≠ .unexpectedEnd [] →
      Answers left m Q (.error e) (some (.error e, c))

/-- The two readers do the same, if there is enough patience. -/
def Mirrors (left m : ℕ) (K : TokenKind → Prop) (l : Unbounded α) (p : Parser α) (Q : α → Prop) :
    Prop :=
  ∀ ⦃patience c⦄, m + maxDepth < patience → c.Ready left m → c.state.NextIs K →
    Answers left m Q (p c.state) (l patience c)

theorem Answers.mono {Q : α → Prop} {n : ℕ} {result : Except SyntaxError (α × Parser.State)}
    {answer : Option (Except SyntaxError α × Config)} (h : Answers left m Q result answer)
    (hle : m ≤ n) : Answers left n Q result answer := by
  cases h with
  | reads hready ha => exact .reads (hready.mono hle) ha
  | stops hlevel he => exact .stops hlevel he

variable {l : Unbounded α} {f : α → Unbounded β} {p : Parser α} {g : α → Parser β} {P : α → Prop}
  {Q : β → Prop}

/-- What holds before some tokens holds before fewer. -/
theorem Mirrors.restrict {L : TokenKind → Prop} (h : Mirrors left m K l p P)
    (hL : ∀ kind, L kind → K kind) : Mirrors left m L l p P :=
  fun _ _ hpatience hready hnext => h hpatience hready fun kind hkind => hL kind (hnext kind hkind)

/-- There is always a token left. -/
theorem Mirrors.of_no_token : Mirrors left 0 K l p P := fun _ _ _ hready _ =>
  absurd (List.length_eq_zero_iff.mp (Nat.le_zero.mp hready.length)) hready.hasEnd.ne_nil

/-! ## One reader after another -/

theorem Mirrors.pure {b : β} (h : Q b) : Mirrors left m K (pure b) (pure b) Q :=
  fun _ _ _ hready _ => .reads hready h

theorem lift_eq (p : Parser α) (patience : ℕ) (c : Config) :
    (liftM p : Unbounded α) patience c = match p c.state with
      | .ok (a, state) => some (.ok a, { c with state })
      | .error e => some (.error e, c) := rfl

/-- A reader that neither loops nor nests is its own counterpart. -/
theorem Mirrors.lift (hp : Keeps K p) (hread : ∀ {s a s'}, Reads p s a s' → P a) :
    Mirrors left m K (liftM p) p P := by
  intro patience c _ hready hnext
  rw [lift_eq]
  cases hresult : p c.state with
  | error e => exact .stops hready.toAtLevel (hp.stops hready.hasEnd hnext hresult)
  | ok result =>
      obtain ⟨a, state⟩ := result
      obtain ⟨hend, hle⟩ := hp.reads hready.hasEnd hnext hresult
      have hready' : Config.Ready left m { c with state } :=
        ⟨⟨⟨hready.depth, hready.depths⟩, hready.level⟩, hend, hle.trans hready.length⟩
      exact .reads hready' (hread hresult)

theorem Mirrors.bind (hp : Mirrors left m K l p P)
    (hf : ∀ a, P a → Mirrors left m (fun _ => True) (f a) (g a) Q) :
    Mirrors left m K (l >>= f) (p >>= g) Q := by
  intro patience c hpatience hready hnext
  have hfirst := hp hpatience hready hnext
  simp only [Bind.bind, StateT.bind, Except.bind]
  generalize p c.state = result at hfirst ⊢
  generalize l patience c = answer at hfirst ⊢
  cases hfirst with
  | reads hready' ha => exact hf _ ha hpatience hready' (.any _)
  | stops hlevel he => exact .stops hlevel he

/-- A reader after one that neither loops nor nests, of whose tree nothing needs to be known. -/
theorem Mirrors.leaf (hp : Keeps K p)
    (hf : ∀ a, Mirrors left m (fun _ => True) (f a) (g a) Q) :
    Mirrors left m K (liftM p >>= f) (p >>= g) Q :=
  have hlift : Mirrors left m K (liftM p) p fun _ => True := .lift hp fun _ => trivial
  hlift.bind fun a _ => hf a

theorem Mirrors.refuse (hp : Keeps K p) (hnot : ∀ {s a s'}, ¬Reads p s a s') :
    Mirrors left m K (liftM p) p P :=
  .lift hp fun h => absurd h hnot

/-- A tree that is made when its parts are read. -/
theorem Mirrors.made {start : Span} {make : Option Span → β} (h : ∀ span, Q (make span)) :
    Mirrors left m K (liftM (spanFrom start) >>= fun span => Pure.pure (make span))
      (spanFrom start >>= fun span => Pure.pure (make span)) Q :=
  .leaf (keeps_spanFrom start) fun span => .pure (h span)

/-- A reader after a look ahead, of which `R` says what it tells about the next token. -/
theorem Mirrors.look {R : α → TokenKind → Prop} (hp : Keeps K p) (hsilent : Looks p)
    (hnext : ∀ {s a s'}, Reads p s a s' → s.NextIs (R a))
    (hf : ∀ a, Mirrors left m (fun kind => K kind ∧ R a kind) (f a) (g a) Q) :
    Mirrors left m K (liftM p >>= f) (p >>= g) Q := by
  intro patience c hpatience hready hK
  simp only [Bind.bind, StateT.bind, Except.bind, lift_eq]
  cases hresult : p c.state with
  | error e => exact .stops hready.toAtLevel (hp.stops hready.hasEnd hK hresult)
  | ok result =>
      obtain ⟨a, state⟩ := result
      cases hsilent.silent hresult
      exact hf a hpatience hready fun kind hkind => ⟨hK kind hkind, hnext hresult kind hkind⟩

/-- A reader that knows the next token. -/
theorem Mirrors.peek {f : Token → Unbounded β} {g : Token → Parser β}
    (hf : ∀ token, Mirrors left m (fun kind => K kind ∧ kind = token.kind) (f token) (g token) Q) :
    Mirrors left m K (liftM Parser.peek >>= f) (Parser.peek >>= g) Q :=
  .look keeps_peek looks_peek nextIs_of_reads_peek hf

/-- A reader that goes on as a test of the next token says. -/
theorem Mirrors.test (test : TokenKind → Bool) {f : Bool → Unbounded β} {g : Bool → Parser β}
    (htrue : Mirrors left m (fun kind => K kind ∧ test kind = true) (f true) (g true) Q)
    (hfalse : Mirrors left m (fun kind => K kind ∧ test kind = false) (f false) (g false) Q) :
    Mirrors left m K (liftM (do return test (← Parser.peek).kind) >>= f)
      ((do return test (← Parser.peek).kind) >>= g) Q := by
  refine .look (R := fun b kind => test kind = b) (keeps_ask test) (looks_ask test) ?_ fun b => ?_
  · intro s b s' hreads kind hkind
    obtain ⟨token, hpeek, -, rfl⟩ := reads_ask.mp hreads
    rw [nextIs_of_reads_peek hpeek kind hkind]
  · cases b with
    | true => exact htrue
    | false => exact hfalse

/-! ## Levels -/

/-- One level further down. -/
def Config.inside (c : Config) : Config :=
  { c with depth := c.depth + 1, depths := (c.depth + 1) :: c.depths }

/-- One level further up. -/
def Config.outside (c : Config) : Config :=
  { c with depth := c.depth - 1, depths := (c.depth - 1) :: c.depths }

theorem Config.Ready.inside {c : Config} (h : c.Ready (left + 1) m) : c.inside.Ready left m := by
  have hdepth := h.depth
  have hlevel := h.level
  have hbounds : 0 ≤ c.depth + 1 ∧ c.depth + 1 ≤ maxDepth := by omega
  refine ⟨⟨⟨hbounds, List.forall_mem_cons.mpr ⟨hbounds, h.depths⟩⟩, ?_⟩, h.hasEnd, h.length⟩
  change c.depth + 1 + left = maxDepth
  omega

theorem Config.AtLevel.outside {c : Config} (h : c.AtLevel left) (hle : left < maxDepth) :
    c.outside.AtLevel (left + 1) := by
  have hdepth := h.depth
  have hlevel := h.level
  have hbounds : 0 ≤ c.depth - 1 ∧ c.depth - 1 ≤ maxDepth := by omega
  refine ⟨⟨hbounds, List.forall_mem_cons.mpr ⟨hbounds, h.depths⟩⟩, ?_⟩
  change c.depth - 1 + (left + 1 : ℕ) = maxDepth
  omega

theorem Config.Ready.outside {c : Config} (h : c.Ready left m) (hle : left < maxDepth) :
    c.outside.Ready (left + 1) m :=
  ⟨h.toAtLevel.outside hle, h.hasEnd, h.length⟩

theorem nested_of_full {patience : ℕ} {c : Config} (h : maxDepth ≤ c.depth) :
    nested l patience c = (do fail .tooDeep (← Parser.peek).span : Unbounded α) patience c := by
  have henter : enter patience c =
      (do fail .tooDeep (← Parser.peek).span : Unbounded Unit) patience c := by
    change (if maxDepth ≤ c.depth then _ else _ : Unbounded Unit) patience c = _
    rw [if_pos h]
  simp only [nested, Bind.bind, henter, lift_eq]
  cases Parser.peek c.state <;> rfl

theorem nested_of_room {patience : ℕ} {c : Config} (h : c.depth < maxDepth) :
    nested l patience c = (l patience c.inside).map fun (answer, c') => (answer, c'.outside) := by
  have henter : enter patience c = some (.ok (), c.inside) := by
    change (if maxDepth ≤ c.depth then _ else _ : Unbounded Unit) patience c = _
    rw [if_neg (not_le.mpr h)]
    rfl
  simp only [nested, Bind.bind, henter, outcome]
  cases l patience c.inside <;> rfl

/-- Where no level is left, both readers say so. -/
theorem mirrors_nested_zero :
    Mirrors 0 m K (nested l) (do fail .tooDeep (← Parser.peek).span) P := by
  have hfail : Mirrors 0 m K (do fail .tooDeep (← Parser.peek).span : Unbounded α)
      (do fail .tooDeep (← Parser.peek).span) P :=
    .peek fun token => .refuse (.fail nofun) not_reads_fail
  intro patience c hpatience hready hnext
  have hlevel := hready.level
  rw [nested_of_full (by omega)]
  exact hfail hpatience hready hnext

theorem Mirrors.nested (hp : Mirrors left m K l p P) : Mirrors (left + 1) m K (nested l) p P := by
  intro patience c hpatience hready hnext
  have hlevel := hready.level
  have hle : left < maxDepth := hready.left_le
  rw [nested_of_room (by omega)]
  have hinside := hp hpatience hready.inside hnext
  generalize l patience c.inside = answer at hinside ⊢
  change Answers left m P (p c.state) answer at hinside
  generalize p c.state = result at hinside ⊢
  cases hinside with
  | reads hready' ha => exact .reads (hready'.outside hle) ha
  | stops hlevel he => exact .stops (hlevel.outside hle) he

/-! ## Marks -/

variable {mark close : Punctuator} {item otherwise : Unbounded α} {item' otherwise' : Parser α}

theorem Mirrors.afterMark (hitem : Mirrors left m (fun _ => True) item item' P)
    (hother : Mirrors left m (fun _ => True) otherwise otherwise' P) :
    Mirrors left m K (afterMark mark item otherwise) (Parser.afterMark mark item' otherwise') P :=
  .leaf (keeps_skipIf mark) fun b => by
    cases b with
    | true => exact hitem
    | false => exact hother

theorem Mirrors.atMark (hitem : Mirrors left m (· = .punctuator mark) item item' P)
    (hother : Mirrors left m (fun _ => True) otherwise otherwise' P) :
    Mirrors left m K (atMark mark item otherwise) (Parser.atMark mark item' otherwise') P :=
  .test (fun kind => decide (kind = .punctuator mark))
    (hitem.restrict fun _ hkind => of_decide_eq_true hkind.2) (hother.restrict fun _ _ => trivial)

/-! ## Rows -/

/-- Before a token that `K` holds of, the reader takes at least one token. -/
def Shrinks (K : TokenKind → Prop) (p : Parser α) : Prop :=
  ∀ ⦃s a s'⦄, s.NextIs K → Reads p s a s' → s'.tokens.length < s.tokens.length

/-- What follows a grammar of parts that are never empty takes a token. -/
theorem shrinks_of_follows {bare : α → β} {g : Grammar β} {F : β → TokenKind → Prop}
    (hp : FollowsAt K p bare g F) (hbegins : g.Begins Anything (· ≠ .eof)) : Shrinks K p := by
  intro s a s' hnext hreads
  obtain ⟨first, hkinds, hg⟩ := hp.sound hreads hnext
  have hne : first ≠ [] := by
    rintro rfl
    exact hbegins [] _ .eof hg trivial rfl
  have hlength := congrArg List.length hkinds
  rw [List.length_append, Parser.State.kinds, Parser.State.kinds, List.length_map,
    List.length_map] at hlength
  have hpos := List.length_pos_iff.mpr hne
  omega

/-- After a token there are fewer left. -/
theorem Mirrors.shrink (hp : Mirrors left (m + 1) K l p P) (hshrinks : Shrinks K p)
    (hf : ∀ a, P a → Mirrors left m (fun _ => True) (f a) (g a) Q) :
    Mirrors left (m + 1) K (l >>= f) (p >>= g) Q := by
  intro patience c hpatience hready hnext
  have hfirst := hp hpatience hready hnext
  simp only [Bind.bind, StateT.bind, Except.bind]
  generalize hresult : p c.state = result at hfirst ⊢
  generalize l patience c = answer at hfirst ⊢
  cases hfirst with
  | stops hlevel he => exact .stops hlevel he
  | @reads a c' hready' ha =>
      have hlt := hshrinks hnext hresult
      have hlength := hready.length
      have hready'' : c'.Ready left m := ⟨hready'.toAtLevel, hready'.hasEnd, by omega⟩
      exact (hf a ha (by omega) hready'' (.any _)).mono (Nat.le_succ m)

/-- A loop is told how often it may go round, and its counterpart how many tokens there are. -/
theorem Mirrors.loop {loop : ℕ → Unbounded β} {loop' : ℕ → Parser β}
    (h : ∀ {n patience}, n < patience →
      Mirrors left n (fun _ => True) (loop patience) (loop' n) Q) :
    Mirrors left m K (patience >>= loop) (limit >>= loop') Q := by
  intro patience c hpatience hready hnext
  have hlength := hready.length
  have hready' : c.Ready left c.state.tokens.length := ⟨hready.toAtLevel, hready.hasEnd, le_rfl⟩
  have hloop : Mirrors left c.state.tokens.length (fun _ => True) (loop patience)
      (loop' c.state.tokens.length) Q := h (by omega)
  exact (hloop (by omega) hready' (.any _)).mono hlength

/-- A reader that calls itself may do so more often than there are levels. -/
theorem Mirrors.recursion {self : ℕ → Unbounded α}
    (h : ∀ {calls}, left < calls → Mirrors left m K (self calls) p P) :
    Mirrors left m K (patience >>= self) p P := by
  intro patience c hpatience hready hnext
  have hle := hready.left_le
  exact h (by omega) hpatience hready hnext

/-- Neither reader runs out of rounds, of which there are more than tokens. -/
theorem mirrors_itemsUntil (hitem : ∀ m, Mirrors left m (fun _ => True) item item' P)
    (hshrinks : Shrinks (fun _ => True) item') {rounds fuel : ℕ} (hrounds : m < rounds)
    (hfuel : m < fuel) : Mirrors left m (fun _ => True) (itemsUntil close item rounds)
      (Parser.itemsUntil close item' fuel) (∀ a ∈ ·, P a) := by
  induction m generalizing rounds fuel with
  | zero => exact .of_no_token
  | succ m ih =>
      obtain ⟨rounds, rfl⟩ := Nat.exists_eq_succ_of_ne_zero (Nat.ne_zero_of_lt hrounds)
      obtain ⟨fuel, rfl⟩ := Nat.exists_eq_succ_of_ne_zero (Nat.ne_zero_of_lt hfuel)
      refine .afterMark (.pure nofun) ((hitem _).shrink hshrinks fun first hfirst => ?_)
      refine (ih (Nat.lt_of_succ_lt_succ hrounds) (Nat.lt_of_succ_lt_succ hfuel)).bind ?_
      exact fun rest hrest => .pure (List.forall_mem_cons.mpr ⟨hfirst, hrest⟩)

theorem mirrors_row (hitem : ∀ m, Mirrors left m (fun _ => True) item item' P)
    (hshrinks : Shrinks (fun _ => True) item') :
    Mirrors left m K (row close item) (Parser.row close item') (∀ a ∈ ·, P a) :=
  .loop fun hlt => mirrors_itemsUntil hitem hshrinks hlt (Nat.lt_succ_self _)

theorem mirrors_nonemptyRow (hitem : ∀ m, Mirrors left m (fun _ => True) item item' P)
    (hshrinks : Shrinks (fun _ => True) item') :
    Mirrors left m (fun _ => True) (nonemptyRow close item) (Parser.nonemptyRow close item')
      (∀ a ∈ ·, P a) :=
  (hitem m).bind fun _ hfirst => (mirrors_row hitem hshrinks).bind fun _ hrest =>
    .pure (List.forall_mem_cons.mpr ⟨hfirst, hrest⟩)

theorem mirrors_itemsAfter (hitem : ∀ m, Mirrors left m (· = .punctuator mark) item item' P)
    (hshrinks : Shrinks (· = .punctuator mark) item') {rounds fuel : ℕ} (hrounds : m < rounds)
    (hfuel : m ≤ fuel) : Mirrors left m (fun _ => True) (itemsAfter mark item rounds)
      (Parser.itemsAfter mark item' fuel) (∀ a ∈ ·, P a) := by
  induction m generalizing rounds fuel with
  | zero => exact .of_no_token
  | succ m ih =>
      obtain ⟨rounds, rfl⟩ := Nat.exists_eq_succ_of_ne_zero (Nat.ne_zero_of_lt hrounds)
      obtain ⟨fuel, rfl⟩ := Nat.exists_eq_succ_of_ne_zero (Nat.ne_zero_of_lt hfuel)
      rw [itemsAfter_succ]
      refine .atMark ((hitem _).shrink hshrinks fun first hfirst => ?_) (.pure nofun)
      refine (ih (Nat.lt_of_succ_lt_succ hrounds) (Nat.le_of_succ_le_succ hfuel)).bind ?_
      exact fun rest hrest => .pure (List.forall_mem_cons.mpr ⟨hfirst, hrest⟩)

theorem mirrors_rowAfter {f : Token → Unbounded α} {f' : Token → Parser α} {bare : α → β}
    {g : Grammar β} {F : β → TokenKind → Prop} (hfollows : ∀ token, Follows (f' token) bare g F)
    (hf : ∀ m token, Mirrors left m (fun _ => True) (f token) (f' token) P) :
    Mirrors left m K (rowAfter mark (liftM advance >>= f)) (Parser.rowAfter mark (advance >>= f'))
      (∀ a ∈ ·, P a) := by
  have hitem (m : ℕ) : Mirrors left m (· = .punctuator mark) (liftM advance >>= f)
      (advance >>= f') P :=
    .leaf (keeps_advance fun _ hkind => by rw [hkind]; nofun) (hf m)
  have hfollows' : FollowsAt (· = .punctuator mark) (advance >>= f') bare
      (Grammar.mark mark >>= fun _ => g) F := (follows_mark mark).andThen hfollows
  have hshrinks := shrinks_of_follows hfollows' (Grammar.begins_after_mark nofun)
  exact .loop fun hlt => mirrors_itemsAfter hitem hshrinks hlt le_rfl

theorem mirrors_separated {bare : α → β} {g : Grammar β}
    (hfollows : Follows item' bare g Anything)
    (hitem : ∀ m, Mirrors left m (fun _ => True) item item' P) :
    Mirrors left m K (separated mark item) (Parser.separated mark item') (∀ a ∈ ·, P a) :=
  .leaf (keeps_skipIf mark) fun _ => (hitem m).bind fun _ hfirst =>
    (mirrors_rowAfter (fun _ => hfollows) fun m _ => hitem m).bind fun _ hrest =>
      .pure (List.forall_mem_cons.mpr ⟨hfirst, hrest⟩)

theorem mirrors_parenthesized (hitem : ∀ m, Mirrors left m (fun _ => True) item item' P)
    (hshrinks : Shrinks (fun _ => True) item') :
    Mirrors left m K (parenthesized item) (Parser.parenthesized item') (∀ a ∈ ·, P a) :=
  .afterMark (mirrors_nonemptyRow hitem hshrinks) (.pure nofun)

theorem mirrors_braced (hitem : ∀ m, Mirrors left m (fun _ => True) item item' P)
    (hshrinks : Shrinks (fun _ => True) item') :
    Mirrors left m K (braced item) (Parser.braced item') (∀ a ∈ ·, P a) :=
  .afterMark (mirrors_nonemptyRow hitem hshrinks) (.pure nofun)

end Unbounded

end GraphQL
