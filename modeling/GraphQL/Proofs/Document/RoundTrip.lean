import GraphQL.Proofs.Document.Printing.TypeSystem
import GraphQL.Proofs.Document.Reading.Bodies

/-!
# Printing and reading back

What is printed of a document is read back as the same definitions, with one exception.  A type
that is written without a body takes a brace that comes next as its body, and an anonymous query
without variables and directives is written as a selection set alone, in braces.  So the text of
a document reads back if and only if no such query stands right behind such a type
(`Document.reparses_iff`); a document with a single definition always does
(`Document.reparses_of_single`).
-/

namespace GraphQL

open Token

/-! ## What a text is read as -/

/-- Where the reader of a whole text starts. -/
def Parser.State.ofText (text : String) (options : ParseOptions) : Parser.State :=
  { tokens := Token.all text, lastEnd := none, options }

theorem Parser.kinds_ofText (text : String) (options : ParseOptions) :
    (State.ofText text options).kinds = (Token.all text).map (·.kind) := rfl

theorem Document.parse_eq_ok_iff {source : Source} {options : ParseOptions} {document : Document} :
    Document.parse source options = .ok document ↔
      ∃ read s, Parser.Reads Parser.document (.ofText source.body options) read s ∧
        document = { read with source := if options.noSource then none else some source } := by
  have hrun : Parser.run Parser.document source.body options =
      (Parser.document (.ofText source.body options)).map (·.1) := rfl
  rw [Document.parse, hrun]
  unfold Parser.Reads
  cases hread : Parser.document (.ofText source.body options) with
  | error e => simp [Except.map]
  | ok result =>
      obtain ⟨read, s⟩ := result
      simp only [Except.map, Except.ok.injEq, Prod.mk.injEq]
      constructor
      · rintro rfl
        exact ⟨read, s, ⟨rfl, rfl⟩, rfl⟩
      · rintro ⟨_, _, ⟨rfl, rfl⟩, rfl⟩
        rfl

/-- A definition of a kind and shape that some text is read as. -/
def Definition.IsRead (d : Definition) : Prop :=
  ∃ source options document, Document.parse source options = .ok document ∧
    d ∈ document.definitions

/-- What was read is made of names, numbers and strings that can be written. -/
theorem Definition.IsRead.readable {d : Definition} (h : d.IsRead) :
    Readable Grammar.definition d.bare := by
  obtain ⟨source, options, document, hparse, hd⟩ := h
  obtain ⟨read, s, hreads, rfl⟩ := Document.parse_eq_ok_iff.mp hparse
  obtain ⟨first, hkinds, hmany⟩ := Parser.sound_document hreads
  refine readable_many ⟨first, hmany, fun kind hkind => ?_⟩ d.bare (List.mem_map_of_mem hd)
  rw [Parser.kinds_ofText] at hkinds
  obtain ⟨token, htoken, rfl⟩ : ∃ token ∈ Token.all source.body, token.kind = kind :=
    List.mem_map.mp (hkinds ▸ List.mem_append_left _ hkind)
  exact genuine_of_mem_all htoken

/-! ## What a definition is printed as -/

/-- A query that is written as its selection set alone. -/
def Definition.IsShorthand : Definition → Prop
  | .operation d => Printer.isShorthand d
  | _ => False

/-- The next definition is not taken for the body of this one. -/
def Definition.LeavesAlone (d next : Definition) : Prop :=
  Grammar.OpenEnded d → ¬next.IsShorthand

/-- The tokens that a definition is printed as. -/
def Grammar.printedDefinition : Grammar Definition := fun kinds d =>
  Grammar.definition kinds d ∧ Spelled (Printer.definition d) kinds

theorem Grammar.definition_of_printed (kinds : List TokenKind) (d : Definition)
    (h : printedDefinition kinds d) : Grammar.definition kinds d := h.1

/-- Only a query in shorthand can be written with a brace in front. -/
theorem isShorthand_of_brace {kinds : List TokenKind} {d : Definition}
    (h : Grammar.definition (.punctuator .braceOpen :: kinds) d) : d.IsShorthand := by
  rcases h with hoperation | hother
  · obtain ⟨_, e, _, hoperation, ⟨rfl, rfl⟩, hkinds⟩ := hoperation
    rw [List.append_nil] at hkinds
    subst hkinds
    rcases hoperation with ⟨_, set, _, -, ⟨rfl, rfl⟩, -⟩ | hkeyword
    · rfl
    · obtain ⟨_, kind, _, ⟨token, rfl, hread⟩, -, heq⟩ := hkeyword
      cases heq
      cases hread
  · have hbegins : Grammar.Begins _ Parser.Ends (¬· = .punctuator .braceOpen) :=
      Grammar.begins_orElse (Parser.not_begins_fragment nofun)
        (Parser.not_begins_typeSystem rfl nofun)
    exact absurd rfl (hbegins _ d .eof hother (Parser.ends_eof d))

/-- A query in shorthand is written with a brace in front. -/
theorem brace_of_isShorthand {kinds : List TokenKind} {d : Definition}
    (h : Grammar.printedDefinition kinds d) (hshorthand : d.IsShorthand) :
    kinds.head? = some (.punctuator .braceOpen) := by
  obtain ⟨hread, hspelled⟩ := h
  cases d with
  | operation d =>
      have hshorthand : Printer.isShorthand d = true := hshorthand
      have htext : Printer.operationDefinition d =
          Printer.block (Printer.selections d.selectionSet.selections) := by
        rw [Printer.operationDefinition, if_pos hshorthand]
        cases d.selectionSet
        rw [Printer.selectionSet]
      rw [Printer.definition, htext, Printer.block] at hspelled
      split at hspelled
      · rw [hspelled.eq_nil] at hread
        exact absurd hread Parser.not_definition_nil
      · exact hspelled.head?_eq rfl
  | _ => exact hshorthand.elim

/-! ## What a document is printed as -/

/-- Definitions with an empty line between them. -/
theorem spelled_definitions {d : Definition} {others : List Definition}
    (hds : ∀ e ∈ d :: others, Readable Grammar.definition e) :
    Spells (Printer.definition d ++
      ((others.flatMap fun e => "\n\n".toList ++ Printer.definition e) ++ ['\n']))
      (Grammar.many Grammar.printedDefinition) (d :: others) := by
  have hprinted {e : Definition} (he : e ∈ d :: others) :
      Spells (Printer.definition e) Grammar.printedDefinition e :=
    (spells_definition (hds e he)).imp fun _ h => ⟨h, h.2⟩
  induction others generalizing d with
  | nil => exact (hprinted (.head _)).cons ⟨[], .nil, .ignored rfl .nil⟩ rfl
  | cons next others ih =>
      rw [List.flatMap_cons, List.append_assoc, List.append_assoc]
      refine (hprinted (.head _)).cons (.ignored rfl (.ignored rfl (ih ?_ ?_))) rfl
      · exact fun e he => hds e (.tail _ he)
      · exact fun he => hprinted (.tail _ he)

/-- A document is printed as the tokens of its definitions. -/
theorem spelled_document {document : Document} (hne : document.definitions ≠ [])
    (hds : ∀ d ∈ document.definitions, d.IsRead) :
    Spells (Printer.document document) (Grammar.many Grammar.printedDefinition)
      (document.definitions.map Definition.bare) := by
  obtain ⟨definitions, span, source⟩ := document
  obtain ⟨d, others, rfl⟩ := List.exists_cons_of_ne_nil hne
  have hreadable : ∀ e ∈ d.bare :: others.map Definition.bare, Readable Grammar.definition e := by
    rw [← List.map_cons, List.forall_mem_map]
    exact fun e he => (hds e he).readable
  rw [Printer.document, List.map_cons, List.map_cons, joinWith_eq, List.flatMap_map, List.append_assoc]
  simpa only [List.flatMap_map, Printer.definition_bare] using spelled_definitions hreadable

/-! ## Braces behind types without a body -/

theorem openEnded_bare {d : Definition} : Grammar.OpenEnded d.bare ↔ Grammar.OpenEnded d := by
  cases d with
  | objectType d | interfaceType d | enumType d | inputObjectType d | typeExtension d =>
      exact List.map_eq_nil_iff
  | _ => exact Iff.rfl

theorem isShorthand_bare {d : Definition} : d.bare.IsShorthand ↔ d.IsShorthand := by
  cases d with
  | operation d =>
      change Printer.isShorthand d.bare = true ↔ Printer.isShorthand d = true
      rw [Printer.isShorthand_bare]
  | _ => exact Iff.rfl

theorem isChain_bare {ds : List Definition} :
    (ds.map Definition.bare).IsChain Definition.LeavesAlone ↔ ds.IsChain Definition.LeavesAlone := by
  rw [List.isChain_map]
  exact List.IsChain.iff fun d next => imp_congr openEnded_bare (not_congr isShorthand_bare)

/-- No brace stands behind a type without a body if every definition leaves the next alone. -/
theorem apart_of_isChain {kinds : List TokenKind} {ds : List Definition}
    (h : Grammar.many Grammar.printedDefinition kinds ds)
    (hchain : ds.IsChain Definition.LeavesAlone) :
    Grammar.manyApart (fun d next => Grammar.OpenEnded d → next ≠ .punctuator .braceOpen)
      Grammar.printedDefinition kinds ds := by
  induction h with
  | nil => exact .nil
  | @cons first rest d others hfirst hrest ih =>
      refine .cons hfirst (ih hchain.tail) ?_
      rintro _ hhead hopen rfl
      -- The brace is the first token of the next definition, as none is written without tokens.
      cases hrest with
      | nil => cases hhead
      | @cons kinds rest next others hnext _ =>
          cases kinds with
          | nil => exact absurd hnext.1 Parser.not_definition_nil
          | cons kind kinds =>
              cases hhead
              exact (List.isChain_cons_cons.mp hchain).1 hopen (isShorthand_of_brace hnext.1)

/-- Every definition leaves the next alone if no brace stands behind a type without a body. -/
theorem isChain_of_apart {kinds : List TokenKind} {ds : List Definition}
    (h : Grammar.manyApart (fun d next => Grammar.OpenEnded d → next ≠ .punctuator .braceOpen)
      Grammar.printedDefinition kinds ds) : ds.IsChain Definition.LeavesAlone := by
  induction h with
  | nil => exact .nil
  | @cons first rest d others hfirst hrest hapart ih =>
      cases hrest with
      | nil => exact .singleton d
      | @cons kinds rest next others hnext _ _ =>
          refine .cons_cons (fun hopen hshorthand => ?_) ih
          have hhead := brace_of_isShorthand hnext hshorthand
          exact hapart _ (by rw [List.head?_append, hhead]; rfl) hopen rfl

/-! ## Documents -/

section Printed

variable {document : Document} {kinds : List TokenKind} {options : ParseOptions}

/-- The reader of a text that spells tokens stands in front of them, and none of them is an
error. -/
theorem starts_of_spelled {text : List Char} (options : ParseOptions)
    (hspelled : Spelled text kinds) :
    (Parser.State.ofText (.ofList text) options).Clean ∧
      (Parser.State.ofText (.ofList text) options).kinds = kinds ++ [.eof] := by
  have hall : (Parser.State.ofText (.ofList text) options).kinds = kinds ++ [.eof] :=
    Token.kinds_all hspelled
  refine ⟨fun fault => ?_, hall⟩
  rw [hall, List.mem_append, List.mem_singleton]
  exact not_or.mpr ⟨hspelled.clean fault, nofun⟩

/-- Where every definition leaves the next alone, the text is read as the definitions. -/
theorem exists_parse_of_isChain (name : String) (hne : document.definitions ≠ [])
    (hkinds : Grammar.many Grammar.printedDefinition kinds
      (document.definitions.map Definition.bare))
    (hspelled : Spelled (Printer.document document) kinds)
    (hchain : document.definitions.IsChain Definition.LeavesAlone) :
    ∃ read, Document.parse ⟨document.text, name⟩ options = .ok read ∧
      read.bare = document.bare := by
  obtain ⟨hclean, hall⟩ := starts_of_spelled options hspelled
  have hapart := apart_of_isChain hkinds (isChain_bare.mpr hchain)
  obtain ⟨read, s, hread, hbare⟩ := Parser.complete_document
    (hapart.mono Grammar.definition_of_printed) (by simpa using hne) hclean hall
  refine ⟨_, Document.parse_eq_ok_iff.mpr ⟨read, s, hread, rfl⟩, ?_⟩
  rw [Document.bare, hbare, Document.bare]

/-- Where the text is read as the definitions, every definition left the next alone. -/
theorem isChain_of_parse {name : String} {read : Document}
    (hkinds : Grammar.many Grammar.printedDefinition kinds
      (document.definitions.map Definition.bare))
    (hspelled : Spelled (Printer.document document) kinds)
    (hparse : Document.parse ⟨document.text, name⟩ options = .ok read)
    (hbare : read.bare = document.bare) :
    document.definitions.IsChain Definition.LeavesAlone := by
  obtain ⟨hclean, hall⟩ := starts_of_spelled options hspelled
  obtain ⟨parsed, s, hread, rfl⟩ := Document.parse_eq_ok_iff.mp hparse
  have hdefinitions := congrArg Document.definitions hbare
  have hapart := Parser.apart_of_reads_document Grammar.definition_of_printed hkinds hclean hall
    hread hdefinitions
  exact isChain_bare.mp (isChain_of_apart hapart)

end Printed

/-- The text of a document is read as its definitions if and only if none of them takes the
brace of a query in shorthand that comes next as its body. -/
theorem Document.reparses_iff {document : Document} (hne : document.definitions ≠ [])
    (hds : ∀ d ∈ document.definitions, d.IsRead) (name : String) (options : ParseOptions) :
    (∃ read, Document.parse ⟨document.text, name⟩ options = .ok read ∧
      read.bare = document.bare) ↔
      document.definitions.IsChain Definition.LeavesAlone := by
  obtain ⟨kinds, hkinds, hspelled⟩ := spelled_document hne hds
  constructor
  · rintro ⟨read, hparse, hbare⟩
    exact isChain_of_parse hkinds hspelled hparse hbare
  · intro hchain
    exact exists_parse_of_isChain name hne hkinds hspelled hchain

/-- A document with a single definition is printed as a text that is read as the same. -/
theorem Document.reparses_of_single {source : Source} {options : ParseOptions}
    {document : Document} {d : Definition} (hparse : Document.parse source options = .ok document)
    (hsingle : document.definitions = [d]) (name : String) (options' : ParseOptions) :
    ∃ read, Document.parse ⟨document.text, name⟩ options' = .ok read ∧
      read.bare = document.bare := by
  have hne : document.definitions ≠ [] := hsingle ▸ List.cons_ne_nil d []
  obtain ⟨kinds, hkinds, hspelled⟩ := spelled_document hne
    fun e he => ⟨source, options, document, hparse, he⟩
  refine exists_parse_of_isChain name hne hkinds hspelled ?_
  rw [hsingle]
  exact .singleton d

/-! ### A type without a body in front of a query -/

/-- A type that is written as its name alone. -/
def bareType : Definition := .objectType {
  description := none
  name := ⟨"A", none⟩
  interfaces := []
  directives := []
  fields := [] }

/-- A query that is written without its keyword when it is printed. -/
def shortQuery : Definition := .operation {
  operation := .query
  name := none
  variableDefinitions := []
  directives := []
  selectionSet := ⟨[.field {
    responseName := some ⟨"a", none⟩
    name := ⟨"B", none⟩
    arguments := []
    directives := []
    selectionSet := none }], none⟩ }

/-- The query is printed as what is read as the body of the type. -/
def swallowedDocument : Document where
  definitions := [bareType, shortQuery]

theorem parse_swallowedDocument :
    Document.parse ⟨"type A query { a: B }", ""⟩ { noLocation := true, noSource := true } =
      .ok swallowedDocument := by cbv

theorem reparses_iff_of_swallowed :
    swallowedDocument.definitions ≠ [] ∧ (∀ d ∈ swallowedDocument.definitions, d.IsRead) ∧
      ((∃ read, Document.parse ⟨swallowedDocument.text, ""⟩ {} = .ok read ∧
        read.bare = swallowedDocument.bare) ↔
        swallowedDocument.definitions.IsChain Definition.LeavesAlone) ∧
      ¬swallowedDocument.definitions.IsChain Definition.LeavesAlone := by
  have hne : swallowedDocument.definitions ≠ [] := List.cons_ne_nil _ _
  have hread : ∀ d ∈ swallowedDocument.definitions, d.IsRead :=
    fun d hd => ⟨_, _, _, parse_swallowedDocument, hd⟩
  refine ⟨hne, hread, Document.reparses_iff hne hread "" {}, fun hchain => ?_⟩
  exact (List.isChain_cons_cons.mp hchain).1 rfl rfl

/-- The query alone is printed as what is read as the query. -/
theorem reparses_shortQuery :
    Document.parse ⟨"query { a: B }", ""⟩ { noLocation := true, noSource := true } =
        .ok { definitions := [shortQuery] } ∧
      ∃ read, Document.parse ⟨Document.text { definitions := [shortQuery] }, ""⟩ {} = .ok read ∧
        read.bare = Document.bare { definitions := [shortQuery] } := by
  have hparse : Document.parse ⟨"query { a: B }", ""⟩ { noLocation := true, noSource := true } =
      .ok { definitions := [shortQuery] } := by cbv
  exact ⟨hparse, Document.reparses_of_single hparse rfl "" {}⟩

end GraphQL
