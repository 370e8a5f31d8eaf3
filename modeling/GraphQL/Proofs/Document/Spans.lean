import GraphQL.Proofs.Document.Acceptance
import GraphQL.Proofs.Document.Reading.Spanning
import GraphQL.Proofs.Document.RoundTrip
import GraphQL.Proofs.Token.Tiling

/-!
# The spans of a tree

Every node of what a text is read as stands where its tokens stand: its span goes from the start of
the first of them to the end of the last (`Node.spans_well_formed`).  The parts of a node are read
from successive runs of its tokens, and tokens stand behind one another, so the span of a part lies
within that of the node, and the parts stand behind one another in the order they are visited in.

The readers of a type system are given the place where the definition starts, since a description
has been read by then; what they are proved to do takes any tokens in front.  The object type in an
extension is a node of its own, which starts behind the word `extend`.
-/

namespace GraphQL

namespace Parser

variable {before : List Token} {start : Span} {description : Option String}

/-! ## Parts of definitions -/

theorem takes_description : Takes Parser.description fun tokens _ => Arranged tokens [] :=
  .look looks_peek fun token => by
    cases token.kind with
    | string text | blockString text => exact takes_advance.part fun _ _ _ => .pure .nil
    | _ => exact .pure .nil

theorem takes_braced {α : Type} {p : Parser α} {toNode : α → Node}
    (hp : Takes p fun tokens a => Arranged tokens [toNode a]) :
    Takes (braced p) fun tokens as => Arranged tokens (as.map toNode) :=
  .afterMark (fun _ => (takes_nonemptyRow hp).behind) (.pure .nil)

theorem takes_operationTypeDefinition : Takes operationTypeDefinition fun tokens d =>
    Covers tokens (.operationTypeDefinition d) := by
  refine .follows (.peek fun _ => takes_operationKind.part fun _ _ hkind => (takes_expect _).part
    fun _ colon _ => takes_namedType.part fun _ _ ht => ?_)
    follows_operationTypeDefinition fun _ _ h => h
  exact takes_node (fun _ => (hkind.inFront _).append ht.arranged) (by simp [ht.spans.ne_nil])
    (fun _ => rfl) fun _ => Node.parts_operationTypeDefinition _

theorem takes_inputValueDefinition : Takes inputValueDefinition fun tokens d =>
    Covers tokens (.inputValueDefinition d) := by
  refine .follows (.peek fun _ => takes_description.part fun _ _ hd => takes_name.part
    fun _ _ hname => (takes_expect _).part fun _ colon _ => (takes_typeExpr _).part
    fun _ _ ht => takes_defaultValue.part fun _ _ hvalue => takes_directives.part
    fun _ _ hds => ?_) follows_inputValueDefinition fun _ _ h => h
  exact takes_node (fun _ => (((((hd.append hname.arranged).inFront _).append ht.arranged).append
    hvalue).append hds)) (by simp [ht.spans.ne_nil]) (fun _ => rfl)
      fun _ => Node.parts_inputValueDefinition _

theorem takes_argumentsDefinition : Takes argumentsDefinition fun tokens ds =>
    Arranged tokens (ds.map Node.inputValueDefinition) :=
  takes_parenthesized takes_inputValueDefinition.arranged

theorem takes_fieldDefinition : Takes fieldDefinition fun tokens d =>
    Covers tokens (.fieldDefinition d) := by
  refine .follows (.peek fun _ => takes_description.part fun _ _ hd => takes_name.part
    fun _ _ hname => takes_argumentsDefinition.part fun _ _ has => (takes_expect _).part
    fun _ colon _ => (takes_typeExpr _).part fun _ _ ht => takes_directives.part
    fun _ _ hds => ?_) follows_fieldDefinition fun _ _ h => h
  exact takes_node (fun _ => (((((hd.append hname.arranged).append has).inFront _).append
    ht.arranged).append hds)) (by simp [ht.spans.ne_nil]) (fun _ => rfl)
      fun _ => Node.parts_fieldDefinition _

/-- A name of which some are an error. -/
theorem takes_nameBut (excluded : String → Prop) [DecidablePred excluded]
    {fault : String → SyntaxFault} {span : Span} :
    Takes (name >>= fun n => if excluded n.text then fail (fault n.text) span else pure n)
      fun tokens n => Covers tokens (.name n) :=
  takes_name.bind fun _ n h => by
    split
    · exact .refuse not_reads_fail
    · exact .pure h

theorem takes_enumValueDefinition : Takes enumValueDefinition fun tokens d =>
    Covers tokens (.enumValueDefinition d) := by
  have hname : Takes enumValueName fun tokens n => Covers tokens (.name n) :=
    .look looks_peek fun _ =>
      takes_nameBut fun text => text = "true" ∨ text = "false" ∨ text = "null"
  refine .follows (.peek fun _ => takes_description.part fun _ _ hd => hname.part
    fun _ _ hname => takes_directives.part fun _ _ hds => ?_)
    follows_enumValueDefinition fun _ _ h => h
  exact takes_node (fun _ => (hd.append hname.arranged).append hds) (by simp [hname.spans.ne_nil])
    (fun _ => rfl) fun _ => Node.parts_enumValueDefinition _

theorem takes_implementsInterfaces : Takes implementsInterfaces fun tokens ts =>
    Arranged tokens (ts.map fun t => .type (.named t)) :=
  .look (looks_ask fun kind => decide (kind = .name "implements")) fun b => by
    have htypes : Takes (separated .ampersand namedType) fun tokens ts =>
        Arranged tokens (ts.map fun t => .type (.named t)) :=
      takes_separated takes_namedType.arranged
    cases b with
    | true => exact takes_advance.part fun _ _ _ => htypes.behind
    | false => exact .pure .nil

/-! ## Definitions -/

theorem takes_schemaDefinition : TakesFrom before (schemaDefinition start) fun tokens d =>
    Starts start tokens → Places tokens (.definition (.schema d)) :=
  (takes_expectKeyword _).part fun _ word hword => takes_directives.part fun _ _ hds =>
    (takes_expect _).part fun _ brace _ =>
      (takes_nonemptyRow takes_operationTypeDefinition.arranged).part fun _ _ hts => takes_node
        (fun _ => ((hds.behind _).inFront _).append hts) (by simp [hword]) (fun _ => rfl)
          fun _ => Node.parts_schema _

theorem takes_scalarTypeDefinition : TakesFrom before (scalarTypeDefinition start description)
    fun tokens d => Starts start tokens → Places tokens (.definition (.scalarType d)) :=
  (takes_expectKeyword _).part fun _ _ _ => takes_name.part fun _ _ hname =>
    takes_directives.part fun _ _ hds => takes_node
      (fun _ => (hname.arranged.behind _).append hds) (by simp [hname.spans.ne_nil])
        (fun _ => rfl) fun _ => Node.parts_scalarType _

/-- The directives of a type and its body. -/
theorem takes_body {α γ : Type} {p : Parser α} {toItem : α → Node} {toNode : γ → Node}
    {make : List Directive → List α → Option Span → γ} {nodes : List Node}
    (hp : Takes p fun tokens a => Covers tokens (toItem a)) (hbefore : Arranged before nodes)
    (hne : before ≠ []) (hspan : ∀ ds items span, (toNode (make ds items span)).span = span)
    (hparts : ∀ ds items span, (toNode (make ds items span)).parts =
      nodes ++ ds.map .directive ++ items.map toItem) :
    TakesFrom before (do
        let ds ← directives true maxDepth
        let items ← braced p
        return make ds items (← spanFrom start))
      fun tokens d => Starts start tokens → Places tokens (toNode d) :=
  takes_directives.part fun _ _ hds => (takes_braced hp.arranged).part
    fun _ _ hitems => takes_node (fun _ => (hbefore.append hds).append hitems) (by simp [hne])
      (fun span => hspan _ _ span) fun span => hparts _ _ span

theorem takes_objectTypeDefinition : TakesFrom before (objectTypeDefinition start description)
    fun tokens d => Starts start tokens → Places tokens (.definition (.objectType d)) :=
  (takes_expectKeyword _).part fun _ _ _ => takes_name.part fun _ _ hname =>
    takes_implementsInterfaces.part fun _ _ hts => takes_body takes_fieldDefinition
      ((hname.arranged.behind _).append hts) (by simp [hname.spans.ne_nil]) (fun _ _ _ => rfl)
        fun _ _ _ => Node.parts_objectType _

theorem takes_interfaceTypeDefinition :
    TakesFrom before (interfaceTypeDefinition start description) fun tokens d =>
      Starts start tokens → Places tokens (.definition (.interfaceType d)) :=
  (takes_expectKeyword _).part fun _ _ _ => takes_name.part fun _ _ hname =>
    takes_body takes_fieldDefinition (hname.arranged.behind _) (by simp [hname.spans.ne_nil])
      (fun _ _ _ => rfl) fun _ _ _ => Node.parts_interfaceType _

theorem takes_enumTypeDefinition : TakesFrom before (enumTypeDefinition start description)
    fun tokens d => Starts start tokens → Places tokens (.definition (.enumType d)) :=
  (takes_expectKeyword _).part fun _ _ _ => takes_name.part fun _ _ hname =>
    takes_body takes_enumValueDefinition (hname.arranged.behind _) (by simp [hname.spans.ne_nil])
      (fun _ _ _ => rfl) fun _ _ _ => Node.parts_enumType _

theorem takes_inputObjectTypeDefinition :
    TakesFrom before (inputObjectTypeDefinition start description) fun tokens d =>
      Starts start tokens → Places tokens (.definition (.inputObjectType d)) :=
  (takes_expectKeyword _).part fun _ _ _ => takes_name.part fun _ _ hname =>
    takes_body takes_inputValueDefinition (hname.arranged.behind _) (by simp [hname.spans.ne_nil])
      (fun _ _ _ => rfl) fun _ _ _ => Node.parts_inputObjectType _

theorem takes_unionTypeDefinition : TakesFrom before (unionTypeDefinition start description)
    fun tokens d => Starts start tokens → Places tokens (.definition (.unionType d)) := by
  have hmembers : Takes (afterMark .equals (separated .pipe namedType) (return []))
      fun tokens ts => Arranged tokens (ts.map fun t => .type (.named t)) :=
    .afterMark (fun _ => (takes_separated takes_namedType.arranged).behind) (.pure .nil)
  exact (takes_expectKeyword _).part fun _ _ _ => takes_name.part fun _ _ hname =>
    takes_directives.part fun _ _ hds => hmembers.part fun _ _ hts =>
      takes_node (fun _ => ((hname.arranged.behind _).append hds).append hts)
        (by simp [hname.spans.ne_nil]) (fun _ => rfl) fun _ => Node.parts_unionType _

theorem takes_directiveDefinition : TakesFrom before (directiveDefinition start description)
    fun tokens d => Starts start tokens → Places tokens (.definition (.directive d)) := by
  have hlocation : Takes directiveLocation fun tokens n => Covers tokens (.name n) :=
    .look looks_peek fun _ => takes_nameBut fun text => (DirectiveLocation.ofText? text).isNone
  exact (takes_expectKeyword _).part fun _ _ _ => (takes_expect _).part fun _ _ _ =>
    takes_name.part fun _ _ hname => takes_argumentsDefinition.part fun _ _ has =>
      (takes_expectKeyword _).part fun _ _ _ => (takes_separated hlocation.arranged).part
        fun _ _ hls => takes_node
          (fun _ => (((hname.arranged.behind _).append has).inFront _).append hls)
            (by simp [hname.spans.ne_nil]) (fun _ => rfl) fun _ => Node.parts_directiveDefinition _

/-- An object type with new fields starts behind the word in front of it. -/
theorem takes_typeExtensionDefinition : TakesFrom before (typeExtensionDefinition start)
    fun tokens d => Starts start tokens → Places tokens (.definition (.typeExtension d)) := by
  -- The object type alone is read as a definition without a description.
  have hread : ∀ kinds (d : ObjectTypeDefinition), Grammar.objectTypeDefinition none kinds d.bare →
      (Node.definition (.objectType d)).IsReadFrom kinds := fun kinds d h =>
    .inr (.inr ⟨[], none, kinds, .inr ⟨rfl, rfl⟩, ⟨"type", kinds, d.bare, [], h, ⟨rfl, rfl⟩,
      (List.append_nil _).symm⟩, rfl⟩)
  have hdefinition : Takes (peek >>= fun token => objectTypeDefinition token.span none)
      fun tokens d => Covers tokens (.definition (.objectType d)) :=
    .follows (.peek fun _ => takes_objectTypeDefinition)
      (.look looks_peek fun _ => follows_objectTypeDefinition) hread
  have heq : typeExtensionDefinition start = (do
      let _ ← expectKeyword "extend"
      let definition ← peek >>= fun token => objectTypeDefinition token.span none
      return { definition, span := ← spanFrom start }) := by
    simp only [typeExtensionDefinition, bind_assoc]
  rw [heq]
  exact (takes_expectKeyword _).part fun _ _ _ => hdefinition.part fun _ _ hd =>
    takes_node (fun _ => hd.arranged.behind _) (by simp [hd.spans.ne_nil]) (fun _ => rfl)
      fun _ => Node.parts_typeExtension _

theorem takes_typeSystemDefinition : Takes typeSystemDefinition fun tokens d =>
    Places tokens (.definition d) := by
  refine .peek fun start => takes_description.part fun _ description _ => .look looks_peek
    fun token => ?_
  dsimp only
  split
  · exact takes_schemaDefinition.bind fun _ _ h => .pure h
  · exact takes_typeExtensionDefinition.bind fun _ _ h => .pure h
  · exact takes_scalarTypeDefinition.bind fun _ _ h => .pure h
  · exact takes_objectTypeDefinition.bind fun _ _ h => .pure h
  · exact takes_interfaceTypeDefinition.bind fun _ _ h => .pure h
  · exact takes_unionTypeDefinition.bind fun _ _ h => .pure h
  · exact takes_enumTypeDefinition.bind fun _ _ h => .pure h
  · exact takes_inputObjectTypeDefinition.bind fun _ _ h => .pure h
  · exact takes_directiveDefinition.bind fun _ _ h => .pure h
  · exact .refuse not_reads_unexpected
  · exact .refuse not_reads_unexpected

/-! ## Documents -/

theorem takes_definition : Takes definition fun tokens d => Covers tokens (.definition d) := by
  refine .follows (.look looks_peek fun token => ?_) follows_definition fun _ _ h => h
  have hoperation := takes_operationDefinition
  have hfragment := takes_fragmentDefinition
  split
  · exact hoperation.bind fun _ _ h => .pure h
  · exact takes_typeSystemDefinition
  · exact takes_typeSystemDefinition
  · split
    · exact hoperation.bind fun _ _ h => .pure h
    · split
      · exact hfragment.bind fun _ _ h => .pure h
      · split
        · exact takes_typeSystemDefinition
        · exact .refuse not_reads_unexpected
  · exact .refuse not_reads_unexpected

theorem takes_definitions (fuel : ℕ) : Takes (definitions fuel) fun tokens ds =>
    Arranged tokens (ds.map Node.definition) := by
  induction fuel with
  | zero => exact .refuse not_reads_unexpected
  | succ fuel ih =>
      rw [definitions_succ]
      refine .look looks_peek fun token => ?_
      split
      · exact .pure .nil
      · exact takes_definition.part fun _ _ h => ih.part fun _ _ hs => .pure (h.arranged.append hs)

theorem takes_document : Takes document fun tokens d => Covers tokens (.document d) := by
  have hplaces : Takes document fun tokens d => Places tokens (.document d) :=
    .peek fun _ => takes_definition.part fun _ _ h => .look looks_limit fun n =>
      (takes_definitions n).part fun _ _ hs => takes_node (fun _ => h.arranged.append hs)
        (by simp [h.spans.ne_nil]) (fun _ => rfl) fun _ => Node.parts_document _
  refine (hplaces.kinds sound_document).mono ?_
  rintro _ d ⟨⟨hspans, harranged⟩, taken, rfl, hread⟩
  exact .intro hspans hread harranged

end Parser

/-! ## Runs of tokens in order -/

/-- The tokens stand behind one another. -/
structure InOrder (tokens : List Token) : Prop where
  start_le_stop : ∀ token ∈ tokens, token.span.start.byte ≤ token.span.stop.byte
  pairwise : tokens.Pairwise fun token next => token.span.stop.byte ≤ next.span.start.byte

theorem inOrder_all (text : String) : InOrder (Token.all text) := by
  obtain ⟨-, -, ⟨others, hall, hothers⟩, hpairwise⟩ := Token.tiles_all text
  refine ⟨fun token htoken => ?_, hpairwise⟩
  rw [hall, List.mem_append, List.mem_singleton] at htoken
  rcases htoken with htoken | rfl
  · exact (hothers token htoken).2.le
  · exact le_rfl

namespace InOrder

variable {tokens run : List Token} {token other : Token}

theorem of_run (h : InOrder tokens) (hrun : run <:+: tokens) : InOrder run where
  start_le_stop token htoken := h.start_le_stop token (hrun.subset htoken)
  pairwise := h.pairwise.sublist hrun.sublist

theorem start_le_of_head (h : InOrder tokens) (hfirst : token ∈ tokens.head?)
    (hother : other ∈ tokens) : token.span.start.byte ≤ other.span.start.byte := by
  obtain ⟨rest, rfl⟩ : ∃ rest, tokens = token :: rest := ⟨_, List.eq_cons_of_mem_head? hfirst⟩
  rcases List.mem_cons.mp hother with rfl | hother
  · exact le_rfl
  · calc token.span.start.byte
      _ ≤ token.span.stop.byte := h.start_le_stop token (.head _)
      _ ≤ other.span.start.byte := List.rel_of_pairwise_cons h.pairwise hother

theorem le_stop_of_last (h : InOrder tokens) (hlast : token ∈ tokens.getLast?)
    (hother : other ∈ tokens) : other.span.stop.byte ≤ token.span.stop.byte := by
  obtain ⟨rest, rfl⟩ := List.getLast?_eq_some_iff.mp hlast
  rcases List.mem_append.mp hother with hother | hother
  · calc other.span.stop.byte
      _ ≤ token.span.start.byte :=
        (List.pairwise_append.mp h.pairwise).2.2 other hother token (.head _)
      _ ≤ token.span.stop.byte := h.start_le_stop token (by simp)
  · rw [List.mem_singleton.mp hother]

end InOrder

/-! ## Nodes within one another and behind one another -/

/-- The span of the inner node lies within the span of the outer one. -/
def Node.Encloses (outer inner : Node) : Prop :=
  ∃ around ∈ outer.span, ∃ within ∈ inner.span,
    around.start.byte ≤ within.start.byte ∧ within.stop.byte ≤ around.stop.byte

/-- The span of the next node starts where that of the node ends, or behind. -/
def Node.EndsBefore (node next : Node) : Prop :=
  ∃ span ∈ node.span, ∃ behind ∈ next.span, span.stop.byte ≤ behind.start.byte

section

variable {tokens run : List Token} {root node : Node} {nodes : List Node}

theorem Node.Spans.encloses {inner : Node} (h : node.Spans tokens) (hinner : inner.Spans run)
    (hrun : run <:+: tokens) (hordered : InOrder tokens) : node.Encloses inner := by
  obtain ⟨first, hfirst, last, hlast, hspan⟩ := h
  obtain ⟨first', hfirst', last', hlast', hspan'⟩ := hinner
  refine ⟨_, hspan, _, hspan', ?_, ?_⟩
  · exact hordered.start_le_of_head hfirst (hrun.subset (List.mem_of_mem_head? hfirst'))
  · exact hordered.le_stop_of_last hlast (hrun.subset (List.mem_of_mem_getLast? hlast'))

namespace Arranged

theorem exists_covers (h : Arranged tokens nodes) :
    ∀ node ∈ nodes, ∃ run, run <:+: tokens ∧ Covers run node := by
  induction nodes generalizing tokens with
  | nil => exact nofun
  | cons first others ih =>
      cases h with
      | @cons before taken rest _ _ hfirst hothers =>
          refine List.forall_mem_cons.mpr ⟨⟨taken, ⟨before, rest, List.append_assoc ..⟩, hfirst⟩,
            fun node hnode => ?_⟩
          obtain ⟨run, hrun, hcovers⟩ := ih hothers node hnode
          exact ⟨run, hrun.trans ((List.suffix_append _ _).trans (List.suffix_append _ _)).isInfix,
            hcovers⟩

/-- What is read from successive runs stands behind one another. -/
theorem pairwise (h : Arranged tokens nodes) (hordered : InOrder tokens) :
    nodes.Pairwise Node.EndsBefore := by
  induction nodes generalizing tokens with
  | nil => exact .nil
  | cons node nodes ih =>
      cases h with
      | @cons before taken rest _ _ hnode hnodes =>
          have hbehind : InOrder (taken ++ rest) :=
            hordered.of_run (List.suffix_append _ _).isInfix
          refine .cons (fun next hnext => ?_)
            (ih hnodes (hbehind.of_run (List.suffix_append _ _).isInfix))
          obtain ⟨run, hrun, hcovers⟩ := hnodes.exists_covers next hnext
          obtain ⟨_, _, last, hlast, hspan⟩ := hnode.spans
          obtain ⟨first, hfirst, _, _, hspan'⟩ := hcovers.spans
          refine ⟨_, hspan, _, hspan', ?_⟩
          exact (List.pairwise_append.mp hbehind.pairwise).2.2 last (List.mem_of_mem_getLast? hlast)
            first (hrun.subset (List.mem_of_mem_head? hfirst))

end Arranged

/-- Every node below one is read from some of its tokens. -/
theorem Covers.exists_of_below (h : Covers tokens root)
    (hnode : Relation.ReflTransGen (fun parent child => child ∈ parent.parts) root node) :
    ∃ run, run <:+: tokens ∧ Covers run node := by
  induction hnode with
  | refl => exact ⟨tokens, List.infix_rfl, h⟩
  | tail _ hchild ih =>
      obtain ⟨run, hrun, hcovers⟩ := ih
      obtain ⟨part, hpart, hcovers⟩ := hcovers.parts.exists_covers _ hchild
      exact ⟨part, hpart.trans hrun, hcovers⟩

end

/-! ## Trees of texts -/

/-- The node is what the text is read as, with the places of its parts. -/
inductive Node.IsRead : (text : String) → Node → Prop
  | document {source : Source} {options : ParseOptions} {d : Document} :
      options.noLocation = false → Document.parse source options = .ok d →
      IsRead source.body (.document d)
  | value {text : String} {options : ParseOptions} {v : Value} :
      options.noLocation = false → Value.parse text options = .ok v → IsRead text (.value v)
  | constant {text : String} {options : ParseOptions} {v : Value} :
      options.noLocation = false → Value.parseConst text options = .ok v → IsRead text (.value v)
  | type {text : String} {options : ParseOptions} {t : TypeExpr} :
      options.noLocation = false → TypeExpr.parse text options = .ok t → IsRead text (.type t)

namespace Parser

variable {α : Type} {p : Parser α} {toNode : α → Node} {text : String} {options : ParseOptions}
  {a : α} {s : State}

theorem exists_covers (hp : Takes p fun tokens a => Covers tokens (toNode a))
    (hlocated : options.noLocation = false) (hreads : Reads p (.ofText text options) a s) :
    ∃ tokens, tokens <:+: Token.all text ∧ Covers tokens (toNode a) := by
  obtain ⟨taken, hpasses, hcovers⟩ := hp ⟨hlocated, nofun⟩ hreads
  exact ⟨taken, (show Token.all text = taken ++ s.tokens from hpasses.tokens) ▸
    (List.prefix_append taken s.tokens).isInfix, hcovers⟩

theorem exists_covers_toEnd (hp : Takes p fun tokens a => Covers tokens (toNode a))
    (hlocated : options.noLocation = false)
    (hrun : runTokens (toEnd p) (Token.all text) options = .ok a) :
    ∃ tokens, tokens <:+: Token.all text ∧ Covers tokens (toNode a) := by
  obtain ⟨s, hreads⟩ := runTokens_eq_ok_iff.mp hrun
  obtain ⟨b, t, hfirst, hend⟩ := reads_bind.mp hreads
  obtain ⟨u, v, -, hpure⟩ := reads_bind.mp hend
  obtain ⟨rfl, -⟩ := reads_pure.mp hpure
  exact exists_covers hp hlocated hfirst

end Parser

theorem Node.IsRead.exists_covers {text : String} {root : Node} (h : root.IsRead text) :
    ∃ tokens, tokens <:+: Token.all text ∧ Covers tokens root := by
  cases h with
  | @document source options d hlocated hparse =>
      obtain ⟨read, s, hreads, rfl⟩ := Document.parse_eq_ok_iff.mp hparse
      obtain ⟨tokens, htokens, hcovers⟩ :=
        Parser.exists_covers Parser.takes_document hlocated hreads
      refine ⟨tokens, htokens, .intro hcovers.spans hcovers.isReadFrom ?_⟩
      rw [Node.parts_document]
      exact Node.parts_document read ▸ hcovers.parts
  | value hlocated hparse =>
      exact Parser.exists_covers_toEnd (Parser.takes_value _ _) hlocated hparse
  | constant hlocated hparse =>
      exact Parser.exists_covers_toEnd (Parser.takes_value _ _) hlocated hparse
  | type hlocated hparse =>
      exact Parser.exists_covers_toEnd (Parser.takes_typeExpr _) hlocated hparse

/-- Every node of what a text is read as spans the tokens that it is read from, its parts lie within
it, and they stand behind one another in their order. -/
theorem Node.spans_well_formed {text : String} {root node : Node} (hroot : root.IsRead text)
    (hnode : Relation.ReflTransGen (fun parent child => child ∈ parent.parts) root node) :
    (∃ tokens, tokens <:+: Token.all text ∧ node.IsReadFrom (tokens.map (·.kind)) ∧
      node.Spans tokens) ∧
    (∀ child ∈ node.parts, node.Encloses child) ∧
    node.parts.Pairwise Node.EndsBefore := by
  obtain ⟨all, hall, hcovers⟩ := hroot.exists_covers
  obtain ⟨tokens, htokens, hcovers⟩ := hcovers.exists_of_below hnode
  have hordered : InOrder tokens := (inOrder_all text).of_run (htokens.trans hall)
  refine ⟨⟨tokens, htokens.trans hall, hcovers.isReadFrom, hcovers.spans⟩, fun child hchild => ?_,
    hcovers.parts.pairwise hordered⟩
  obtain ⟨run, hrun, hinner⟩ := hcovers.parts.exists_covers child hchild
  exact hcovers.spans.encloses hinner.spans hrun hordered

/-- A type with a description in front, as it is read. -/
def describedType : ObjectTypeDefinition where
  description := some "d"
  name := { text := "T", span := some ⟨⟨0, 9, 9, 9⟩, ⟨0, 10, 10, 10⟩⟩ }
  interfaces := []
  directives := [{
    name := { text := "a", span := some ⟨⟨0, 12, 12, 12⟩, ⟨0, 13, 13, 13⟩⟩ }
    arguments := []
    span := some ⟨⟨0, 11, 11, 11⟩, ⟨0, 13, 13, 13⟩⟩ }]
  fields := []
  span := some ⟨.origin, ⟨0, 13, 13, 13⟩⟩

def describedDocument : Document where
  definitions := [.objectType describedType]
  span := describedType.span

theorem Node.spans_well_formed_of_described :
    (Node.document describedDocument).IsRead "\"d\" type T @a" ∧
      Node.definition (.objectType describedType) ∈ (Node.document describedDocument).parts ∧
      (∃ tokens, tokens <:+: Token.all "\"d\" type T @a" ∧
        (Node.definition (.objectType describedType)).IsReadFrom (tokens.map (·.kind)) ∧
        (Node.definition (.objectType describedType)).Spans tokens) ∧
      (∀ child ∈ (Node.definition (.objectType describedType)).parts,
        (Node.definition (.objectType describedType)).Encloses child) ∧
      (Node.definition (.objectType describedType)).parts.Pairwise Node.EndsBefore := by
  have hparse : Document.parse ⟨"\"d\" type T @a", ""⟩ { noSource := true } =
      .ok describedDocument := by cbv
  have hroot : (Node.document describedDocument).IsRead "\"d\" type T @a" := .document rfl hparse
  have hchild : Node.definition (.objectType describedType) ∈
      (Node.document describedDocument).parts := by
    rw [Node.parts_document]
    exact .head _
  exact ⟨hroot, hchild, Node.spans_well_formed hroot (.single hchild)⟩

end GraphQL
