import GraphQL.Proofs.Document.Reading.TypeSystem
import GraphQL.Proofs.Traversal.Parts

/-!
# The tokens of a node

Every node is read from a run of tokens.  `Covers tokens node` says so: the tokens are read as the
node in the grammar of nodes of its kind, its span goes from the start of the first to the end of
the last, and its parts are read from successive runs of them (`Arranged`), possibly with tokens in
between that belong to no part.

A reader makes the span of a node from a token that it has seen before it reads the node, and from
the end of the token read last.  `TakesFrom before p Q` is about a reader in the middle of a node,
of which the tokens `before` are read: `Q` holds of these with those that `p` takes, and of what it
makes of them.  Where a node starts can be told in the end (`Starts`): the token that was seen is
the first that was taken.
-/

namespace GraphQL

/-! ## What a node is read from -/

/-- The tokens of these kinds are read as the node, but for the places of its parts. -/
def Node.IsReadFrom (kinds : List TokenKind) : Node → Prop
  | .name n => Grammar.name kinds n.bare
  | .document d => Grammar.many Grammar.definition kinds (d.definitions.map Definition.bare)
  | .definition d => Grammar.definition kinds d.bare
  | .variableDefinition d => Grammar.variableDefinition kinds d.bare
  | .selectionSet s => ∃ depth, Grammar.selectionSet depth kinds s.bare
  | .selection s => ∃ depth, Grammar.selection depth (Grammar.selectionSet depth) kinds s.bare
  | .argument a => ∃ constant depth, Grammar.argument constant depth kinds a.bare
  | .value v => ∃ constant depth, Grammar.value constant depth kinds v.bare
  | .objectField f =>
    ∃ constant depth, Grammar.objectField (Grammar.value constant depth) kinds f.bare
  | .directive d => ∃ constant depth, Grammar.directives constant depth kinds [d.bare]
  | .type t => ∃ depth, Grammar.typeExpr depth kinds t.bare
  | .operationTypeDefinition d => Grammar.operationTypeDefinition kinds d.bare
  | .fieldDefinition d => Grammar.fieldDefinition kinds d.bare
  | .inputValueDefinition d => Grammar.inputValueDefinition kinds d.bare
  | .enumValueDefinition d => Grammar.enumValueDefinition kinds d.bare

/-- The span of the node goes from the start of the first token to the end of the last. -/
def Node.Spans (node : Node) (tokens : List Token) : Prop :=
  ∃ first ∈ tokens.head?, ∃ last ∈ tokens.getLast?,
    node.span = some ⟨first.span.start, last.span.stop⟩

mutual

/-- The node is read from the tokens, and spans them. -/
inductive Covers : List Token → Node → Prop
  | intro {tokens node} : node.Spans tokens → node.IsReadFrom (tokens.map (·.kind)) →
      Arranged tokens node.parts → Covers tokens node

/-- The nodes are read from successive runs of the tokens. -/
inductive Arranged : List Token → List Node → Prop
  | nil {tokens} : Arranged tokens []
  | cons {before first rest node nodes} : Covers first node → Arranged rest nodes →
      Arranged (before ++ (first ++ rest)) (node :: nodes)

end

/-- The node spans the tokens, and its parts are read from them. -/
def Places (tokens : List Token) (node : Node) : Prop :=
  node.Spans tokens ∧ Arranged tokens node.parts

section

variable {tokens more : List Token} {node : Node} {nodes others : List Node}

theorem Covers.spans (h : Covers tokens node) : node.Spans tokens := by
  cases h
  assumption

theorem Covers.parts (h : Covers tokens node) : Arranged tokens node.parts := by
  cases h
  assumption

theorem Covers.places (h : Covers tokens node) : Places tokens node := ⟨h.spans, h.parts⟩

theorem Covers.isReadFrom (h : Covers tokens node) :
    node.IsReadFrom (tokens.map (·.kind)) := by
  cases h
  assumption

theorem Node.Spans.ne_nil (h : node.Spans tokens) : tokens ≠ [] := by
  rintro rfl
  obtain ⟨_, hfirst, -⟩ := h
  cases hfirst

namespace Arranged

theorem behind (before : List Token) (h : Arranged tokens nodes) :
    Arranged (before ++ tokens) nodes := by
  cases h with
  | nil => exact .nil
  | cons hnode hrest =>
      rw [← List.append_assoc]
      exact .cons hnode hrest

theorem append (h : Arranged tokens nodes) (hmore : Arranged more others) :
    Arranged (tokens ++ more) (nodes ++ others) := by
  induction nodes generalizing tokens with
  | nil => exact hmore.behind tokens
  | cons node nodes ih =>
      cases h with
      | cons hnode hrest =>
          rw [List.append_assoc, List.append_assoc]
          exact .cons hnode (ih hrest)

theorem inFront (h : Arranged tokens nodes) (more : List Token) :
    Arranged (tokens ++ more) nodes := by
  have hall := h.append (.nil : Arranged more [])
  rwa [List.append_nil] at hall

theorem ne_nil (h : Arranged tokens nodes) (hne : nodes ≠ []) : tokens ≠ [] := by
  cases h with
  | nil => exact absurd rfl hne
  | cons hnode hrest => simp [hnode.spans.ne_nil]

end Arranged

/-- A node alone. -/
theorem Covers.arranged (h : Covers tokens node) : Arranged tokens [node] := by
  have hall : Arranged ([] ++ (tokens ++ [])) [node] := .cons h .nil
  rwa [List.nil_append, List.append_nil] at hall

end

namespace Parser

variable {α β : Type} {s t s' : State} {taken more before : List Token} {token : Token}

/-! ## Passing tokens -/

/-- The reader has passed the tokens. -/
structure Passes (s : State) (taken : List Token) (s' : State) : Prop where
  tokens : s.tokens = taken ++ s'.tokens
  options : s'.options = s.options
  lastEnd : s'.lastEnd = (taken.getLast?.map (·.span.stop)).or s.lastEnd

theorem Passes.refl (s : State) : Passes s [] s := ⟨rfl, rfl, rfl⟩

theorem Passes.trans (h : Passes s taken t) (h' : Passes t more s') :
    Passes s (taken ++ more) s' where
  tokens := by rw [h.tokens, h'.tokens, List.append_assoc]
  options := h'.options.trans h.options
  lastEnd := by
    rw [h'.lastEnd, h.lastEnd, List.getLast?_append]
    cases more.getLast? <;> rfl

theorem passes_of_reads_advance (h : Reads advance s token s') : Passes s [token] s' := by
  obtain ⟨hpeek, rfl⟩ := reads_advance.mp h
  refine ⟨?_, rfl, rfl⟩
  exact List.eq_cons_of_mem_head? (reads_peek.mp hpeek).2.1

theorem Passes.kinds (h : Passes s taken s') : s.kinds = taken.map (·.kind) ++ s'.kinds := by
  rw [State.kinds, h.tokens, List.map_append]
  rfl

/-- The reader notes places, and has passed the tokens. -/
structure State.Behind (s : State) (before : List Token) : Prop where
  located : s.options.noLocation = false
  lastEnd : ∀ last ∈ before.getLast?, s.lastEnd = some last.span.stop

theorem State.Behind.passes (h : s.Behind before) (hpasses : Passes s taken s') :
    s'.Behind (before ++ taken) where
  located := hpasses.options ▸ h.located
  lastEnd last hlast := by
    rw [List.getLast?_append] at hlast
    rw [hpasses.lastEnd]
    cases htaken : taken.getLast? with
    | none =>
        rw [htaken] at hlast
        exact h.lastEnd last hlast
    | some other =>
        rw [htaken] at hlast
        cases hlast
        rfl

/-! ## Putting readers together -/

/-- Where the tokens `before` are read, `Q` holds of these with those that the reader takes, and
of what it makes of them. -/
def TakesFrom (before : List Token) (p : Parser α) (Q : List Token → α → Prop) : Prop :=
  ∀ ⦃s a s'⦄, s.Behind before → Reads p s a s' →
    ∃ taken, Passes s taken s' ∧ Q (before ++ taken) a

/-- `Q` holds of the tokens that the reader takes, and of what it makes of them. -/
abbrev Takes (p : Parser α) (Q : List Token → α → Prop) : Prop := TakesFrom [] p Q

/-- If there are any tokens, the first stands at the start of the span. -/
def Starts (start : Span) (tokens : List Token) : Prop := ∀ first ∈ tokens.head?, first.span = start

theorem Starts.of_append {start : Span} (h : Starts start (taken ++ more)) :
    Starts start taken := by
  intro first hfirst
  refine h first ?_
  rw [List.head?_append, Option.mem_def.mp hfirst]
  rfl

section

variable {p : Parser α} {f : α → Parser β} {P : List Token → α → Prop}
  {Q R : List Token → β → Prop} {start : Span}

namespace TakesFrom

theorem pure {b : β} (h : Q before b) : TakesFrom before (pure b) Q := by
  intro s b' s' _ hreads
  obtain ⟨rfl, rfl⟩ := reads_pure.mp hreads
  exact ⟨[], .refl _, by rwa [List.append_nil]⟩

/-- A reader that reads nothing. -/
theorem refuse {p : Parser β} (h : ∀ {s b s'}, ¬Reads p s b s') : TakesFrom before p Q :=
  fun _ _ _ _ hreads => absurd hreads h

theorem mono {p : Parser β} (h : TakesFrom before p R) (hQ : ∀ tokens b, R tokens b → Q tokens b) :
    TakesFrom before p Q := fun _ _ _ hbehind hreads =>
  let ⟨taken, hpasses, hR⟩ := h hbehind hreads
  ⟨taken, hpasses, hQ _ _ hR⟩

theorem bind (hp : TakesFrom before p P) (hf : ∀ tokens a, P tokens a → TakesFrom tokens (f a) Q) :
    TakesFrom before (p >>= f) Q := by
  intro s b s' hbehind hreads
  obtain ⟨a, t, hfirst, hrest⟩ := reads_bind.mp hreads
  obtain ⟨taken, hpasses, hP⟩ := hp hbehind hfirst
  obtain ⟨more, hpasses', hQ⟩ := hf _ a hP (hbehind.passes hpasses) hrest
  exact ⟨taken ++ more, hpasses.trans hpasses', by rwa [← List.append_assoc]⟩

/-- What was read before does not matter to a reader that looks only ahead. -/
theorem frame (hp : Takes p P) :
    TakesFrom before p fun tokens a => ∃ taken, tokens = before ++ taken ∧ P taken a := by
  intro s a s' hbehind hreads
  obtain ⟨taken, hpasses, hP⟩ := hp ⟨hbehind.located, nofun⟩ hreads
  exact ⟨taken, hpasses, taken, rfl, hP⟩

theorem behind {nodes : α → List Node} (hp : Takes p fun tokens a => Arranged tokens (nodes a)) :
    TakesFrom before p fun tokens a => Arranged tokens (nodes a) :=
  hp.frame.mono fun _ _ ⟨_, htokens, ha⟩ => htokens ▸ ha.behind before

/-- A part of a node, of which nothing needs to be known but its own tokens. -/
theorem part (hp : Takes p P)
    (hf : ∀ taken a, P taken a → TakesFrom (before ++ taken) (f a) Q) :
    TakesFrom before (p >>= f) Q :=
  hp.frame.bind fun _ a ⟨taken, htokens, hP⟩ => htokens ▸ hf taken a hP

/-- A reader after a step that reads nothing. -/
theorem look (hp : Looks p) (hf : ∀ a, TakesFrom before (f a) Q) :
    TakesFrom before (p >>= f) Q := by
  intro s b s' hbehind hreads
  obtain ⟨a, t, hsilent, hrest⟩ := reads_bind.mp hreads
  cases hp.silent hsilent
  exact hf a hbehind hrest

/-- A reader of a node that knows where it starts. -/
theorem peek {f : Token → Parser β}
    (hf : ∀ token, Takes (f token) fun tokens b => Starts token.span tokens → Q tokens b) :
    Takes (peek >>= f) Q := by
  intro s b s' hbehind hreads
  obtain ⟨token, t, hpeek, hrest⟩ := reads_bind.mp hreads
  cases looks_peek.silent hpeek
  obtain ⟨taken, hpasses, hQ⟩ := hf token hbehind hrest
  refine ⟨taken, hpasses, hQ fun first hfirst => ?_⟩
  have hhead := (reads_peek.mp hpeek).2.1
  rw [hpasses.tokens, ← List.nil_append taken, List.head?_append, Option.mem_def.mp hfirst] at hhead
  cases hhead
  rfl

/-- What is known of where a node starts. -/
theorem started {p : Parser β} {tokens : List Token}
    (h : TakesFrom (token :: tokens) p fun all b => Starts token.span all → Q all b) :
    TakesFrom (token :: tokens) p Q := by
  intro s b s' hbehind hreads
  obtain ⟨taken, hpasses, hQ⟩ := h hbehind hreads
  refine ⟨taken, hpasses, hQ ?_⟩
  rintro _ ⟨⟩
  rfl

end TakesFrom

/-! ## Single tokens -/

theorem takes_advance : Takes advance fun tokens token => tokens = [token] :=
  fun _ _ _ _ hreads => ⟨_, passes_of_reads_advance hreads, rfl⟩

theorem takes_expect (mark : Punctuator) :
    Takes (expect mark) fun tokens token => tokens = [token] :=
  fun _ _ _ _ hreads => ⟨_, passes_of_reads_advance (reads_expect.mp hreads).1, rfl⟩

theorem takes_expectKeyword (word : String) :
    Takes (expectKeyword word) fun tokens token => tokens = [token] :=
  fun _ _ _ _ hreads => ⟨_, passes_of_reads_advance (reads_expectKeyword.mp hreads).1, rfl⟩

end

/-! ## Nodes -/

section

variable {start : Span} {toNode : α → Node} {make : Option Span → α} {p : Parser α}
  {bare : α → β} {g : Grammar β} {F : β → TokenKind → Prop}

theorem exists_first_last {tokens : List Token} (hne : tokens ≠ []) (hstart : Starts start tokens) :
    ∃ first ∈ tokens.head?, ∃ last ∈ tokens.getLast?, first.span = start := by
  obtain ⟨first, rest, rfl⟩ := List.exists_cons_of_ne_nil hne
  exact ⟨first, rfl, _, List.getLast?_eq_some_getLast hne, hstart first rfl⟩

theorem eq_of_reads_spanFrom {span : Option Span} (h : Reads (spanFrom start) s span s')
    (hbehind : s.Behind before) {last : Token} (hlast : last ∈ before.getLast?) :
    span = some ⟨start.start, last.span.stop⟩ := by
  obtain ⟨state, t, hget, hpure⟩ := reads_bind.mp h
  obtain ⟨rfl, rfl⟩ := reads_get.mp hget
  obtain ⟨rfl, -⟩ := reads_pure.mp hpure
  rw [hbehind.located, hbehind.lastEnd last hlast]
  rfl

theorem eq_of_reads_tokenSpan {span : Option Span} (h : Reads (tokenSpan start) s span s')
    (hbehind : s.Behind before) : span = some start := by
  obtain ⟨state, t, hget, hpure⟩ := reads_bind.mp h
  obtain ⟨rfl, rfl⟩ := reads_get.mp hget
  obtain ⟨rfl, -⟩ := reads_pure.mp hpure
  rw [hbehind.located]
  rfl

/-- A node that is made when its parts are read. -/
theorem takes_node {parts : List Node} (harranged : Starts start before → Arranged before parts)
    (hne : before ≠ []) (hspan : ∀ span, (toNode (make span)).span = span)
    (hparts : ∀ span, (toNode (make span)).parts = parts) :
    TakesFrom before (spanFrom start >>= fun span => pure (make span)) fun tokens a =>
      Starts start tokens → Places tokens (toNode a) := by
  intro s a s' hbehind hreads
  obtain ⟨span, t, hspanFrom, hpure⟩ := reads_bind.mp hreads
  obtain ⟨rfl, rfl⟩ := reads_pure.mp hpure
  cases (looks_spanFrom _).silent hspanFrom
  refine ⟨[], .refl _, fun hstart => ?_⟩
  rw [List.append_nil] at hstart ⊢
  refine ⟨?_, by rw [hparts]; exact harranged hstart⟩
  obtain ⟨first, hfirst, last, hlast, rfl⟩ := exists_first_last hne hstart
  refine ⟨first, hfirst, last, hlast, ?_⟩
  rw [hspan, eq_of_reads_spanFrom hspanFrom hbehind hlast]

/-- A node that is one token. -/
theorem takes_leaf (hspan : ∀ span, (toNode (make span)).span = span)
    (hparts : ∀ span, (toNode (make span)).parts = []) :
    Takes (advance >>= fun _ => tokenSpan start >>= fun span => pure (make span)) fun tokens a =>
      Starts start tokens → Places tokens (toNode a) := by
  refine takes_advance.part ?_
  rintro _ token rfl s a s' hbehind hreads
  obtain ⟨span, t, htokenSpan, hpure⟩ := reads_bind.mp hreads
  obtain ⟨rfl, rfl⟩ := reads_pure.mp hpure
  cases (looks_tokenSpan _).silent htokenSpan
  refine ⟨[], .refl _, fun hstart => ⟨⟨token, rfl, token, rfl, ?_⟩, by rw [hparts]; exact .nil⟩⟩
  obtain rfl : token.span = start := hstart token rfl
  rw [hspan, eq_of_reads_tokenSpan htokenSpan hbehind]

/-- What is known of the kinds of the tokens that a reader takes. -/
theorem TakesFrom.kinds {Q : List Token → α → Prop} {R : List TokenKind → α → Prop}
    (hp : TakesFrom before p Q)
    (hsound : ∀ {s a s'}, Reads p s a s' → ∃ first, s.kinds = first ++ s'.kinds ∧ R first a) :
    TakesFrom before p fun tokens a =>
      Q tokens a ∧ ∃ taken, tokens = before ++ taken ∧ R (taken.map (·.kind)) a := by
  intro s a s' hbehind hreads
  obtain ⟨taken, hpasses, hQ⟩ := hp hbehind hreads
  obtain ⟨first, hkinds, hR⟩ := hsound hreads
  obtain rfl : taken.map (·.kind) = first :=
    List.append_cancel_right (hpasses.kinds.symm.trans hkinds)
  exact ⟨taken, hpasses, hQ, taken, rfl, hR⟩

/-- The reader of a node follows the grammar of such nodes. -/
theorem TakesFrom.follows (hp : TakesFrom before p fun tokens a => Places tokens (toNode a))
    (hfollows : Follows p bare g F)
    (hread : ∀ kinds a, g kinds (bare a) →
      (toNode a).IsReadFrom (before.map (·.kind) ++ kinds)) :
    TakesFrom before p fun tokens a => Covers tokens (toNode a) := by
  refine (hp.kinds fun hreads => hfollows.sound hreads fun _ _ => trivial).mono ?_
  rintro _ a ⟨⟨hspans, harranged⟩, taken, rfl, hg⟩
  refine .intro hspans ?_ harranged
  rw [List.map_append]
  exact hread _ a hg

theorem TakesFrom.arranged (hp : TakesFrom before p fun tokens a => Covers tokens (toNode a)) :
    TakesFrom before p fun tokens a => Arranged tokens [toNode a] :=
  hp.mono fun _ _ h => h.arranged

end

/-! ## Optional parts and rows -/

section

variable {Q : List Token → β → Prop} {item otherwise : Parser β} {mark close : Punctuator}

theorem TakesFrom.atMark (hitem : TakesFrom before item Q) (hother : TakesFrom before otherwise Q) :
    TakesFrom before (atMark mark item otherwise) Q :=
  .look (looks_ask fun kind => decide (kind = .punctuator mark)) fun b => by
    cases b with
    | true => exact hitem
    | false => exact hother

/-- A reader that goes on behind a mark, if it comes next. -/
theorem TakesFrom.atMarkAdvance {f : Token → Parser β}
    (hf : ∀ token, token.kind = .punctuator mark → TakesFrom (before ++ [token]) (f token) Q)
    (hother : TakesFrom before otherwise Q) :
    TakesFrom before (Parser.atMark mark (advance >>= f) otherwise) Q := by
  intro s b s' hbehind hreads
  obtain ⟨token, hpeek, hcase⟩ := reads_atMark.mp hreads
  split at hcase
  · next hkind =>
      obtain ⟨token', t, hadvance, hrest⟩ := reads_bind.mp hcase
      obtain ⟨hpeek', -⟩ := reads_advance.mp hadvance
      cases (reads_peek.mp hpeek).2.1.symm.trans (reads_peek.mp hpeek').2.1
      have hpasses := passes_of_reads_advance hadvance
      obtain ⟨taken, hpasses', hQ⟩ := hf token hkind (hbehind.passes hpasses) hrest
      exact ⟨[token] ++ taken, hpasses.trans hpasses', by rwa [← List.append_assoc]⟩
  · exact hother hbehind hcase

theorem TakesFrom.afterMark (hitem : ∀ token, TakesFrom (before ++ [token]) item Q)
    (hother : TakesFrom before otherwise Q) :
    TakesFrom before (afterMark mark item otherwise) Q := by
  rw [afterMark_eq]
  exact .atMarkAdvance (fun token _ => hitem token) hother

variable {p : Parser α} {f : Token → Parser α} {toNode : α → Node}

theorem takes_itemsUntil (hp : Takes p fun tokens a => Arranged tokens [toNode a]) (fuel : ℕ) :
    Takes (itemsUntil close p fuel) fun tokens as => Arranged tokens (as.map toNode) := by
  induction fuel with
  | zero => exact .refuse not_reads_unexpected
  | succ fuel ih =>
      rw [itemsUntil_succ]
      refine .afterMark (fun _ => .pure .nil) (hp.part fun first a ha => ?_)
      exact ih.part fun rest as has => .pure (ha.append has)

theorem takes_row (hp : Takes p fun tokens a => Arranged tokens [toNode a]) :
    Takes (row close p) fun tokens as => Arranged tokens (as.map toNode) :=
  .look looks_limit fun n => takes_itemsUntil hp (n + 1)

theorem takes_nonemptyRow (hp : Takes p fun tokens a => Arranged tokens [toNode a]) :
    Takes (nonemptyRow close p) fun tokens as => Arranged tokens (as.map toNode) :=
  hp.part fun _ _ ha => (takes_row hp).part fun _ _ has => .pure (ha.append has)

theorem takes_itemsAfter (hf : ∀ token, token.kind = .punctuator mark →
      TakesFrom [token] (f token) fun tokens a => Arranged tokens [toNode a]) (fuel : ℕ) :
    Takes (itemsAfter mark (advance >>= f) fuel) fun tokens as =>
      Arranged tokens (as.map toNode) := by
  induction fuel with
  | zero => exact .pure .nil
  | succ fuel ih =>
      rw [itemsAfter_succ, bind_assoc]
      refine .atMarkAdvance (fun token hkind => (hf token hkind).bind fun first a ha => ?_)
        (.pure .nil)
      exact ih.part fun rest as has => .pure (ha.append has)

theorem takes_rowAfter (hf : ∀ token, token.kind = .punctuator mark →
      TakesFrom [token] (f token) fun tokens a => Arranged tokens [toNode a]) :
    Takes (rowAfter mark (advance >>= f)) fun tokens as => Arranged tokens (as.map toNode) :=
  .look looks_limit fun n => takes_itemsAfter hf n

theorem takes_separated (hp : Takes p fun tokens a => Arranged tokens [toNode a]) :
    Takes (separated mark p) fun tokens as => Arranged tokens (as.map toNode) := by
  have hskip : Takes (skipIf mark) fun tokens _ => Arranged tokens [] :=
    .atMark (takes_advance.part fun _ _ _ => .pure .nil) (.pure .nil)
  refine hskip.part fun _ _ hmark => hp.part fun _ _ ha => ?_
  refine (takes_rowAfter fun token _ => ?_).part fun _ _ has => .pure ((hmark.append ha).append has)
  exact hp.behind

theorem takes_parenthesized (hp : Takes p fun tokens a => Arranged tokens [toNode a]) :
    Takes (parenthesized p) fun tokens as => Arranged tokens (as.map toNode) :=
  .afterMark (fun _ => (takes_nonemptyRow hp).behind) (.pure .nil)

end

/-! ## Names and types -/

theorem takes_name : Takes name fun tokens n => Covers tokens (.name n) := by
  refine .follows (.peek fun token => ?_) follows_name fun _ _ h => h
  cases nameText? token.kind with
  | none => exact .refuse not_reads_unexpected
  | some text => exact takes_leaf (fun _ => rfl) fun _ => rfl

theorem isReadFrom_namedType {kinds : List TokenKind} {t : NamedType}
    (h : Grammar.namedType kinds t.bare) : (Node.type (.named t)).IsReadFrom kinds :=
  ⟨1, kinds, .named t.bare, [], .inr ⟨kinds, t.bare, [], h, ⟨rfl, rfl⟩, (List.append_nil _).symm⟩,
    .inr ⟨rfl, rfl⟩, (List.append_nil _).symm⟩

theorem takes_namedType : Takes namedType fun tokens t => Covers tokens (.type (.named t)) := by
  refine .follows (.peek fun _ => takes_name.part fun _ _ hname => ?_) follows_namedType
    fun _ _ => isReadFrom_namedType
  exact takes_node (fun _ => hname.arranged) hname.spans.ne_nil (fun _ => rfl)
    fun _ => Node.parts_named _

theorem takes_nullableType {item : Parser TypeExpr} {depth : ℕ} {start : Span}
    (hitem : Takes item fun tokens t => Covers tokens (.type t))
    (hfollows : Follows item TypeExpr.bare (Grammar.typeExpr depth) (NoMark [.bang])) :
    Takes (nullableType start item) fun tokens t =>
      Starts start tokens → Covers tokens (.type t) := by
  have hplaces : Takes (nullableType start item) fun tokens t =>
      Starts start tokens → Places tokens (.type t) :=
    .afterMark
      (fun bracket => hitem.part fun _ _ ht => (takes_expect _).part fun _ _ _ =>
        takes_node (fun _ => (ht.arranged.behind [bracket]).inFront _) (by simp) (fun _ => rfl)
          fun _ => Node.parts_listType _ _)
      (takes_namedType.part fun _ _ ht => .pure fun _ => ht.places)
  refine (hplaces.kinds fun hreads =>
    (follows_nullableType hfollows start).sound hreads fun _ _ => trivial).mono ?_
  rintro _ t ⟨ht, taken, rfl, hg⟩ hstart
  exact .intro (ht hstart).1 ⟨depth + 1, _, _, [], hg, .inr ⟨rfl, rfl⟩, (List.append_nil _).symm⟩
    (ht hstart).2

theorem takes_typeExpr : ∀ depth, Takes (typeExpr depth) fun tokens t => Covers tokens (.type t)
  | 0 => .look looks_peek fun _ => .refuse not_reads_fail
  | depth + 1 => by
    refine .follows (.peek fun token => .bind (takes_nullableType
      (takes_typeExpr depth) (follows_typeExpr depth)) fun tokens t ht => ?_)
      (follows_typeExpr _) fun _ _ h => ⟨_, h⟩
    -- The type without its mark starts where the type with the mark does.
    exact .afterMark (fun bang => takes_node
      (fun hstart => (ht hstart.of_append).arranged.inFront [bang]) (by simp) (fun _ => rfl)
        fun _ => Node.parts_nonNull _ _) (.pure fun hstart => (ht hstart).places)

/-! ## Values -/

variable {constant : Bool} {depth : ℕ}

theorem takes_variableUse : Takes variableUse fun tokens v => Covers tokens (.value (.var v)) := by
  refine .follows ((takes_expect _).part ?_) follows_variableUse fun kinds v h =>
    ⟨false, 1, .inr (.inl ⟨kinds, v.bare, [], h, ⟨rfl, rfl⟩, (List.append_nil _).symm⟩)⟩
  rintro _ dollar rfl
  exact .started <| takes_name.part fun _ _ hname => takes_node
    (fun _ => hname.arranged.behind [dollar]) (by simp) (fun _ => rfl) fun _ => Node.parts_var _

theorem takes_objectField {p : Parser Value}
    (hp : Takes p fun tokens v => Covers tokens (.value v)) :
    Takes (do
        let start := (← peek).span
        let name ← name
        let _ ← expect .colon
        let value ← p
        return { name, value, span := ← spanFrom start : ObjectField })
      fun tokens f => Places tokens (.objectField f) :=
  .peek fun _ => takes_name.part fun _ _ hname => (takes_expect _).part fun _ colon _ =>
    hp.part fun _ _ hvalue => takes_node
      (fun _ => (hname.arranged.inFront _).append hvalue.arranged) (by simp [hname.spans.ne_nil])
        (fun _ => rfl) fun _ => Node.parts_objectField _

theorem takes_value (constant : Bool) :
    ∀ depth, Takes (value constant depth) fun tokens v => Covers tokens (.value v)
  | 0 => .look looks_peek fun _ => .refuse not_reads_fail
  | depth + 1 => by
    have hitem := takes_value constant depth
    refine .follows (.peek fun token => ?_) (follows_value constant _) fun _ _ h => ⟨_, _, h⟩
    cases token.kind with
    | punctuator p =>
        cases p with
        | dollar =>
            cases constant with
            | true => exact .refuse not_reads_fail
            | false => exact takes_variableUse.part fun _ _ h => .pure fun _ => h.places
        | bracketOpen =>
            refine takes_advance.part ?_
            rintro _ bracket rfl
            exact (takes_row hitem.arranged).part fun _ _ hitems => takes_node
              (fun _ => hitems.behind [bracket]) (by simp) (fun _ => rfl)
                fun _ => Node.parts_list _ _
        | braceOpen =>
            refine takes_advance.part ?_
            rintro _ brace rfl
            have hfield := (takes_objectField hitem).follows
              (follows_objectField (follows_value constant depth)) fun _ _ h => ⟨_, _, h⟩
            exact (takes_row hfield.arranged).part fun _ _ hfields => takes_node
              (fun _ => hfields.behind [brace]) (by simp) (fun _ => rfl)
                fun _ => Node.parts_object _ _
        | _ => exact .refuse not_reads_unexpected
    | name text | int text | float text | string text | blockString text | boolean b | null =>
        exact takes_leaf (fun _ => rfl) fun _ => rfl
    | eof | error fault => exact .refuse not_reads_unexpected

/-! ## Arguments and directives -/

theorem takes_argument :
    Takes (argument constant depth) fun tokens a => Covers tokens (.argument a) := by
  refine .follows (.peek fun _ => takes_name.part fun _ _ hname => (takes_expect _).part
    fun _ colon _ => (takes_value constant depth).part fun _ _ hvalue => ?_)
    follows_argument fun _ _ h => ⟨_, _, h⟩
  exact takes_node (fun _ => (hname.arranged.inFront _).append hvalue.arranged)
    (by simp [hname.spans.ne_nil]) (fun _ => rfl) fun _ => Node.parts_argument _

theorem takes_arguments : Takes (arguments constant depth) fun tokens as =>
    Arranged tokens (as.map Node.argument) :=
  takes_parenthesized takes_argument.arranged

/-- The mark in front of a directive is part of it. -/
theorem takes_directiveBehind {mark : Token} (hmark : mark.kind = .punctuator .atSign) :
    TakesFrom [mark] (directiveBehind constant depth mark) fun tokens d =>
      Covers tokens (.directive d) := by
  refine .follows (.started <| takes_name.part fun _ _ hname => takes_arguments.part fun _ _ has =>
    takes_node (fun _ => (hname.arranged.behind [mark]).append has) (by simp) (fun _ => rfl)
      fun _ => Node.parts_directive _) (follows_directiveBehind mark) fun kinds d hd => ?_
  refine ⟨constant, depth, ?_⟩
  rw [← List.append_nil (_ ++ kinds)]
  exact .cons ⟨_, (), kinds, Grammar.mark_iff.mpr (by rw [← hmark]; rfl), hd, rfl⟩ .nil

theorem takes_directives : Takes (directives constant depth) fun tokens ds =>
    Arranged tokens (ds.map Node.directive) :=
  takes_rowAfter fun _ hmark => (takes_directiveBehind hmark).arranged

/-! ## Selections -/

variable {p : Parser SelectionSet}

theorem takes_field (hp : Takes p fun tokens set => Covers tokens (.selectionSet set)) :
    Takes (field depth p) fun tokens f => Places tokens (.selection (.field f)) := by
  have hnames (first : Name) {tokens : List Token} (hfirst : Covers tokens (.name first)) :
      TakesFrom tokens (afterMark .colon (return (some first, ← name)) (return (none, first)))
        fun tokens names => Arranged tokens (names.1.toList.map .name ++ [.name names.2]) :=
    .afterMark (fun colon => takes_name.part fun _ _ hname =>
      .pure ((hfirst.arranged.inFront [colon]).append hname.arranged)) (.pure hfirst.arranged)
  have hbelow : Takes (atMark .braceOpen (return some (← p)) (return none))
      fun tokens below => Arranged tokens (below.toList.map .selectionSet) :=
    .atMark (hp.part fun _ _ h => .pure h.arranged) (.pure .nil)
  refine .peek fun _ => takes_name.part fun _ first hfirst => (hnames first hfirst).bind
    fun _ names h => takes_arguments.part fun _ _ has => takes_directives.part fun _ _ hds =>
      hbelow.part fun _ _ hset => takes_node (fun _ => ((h.append has).append hds).append hset)
        (by simp [h.ne_nil]) (fun _ => rfl) fun _ => Node.parts_field _

theorem takes_inline {start : Span} {condition : Option NamedType}
    (hp : Takes p fun tokens set => Covers tokens (.selectionSet set))
    (hcondition : Arranged before (condition.toList.map fun t => .type (.named t)))
    (hne : before ≠ []) :
    TakesFrom before (selection.inline depth p start condition) fun tokens selection =>
      Starts start tokens → Places tokens (.selection selection) :=
  takes_directives.part fun _ _ hds => hp.part fun _ _ hset => takes_node
    (fun _ => (hcondition.append hds).append hset.arranged) (by simp [hne]) (fun _ => rfl)
      fun _ => Node.parts_inline _

theorem takes_selection (hp : Takes p fun tokens set => Covers tokens (.selectionSet set)) :
    Takes (selection depth p) fun tokens selection => Places tokens (.selection selection) := by
  refine .look (looks_ask fun kind => decide (kind = .punctuator .ellipsis)) fun b => ?_
  cases b with
  | false => exact (takes_field hp).part fun _ _ h => .pure h
  | true =>
      refine takes_advance.part ?_
      rintro _ dots rfl
      refine .started <| .look (looks_ask fun kind => decide (kind = .name "on")) fun b => ?_
      cases b with
      | true =>
          exact takes_advance.part fun _ _ _ => takes_namedType.part fun _ _ ht =>
            takes_inline hp (ht.arranged.behind _) (by simp)
      | false =>
          refine .look (looks_ask fun kind => (nameText? kind).isSome) fun b => ?_
          cases b with
          | true =>
              exact takes_name.part fun _ _ hname => takes_directives.part fun _ _ hds => takes_node
                (fun _ => (hname.arranged.behind [dots]).append hds) (by simp) (fun _ => rfl)
                  fun _ => Node.parts_spread _
          | false => exact takes_inline hp .nil (by simp)

theorem takes_selectionSet : ∀ depth, Takes (selectionSet depth) fun tokens set =>
    Covers tokens (.selectionSet set)
  | 0 => .look looks_peek fun _ => .refuse not_reads_fail
  | depth + 1 => by
    have hset := takes_selectionSet depth
    have hitem : Takes (selection depth (selectionSet depth)) fun tokens selection =>
        Covers tokens (.selection selection) :=
      (takes_selection hset).follows (follows_selection (followsSet_selectionSet depth))
        fun _ _ h => ⟨_, h⟩
    have hitems : Takes (selections (selection depth (selectionSet depth))) fun tokens items =>
        Arranged tokens (items.map Node.selection) :=
      .look looks_peek fun next => by
        split
        · exact .refuse not_reads_fail
        · exact takes_row hitem.arranged
    refine .follows ?_ (followsSet_selectionSet _).follows fun _ _ h => ⟨_, h⟩
    refine (takes_expect _).part ?_
    rintro _ brace rfl
    exact .started <| hitems.part fun _ _ h => takes_node (fun _ => h.behind [brace]) (by simp)
      (fun _ => rfl) fun _ => Node.parts_selectionSet _

/-! ## Executable definitions -/

/-- A reader of something that is no node. -/
theorem takes_operationKind : Takes operationKind fun tokens _ => Arranged tokens [] := by
  refine .look looks_peek fun token => ?_
  change Takes (passKeyword (Grammar.operationKind? token.kind)) _
  cases Grammar.operationKind? token.kind with
  | none => exact .refuse not_reads_unexpected
  | some kind => exact takes_advance.part fun _ _ _ => .pure .nil

theorem takes_defaultValue : Takes defaultValue fun tokens v =>
    Arranged tokens (v.toList.map Node.value) :=
  .afterMark (fun equals => (takes_value _ _).part fun _ _ h => .pure (h.arranged.behind [equals]))
    (.pure .nil)

theorem takes_variableDefinition : Takes variableDefinition fun tokens d =>
    Covers tokens (.variableDefinition d) := by
  refine .follows (.peek fun _ => takes_variableUse.part fun _ _ hv => (takes_expect _).part
    fun _ colon _ => (takes_typeExpr _).part fun _ _ ht => takes_defaultValue.part fun _ _ hd => ?_)
    follows_variableDefinition fun _ _ h => h
  exact takes_node (fun _ => ((hv.arranged.inFront _).append ht.arranged).append hd)
    (by simp [hv.spans.ne_nil]) (fun _ => rfl) fun _ => Node.parts_variableDefinition _

theorem takes_optionalName : Takes optionalName fun tokens n =>
    Arranged tokens (n.toList.map Node.name) :=
  .look (looks_ask fun kind => (nameText? kind).isSome) fun b => by
    cases b with
    | true => exact takes_name.part fun _ _ h => .pure h.arranged
    | false => exact .pure .nil

theorem takes_operationDefinition : Takes operationDefinition fun tokens d =>
    Places tokens (.definition (.operation d)) := by
  have hset := takes_selectionSet maxDepth
  have hvariables := takes_parenthesized takes_variableDefinition.arranged
  refine .peek fun start => .atMark ?_ ?_
  · exact hset.part fun _ _ h => takes_node (fun _ => h.arranged) h.spans.ne_nil (fun _ => rfl)
      fun _ => Node.parts_operation _
  · exact takes_operationKind.part fun _ _ hkind => takes_optionalName.part fun _ _ hname =>
      hvariables.part fun _ _ hvs => takes_directives.part fun _ _ hds => hset.part fun _ _ h =>
        takes_node (fun _ => (((hkind.append hname).append hvs).append hds).append h.arranged)
          (by simp [h.spans.ne_nil]) (fun _ => rfl) fun _ => Node.parts_operation _

theorem takes_fragmentName : Takes fragmentName fun tokens n => Covers tokens (.name n) :=
  .look looks_peek fun next => by
    split
    · exact .refuse not_reads_fail
    · exact takes_name

theorem takes_fragmentDefinition : Takes fragmentDefinition fun tokens d =>
    Places tokens (.definition (.fragment d)) := by
  refine (takes_expectKeyword _).part ?_
  rintro _ keyword rfl
  exact .started <| takes_fragmentName.part fun _ _ hname => (takes_expectKeyword _).part
    fun _ on _ => takes_namedType.part fun _ _ ht => takes_directives.part fun _ _ hds =>
      (takes_selectionSet _).part fun _ _ hset => takes_node
        (fun _ => ((((hname.arranged.behind [keyword]).inFront _).append ht.arranged).append
          hds).append hset.arranged) (by simp) (fun _ => rfl) fun _ => Node.parts_fragment _

end Parser

end GraphQL
