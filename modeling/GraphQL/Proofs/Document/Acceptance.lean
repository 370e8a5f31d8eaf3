import GraphQL.Proofs.Document.Reading.Derived
import GraphQL.Proofs.Document.Reading.TypeSystem
import GraphQL.Proofs.Document.Unambiguous

/-!
# The readers accept what the grammar derives

A sequence of tokens is read to its end if and only if the grammar derives it with at most
`Parser.maxDepth` levels, and then the tree that is read is, but for the places of its parts, the
tree of the derivation, of which there is only one (`accepts_derived`).

That what is read is derived is in `Reading/Derived.lean`.  For the converse it is enough that
every derivation is also in the grammar that the readers follow, whatever it reads as there: as
there is but one derivation, the tree that is read must be its tree.
-/

namespace GraphQL

open GraphQL.Derivation (tokens tree nesting)

/-! ## What is derived is in the grammar of the readers -/

namespace Grammar

variable {α β γ δ : Type} {g : Grammar α} {first rest : List TokenKind} {depth : ℕ}

/-- The grammar has the sequence in it, whatever it reads as. -/
def Accepts (g : Grammar α) (kinds : List TokenKind) : Prop := ∃ a, g kinds a

theorem Accepts.as (hg : g.Accepts first) (heq : rest = first) : g.Accepts rest := heq ▸ hg

theorem accepts_pure (a : α) : (pure a : Grammar α).Accepts [] := ⟨a, rfl, rfl⟩

theorem Accepts.bind {f : α → Grammar γ} (hg : g.Accepts first) (hf : ∀ a, (f a).Accepts rest) :
    (g >>= f).Accepts (first ++ rest) := by
  obtain ⟨a, ha⟩ := hg
  obtain ⟨c, hc⟩ := hf a
  exact ⟨c, first, a, rest, ha, hc, rfl⟩

/-- A part whose tree is made from that of another. -/
theorem Accepts.map {f : α → γ} (hg : g.Accepts first) :
    (g >>= fun a => pure (f a)).Accepts first := by
  have h := hg.bind fun a => accepts_pure (f a)
  rwa [List.append_nil] at h

theorem Accepts.left {h : Grammar α} (hg : g.Accepts first) : (g <|> h).Accepts first :=
  hg.imp fun _ => .inl

theorem Accepts.right {h : Grammar α} (hh : h.Accepts first) : (g <|> h).Accepts first :=
  hh.imp fun _ => .inr

theorem accepts_mark (p : Punctuator) : (mark p).Accepts [.punctuator p] := ⟨(), mark_iff.mpr rfl⟩

theorem accepts_keyword (word : String) : (keyword word).Accepts [.name word] :=
  ⟨(), keyword_iff.mpr rfl⟩

section

variable [Derivation δ β]

theorem accepts_many {ds : List δ} (h : ∀ d ∈ ds, g.Accepts (tokens d)) :
    Accepts (many g) (tokens ds) := by
  induction ds with
  | nil => exact ⟨[], .nil⟩
  | cons d ds ih =>
      obtain ⟨a, ha⟩ := h d (.head _)
      obtain ⟨as, has⟩ := ih fun e he => h e (.tail _ he)
      exact ⟨a :: as, .cons ha has⟩

theorem accepts_row {close : Punctuator} {ds : List δ} (h : ∀ d ∈ ds, g.Accepts (tokens d)) :
    (row close g).Accepts (tokens ds ++ [.punctuator close]) :=
  (accepts_many h).bind fun _ => (accepts_mark close).map

theorem accepts_nonemptyRow {close : Punctuator} {d : δ} {ds : List δ}
    (h : ∀ e ∈ d :: ds, g.Accepts (tokens e)) :
    (nonemptyRow close g).Accepts (tokens d ++ (tokens ds ++ [.punctuator close])) :=
  (h d (.head _)).bind fun _ => (accepts_row fun e he => h e (.tail _ he)).map

theorem accepts_parenthesized {ds : List δ} (h : ∀ d ∈ ds, g.Accepts (tokens d)) :
    (parenthesized g).Accepts (Derivation.parenthesized ds) := by
  cases ds with
  | nil => exact .right (accepts_pure [])
  | cons d ds =>
      refine .left (.as (.bind (accepts_mark .parenOpen) fun _ => accepts_nonemptyRow h) ?_)
      change .punctuator .parenOpen :: ((tokens d ++ tokens ds) ++ [_]) = _
      rw [List.append_assoc]
      rfl

end

theorem accepts_name (n : Derivation.Name) : name.Accepts [n.kind] := by
  cases n with
  | word text => exact ⟨_, _, rfl, rfl⟩
  | boolean b => cases b <;> exact ⟨_, _, rfl, rfl⟩
  | null => exact ⟨_, _, rfl, rfl⟩

theorem accepts_fragmentName (n : Derivation.FragmentName) :
    fragmentName.Accepts [n.name.kind] := by
  obtain ⟨n, hn⟩ := n
  cases n with
  | word text =>
      refine ⟨{ text }, _, rfl, ?_⟩
      have hne : text ≠ "on" := fun h => hn (h ▸ rfl)
      simp [Parser.nameText?, Derivation.Name.kind, hne]
  | boolean b => cases b <;> exact ⟨_, _, rfl, rfl⟩
  | null => exact ⟨_, _, rfl, rfl⟩

theorem accepts_typeExpr {t : Derivation.TypeReference} (h : nesting t ≤ depth) :
    (typeExpr depth).Accepts (tokens t) := by
  have hmark (type : TypeExpr) (b : Bool) :
      Accepts ((do
        mark .bang
        return .nonNull type none) <|> (return type))
          (Derivation.TypeReference.nonNullMark b) := by
    cases b with
    | true => exact .left (accepts_mark .bang).map
    | false => exact .right (accepts_pure type)
  induction depth generalizing t with
  | zero => cases t <;> exact absurd h (by simp [nesting, Derivation.TypeReference.nesting])
  | succ depth ih =>
      cases t with
      | named n b => exact Accepts.bind (.right (accepts_name n).map.map) fun type => hmark type b
      | list t b =>
          refine .as (.bind (.left (.bind (accepts_mark .bracketOpen) fun _ =>
            .bind (ih (Nat.le_of_succ_le_succ h)) fun t =>
              .map (accepts_mark .bracketClose))) fun type => hmark type b) ?_
          simp [tokens, Derivation.TypeReference.tokens]

theorem accepts_variableUse (n : Derivation.Name) :
    variableUse.Accepts [.punctuator .dollar, n.kind] :=
  .bind (accepts_mark .dollar) fun _ => .map (accepts_name n)

theorem accepts_literal (l : Derivation.Literal) : (token literal?).Accepts [l.kind] := by
  cases l <;> exact ⟨_, _, rfl, rfl⟩

theorem accepts_objectField {constant : Bool} {g : Grammar Value}
    (f : Derivation.ObjectField constant) (h : g.Accepts (tokens f.value)) :
    (objectField g).Accepts (tokens f) := by
  obtain ⟨n, v⟩ := f
  refine .as (.bind (accepts_name n) fun _ => .bind (accepts_mark .colon) fun _ => .map h) ?_
  simp [tokens, Derivation.ObjectField.tokens]

theorem accepts_value {constant : Bool} {v : Derivation.Value constant} (h : nesting v ≤ depth) :
    (value constant depth).Accepts (tokens v) := by
  induction depth generalizing v with
  | zero => cases v <;> exact absurd h (by simp [nesting, Derivation.Value.nesting])
  | succ depth ih =>
      cases v with
      | var n hconstant =>
          cases constant with
          | true => cases hconstant
          | false =>
              refine .right (.left (.as (.map (accepts_variableUse n)) ?_))
              simp [tokens, Derivation.Value.tokens]
      | literal l =>
          refine .left (.as (accepts_literal l) ?_)
          simp [tokens, Derivation.Value.tokens]
      | list items =>
          have hitems : ∀ v ∈ items, nesting v ≤ depth := by
            simp only [nesting, Derivation.Value.nesting] at h
            exact Derivation.nesting_le_iff.mp (Nat.le_of_succ_le_succ h)
          refine .right (.right (.left (.as (.bind (accepts_mark .bracketOpen) fun _ =>
            .map (accepts_row fun v hv => ih (hitems v hv))) ?_)))
          simp [tokens, Derivation.Value.tokens]
      | object fields =>
          simp only [nesting, Derivation.Value.nesting] at h
          have hfields : ∀ f ∈ fields,
              (objectField (value constant depth)).Accepts (tokens f) := by
            rintro ⟨n, v⟩ hf
            have hle := Derivation.nesting_le_iff.mp (Nat.le_of_succ_le_succ h) ⟨n, v⟩ hf
            simp only [nesting, Derivation.ObjectField.nesting] at hle
            exact accepts_objectField ⟨n, v⟩ (ih hle)
          refine .right (.right (.right (.as (.bind (accepts_mark .braceOpen) fun _ =>
            .map (accepts_row hfields)) ?_)))
          simp [tokens, Derivation.Value.tokens]

theorem accepts_argument (a : Derivation.Argument) (h : nesting a ≤ depth) :
    (argument false depth).Accepts (tokens a) :=
  .bind (accepts_name a.name) fun _ => .bind (accepts_mark .colon) fun _ =>
    .map (accepts_value h)

theorem accepts_arguments (as : List Derivation.Argument) (h : nesting as ≤ depth) :
    (arguments false depth).Accepts (Derivation.parenthesized as) :=
  accepts_parenthesized fun a ha => accepts_argument a (Derivation.nesting_le_iff.mp h a ha)

theorem accepts_directives (ds : List Derivation.Directive) (h : nesting ds ≤ depth) :
    (directives false depth).Accepts (tokens ds) :=
  accepts_many fun d hd => .bind (accepts_mark .atSign) fun _ =>
    .bind (accepts_name d.name) fun _ =>
      .map (accepts_arguments d.arguments (Derivation.nesting_le_iff.mp h d hd))

theorem accepts_field (f : Derivation.Field) {g : Grammar SelectionSet} (h : nesting f ≤ depth)
    (hset : ∀ set ∈ f.selectionSet, g.Accepts (tokens set)) :
    (field depth g).Accepts (tokens f) := by
  obtain ⟨responseName, n, as, ds, below⟩ := f
  have hle : max (max (nesting as) (nesting ds)) (nesting below) ≤ depth :=
    le_of_eq_of_le Derivation.Field.nesting_mk.symm h
  obtain ⟨hle, -⟩ := Nat.max_le.mp hle
  obtain ⟨has, hds⟩ := Nat.max_le.mp hle
  have hbelow : Accepts ((return some (← g)) <|> (return none)) (tokens below) := by
    cases below with
    | none => exact .right (accepts_pure none)
    | some set => exact .left (.map (hset set rfl))
  have htail (names : Option Name × Name) : Accepts (do
      let arguments ← arguments false depth
      let directives ← directives false depth
      let below ← (return some (← g)) <|> (return none)
      return ({
        responseName := names.1, name := names.2, arguments, directives,
        selectionSet := below } : Field))
        (Derivation.parenthesized as ++ (tokens ds ++ tokens below)) :=
    .bind (accepts_arguments as has) fun _ => .bind (accepts_directives ds hds) fun _ => .map hbelow
  refine .as ?_ Derivation.Field.tokens_mk
  cases responseName with
  | none =>
      refine .as (.bind (accepts_name n) fun first =>
        .bind (.right (accepts_pure (none, first))) htail) ?_
      simp [tokens]
  | some a =>
      refine .as (.bind (accepts_name a.name) fun first => .bind (.left
        (.bind (accepts_mark .colon) fun _ => .map (accepts_name n))) htail) ?_
      simp [tokens]

theorem accepts_selection (s : Derivation.Selection) {g : Grammar SelectionSet}
    (h : nesting s ≤ depth)
    (hset : ∀ set : Derivation.SelectionSet, nesting set ≤ depth → g.Accepts (tokens set)) :
    (selection depth g).Accepts (tokens s) := by
  cases s with
  | field f =>
      simp only [nesting, Derivation.Selection.nesting] at h
      have hbelow : ∀ set ∈ f.selectionSet, nesting set ≤ depth := by
        obtain ⟨responseName, n, as, ds, below⟩ := f
        rintro set rfl
        exact (Nat.max_le.mp (le_of_eq_of_le Derivation.Field.nesting_mk.symm h)).2
      refine .left (.as (.map (accepts_field f h fun set hmem => hset set (hbelow set hmem))) ?_)
      simp only [tokens, Derivation.Selection.tokens]
  | spread n ds =>
      simp only [nesting, Derivation.Selection.nesting] at h
      refine .right (.as (.bind (accepts_mark .ellipsis) fun _ => .left
        (.bind (accepts_fragmentName n) fun _ => .map (accepts_directives ds h))) ?_)
      simp [tokens, Derivation.Selection.tokens]
  | inline condition ds set =>
      simp only [nesting, Derivation.Selection.nesting] at h
      obtain ⟨hds, hle⟩ := Nat.max_le.mp h
      have hcondition : Accepts ((do
          keyword "on"
          return some (← namedType)) <|> (return none)) (tokens condition) := by
        cases condition with
        | none => exact .right (accepts_pure none)
        | some c =>
            exact .left (.bind (accepts_keyword "on") fun _ => .map (.map (accepts_name c.name)))
      refine .right (.as (.bind (accepts_mark .ellipsis) fun _ => .right (.bind hcondition fun _ =>
        .bind (accepts_directives ds hds) fun _ => .map (hset set hle))) ?_)
      simp [tokens, Derivation.Selection.tokens]

theorem accepts_selectionSet {set : Derivation.SelectionSet} (h : nesting set ≤ depth) :
    (selectionSet depth).Accepts (tokens set) := by
  induction depth generalizing set with
  | zero =>
      obtain ⟨first, others⟩ := set
      simp only [nesting, Derivation.SelectionSet.nesting] at h
      exact absurd h (Nat.not_succ_le_zero _)
  | succ depth ih =>
      obtain ⟨first, others⟩ := set
      simp only [nesting, Derivation.SelectionSet.nesting] at h
      have hle : ∀ s ∈ first :: others, nesting s ≤ depth :=
        Derivation.nesting_le_iff.mp (Nat.le_of_succ_le_succ h)
      refine .as (.bind (accepts_mark .braceOpen) fun _ => .map (accepts_nonemptyRow fun s hs =>
        accepts_selection s (hle s hs) fun set hset => ih hset)) ?_
      simp [tokens, Derivation.SelectionSet.tokens]

theorem accepts_operationKind (o : OperationKind) : operationKind.Accepts [.name o.keyword] :=
  ⟨o, _, rfl, by cases o <;> rfl⟩

theorem accepts_variableDefinition (d : Derivation.VariableDefinition)
    (h : nesting d ≤ Parser.maxDepth) : variableDefinition.Accepts (tokens d) := by
  obtain ⟨n, t, v⟩ := d
  obtain ⟨ht, hv⟩ := Nat.max_le.mp h
  have hvalue : defaultValue.Accepts (tokens v) := by
    cases v with
    | none => exact .right (accepts_pure none)
    | some v => exact .left (.bind (accepts_mark .equals) fun _ => .map (accepts_value hv))
  refine .as (.bind (accepts_variableUse n) fun _ => .bind (accepts_mark .colon) fun _ =>
    .bind (accepts_typeExpr ht) fun _ => .map hvalue) ?_
  simp [tokens]

theorem accepts_operationDefinition (d : Derivation.OperationDefinition)
    (h : nesting d ≤ Parser.maxDepth) : operationDefinition.Accepts (tokens d) := by
  cases d with
  | shorthand set => exact .left (.map (accepts_selectionSet h))
  | headed o n vs ds set =>
      obtain ⟨hle, hset⟩ := Nat.max_le.mp h
      obtain ⟨hvs, hds⟩ := Nat.max_le.mp hle
      have hname : Accepts ((return some (← name)) <|> (return none)) (tokens n) := by
        cases n with
        | none => exact .right (accepts_pure none)
        | some n => exact .left (.map (accepts_name n))
      refine .right (.as (.bind (accepts_operationKind o) fun _ => .bind hname fun _ =>
        .bind (accepts_parenthesized fun v hv => accepts_variableDefinition v
          (Derivation.nesting_le_iff.mp hvs v hv)) fun _ =>
            .bind (accepts_directives ds hds) fun _ => .map (accepts_selectionSet hset)) ?_)
      simp [tokens]

theorem accepts_fragmentDefinition (d : Derivation.FragmentDefinition)
    (h : nesting d ≤ Parser.maxDepth) : fragmentDefinition.Accepts (tokens d) := by
  obtain ⟨n, condition, ds, set⟩ := d
  obtain ⟨hds, hset⟩ := Nat.max_le.mp h
  refine .as (.bind (accepts_keyword "fragment") fun _ => .bind (accepts_fragmentName n) fun _ =>
    .bind (accepts_keyword "on") fun _ => .bind (.map (accepts_name condition.name)) fun _ =>
      .bind (accepts_directives ds hds) fun _ => .map (accepts_selectionSet hset)) ?_
  simp [tokens]

/-- An executable definition is in the grammar as one that has no body left out. -/
theorem exists_definition (d : Derivation.Definition) (h : nesting d ≤ Parser.maxDepth) :
    ∃ b, definition (tokens d) b ∧ ¬OpenEnded b := by
  cases d with
  | operation d =>
      obtain ⟨b, hb⟩ := accepts_operationDefinition d h
      exact ⟨.operation b, .inl ⟨_, b, [], hb, ⟨rfl, rfl⟩, (List.append_nil _).symm⟩, id⟩
  | fragment d =>
      obtain ⟨b, hb⟩ := accepts_fragmentDefinition d h
      exact ⟨.fragment b, .inr (.inl ⟨_, b, [], hb, ⟨rfl, rfl⟩, (List.append_nil _).symm⟩), id⟩

end Grammar

/-! ## Readers of whole sequences -/

namespace Parser

open GraphQL.Derivation (Derives StartsExecutable Starts StartsTypeSystem)

variable {α β γ δ : Type} {body rest : List TokenKind} {s s' : State}

/-- What the reader makes of a sequence of tokens. -/
def runTokens (p : Parser α) (input : List Token) (options : ParseOptions) :
    Except SyntaxError α :=
  (StateT.run p { tokens := input, lastEnd := none, options }).map (·.1)

theorem runTokens_eq_ok_iff {p : Parser α} {input : List Token} {options : ParseOptions} {a : α} :
    runTokens p input options = .ok a ↔ ∃ s', Reads p ⟨input, none, options⟩ a s' := by
  have hrun : runTokens p input options = (p ⟨input, none, options⟩).map (·.1) := rfl
  rw [hrun]
  unfold Reads
  cases p ⟨input, none, options⟩ with
  | error e => simp [Except.map]
  | ok result =>
      obtain ⟨b, t⟩ := result
      simp [Except.map]

/-- Reads with `item`, and after that the end of the text. -/
def toEnd (item : Parser α) : Parser α := do
  let a ← item
  expectEnd
  return a

/-- What is made of a text is what is made of its tokens. -/
theorem run_eq_runTokens (p : Parser α) (text : String) (options : ParseOptions) :
    run p text options = runTokens p (Token.all text) options := rfl

theorem parse_eq_runTokens (text : String) (options : ParseOptions) :
    Value.parse text options = runTokens (toEnd (value false maxDepth)) (Token.all text) options ∧
    Value.parseConst text options =
      runTokens (toEnd (value true maxDepth)) (Token.all text) options ∧
    TypeExpr.parse text options = runTokens (toEnd (typeExpr maxDepth)) (Token.all text) options :=
  ⟨rfl, rfl, rfl⟩

theorem reads_expectEnd {u : Unit} :
    Reads expectEnd s u s' ↔ ∃ token, Reads advance s token s' ∧ token.kind = .eof := by
  rw [expectEnd, reads_bind]
  constructor
  · rintro ⟨token, t, hpeek, h⟩
    cases looks_peek.silent hpeek
    split at h
    · next hkind =>
        obtain ⟨token', t, hadvance, hpure⟩ := reads_bind.mp h
        obtain ⟨-, rfl⟩ := reads_pure.mp hpure
        obtain ⟨hpeek', -⟩ := reads_advance.mp hadvance
        cases (reads_peek.mp hpeek).2.1.symm.trans (reads_peek.mp hpeek').2.1
        exact ⟨token, hadvance, hkind⟩
    · exact absurd h not_reads_unexpected
  · rintro ⟨token, hadvance, hkind⟩
    refine ⟨token, s, (reads_advance.mp hadvance).1, ?_⟩
    rw [hkind]
    exact reads_bind.mpr ⟨token, s', hadvance, reads_pure.mpr ⟨rfl, rfl⟩⟩

/-- What is in front of a sequence and has no end in it is in front of the end. -/
theorem exists_others {first tail : List TokenKind} (h : .eof ∉ first)
    (heq : body ++ .eof :: rest = first ++ tail) :
    ∃ others, body = first ++ others ∧ tail = others ++ .eof :: rest := by
  rcases List.append_eq_append_iff.mp heq with ⟨others, rfl, htail⟩ | ⟨others, hbody, htail⟩
  · cases others with
    | nil => exact ⟨[], by simp, htail.symm⟩
    | cons kind others =>
        obtain ⟨rfl, -⟩ := List.cons_eq_cons.mp htail
        exact absurd (List.mem_append_right _ (.head _)) h
  · exact ⟨others, hbody, htail⟩

/-- The derivation of what is read up to the end is the derivation of all in front of the end. -/
theorem derives_of_reads_toEnd [Derivation δ β] {p : Parser α} {erase : α → β} {a : α}
    (hp : Yields p fun kinds a => Derives δ maxDepth kinds (erase a))
    (heof : ∀ d : δ, .eof ∉ tokens d) (hkinds : s.kinds = body ++ .eof :: rest)
    (hend : .eof ∉ body) (hreads : Reads (toEnd p) s a s') :
    Derives δ maxDepth body (erase a) := by
  obtain ⟨a', t, ha, hreads⟩ := reads_bind.mp hreads
  obtain ⟨u, t', hexpect, hpure⟩ := reads_bind.mp hreads
  obtain ⟨rfl, rfl⟩ := reads_pure.mp hpure
  obtain ⟨token, hadvance, hkind⟩ := reads_expectEnd.mp hexpect
  obtain ⟨_, hfirst, d, rfl, hd, hle⟩ := hp ha fun _ _ => trivial
  rw [kinds_of_reads_advance hadvance, hkind, hkinds] at hfirst
  -- The end that was read is the first one, as there is none in `body`.
  obtain ⟨others, rfl, hothers⟩ := exists_others (heof d) hfirst
  cases others with
  | nil => exact ⟨d, (List.append_nil _).symm, hd, hle⟩
  | cons kind others =>
      obtain ⟨rfl, -⟩ := List.cons_eq_cons.mp hothers
      exact absurd (List.mem_append_right _ (.head _)) hend

/-- What is in the grammar is read up to the end. -/
theorem exists_reads_toEnd {p : Parser α} {bare : α → γ} {g : Grammar γ} {F : γ → TokenKind → Prop}
    {b : γ} (hp : Follows p bare g F) (hF : ∀ b, F b .eof) (hclean : s.Clean)
    (hkinds : s.kinds = body ++ .eof :: rest) (hbody : g body b) :
    ∃ a s', Reads (toEnd p) s a s' ∧ bare a = b := by
  obtain ⟨a, t, ha, hbare, ht⟩ := hp.complete hclean hkinds hbody (hF b) trivial
  obtain ⟨token, hpeek, hkind⟩ := reads_peek_of_kinds ht (clean_of_suffix hclean hkinds ht)
  exact ⟨a, t.next token, reads_bind.mpr ⟨a, t, ha, reads_bind.mpr ⟨(), _, reads_expectEnd.mpr
    ⟨token, reads_advance.mpr ⟨hpeek, rfl⟩, hkind⟩, reads_pure.mpr ⟨rfl, rfl⟩⟩⟩, hbare⟩

theorem exists_reads_toEnd_of_accepts {p : Parser α} {bare : α → γ} {g : Grammar γ}
    {F : γ → TokenKind → Prop} (hp : Follows p bare g F) (hF : ∀ b, F b .eof) (hclean : s.Clean)
    (hkinds : s.kinds = body ++ .eof :: rest) (hbody : g.Accepts body) :
    ∃ a s', Reads (toEnd p) s a s' := by
  obtain ⟨b, hb⟩ := hbody
  obtain ⟨a, s', hreads, -⟩ := exists_reads_toEnd hp hF hclean hkinds hb
  exact ⟨a, s', hreads⟩

/-! ## Documents -/

/-- There is no definition at the end. -/
theorem ne_eof_of_reads_definition {d : Definition} (hreads : Reads definition s d s') :
    s.kinds ≠ .eof :: rest := by
  intro hkinds
  obtain ⟨first, hfirst, hd⟩ := follows_definition.sound hreads fun _ _ => trivial
  refine ne_eof_definition (F := Anything) _ _ .eof hd trivial ?_
  cases first with
  | nil => rfl
  | cons kind first =>
      rw [hkinds] at hfirst
      exact (List.cons_eq_cons.mp hfirst).1.symm

/-- The first definition is read as a derivation of the first tokens, and what is left starts as
executable definitions again. -/
theorem derives_of_reads_definition {d : Definition} (hkinds : s.kinds = body ++ .eof :: rest)
    (hstarts : StartsExecutable body) (hreads : Reads definition s d s') :
    ∃ first others, body = first ++ others ∧
      Derives Derivation.Definition maxDepth first d.unplaced ∧
        s'.kinds = others ++ .eof :: rest ∧ StartsExecutable others := by
  have hhead : ∀ kind ∈ s.kinds.head?, ¬StartsTypeSystem kind := by
    rw [hkinds]
    cases body with
    | nil =>
        rintro _ ⟨⟩
        exact id
    | cons kind body =>
        rintro _ ⟨⟩
        exact hstarts [] kind body rfl
  obtain ⟨_, hfirst, e, rfl, he, hle⟩ := yields_definition hreads hhead
  rw [hkinds] at hfirst
  obtain ⟨others, rfl, hothers⟩ := exists_others e.eof_notMem hfirst
  refine ⟨_, others, rfl, ⟨e, rfl, he, hle⟩, hothers, fun ds next tail heq => ?_⟩
  refine hstarts (e :: ds) next tail ?_
  rw [heq, ← List.append_assoc]
  rfl

theorem derives_of_reads_definitions (fuel : ℕ) : ∀ {s s' : State} {body : List TokenKind}
    {as : List Definition}, s.kinds = body ++ .eof :: rest → .eof ∉ body → StartsExecutable body →
      Reads (definitions fuel) s as s' →
      Derives (List Derivation.Definition) maxDepth body (as.map Definition.unplaced) := by
  induction fuel with
  | zero => exact fun _ _ _ hreads => absurd hreads not_reads_unexpected
  | succ fuel ih =>
      intro s s' body as hkinds hend hstarts hreads
      rw [definitions_succ] at hreads
      obtain ⟨token, t, hpeek, hrest⟩ := reads_bind.mp hreads
      cases looks_peek.silent hpeek
      have hhead := kinds_of_reads_peek hpeek
      split at hrest
      · next hkind =>
          obtain ⟨rfl, -⟩ := reads_pure.mp hrest
          cases body with
          | nil => exact .nil
          | cons kind body =>
              rw [hkinds, hkind] at hhead
              cases hhead
              exact absurd (.head _) hend
      · obtain ⟨a, t, ha, hrest⟩ := reads_bind.mp hrest
        obtain ⟨as, u, has, hpure⟩ := reads_bind.mp hrest
        obtain ⟨rfl, -⟩ := reads_pure.mp hpure
        obtain ⟨first, others, rfl, hfirst, hothers, hstarts'⟩ :=
          derives_of_reads_definition hkinds hstarts ha
        exact hfirst.cons (ih hothers (fun h => hend (List.mem_append_right _ h)) hstarts' has)

theorem derives_of_reads_document {document : Document} (hkinds : s.kinds = body ++ .eof :: rest)
    (hend : .eof ∉ body) (hstarts : StartsExecutable body)
    (hreads : Reads Parser.document s document s') :
    Derives Derivation.Document maxDepth body document.unplaced := by
  obtain ⟨d, t, ds, fuel, hd, hds, hdefinitions⟩ := reads_definitions_of_document hreads
  obtain ⟨_, others, rfl, ⟨e, rfl, he, hle⟩, hothers, hstarts'⟩ :=
    derives_of_reads_definition hkinds hstarts hd
  obtain ⟨es, rfl, hes, hles⟩ := derives_of_reads_definitions fuel hothers
    (fun h => hend (List.mem_append_right _ h)) hstarts' hds
  refine ⟨⟨e, es⟩, rfl, ?_, Nat.max_le.mpr ⟨hle, hles⟩⟩
  rw [Document.unplaced, hdefinitions]
  exact congrArg (Document.mk · none none) (congrArg₂ List.cons he hes)

/-- What an executable definition starts with can come after any definition. -/
theorem separate_of_starts {kind : TokenKind} (h : Starts kind) : Separate kind := by
  rcases h with rfl | ⟨word, hword, rfl⟩
  · exact ⟨Grammar.apart_mark (by decide), nofun⟩
  · refine ⟨Grammar.apart_of_name rfl, fun heq => ?_⟩
    rw [TokenKind.name.inj heq] at hword
    exact absurd hword (by decide)

/-- What comes after an executable definition is the next one, or the end. -/
theorem exists_next (ds : List Derivation.Definition) (rest : List TokenKind) :
    ∃ next tail, tokens ds ++ .eof :: rest = next :: tail ∧ Separate next := by
  cases ds with
  | nil => exact ⟨.eof, rest, rfl, ⟨fun _ _ => nofun, nofun⟩⟩
  | cons d ds =>
      obtain ⟨kind, kinds, hd, hkind⟩ := Derivation.Definition.opens d
      refine ⟨kind, kinds ++ (tokens ds ++ .eof :: rest), ?_, separate_of_starts hkind⟩
      change (tokens d ++ tokens ds) ++ _ = _
      rw [hd, List.append_assoc]
      rfl

theorem exists_reads_definition {d : Derivation.Definition} {ds : List Derivation.Definition}
    (hle : nesting d ≤ maxDepth) (hclean : s.Clean)
    (hkinds : s.kinds = tokens d ++ (tokens ds ++ .eof :: rest)) :
    ∃ a t, Reads definition s a t ∧ t.Clean ∧ t.kinds = tokens ds ++ .eof :: rest := by
  obtain ⟨b, hb, hopen⟩ := Grammar.exists_definition d hle
  obtain ⟨next, tail, htail, hseparate⟩ := exists_next ds rest
  rw [htail] at hkinds
  obtain ⟨a, t, ha, -, ht⟩ := follows_definition.complete hclean hkinds hb
    ⟨hseparate, fun h => absurd h hopen⟩ trivial
  exact ⟨a, t, ha, clean_of_suffix hclean hkinds ht, ht.trans htail.symm⟩

theorem exists_reads_definitions (ds : List Derivation.Definition) : ∀ {s : State} {fuel : ℕ},
    nesting ds ≤ maxDepth → s.Clean → s.kinds = tokens ds ++ .eof :: rest → ds.length < fuel →
      ∃ as s', Reads (definitions fuel) s as s' := by
  induction ds with
  | nil =>
      intro s fuel _ hclean hkinds hlt
      obtain ⟨fuel, rfl⟩ := Nat.exists_eq_succ_of_ne_zero (Nat.ne_of_gt (Nat.zero_lt_of_lt hlt))
      obtain ⟨token, hpeek, hkind⟩ := reads_peek_of_kinds hkinds hclean
      refine ⟨[], s, ?_⟩
      rw [definitions_succ]
      exact reads_bind.mpr ⟨token, s, hpeek, by rw [if_pos hkind]; exact reads_pure.mpr ⟨rfl, rfl⟩⟩
  | cons d ds ih =>
      -- A definition has tokens, so what is looked at is not the end.
      intro s fuel hle hclean hkinds hlt
      obtain ⟨fuel, rfl⟩ := Nat.exists_eq_succ_of_ne_zero (Nat.ne_of_gt (Nat.zero_lt_of_lt hlt))
      obtain ⟨hd, hds⟩ := Nat.max_le.mp hle
      change s.kinds = (tokens d ++ tokens ds) ++ _ at hkinds
      rw [List.append_assoc] at hkinds
      obtain ⟨a, t, ha, hclean', ht⟩ := exists_reads_definition hd hclean hkinds
      obtain ⟨as, s', has⟩ := ih hds hclean' ht (Nat.lt_of_succ_lt_succ hlt)
      obtain ⟨token, hpeek⟩ := looks_peek.ready hclean (by rw [hkinds]; simp)
      have hne : token.kind ≠ .eof := by
        intro heof
        obtain ⟨tail, htail⟩ : ∃ tail, s.kinds = .eof :: tail :=
          ⟨_, List.eq_cons_of_mem_head? (heof ▸ kinds_of_reads_peek hpeek)⟩
        exact ne_eof_of_reads_definition ha htail
      refine ⟨a :: as, s', ?_⟩
      rw [definitions_succ]
      refine reads_bind.mpr ⟨token, s, hpeek, ?_⟩
      rw [if_neg hne]
      exact reads_bind.mpr ⟨a, t, ha, reads_bind.mpr ⟨as, s', has, reads_pure.mpr ⟨rfl, rfl⟩⟩⟩

/-- There are no more definitions than tokens. -/
theorem length_le_tokens (ds : List Derivation.Definition) : ds.length ≤ (tokens ds).length := by
  induction ds with
  | nil => exact Nat.zero_le _
  | cons d ds ih =>
      obtain ⟨kind, kinds, hd, -⟩ := Derivation.Definition.opens d
      change ds.length + 1 ≤ (tokens d ++ tokens ds).length
      rw [hd, List.length_append, List.length_cons]
      omega

theorem exists_reads_document {d : Derivation.Document} (hle : nesting d ≤ maxDepth)
    (hclean : s.Clean) (hkinds : s.kinds = tokens d ++ .eof :: rest) :
    ∃ document s', Reads Parser.document s document s' := by
  obtain ⟨d, ds⟩ := d
  obtain ⟨hd, hds⟩ := Nat.max_le.mp hle
  change s.kinds = (tokens d ++ tokens ds) ++ _ at hkinds
  rw [List.append_assoc] at hkinds
  obtain ⟨a, t, ha, hclean', ht⟩ := exists_reads_definition hd hclean hkinds
  -- The reader stops after as many definitions as there are tokens, which are enough.
  have hlength : ds.length < t.kinds.length := by
    have hle := length_le_tokens ds
    rw [ht, List.length_append, List.length_cons]
    omega
  obtain ⟨as, s', has⟩ := exists_reads_definitions ds hds hclean' ht hlength
  obtain ⟨start, hstart⟩ := looks_peek.ready hclean (by rw [hkinds]; simp)
  obtain ⟨span, hspan⟩ : ∃ span, Reads (spanFrom start.span) s' span s' :=
    ⟨_, reads_bind.mpr ⟨_, _, reads_get.mpr ⟨rfl, rfl⟩, reads_pure.mpr ⟨rfl, rfl⟩⟩⟩
  exact ⟨_, s', reads_bind.mpr ⟨start, s, hstart, reads_bind.mpr ⟨a, t, ha, reads_bind.mpr
    ⟨_, t, reads_limit.mpr ⟨rfl, rfl⟩, reads_bind.mpr ⟨as, s', has, reads_bind.mpr
      ⟨span, s', hspan, reads_pure.mpr ⟨rfl, rfl⟩⟩⟩⟩⟩⟩⟩

/-! ## Accepting what is derived -/

/-- A reader of whole sequences is in accord with the grammar on a sequence of tokens, of which
those in front of the end are `body`. -/
structure Accords (p : Parser α) (erase : α → β) (δ : Type) [Derivation δ β] (input : List Token)
    (options : ParseOptions) (body : List TokenKind) : Prop where
  /-- It succeeds on what is derived with few enough levels, and on nothing else. -/
  succeeds : (∃ a, runTokens p input options = .ok a) ↔
    ∃ d : δ, tokens d = body ∧ nesting d ≤ maxDepth
  /-- The tree that is read is the tree of the derivation. -/
  tree_eq : ∀ a, runTokens p input options = .ok a → ∀ d : δ, tokens d = body → tree d = erase a
  /-- There is one derivation at most. -/
  unique : ∀ d d' : δ, tokens d = body → tokens d' = body → d = d'

/-- A reader is in accord with the grammar if what it reads is derived, what is derived can be
read, and nothing is derived twice. -/
theorem Accords.of_derives [Derivation δ β] {p : Parser α} {erase : α → β} {input : List Token}
    {options : ParseOptions}
    (hsound : ∀ {a s'}, Reads p ⟨input, none, options⟩ a s' → Derives δ maxDepth body (erase a))
    (hcomplete : ∀ d : δ, tokens d = body → nesting d ≤ maxDepth →
      ∃ a s', Reads p ⟨input, none, options⟩ a s')
    (hinjective : Function.Injective (tokens : δ → List TokenKind)) :
    Accords p erase δ input options body where
  succeeds := by
    simp only [runTokens_eq_ok_iff]
    constructor
    · rintro ⟨a, s', hreads⟩
      obtain ⟨d, hd, -, hle⟩ := hsound hreads
      exact ⟨d, hd, hle⟩
    · rintro ⟨d, hd, hle⟩
      exact hcomplete d hd hle
  tree_eq := by
    intro a hrun d hd
    obtain ⟨s', hreads⟩ := runTokens_eq_ok_iff.mp hrun
    -- What was read has some derivation, which must be this one.
    obtain ⟨e, he, htree, -⟩ := hsound hreads
    rw [← htree, hinjective (hd.trans he.symm)]
  unique d d' hd hd' := hinjective (hd.trans hd'.symm)

/-- The readers of documents, values, constants and types accept exactly what the grammar derives, in
any sequence of tokens without errors, up to its end.  As documents can also define a type system,
which the grammar leaves out, nothing in a document may begin as such a definition. -/
theorem accepts_derived {input : List Token} (hinput : input.map (·.kind) = body ++ .eof :: rest)
    (hend : .eof ∉ body) (hclean : ∀ fault, .error fault ∉ input.map (·.kind))
    (options : ParseOptions) :
    (StartsExecutable body → Accords Parser.document Document.unplaced Derivation.Document input
      options body) ∧
    Accords (toEnd (value false maxDepth)) Value.unplaced (Derivation.Value false) input options
      body ∧
    Accords (toEnd (value true maxDepth)) Value.unplaced (Derivation.Value true) input options
      body ∧
    Accords (toEnd (typeExpr maxDepth)) TypeExpr.unplaced Derivation.TypeReference input options
      body := by
  have hvalue (constant : Bool) : Accords (toEnd (value constant maxDepth)) Value.unplaced
      (Derivation.Value constant) input options body :=
    .of_derives (derives_of_reads_toEnd (yields_value constant maxDepth)
      (fun v => v.eof_notMem) hinput hend)
      (fun d hd hle => exists_reads_toEnd_of_accepts (follows_value constant maxDepth)
        (fun _ => trivial) hclean hinput (hd ▸ Grammar.accepts_value hle))
      Derivation.Value.tokens_injective
  refine ⟨fun hstarts => ?_, hvalue false, hvalue true, ?_⟩
  · exact .of_derives (derives_of_reads_document hinput hend hstarts)
      (fun d hd hle => exists_reads_document hle hclean (hd ▸ hinput))
      Derivation.Document.tokens_injective
  · exact .of_derives (derives_of_reads_toEnd (yields_typeExpr maxDepth)
      (fun t => t.eof_notMem) hinput hend)
      (fun d hd hle => exists_reads_toEnd_of_accepts (follows_typeExpr maxDepth)
        (fun _ _ _ => nofun) hclean hinput (hd ▸ Grammar.accepts_typeExpr hle))
      Derivation.TypeReference.tokens_injective

theorem accepts_derived_shorthand :
    let d : Derivation.Document :=
      ⟨.operation (.shorthand ⟨.field ⟨none, .word "f", [], [], none⟩, []⟩), []⟩
    ∃ document, run Parser.document "{ f }" {} = .ok document ∧ document.unplaced = tree d := by
  intro d
  have htokens : tokens d = [.punctuator .braceOpen, .name "f", .punctuator .braceClose] := by
    decide +kernel
  have hinput : (Token.all "{ f }").map (·.kind) = tokens d ++ [.eof] := by decide +kernel
  obtain ⟨hdocument, -⟩ := accepts_derived hinput (by simp [htokens])
    (by simp [hinput, htokens]) {}
  obtain ⟨document, hrun⟩ := (hdocument d.startsExecutable).succeeds.mpr ⟨d, rfl, by decide +kernel⟩
  exact ⟨document, (run_eq_runTokens _ _ _).trans hrun,
    ((hdocument d.startsExecutable).tree_eq document hrun d rfl).symm⟩

end Parser

end GraphQL
