import GraphQL.Proofs.Document.Derivations
import GraphQL.Proofs.Document.Reading.Executable

/-!
# What is read is derived

Whatever a reader of executable documents reads, the grammar derives: `Yields p Q` says that `Q`
holds of the tokens that `p` takes and of the tree that it makes of them, and for each reader `Q`
is that the tree, without places, is the tree of a derivation of those tokens.  The levels that
the reader has left bound the nesting of the derivation.
-/

namespace GraphQL

namespace Derivation

variable {δ β : Type} [Derivation δ β] {depth : ℕ}

/-- The tokens are derived with the given tree, and with no more than `depth` levels. -/
def Derives (δ : Type) {β : Type} [Derivation δ β] (depth : ℕ) (kinds : List TokenKind) (b : β) :
    Prop :=
  ∃ d : δ, tokens d = kinds ∧ tree d = b ∧ nesting d ≤ depth

theorem Derives.nil : Derives (List δ) depth [] [] := ⟨[], rfl, rfl, Nat.zero_le _⟩

theorem Derives.cons {first rest : List TokenKind} {b : β} {bs : List β}
    (hfirst : Derives δ depth first b) (hrest : Derives (List δ) depth rest bs) :
    Derives (List δ) depth (first ++ rest) (b :: bs) := by
  obtain ⟨d, rfl, rfl, hd⟩ := hfirst
  obtain ⟨ds, rfl, rfl, hds⟩ := hrest
  exact ⟨d :: ds, rfl, rfl, Nat.max_le.mpr ⟨hd, hds⟩⟩

theorem nesting_le_iff {ds : List δ} : nesting ds ≤ depth ↔ ∀ d ∈ ds, nesting d ≤ depth := by
  induction ds with
  | nil => exact ⟨fun _ => nofun, fun _ => Nat.zero_le _⟩
  | cons d ds ih =>
      rw [List.forall_mem_cons, ← ih]
      exact Nat.max_le

end Derivation

namespace Parser

open GraphQL.Derivation (Derives tokens tree nesting)

variable {α β γ δ : Type} {K : TokenKind → Prop} {p : Parser α} {Q : List TokenKind → α → Prop}

/-! ## Putting readers together -/

/-- What the reader takes, and what it makes of it, is as `Q` says, if `K` holds of the next
token. -/
def YieldsAt (K : TokenKind → Prop) (p : Parser α) (Q : List TokenKind → α → Prop) : Prop :=
  ∀ ⦃s a s'⦄, Reads p s a s' → (∀ kind ∈ s.kinds.head?, K kind) →
    ∃ first, s.kinds = first ++ s'.kinds ∧ Q first a

/-- What the reader takes, and what it makes of it, is as `Q` says. -/
abbrev Yields (p : Parser α) (Q : List TokenKind → α → Prop) : Prop := YieldsAt (fun _ => True) p Q

theorem YieldsAt.restrict {L : TokenKind → Prop} (h : YieldsAt K p Q)
    (hL : ∀ kind, L kind → K kind) : YieldsAt L p Q := fun _ _ _ hreads hkind =>
  h hreads fun kind hhead => hL _ (hkind kind hhead)

theorem YieldsAt.mono {P : List TokenKind → α → Prop} (h : YieldsAt K p P)
    (hQ : ∀ first a, P first a → Q first a) : YieldsAt K p Q := fun _ _ _ hreads hkind =>
  let ⟨first, hkinds, hP⟩ := h hreads hkind
  ⟨first, hkinds, hQ first _ hP⟩

theorem YieldsAt.pure {a : α} (h : Q [] a) : YieldsAt K (pure a) Q := by
  intro s b s' hreads _
  obtain ⟨rfl, rfl⟩ := reads_pure.mp hreads
  exact ⟨[], rfl, h⟩

/-- A reader that reads nothing. -/
theorem YieldsAt.refuse (h : ∀ {s a s'}, ¬Reads p s a s') : YieldsAt K p Q :=
  fun _ _ _ hreads _ => absurd hreads h

theorem YieldsAt.bind {P : List TokenKind → γ → Prop} {q : Parser γ} {f : γ → Parser α}
    (hq : YieldsAt K q P)
    (hf : ∀ first c, P first c → Yields (f c) fun rest a => Q (first ++ rest) a) :
    YieldsAt K (q >>= f) Q := by
  intro s a s' hreads hkind
  obtain ⟨c, t, hfirst, hrest⟩ := reads_bind.mp hreads
  obtain ⟨first, hkinds, hP⟩ := hq hfirst hkind
  obtain ⟨rest, hkinds', hQ⟩ := hf first c hP hrest fun _ _ => trivial
  exact ⟨first ++ rest, by rw [hkinds, hkinds', List.append_assoc], hQ⟩

/-- A reader after a step that reads nothing. -/
theorem YieldsAt.look {q : Parser γ} {f : γ → Parser α} (hq : Looks q)
    (hf : ∀ c, YieldsAt K (f c) Q) : YieldsAt K (q >>= f) Q := by
  intro s a s' hreads hkind
  obtain ⟨c, t, hsilent, hrest⟩ := reads_bind.mp hreads
  cases hq.silent hsilent
  exact hf c hrest hkind

/-- A reader that knows the next token. -/
theorem YieldsAt.peek {f : Token → Parser α}
    (hf : ∀ token, K token.kind → YieldsAt (· = token.kind) (f token) Q) :
    YieldsAt K (peek >>= f) Q := by
  intro s a s' hreads hkind
  obtain ⟨token, t, hpeek, hrest⟩ := reads_bind.mp hreads
  cases looks_peek.silent hpeek
  have hhead := kinds_of_reads_peek hpeek
  refine hf token (hkind _ hhead) hrest fun kind hk => ?_
  rw [hhead] at hk
  exact (Option.some.inj hk).symm

/-- A reader that goes on as a test of the next token says. -/
theorem YieldsAt.test (test : TokenKind → Bool) {f : Bool → Parser α}
    (htrue : YieldsAt (fun kind => K kind ∧ test kind = true) (f true) Q)
    (hfalse : YieldsAt (fun kind => K kind ∧ test kind = false) (f false) Q) :
    YieldsAt K ((do return test (← Parser.peek).kind) >>= f) Q := by
  rw [bind_assoc]
  refine .peek fun token hK => ?_
  rw [pure_bind]
  cases htest : test token.kind with
  | true => exact htrue.restrict fun kind hkind => hkind ▸ ⟨hK, htest⟩
  | false => exact hfalse.restrict fun kind hkind => hkind ▸ ⟨hK, htest⟩

theorem yields_advance :
    YieldsAt K advance fun kinds token => kinds = [token.kind] ∧ K token.kind := by
  intro s token s' hreads hkind
  have hkinds := kinds_of_reads_advance hreads
  exact ⟨[token.kind], hkinds, rfl, hkind _ (by rw [hkinds]; rfl)⟩

theorem yields_expect (mark : Punctuator) :
    Yields (expect mark) fun kinds _ => kinds = [.punctuator mark] := by
  intro s token s' hreads _
  obtain ⟨hadvance, hkind⟩ := reads_expect.mp hreads
  exact ⟨[token.kind], kinds_of_reads_advance hadvance, by rw [hkind]⟩

theorem yields_expectKeyword (word : String) :
    Yields (expectKeyword word) fun kinds _ => kinds = [.name word] := by
  intro s token s' hreads _
  obtain ⟨hadvance, hkind⟩ := reads_expectKeyword.mp hreads
  exact ⟨[token.kind], kinds_of_reads_advance hadvance, by rw [hkind]⟩

theorem yields_atMark {mark : Punctuator} {otherwise : Parser α}
    (hp : YieldsAt (· = .punctuator mark) p Q)
    (hother : YieldsAt (· ≠ .punctuator mark) otherwise Q) :
    Yields (atMark mark p otherwise) Q :=
  .test (fun kind => decide (kind = .punctuator mark))
    (hp.restrict fun _ hkind => of_decide_eq_true hkind.2)
    (hother.restrict fun _ hkind => of_decide_eq_false hkind.2)

theorem yields_afterMark {mark : Punctuator} {otherwise : Parser α}
    (hp : Yields p fun kinds a => Q (.punctuator mark :: kinds) a) (hother : Yields otherwise Q) :
    Yields (afterMark mark p otherwise) Q := by
  rw [afterMark_eq]
  refine yields_atMark (yields_advance.bind ?_) (hother.restrict fun _ _ => trivial)
  rintro first token ⟨rfl, hkind⟩
  rw [hkind]
  exact hp

/-! ## Rows -/

section

variable [Derivation δ β] {erase : α → β} {depth : ℕ} {close mark : Punctuator}

theorem yields_itemsUntil (hp : Yields p fun kinds a => Derives δ depth kinds (erase a))
    (fuel : ℕ) :
    Yields (itemsUntil close p fuel) fun kinds as =>
      ∃ ds : List δ, kinds = tokens ds ++ [.punctuator close] ∧ tree ds = as.map erase ∧
        nesting ds ≤ depth := by
  induction fuel with
  | zero => exact .refuse not_reads_unexpected
  | succ fuel ih =>
      rw [itemsUntil_succ]
      refine yields_afterMark (.pure ⟨[], rfl, rfl, Nat.zero_le _⟩) ?_
      refine hp.bind fun first a hfirst => ih.bind fun rest as hrest => .pure ?_
      obtain ⟨d, rfl, hd, hle⟩ := hfirst
      obtain ⟨ds, rfl, hds, hles⟩ := hrest
      refine ⟨d :: ds, ?_, congrArg₂ List.cons hd hds, Nat.max_le.mpr ⟨hle, hles⟩⟩
      rw [List.append_nil, ← List.append_assoc]
      rfl

theorem yields_row (hp : Yields p fun kinds a => Derives δ depth kinds (erase a)) :
    Yields (row close p) fun kinds as =>
      ∃ ds : List δ, kinds = tokens ds ++ [.punctuator close] ∧ tree ds = as.map erase ∧
        nesting ds ≤ depth := by
  intro s as s' hreads hK
  obtain ⟨n, t, hlimit, hitems⟩ := reads_bind.mp hreads
  obtain ⟨rfl, rfl⟩ := reads_limit.mp hlimit
  exact yields_itemsUntil hp _ hitems hK

theorem yields_itemsAfter
    (hp : YieldsAt (· = .punctuator mark) p fun kinds a => Derives δ depth kinds (erase a))
    (fuel : ℕ) :
    Yields (itemsAfter mark p fuel) fun kinds as =>
      Derives (List δ) depth kinds (as.map erase) := by
  induction fuel with
  | zero => exact .pure .nil
  | succ fuel ih =>
      rw [itemsAfter_succ]
      refine yields_atMark (hp.bind fun first a hfirst => ih.bind fun rest as hrest => .pure ?_)
        (.pure .nil)
      rw [List.append_nil]
      exact hfirst.cons hrest

theorem yields_rowAfter
    (hp : YieldsAt (· = .punctuator mark) p fun kinds a => Derives δ depth kinds (erase a)) :
    Yields (rowAfter mark p) fun kinds as => Derives (List δ) depth kinds (as.map erase) := by
  intro s as s' hreads hK
  obtain ⟨n, t, hlimit, hitems⟩ := reads_bind.mp hreads
  obtain ⟨rfl, rfl⟩ := reads_limit.mp hlimit
  exact yields_itemsAfter hp _ hitems hK

theorem yields_parenthesized (hp : Yields p fun kinds a => Derives δ depth kinds (erase a)) :
    Yields (parenthesized p) fun kinds as =>
      ∃ ds : List δ,
        kinds = Derivation.parenthesized ds ∧ tree ds = as.map erase ∧ nesting ds ≤ depth := by
  refine yields_afterMark ?_ (.pure ⟨[], rfl, rfl, Nat.zero_le _⟩)
  refine hp.bind fun first a hfirst => (yields_row hp).bind fun rest as hrest => .pure ?_
  obtain ⟨d, rfl, hd, hle⟩ := hfirst
  obtain ⟨ds, rfl, hds, hles⟩ := hrest
  refine ⟨d :: ds, ?_, congrArg₂ List.cons hd hds, Nat.max_le.mpr ⟨hle, hles⟩⟩
  rw [List.append_nil, ← List.append_assoc]
  rfl

end

/-! ## Names and types -/

theorem exists_name {kind : TokenKind} {text : String} (h : nameText? kind = some text) :
    ∃ n : Derivation.Name, n.kind = kind ∧ n.tree = { text } := by
  cases kind with
  | name text' =>
      cases h
      exact ⟨.word text, rfl, rfl⟩
  | boolean b =>
      refine ⟨.boolean b, rfl, ?_⟩
      cases b <;> cases h <;> rfl
  | null =>
      cases h
      exact ⟨.null, rfl, rfl⟩
  | _ => cases h

theorem yields_name :
    YieldsAt K name fun kinds n =>
      ∃ d : Derivation.Name, kinds = [d.kind] ∧ d.tree = n.unplaced ∧ K d.kind := by
  refine .peek fun token hK => ?_
  cases htext : nameText? token.kind with
  | none => exact .refuse not_reads_unexpected
  | some text =>
      refine yields_advance.bind fun first token' hfirst =>
          .look (looks_tokenSpan _) fun _ => .pure ?_
      obtain ⟨rfl, hkind⟩ := hfirst
      obtain ⟨d, hd, htree⟩ := exists_name htext
      exact ⟨d, by rw [hd, hkind]; rfl, htree, hd ▸ hK⟩

theorem yields_namedType :
    Yields namedType fun kinds t =>
      ∃ d : Derivation.Name, kinds = [d.kind] ∧ { name := d.tree } = t.unplaced := by
  refine .look looks_peek fun _ => yields_name.bind fun first n hfirst =>
    .look (looks_spanFrom _) fun _ => .pure ?_
  obtain ⟨d, rfl, hd, -⟩ := hfirst
  exact ⟨d, rfl, congrArg (NamedType.mk · none) hd⟩

open Derivation.TypeReference (nonNullMark marked) in
theorem yields_typeExpr : ∀ depth, Yields (typeExpr depth) fun kinds t =>
    Derives Derivation.TypeReference depth kinds t.unplaced
  | 0 => .look looks_peek fun _ => .refuse not_reads_fail
  | depth + 1 => by
    -- A type is derived from its part in front of the mark, with the mark or without.
    have hcore : ∀ {start : Span}, Yields (afterMark .bracketOpen
        (do
          let item ← typeExpr depth
          let _ ← expect .bracketClose
          return TypeExpr.list item (← spanFrom start))
        (return .named (← namedType))) fun kinds t =>
          ∃ d : Bool → Derivation.TypeReference, ∀ b, tokens (d b) = kinds ++ nonNullMark b ∧
            tree (d b) = marked t.unplaced b ∧ nesting (d b) ≤ depth + 1 := by
      intro start
      refine yields_afterMark ((yields_typeExpr depth).bind fun first item hitem =>
        (yields_expect _).bind fun second _ hclose => .look (looks_spanFrom _) fun _ => .pure ?_)
        (yields_namedType.bind fun first t ht => .pure ?_)
      · obtain ⟨d, rfl, hd, hle⟩ := hitem
        refine ⟨fun b => .list d b, fun b => ⟨?_, ?_, Nat.succ_le_succ hle⟩⟩
        · rw [hclose, List.append_nil, List.cons_append, List.append_assoc]
          rfl
        · exact congrArg (fun t => marked (.list t none) b) hd
      · obtain ⟨d, rfl, hd⟩ := ht
        refine ⟨fun b => .named d b, fun b => ⟨rfl, ?_, Nat.succ_le_succ (Nat.zero_le _)⟩⟩
        exact congrArg (fun t => marked (.named t) b) hd
    refine .look looks_peek fun _ => hcore.bind fun first type htype =>
      yields_afterMark (.look (looks_spanFrom _) fun _ => .pure ?_) (.pure ?_)
    · obtain ⟨d, hd⟩ := htype
      exact ⟨d true, hd true⟩
    · obtain ⟨d, hd⟩ := htype
      exact ⟨d false, hd false⟩

/-! ## Values -/

theorem yields_variableUse : Yields variableUse fun kinds v =>
    ∃ d : Derivation.Name,
      kinds = [.punctuator .dollar, d.kind] ∧ { name := d.tree } = v.unplaced := by
  refine (yields_expect _).bind fun first _ hfirst => yields_name.bind fun second n hname =>
    .look (looks_spanFrom _) fun _ => .pure ?_
  obtain ⟨d, rfl, hd, -⟩ := hname
  exact ⟨d, by rw [hfirst]; rfl, congrArg (Variable.mk · none) hd⟩

section

variable {constant : Bool} {depth : ℕ}

theorem yields_literal {l : Derivation.Literal} {span : Span} {v : Option Span → Value}
    (hv : ∀ span, (v span).unplaced = l.tree) :
    YieldsAt (· = l.kind) (advance >>= fun _ => tokenSpan span >>= fun span => pure (v span))
      fun kinds v => Derives (Derivation.Value constant) (depth + 1) kinds v.unplaced := by
  refine yields_advance.bind fun first token hfirst =>
    .look (looks_tokenSpan _) fun span => .pure ?_
  refine ⟨.literal l, ?_, ?_, ?_⟩
  · rw [hfirst.1, hfirst.2]
    simp only [Derivation.tokens, Derivation.Value.tokens, List.append_nil]
  · rw [hv]
    simp only [Derivation.tree, Derivation.Value.tree]
  · simp only [Derivation.nesting, Derivation.Value.nesting]
    omega

theorem yields_objectField {p : Parser Value}
    (hp : Yields p fun kinds v => Derives (Derivation.Value constant) depth kinds v.unplaced) :
    Yields (do
        let start := (← peek).span
        let name ← name
        let _ ← expect .colon
        let value ← p
        return { name, value, span := ← spanFrom start : ObjectField })
      fun kinds f => Derives (Derivation.ObjectField constant) depth kinds f.unplaced := by
  refine .look looks_peek fun _ => yields_name.bind fun first n hname =>
    (yields_expect _).bind fun second _ hcolon => hp.bind fun third v hvalue =>
      .look (looks_spanFrom _) fun _ => .pure ?_
  obtain ⟨d, rfl, hd, -⟩ := hname
  obtain ⟨e, rfl, he, hle⟩ := hvalue
  refine ⟨⟨d, e⟩, ?_, ?_, ?_⟩
  · rw [hcolon, List.append_nil]
    simp only [Derivation.tokens, Derivation.ObjectField.tokens, List.singleton_append]
  · simp only [Derivation.tree, Derivation.ObjectField.tree]
    exact congrArg₂ (ObjectField.mk · · none) hd he
  · simp only [Derivation.nesting, Derivation.ObjectField.nesting]
    exact hle

theorem yields_listValue {p : Parser Value} {span : Span}
    (hp : Yields p fun kinds v => Derives (Derivation.Value constant) depth kinds v.unplaced) :
    YieldsAt (· = .punctuator .bracketOpen) (do
        let _ ← advance
        let items ← row .bracketClose p
        return Value.list items (← spanFrom span))
      fun kinds v => Derives (Derivation.Value constant) (depth + 1) kinds v.unplaced := by
  refine yields_advance.bind fun first token hfirst =>
    (yields_row hp).bind fun second items hitems =>
    .look (looks_spanFrom _) fun _ => .pure ?_
  obtain ⟨ds, rfl, hds, hle⟩ := hitems
  refine ⟨.list ds, ?_, ?_, ?_⟩
  · rw [hfirst.1, hfirst.2, List.append_nil]
    simp only [Derivation.tokens, Derivation.Value.tokens, List.cons_append, List.nil_append]
  · rw [Value.unplaced, unplacedItems_eq, ← hds]
    simp only [Derivation.tree, Derivation.Value.tree]
  · simp only [Derivation.nesting, Derivation.Value.nesting]
    exact Nat.succ_le_succ hle

theorem yields_objectValue {p : Parser ObjectField} {span : Span}
    (hp : Yields p fun kinds f =>
      Derives (Derivation.ObjectField constant) depth kinds f.unplaced) :
    YieldsAt (· = .punctuator .braceOpen) (do
        let _ ← advance
        let fields ← row .braceClose p
        return Value.object fields (← spanFrom span))
      fun kinds v => Derives (Derivation.Value constant) (depth + 1) kinds v.unplaced := by
  refine yields_advance.bind fun first token hfirst =>
    (yields_row hp).bind fun second fields hfields =>
    .look (looks_spanFrom _) fun _ => .pure ?_
  obtain ⟨ds, rfl, hds, hle⟩ := hfields
  refine ⟨.object ds, ?_, ?_, ?_⟩
  · rw [hfirst.1, hfirst.2, List.append_nil]
    simp only [Derivation.tokens, Derivation.Value.tokens, List.cons_append, List.nil_append]
  · rw [Value.unplaced, unplacedFields_eq, ← hds]
    simp only [Derivation.tree, Derivation.Value.tree]
  · simp only [Derivation.nesting, Derivation.Value.nesting]
    exact Nat.succ_le_succ hle

end

theorem yields_value (constant : Bool) : ∀ depth, Yields (value constant depth) fun kinds v =>
    Derives (Derivation.Value constant) depth kinds v.unplaced
  | 0 => .look looks_peek fun _ => .refuse not_reads_fail
  | depth + 1 => by
    refine .peek fun token _ => ?_
    cases token.kind with
    | punctuator p =>
        cases p with
        | dollar =>
            cases constant with
            | true => exact .refuse not_reads_fail
            | false =>
                refine .restrict (yields_variableUse.bind fun first v hv => .pure ?_)
                  fun _ _ => trivial
                obtain ⟨d, rfl, hd⟩ := hv
                refine ⟨.var d rfl, ?_, ?_, ?_⟩
                · simp only [Derivation.tokens, Derivation.Value.tokens, List.append_nil]
                · simp only [Derivation.tree, Derivation.Value.tree]
                  exact congrArg Value.var hd
                · simp only [Derivation.nesting, Derivation.Value.nesting]
                  omega
        | bracketOpen => exact yields_listValue (yields_value constant depth)
        | braceOpen => exact yields_objectValue (yields_objectField (yields_value constant depth))
        | _ => exact .refuse not_reads_unexpected
    | name text => exact yields_literal (l := .enum text) fun _ => rfl
    | int text => exact yields_literal (l := .int text) fun _ => rfl
    | float text => exact yields_literal (l := .float text) fun _ => rfl
    | string text => exact yields_literal (l := .string text) fun _ => rfl
    | blockString text => exact yields_literal (l := .blockString text) fun _ => rfl
    | boolean b => exact yields_literal (l := .boolean b) fun _ => rfl
    | null => exact yields_literal (l := .null) fun _ => rfl
    | eof | error fault => exact .refuse not_reads_unexpected

/-! ## Arguments and directives -/

section

variable {depth : ℕ}

theorem yields_argument : Yields (argument false depth) fun kinds a =>
    Derives Derivation.Argument depth kinds a.unplaced := by
  refine .look looks_peek fun _ => yields_name.bind fun first n hname =>
    (yields_expect _).bind fun second _ hcolon =>
      (yields_value false depth).bind fun third v hvalue =>
      .look (looks_spanFrom _) fun _ => .pure ?_
  obtain ⟨d, rfl, hd, -⟩ := hname
  obtain ⟨e, rfl, he, hle⟩ := hvalue
  exact ⟨⟨d, e⟩, by rw [hcolon, List.append_nil]; rfl, congrArg₂ (Argument.mk · · none) hd he, hle⟩

theorem yields_arguments : Yields (arguments false depth) fun kinds as =>
    ∃ ds : List Derivation.Argument, kinds = Derivation.parenthesized ds ∧
      tree ds = as.map Argument.unplaced ∧ nesting ds ≤ depth :=
  yields_parenthesized yields_argument

theorem yields_directives : Yields (directives false depth) fun kinds ds =>
    Derives (List Derivation.Directive) depth kinds (ds.map Directive.unplaced) := by
  refine yields_rowAfter (yields_advance.bind fun first token hat => yields_name.bind
    fun second n hname => yields_arguments.bind fun third as hargs =>
      .look (looks_spanFrom _) fun _ => .pure ?_)
  obtain ⟨d, rfl, hd, -⟩ := hname
  obtain ⟨es, rfl, hes, hle⟩ := hargs
  refine ⟨⟨d, es⟩, ?_, congrArg₂ (Directive.mk · · none) hd hes, hle⟩
  rw [hat.1, hat.2, List.append_nil]
  rfl

/-! ## Selections -/

theorem yields_field {p : Parser SelectionSet}
    (hp : Yields p fun kinds set => Derives Derivation.SelectionSet depth kinds set.unplaced) :
    Yields (field depth p) fun kinds f => Derives Derivation.Field depth kinds f.unplaced := by
  -- The first name has been taken, and the colon behind it tells what it is.
  have hname (first : Name) (d : Derivation.Name) (hd : d.tree = first.unplaced) :
      Yields (afterMark .colon (return (some first, ← name)) (return (none, first)))
        fun kinds names => ∃ (a : Option Derivation.Alias) (e : Derivation.Name),
          d.kind :: kinds = tokens a ++ [e.kind] ∧ tree a = names.1.map Name.unplaced ∧
            e.tree = names.2.unplaced := by
    refine yields_afterMark (yields_name.bind fun kinds n hn => .pure ?_)
      (.pure ⟨none, d, rfl, rfl, hd⟩)
    obtain ⟨e, rfl, he, -⟩ := hn
    exact ⟨some ⟨d⟩, e, rfl, congrArg some hd, he⟩
  have hbelow : Yields (atMark .braceOpen (return some (← p)) (return none)) fun kinds set =>
      Derives (Option Derivation.SelectionSet) depth kinds (set.map SelectionSet.unplaced) := by
    refine yields_atMark (.restrict (hp.bind fun kinds set hset => .pure ?_) fun _ _ => trivial)
      (.pure ⟨none, rfl, rfl, Nat.zero_le _⟩)
    obtain ⟨d, rfl, hd, hle⟩ := hset
    exact ⟨some d, (List.append_nil _).symm, congrArg some hd, hle⟩
  refine .look looks_peek fun _ => yields_name.bind fun first n hfirst => ?_
  obtain ⟨d, rfl, hd, -⟩ := hfirst
  refine (hname n d hd).bind fun second names hnames => yields_arguments.bind fun third as hargs =>
    yields_directives.bind fun fourth ds hdirectives => hbelow.bind fun fifth below hset =>
      .look (looks_spanFrom _) fun _ => .pure ?_
  obtain ⟨a, e, hkinds, ha, he⟩ := hnames
  obtain ⟨as', rfl, has, hle⟩ := hargs
  obtain ⟨ds', rfl, hds, hle'⟩ := hdirectives
  obtain ⟨below', rfl, hbelow, hle''⟩ := hset
  refine ⟨⟨a, e, as', ds', below'⟩, ?_, ?_, ?_⟩
  · refine Derivation.Field.tokens_mk.trans ?_
    rw [← hkinds]
    simp only [List.append_assoc, List.append_nil, List.nil_append, List.cons_append]
  · refine Derivation.Field.tree_mk.trans ?_
    rw [Field.unplaced, unplacedBelow_eq, ← hbelow, ← has, ← hds, ha, he]
  · refine le_of_eq_of_le Derivation.Field.nesting_mk ?_
    exact Nat.max_le.mpr ⟨Nat.max_le.mpr ⟨hle, hle'⟩, hle''⟩

theorem yields_inline {p : Parser SelectionSet}
    (hp : Yields p fun kinds set => Derives Derivation.SelectionSet depth kinds set.unplaced)
    (start : Span) (condition : Option NamedType) :
    Yields (selection.inline depth p start condition) fun kinds s =>
      ∀ c : Option Derivation.TypeCondition, tree c = condition.map NamedType.unplaced →
        Derives Derivation.Selection depth (.punctuator .ellipsis :: (tokens c ++ kinds))
          s.unplaced := by
  refine yields_directives.bind fun first ds hdirectives => hp.bind fun second set hset =>
    .look (looks_spanFrom _) fun _ => .pure fun c hc => ?_
  obtain ⟨ds', rfl, hds, hle⟩ := hdirectives
  obtain ⟨set', rfl, hset, hle'⟩ := hset
  refine ⟨.inline c ds' set', ?_, ?_, ?_⟩
  · simp only [Derivation.tokens, Derivation.Selection.tokens, List.append_assoc, List.append_nil,
      List.cons_append]
  · rw [Selection.unplaced, InlineFragment.unplaced, ← hc, ← hds, ← hset]
    simp only [Derivation.tree, Derivation.Selection.tree]
  · simp only [Derivation.nesting, Derivation.Selection.nesting]
    exact Nat.max_le.mpr ⟨hle, hle'⟩

/-- What stands behind the dots of a fragment. -/
theorem yields_fragment {p : Parser SelectionSet}
    (hp : Yields p fun kinds set => Derives Derivation.SelectionSet depth kinds set.unplaced)
    (start : Span) :
    Yields (do
        if ← peekIsKeyword "on" then
          let _ ← advance
          selection.inline depth p start (some (← namedType))
        else if ← peekIsName then
          let name ← name
          let directives ← directives false depth
          return .spread { name, directives, span := ← spanFrom start }
        else selection.inline depth p start none)
      fun kinds s =>
        Derives Derivation.Selection depth (.punctuator .ellipsis :: kinds) s.unplaced := by
  refine .test (fun kind => decide (kind = .name "on")) ?_ ?_
  · refine yields_advance.bind fun first token hon => yields_namedType.bind fun second t ht =>
      (yields_inline hp start (some t)).mono fun rest s hs => ?_
    obtain ⟨rfl, -, hon⟩ := hon
    obtain ⟨d, rfl, hd⟩ := ht
    rw [of_decide_eq_true hon]
    exact hs (some ⟨d⟩) (congrArg some hd)
  refine .test (fun kind => (nameText? kind).isSome) ?_ ?_
  · refine yields_name.bind fun first n hname => yields_directives.bind fun second ds hdirectives =>
      .look (looks_spanFrom _) fun _ => .pure ?_
    obtain ⟨d, rfl, hd, ⟨-, hne⟩, -⟩ := hname
    obtain ⟨ds', rfl, hds, hle⟩ := hdirectives
    -- The keyword was looked for first.
    have hd_ne : d ≠ .word "on" := by
      rintro rfl
      exact of_decide_eq_false hne rfl
    refine ⟨.spread ⟨d, hd_ne⟩ ds', ?_, ?_, ?_⟩
    · rw [List.append_nil]
      simp only [Derivation.tokens, Derivation.Selection.tokens, List.singleton_append]
    · simp only [Derivation.tree, Derivation.Selection.tree, Selection.unplaced]
      exact congrArg Selection.spread (congrArg₂ (FragmentSpread.mk · · none) hd hds)
    · simp only [Derivation.nesting, Derivation.Selection.nesting]
      exact hle
  · exact .restrict (.mono (yields_inline hp start none) fun _ _ hs => hs none rfl)
      fun _ _ => trivial

theorem yields_selection {p : Parser SelectionSet}
    (hp : Yields p fun kinds set => Derives Derivation.SelectionSet depth kinds set.unplaced) :
    Yields (selection depth p) fun kinds s =>
      Derives Derivation.Selection depth kinds s.unplaced := by
  refine .test (fun kind => decide (kind = .punctuator .ellipsis)) ?_ ?_
  · refine yields_advance.bind fun first token hdots => ?_
    obtain ⟨rfl, -, hdots⟩ := hdots
    rw [of_decide_eq_true hdots]
    exact yields_fragment hp token.span
  · refine .restrict ((yields_field hp).bind fun first f hf => .pure ?_) fun _ _ => trivial
    obtain ⟨d, rfl, hd, hle⟩ := hf
    refine ⟨.field d, ?_, ?_, ?_⟩
    · simp only [Derivation.tokens, Derivation.Selection.tokens, List.append_nil]
    · rw [Selection.unplaced, ← hd]
      simp only [Derivation.tree, Derivation.Selection.tree]
    · simp only [Derivation.nesting, Derivation.Selection.nesting]
      exact hle

/-- A selection set has at least one selection. -/
theorem yields_selections {p : Parser Selection}
    (hp : Yields p fun kinds s => Derives Derivation.Selection depth kinds s.unplaced) :
    Yields (selections p) fun kinds ss => ∃ d : List Derivation.Selection, d ≠ [] ∧
      kinds = tokens d ++ [.punctuator .braceClose] ∧ tree d = ss.map Selection.unplaced ∧
        nesting d ≤ depth := by
  refine .peek fun token _ => ?_
  split
  · exact .refuse not_reads_fail
  · next hne =>
      intro s ss s' hreads hkind
      obtain ⟨first, hkinds, ds, rfl, hds, hle⟩ := yields_row hp hreads fun _ _ => trivial
      refine ⟨_, hkinds, ds, ?_, rfl, hds, hle⟩
      rintro rfl
      exact hne (hkind _ (by rw [hkinds]; rfl)).symm

theorem yields_selectionSet : ∀ depth, Yields (selectionSet depth) fun kinds set =>
    Derives Derivation.SelectionSet depth kinds set.unplaced
  | 0 => .look looks_peek fun _ => .refuse not_reads_fail
  | depth + 1 => by
    refine (yields_expect _).bind fun first token hbrace => (yields_selections (yields_selection
      (yields_selectionSet depth))).bind fun second ss hselections =>
        .look (looks_spanFrom _) fun _ => .pure ?_
    obtain ⟨ds, hne, rfl, hds, hle⟩ := hselections
    obtain ⟨d, ds, rfl⟩ := List.exists_cons_of_ne_nil hne
    refine ⟨⟨d, ds⟩, ?_, ?_, ?_⟩
    · rw [hbrace, List.append_nil]
      simp only [Derivation.tokens, Derivation.SelectionSet.tokens, List.flatMap_cons,
        List.cons_append, List.nil_append]
    · rw [SelectionSet.unplaced, unplacedSelections_eq, ← hds]
      simp only [Derivation.tree, Derivation.SelectionSet.tree, List.map_cons]
    · simp only [Derivation.nesting, Derivation.SelectionSet.nesting]
      exact Nat.succ_le_succ hle

end

/-! ## Executable definitions -/

theorem keyword_of_ofKeyword? {word : String} {o : OperationKind}
    (h : OperationKind.ofKeyword? word = some o) : o.keyword = word := by
  unfold OperationKind.ofKeyword? at h
  split at h <;> cases h <;> rfl

theorem yields_operationKind :
    Yields operationKind fun kinds o => kinds = [.name o.keyword] := by
  refine .peek fun token _ => ?_
  change YieldsAt _ (passKeyword (Grammar.operationKind? token.kind)) _
  cases hread : Grammar.operationKind? token.kind with
  | none => exact .refuse not_reads_unexpected
  | some o =>
      refine yields_advance.bind fun first token' hfirst => .pure ?_
      obtain ⟨rfl, hkind⟩ := hfirst
      rw [hkind, List.append_nil]
      cases hname : token.kind with
      | name word =>
          rw [hname] at hread
          rw [keyword_of_ofKeyword? hread]
      | _ =>
          rw [hname] at hread
          cases hread

theorem yields_defaultValue : Yields defaultValue fun kinds v =>
    Derives (Option Derivation.DefaultValue) maxDepth kinds (v.map Value.unplaced) := by
  refine yields_afterMark ((yields_value true maxDepth).bind fun kinds v hvalue => .pure ?_)
    (.pure ⟨none, rfl, rfl, Nat.zero_le _⟩)
  obtain ⟨d, rfl, hd, hle⟩ := hvalue
  exact ⟨some ⟨d⟩, by rw [List.append_nil]; rfl, congrArg some hd, hle⟩

theorem yields_variableDefinition : Yields variableDefinition fun kinds d =>
    Derives Derivation.VariableDefinition maxDepth kinds d.unplaced := by
  refine .look looks_peek fun _ => yields_variableUse.bind fun first v hv =>
    (yields_expect _).bind fun second _ hcolon => (yields_typeExpr maxDepth).bind fun third t ht =>
      yields_defaultValue.bind fun fourth value hvalue => .look (looks_spanFrom _) fun _ => .pure ?_
  obtain ⟨n, rfl, hn⟩ := hv
  obtain ⟨t', rfl, ht, hle⟩ := ht
  obtain ⟨w, rfl, hw, hle'⟩ := hvalue
  refine ⟨⟨n, t', w⟩, ?_, ?_, Nat.max_le.mpr ⟨hle, hle'⟩⟩
  · rw [hcolon, List.append_nil]
    rfl
  · exact congr (congrArg₂ (VariableDefinition.mk · · · none) hn ht) hw

theorem yields_optionalName : Yields optionalName fun kinds n =>
    ∃ d : Option Derivation.Name, kinds = tokens d ∧ tree d = n.map Name.unplaced := by
  refine .test (fun kind => (nameText? kind).isSome) ?_ (.pure ⟨none, rfl, rfl⟩)
  refine .restrict (yields_name.bind fun first n hname => .pure ?_) fun _ _ => trivial
  obtain ⟨d, rfl, hd, -⟩ := hname
  exact ⟨some d, rfl, congrArg some hd⟩

theorem yields_operationDefinition : Yields operationDefinition fun kinds d =>
    Derives Derivation.OperationDefinition maxDepth kinds d.unplaced := by
  refine .look looks_peek fun _ => yields_atMark (.restrict ((yields_selectionSet maxDepth).bind
    fun first set hset => .look (looks_spanFrom _) fun _ => .pure ?_) fun _ _ => trivial)
    (.restrict (yields_operationKind.bind fun first o ho => yields_optionalName.bind
      fun second n hname => (yields_parenthesized yields_variableDefinition).bind
        fun third vs hvariables => yields_directives.bind fun fourth ds hdirectives =>
          (yields_selectionSet maxDepth).bind fun fifth set hset => .look (looks_spanFrom _)
            fun _ => .pure ?_) fun _ _ => trivial)
  · obtain ⟨d, rfl, hd, hle⟩ := hset
    refine ⟨.shorthand d, (List.append_nil _).symm, ?_, hle⟩
    exact congrArg (OperationDefinition.mk .query none [] [] · none) hd
  · obtain ⟨n', rfl, hn⟩ := hname
    obtain ⟨vs', rfl, hvs, hle⟩ := hvariables
    obtain ⟨ds', rfl, hds, hle'⟩ := hdirectives
    obtain ⟨set', rfl, hset, hle''⟩ := hset
    refine ⟨.headed o n' vs' ds' set', ?_, ?_, ?_⟩
    · rw [ho]
      simp only [Derivation.tokens, List.append_assoc, List.append_nil, List.cons_append,
        List.nil_append]
    · change OperationDefinition.mk o (tree n') (tree vs') (tree ds') (tree set') none = _
      rw [hn, hvs, hds, hset]
      rfl
    · exact Nat.max_le.mpr ⟨Nat.max_le.mpr ⟨hle, hle'⟩, hle''⟩

theorem yields_fragmentDefinition : Yields fragmentDefinition fun kinds d =>
    Derives Derivation.FragmentDefinition maxDepth kinds d.unplaced := by
  have hdefined : Yields fragmentName fun kinds n => ∃ d : Derivation.FragmentName,
      kinds = [d.name.kind] ∧ d.name.tree = n.unplaced := by
    refine .peek fun token _ => ?_
    split
    · exact .refuse not_reads_fail
    · next hne =>
        refine yields_name.mono fun kinds n hname => ?_
        obtain ⟨d, rfl, hd, hkind⟩ := hname
        refine ⟨⟨d, ?_⟩, rfl, hd⟩
        rintro rfl
        exact hne hkind.symm
  refine (yields_expectKeyword _).bind fun first _ hword => hdefined.bind fun second n hname =>
    (yields_expectKeyword _).bind fun third _ hon => yields_namedType.bind fun fourth t ht =>
      yields_directives.bind fun fifth ds hdirectives => (yields_selectionSet maxDepth).bind
        fun sixth set hset => .look (looks_spanFrom _) fun _ => .pure ?_
  obtain ⟨n', rfl, hn⟩ := hname
  obtain ⟨t', rfl, ht⟩ := ht
  obtain ⟨ds', rfl, hds, hle⟩ := hdirectives
  obtain ⟨set', rfl, hset, hle'⟩ := hset
  refine ⟨⟨n', ⟨t'⟩, ds', set'⟩, ?_, ?_, Nat.max_le.mpr ⟨hle, hle'⟩⟩
  · rw [hword, hon]
    simp only [Derivation.tokens, List.append_nil, List.cons_append, List.nil_append]
  · change FragmentDefinition.mk n'.name.tree { name := t'.tree } (tree ds') (tree set') none = _
    rw [hn, ht, hds, hset]
    rfl

/-- What does not begin as a definition of a type system is read as an executable one. -/
theorem yields_definition : YieldsAt (¬Derivation.StartsTypeSystem ·) definition fun kinds d =>
    Derives Derivation.Definition maxDepth kinds d.unplaced := by
  have hoperation : Yields (operationDefinition >>= fun d => pure (Definition.operation d))
      fun kinds d => Derives Derivation.Definition maxDepth kinds d.unplaced := by
    refine yields_operationDefinition.bind fun kinds d hd => .pure ?_
    obtain ⟨e, rfl, he, hle⟩ := hd
    exact ⟨.operation e, (List.append_nil _).symm, congrArg Definition.operation he, hle⟩
  have hfragment : Yields (fragmentDefinition >>= fun d => pure (Definition.fragment d))
      fun kinds d => Derives Derivation.Definition maxDepth kinds d.unplaced := by
    refine yields_fragmentDefinition.bind fun kinds d hd => .pure ?_
    obtain ⟨e, rfl, he, hle⟩ := hd
    exact ⟨.fragment e, (List.append_nil _).symm, congrArg Definition.fragment he, hle⟩
  refine .peek fun token hstarts => .restrict (K := fun _ => True) ?_ fun _ _ => trivial
  generalize token.kind = kind at hstarts
  cases kind with
  | string text => exact absurd trivial hstarts
  | blockString text => exact absurd trivial hstarts
  | punctuator mark =>
      cases mark with
      | braceOpen => exact hoperation
      | _ => exact .refuse not_reads_unexpected
  | name word =>
      have hword : word ∉ typeSystemKeywords := hstarts
      dsimp only
      rw [if_neg hword]
      split
      · exact hoperation
      · split
        · exact hfragment
        · exact .refuse not_reads_unexpected
  | _ => exact .refuse not_reads_unexpected

end Parser

end GraphQL
