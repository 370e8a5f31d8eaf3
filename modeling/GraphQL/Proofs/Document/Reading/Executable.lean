import GraphQL.Proofs.Document.Reading.Following

/-!
# What the readers of operations and fragments read

Each reader of a part of the language follows the grammar of that part: names, types, values,
arguments and directives, selections, operations and fragments.  The follow condition of a part
lists the marks that it could go on with, such as the parenthesis of an argument list.
-/

namespace GraphQL

namespace Parser

open Grammar

variable {α β : Type} {K S : TokenKind → Prop}

/-! ## Names and types -/

/-- A part that is one token, of which the span is noted. -/
theorem follows_token {read? : TokenKind → Option β} {bare : α → β} {b : β} {f : Token → Parser α}
    (hread : ∀ kind, K kind → read? kind = some b)
    (hf : ∀ token, Follows (f token) bare (pure b) Anything) :
    FollowsAt K (advance >>= f) bare (token read?) Anything := by
  rw [← bind_pure (token read?)]
  exact (follows_advance hread).andThen hf

theorem begins_name {F : Name → TokenKind → Prop} (h : ∀ kind, (nameText? kind).isSome → S kind) :
    Grammar.name.Begins F S :=
  begins_token fun kind n hread => h kind (by
    obtain ⟨text, htext, -⟩ := Option.map_eq_some_iff.mp hread
    rw [htext]
    rfl)

theorem ne_mark_of_name {kind : TokenKind} {p : Punctuator} (h : (nameText? kind).isSome) :
    kind ≠ .punctuator p := by
  rintro rfl
  cases h

theorem follows_name : Follows name Name.bare Grammar.name Anything := by
  refine .peek fun token => ?_
  cases htext : nameText? token.kind with
  | none =>
      refine .refuse not_reads_unexpected (begins_name fun kind hkind hnext => ?_)
      rw [hnext.2, htext] at hkind
      cases hkind
  | some text =>
      refine follows_token (b := { text }) (fun kind hkind => ?_) fun _ =>
        .look (looks_tokenSpan _) fun _ => .pure rfl
      rw [hkind.2, htext]
      rfl

theorem nameBut_eq (excluded : String → Prop) [DecidablePred excluded] :
    nameBut excluded =
      (Grammar.name >>= fun n => if excluded n.text then never else pure n) := by
  funext kinds n
  refine propext ⟨?_, ?_⟩
  · rintro ⟨kind, rfl, hread⟩
    obtain ⟨text, htext, hread⟩ := Option.bind_eq_some_iff.mp hread
    refine ⟨[kind], { text }, [], 
      ⟨kind, rfl, Option.map_eq_some_iff.mpr ⟨text, htext, rfl⟩⟩, ?_, rfl⟩
    split at hread
    · cases hread
    · next hkept =>
        rw [if_neg hkept]
        exact ⟨rfl, (Option.some.inj hread).symm⟩
  · rintro ⟨first, m, rest, ⟨kind, rfl, hread⟩, hrest, rfl⟩
    obtain ⟨text, htext, rfl⟩ := Option.map_eq_some_iff.mp hread
    split at hrest
    · cases hrest
    · next hkept =>
        obtain ⟨rfl, rfl⟩ := hrest
        exact ⟨kind, rfl, Option.bind_eq_some_iff.mpr ⟨text, htext, if_neg hkept⟩⟩

theorem begins_nameBut {excluded : String → Prop} [DecidablePred excluded]
    {F : Name → TokenKind → Prop} (h : ∀ kind, (nameText? kind).isSome → S kind) :
    (nameBut excluded).Begins F S :=
  begins_token fun kind n hread => by
    obtain ⟨text, htext, -⟩ := Option.bind_eq_some_iff.mp hread
    exact h kind (by rw [htext]; rfl)

/-- A name of which some are an error. -/
theorem follows_nameBut (excluded : String → Prop) [DecidablePred excluded]
    {fault : String → SyntaxFault} {span : Span} :
    Follows (name >>= fun n => if excluded n.text then fail (fault n.text) span else pure n)
      Name.bare (nameBut excluded) Anything := by
  rw [nameBut_eq]
  refine follows_name.andThen fun n => ?_
  change Follows _ _ (if excluded n.text then _ else _) _
  split
  · exact .refuse not_reads_fail fun _ _ _ h => h.elim
  · exact .pure rfl

theorem follows_namedType : Follows namedType NamedType.bare Grammar.namedType Anything :=
  .look looks_peek fun _ => follows_name.andThen fun _ => .look (looks_spanFrom _) fun _ => .pure rfl

/-- The reader of a type before it looks for the mark behind it. -/
def nullableType (start : Span) (item : Parser TypeExpr) : Parser TypeExpr :=
  afterMark .bracketOpen
    (do
      let item ← item
      let _ ← expect .bracketClose
      return .list item (← spanFrom start))
    (return .named (← namedType))

theorem follows_nullableType {item : Parser TypeExpr} {g : Grammar TypeExpr}
    (hitem : Follows item TypeExpr.bare g (NoMark [.bang])) (start : Span) :
    Follows (nullableType start item) TypeExpr.bare
      ((do
        Grammar.mark .bracketOpen
        let item ← g
        Grammar.mark .bracketClose
        return .list item none) <|>
      (return .named (← Grammar.namedType))) Anything := by
  refine follows_afterMark ?_ ?_ (begins_name fun _ => ne_mark_of_name).andThen.andThen
  · exact hitem.bind (fun item => (follows_expect _).andThen fun _ =>
      .look (looks_spanFrom _) fun _ => .pure rfl) fun _ => begins_after_mark (apart_mark (by decide))
  · exact .restrict (follows_namedType.andThen fun _ => .pure rfl) fun _ _ => trivial

theorem follows_typeExpr : ∀ depth, Follows (typeExpr depth) TypeExpr.bare
    (Grammar.typeExpr depth) (NoMark [.bang])
  | 0 => .look looks_peek fun _ => .refuse not_reads_fail fun _ _ _ h => h.elim
  | depth + 1 => .look looks_peek fun token =>
    (follows_nullableType (follows_typeExpr depth) token.span).andThen fun _ =>
      follows_afterMark (.look (looks_spanFrom _) fun _ => .pure rfl) (.pure rfl)
        (begins_pure fun _ h => h _ (.head _))

/-! ## Values -/

theorem follows_variableUse : Follows variableUse Variable.bare Grammar.variableUse Anything :=
  (follows_expect _).andThen fun _ => follows_name.andThen fun _ =>
    .look (looks_spanFrom _) fun _ => .pure rfl

/-- A variable, where the grammar of values has one. -/
theorem begins_variable {constant : Bool} {F : Value → TokenKind → Prop}
    (h : S (.punctuator .dollar)) :
    Begins (if constant then never else return .var (← Grammar.variableUse)) F S := by
  split
  · exact fun _ _ _ h => h.elim
  · exact (begins_after_mark h).andThen

theorem begins_value {constant : Bool} {F : Value → TokenKind → Prop}
    (hliteral : ∀ kind, (literal? kind).isSome → S kind) (hdollar : S (.punctuator .dollar))
    (hbracket : S (.punctuator .bracketOpen)) (hbrace : S (.punctuator .braceOpen)) :
    ∀ depth, (Grammar.value constant depth).Begins F S
  | 0 => fun _ _ _ h => h.elim
  | _ + 1 => begins_orElse (begins_token fun kind _ h => hliteral kind (by rw [h]; rfl))
    (begins_orElse (begins_variable hdollar)
      (begins_orElse (begins_after_mark hbracket) (begins_after_mark hbrace)))

theorem not_mark_of_literal {kind : TokenKind} {p : Punctuator} (h : (literal? kind).isSome) :
    kind ≠ .punctuator p := by
  rintro rfl
  cases h

theorem follows_literal {kind : TokenKind} {constant : Bool} {depth : ℕ} {span : Span} {b : Value}
    {v : Option Span → Value} (hread : literal? kind = some b) (hbare : ∀ span, (v span).bare = b) :
    FollowsAt (· = kind) (advance >>= fun _ => tokenSpan span >>= fun span => pure (v span))
      Value.bare (Grammar.value constant (depth + 1)) Anything := by
  have hmark {p : Punctuator} : ¬.punctuator p = kind := by
    rintro rfl
    cases hread
  exact .left (follows_token (fun _ heq => heq ▸ hread) fun _ =>
    .look (looks_tokenSpan _) fun _ => .pure (hbare _))
    (begins_orElse (begins_variable hmark)
      (begins_orElse (begins_after_mark hmark) (begins_after_mark hmark)))

theorem follows_objectField {p : Parser Value} {g : Grammar Value}
    (hp : Follows p Value.bare g Anything) :
    Follows (do
        let start := (← peek).span
        let name ← name
        let _ ← expect .colon
        let value ← p
        return { name, value, span := ← spanFrom start : ObjectField })
      ObjectField.bare (Grammar.objectField g) Anything :=
  .look looks_peek fun _ => follows_name.andThen fun _ => (follows_expect _).andThen fun _ =>
    hp.andThen fun _ => .look (looks_spanFrom _) fun _ => .pure rfl

theorem follows_value (constant : Bool) : ∀ depth, Follows (value constant depth) Value.bare
    (Grammar.value constant depth) Anything
  | 0 => .look looks_peek fun _ => .refuse not_reads_fail fun _ _ _ h => h.elim
  | depth + 1 => by
    have hmark (p : Punctuator) : (token literal?).Begins (Anything (β := Value))
        (¬· = .punctuator p) := begins_token fun kind _ h => not_mark_of_literal (by rw [h]; rfl)
    -- The next token decides which form is read, and the other forms do not begin with it.
    refine .peek fun token => .restrict (K := (· = token.kind)) ?_ fun kind hkind => hkind.2
    cases token.kind with
    | punctuator p =>
        cases p with
        | dollar =>
            cases constant with
            | true =>
                exact .refuse not_reads_fail (begins_orElse (hmark _) (begins_orElse
                  (fun _ _ _ h => h.elim) (begins_orElse (begins_after_mark nofun)
                    (begins_after_mark nofun))))
            | false =>
                refine .right (.left (.restrict (follows_variableUse.andThen fun _ => .pure rfl)
                  fun _ _ => trivial) ?_) (hmark _)
                exact begins_orElse (begins_after_mark nofun) (begins_after_mark nofun)
        | bracketOpen =>
            have hitems : Follows (row .bracketClose (value constant depth)) (List.map Value.bare)
                (Grammar.row .bracketClose (Grammar.value constant depth)) Anything :=
              follows_row (follows_value constant depth) (begins_value
                (fun _ h => ⟨not_mark_of_literal h, fun _ => trivial⟩) ⟨nofun, fun _ => trivial⟩
                ⟨nofun, fun _ => trivial⟩ ⟨nofun, fun _ => trivial⟩ depth) fun _ => trivial
            refine .right (.right (.left ((follows_mark _).andThen fun _ => hitems.andThen fun items =>
              .look (looks_spanFrom _) fun _ => .pure ?_) (begins_after_mark nofun))
              (begins_variable nofun)) (hmark _)
            rw [Value.bare, bareItems_eq]
        | braceOpen =>
            have hfields : Follows (row .braceClose _) (List.map ObjectField.bare)
                (Grammar.row .braceClose (Grammar.objectField (Grammar.value constant depth)))
                Anything :=
              follows_row (follows_objectField (follows_value constant depth))
                (begins_name fun _ h => ⟨ne_mark_of_name h, fun _ => trivial⟩).andThen
                fun _ => trivial
            refine .right (.right (.right ((follows_mark _).andThen fun _ => hfields.andThen
              fun fields => .look (looks_spanFrom _) fun _ => .pure ?_) (begins_after_mark nofun))
              (begins_variable nofun)) (hmark _)
            rw [Value.bare, bareFields_eq]
        | _ =>
            refine .refuse not_reads_unexpected
              (begins_value (fun _ => not_mark_of_literal) ?_ ?_ ?_ _) <;> nofun
    | name text => exact follows_literal rfl fun _ => rfl
    | int text => exact follows_literal rfl fun _ => rfl
    | float text => exact follows_literal rfl fun _ => rfl
    | string text => exact follows_literal rfl fun _ => rfl
    | blockString text => exact follows_literal rfl fun _ => rfl
    | boolean b => exact follows_literal rfl fun _ => rfl
    | null => exact follows_literal rfl fun _ => rfl
    | eof | error fault =>
        refine .refuse not_reads_unexpected (begins_value ?_ nofun nofun nofun _)
        rintro kind h rfl
        cases h

/-! ## Arguments and directives -/

section

variable {p : Parser α} {bare : α → β} {g : Grammar β} {F : β → TokenKind → Prop}

/-- A part in parentheses begins with no other mark. -/
theorem apart_parenthesized {marks : List Punctuator} (h : .parenOpen ∉ marks) :
    (Grammar.parenthesized g).Begins (NoMark marks) (Apart marks) :=
  begins_orElse (begins_after_mark (apart_mark h)) (begins_pure fun _ => id)

theorem apart_braced {marks : List Punctuator} (h : .braceOpen ∉ marks) :
    (Grammar.braced g).Begins (NoMark marks) (Apart marks) :=
  begins_orElse (begins_after_mark (apart_mark h)) (begins_pure fun _ => id)

theorem follows_parenthesized (hp : Follows p bare g F)
    (hbegins : g.Begins Anything fun kind => kind ≠ .punctuator .parenClose ∧ ∀ b, F b kind)
    (hclose : ∀ b, F b (.punctuator .parenClose)) :
    Follows (parenthesized p) (List.map bare) (Grammar.parenthesized g) (NoMark [.parenOpen]) :=
  (follows_enclosed hp hbegins hclose).mono fun _ _ h _ => h _ (.head _)

theorem follows_braced (hp : Follows p bare g F)
    (hbegins : g.Begins Anything fun kind => kind ≠ .punctuator .braceClose ∧ ∀ b, F b kind)
    (hclose : ∀ b, F b (.punctuator .braceClose)) :
    Follows (braced p) (List.map bare) (Grammar.braced g)
      (fun bs next => bs = [] → next ≠ .punctuator .braceOpen) :=
  follows_enclosed hp hbegins hclose

end

variable {constant : Bool} {depth : ℕ}

theorem follows_argument :
    Follows (argument constant depth) Argument.bare (Grammar.argument constant depth) Anything :=
  .look looks_peek fun _ => follows_name.andThen fun _ => (follows_expect _).andThen fun _ =>
    (follows_value constant depth).andThen fun _ => .look (looks_spanFrom _) fun _ => .pure rfl

theorem follows_arguments : Follows (arguments constant depth) (List.map Argument.bare)
    (Grammar.arguments constant depth) (NoMark [.parenOpen]) :=
  follows_parenthesized follows_argument
    (begins_name fun _ h => ⟨ne_mark_of_name h, fun _ => trivial⟩).andThen fun _ => trivial

/-- The reader of a directive behind its mark. -/
def directiveBehind (constant : Bool) (depth : ℕ) (mark : Token) : Parser Directive := do
  let name ← name
  let arguments ← arguments constant depth
  return { name, arguments, span := ← spanFrom mark.span }

theorem follows_directiveBehind (mark : Token) :
    Follows (directiveBehind constant depth mark) Directive.bare
      (do
        let name ← Grammar.name
        return { name, arguments := ← Grammar.arguments constant depth })
      (NoMark [.parenOpen]) :=
  follows_name.andThen fun _ => follows_arguments.bind
    (fun _ => .look (looks_spanFrom _) fun _ => .pure rfl) fun _ => begins_pure fun _ => id

theorem follows_directives : Follows (directives constant depth) (List.map Directive.bare)
    (Grammar.directives constant depth) (NoMark [.atSign, .parenOpen]) := by
  refine .mono (follows_rowAfter follows_directiveBehind fun _ => apart_mark (by decide))
    fun _ next h => ?_
  exact ⟨h _ (.head _), fun _ => h.mono (by simp)⟩

theorem apart_directives {marks : List Punctuator} (h : .atSign ∉ marks) :
    (Grammar.directives constant depth).Begins (NoMark marks) (Apart marks) :=
  begins_many (begins_after_mark (apart_mark h)) fun _ _ => id

/-! ## Selections -/

/-- What follows a selection set, as far as the readers of selections need it. -/
structure FollowsSet (p : Parser SelectionSet) (g : Grammar SelectionSet) : Prop where
  follows : Follows p SelectionSet.bare g Anything
  begins : g.Begins Anything (· = .punctuator .braceOpen)

variable {p : Parser SelectionSet} {g : Grammar SelectionSet}

theorem FollowsSet.apart (h : FollowsSet p g) {marks : List Punctuator}
    {F : SelectionSet → TokenKind → Prop} (hbrace : .braceOpen ∉ marks) :
    g.Begins F (Apart marks) :=
  h.begins.mono (fun _ _ _ => trivial) fun _ heq => heq ▸ apart_mark hbrace

theorem FollowsSet.apart_below (h : FollowsSet p g) {marks : List Punctuator}
    (hbrace : .braceOpen ∉ marks) :
    Begins ((return some (← g)) <|> (return none)) (NoMark marks) (Apart marks) :=
  begins_orElse (h.apart hbrace).andThen (begins_pure fun _ => id)

/-- A field ends before anything but an argument list, directives, a selection set, or the
colon after an alias. -/
theorem follows_field (h : FollowsSet p g) :
    Follows (field depth p) Field.bare (Grammar.field depth g)
      (NoMark [.colon, .parenOpen, .atSign, .braceOpen]) := by
  have hbelow : Follows (atMark .braceOpen (return some (← p)) (return none)) bareBelow
      ((return some (← g)) <|> (return none)) (NoMark [.braceOpen]) :=
    follows_atMark (.restrict (h.follows.andThen fun _ => .pure rfl) fun _ _ => trivial) (.pure rfl)
      h.begins.andThen (begins_pure fun _ hnext => hnext _ (.head _))
  have hname (first : Name) : Follows
      (afterMark .colon (return (some first, ← name)) (return (none, first)))
      (Prod.map (Option.map Name.bare) Name.bare)
      ((do
        Grammar.mark .colon
        return (some first.bare, ← Grammar.name)) <|> (return (none, first.bare)))
      (NoMark [.colon]) :=
    follows_afterMark (follows_name.andThen fun _ => .pure rfl) (.pure rfl)
      (begins_pure fun _ hnext => hnext _ (.head _))
  refine .look looks_peek fun _ => follows_name.andThen fun first => (hname first).bind
    (fun ⟨responseName, n⟩ => follows_arguments.bind (fun as => follows_directives.bind
      (fun ds => hbelow.bind (fun below => .look (looks_spanFrom _) fun _ => .pure rfl) ?_) ?_) ?_) ?_
  -- Each part ends before anything that may come behind it, from the last part to the first.
  · exact fun _ => begins_pure fun _ hnext => hnext.mono (by simp)
  · exact fun _ => begins_bind (h.apart_below (by decide)) fun _ =>
      begins_pure fun _ hnext => hnext.mono (by simp)
  · exact fun _ => begins_bind (apart_directives (by decide)) fun _ =>
      begins_bind (h.apart_below (by decide)) fun _ => begins_pure fun _ hnext => hnext.mono (by simp)
  · exact fun _ => begins_bind (apart_parenthesized (by decide)) fun _ =>
      begins_bind (apart_directives (by decide)) fun _ => begins_bind (h.apart_below (by decide))
        fun _ => begins_pure fun _ hnext => hnext.mono (by simp)

/-- The word `on` is a name that only one token stands for. -/
theorem eq_on_of_nameText? {kind : TokenKind} (h : nameText? kind = some "on") :
    kind = .name "on" := by
  cases kind with
  | name text => exact congrArg TokenKind.name (Option.some.inj h)
  | boolean b => exact absurd h (by cases b <;> decide)
  | null => exact absurd h (by decide)
  | _ => cases h

theorem begins_fragmentName {F : Name → TokenKind → Prop}
    (h : ∀ kind, (nameText? kind).isSome → kind ≠ .name "on" → S kind) :
    Grammar.fragmentName.Begins F S :=
  begins_token fun kind n hread => by
    obtain ⟨text, htext, hkept⟩ := Option.bind_eq_some_iff.mp hread
    refine h kind (by rw [htext]; rfl) ?_
    rintro rfl
    cases htext
    cases hkept

theorem follows_fragmentName :
    FollowsAt (· ≠ .name "on") name Name.bare Grammar.fragmentName Anything where
  sound := by
    intro s n s' hreads hK
    obtain ⟨first, hkinds, kind, rfl, hread⟩ := follows_name.sound hreads fun _ _ => trivial
    obtain ⟨text, htext, heq⟩ := Option.map_eq_some_iff.mp hread
    refine ⟨[kind], hkinds, kind, rfl, Option.bind_eq_some_iff.mpr ⟨text, htext, ?_⟩⟩
    rw [if_neg, heq]
    rintro rfl
    exact hK kind (by rw [hkinds]; exact rfl) (eq_on_of_nameText? htext)
  complete := by
    rintro s first n next rest hclean hkinds ⟨kind, rfl, hread⟩ hnext -
    obtain ⟨text, htext, hkept⟩ := Option.bind_eq_some_iff.mp hread
    refine follows_name.complete hclean hkinds ⟨kind, rfl, ?_⟩ hnext trivial
    split at hkept
    · cases hkept
    · exact Option.map_eq_some_iff.mpr ⟨text, htext, Option.some.inj hkept⟩

theorem follows_inline (h : FollowsSet p g) (start : Span) (condition : Option NamedType) :
    Follows (selection.inline depth p start condition) Selection.bare
      (do
        let directives ← Grammar.directives false depth
        return .inline {
          typeCondition := condition.map NamedType.bare, directives, selectionSet := ← g })
      Anything :=
  follows_directives.bind
    (fun _ => h.follows.andThen fun _ => .look (looks_spanFrom _) fun _ => .pure rfl)
    fun _ => (h.apart (by decide)).andThen

/-- Directives and a selection set begin with a mark. -/
theorem begins_inline (h : FollowsSet p g) {F : α → TokenKind → Prop}
    {f : List Directive → SelectionSet → α} (hat : S (.punctuator .atSign))
    (hbrace : S (.punctuator .braceOpen)) :
    Begins (do
      let directives ← Grammar.directives false depth
      return f directives (← g)) F S :=
  begins_bind (G := fun _ => S) (begins_many (begins_after_mark hat) fun _ _ => id) fun _ =>
    (h.begins.mono (fun _ _ => id) fun _ heq => heq ▸ hbrace).andThen

/-- What stands behind the dots of a fragment. -/
theorem follows_fragment (h : FollowsSet p g) (start : Span) :
    Follows (do
        if ← peekIsKeyword "on" then
          let _ ← advance
          selection.inline depth p start (some (← namedType))
        else if ← peekIsName then
          let name ← name
          let directives ← directives false depth
          return .spread { name, directives, span := ← spanFrom start }
        else selection.inline depth p start none)
      Selection.bare
      ((do
        let name ← Grammar.fragmentName
        return .spread { name, directives := ← Grammar.directives false depth }) <|>
      (do
        let typeCondition ←
          (do
            Grammar.keyword "on"
            return some (← Grammar.namedType)) <|>
          (return none)
        let directives ← Grammar.directives false depth
        return .inline { typeCondition, directives, selectionSet := ← g }))
      (NoMark [.parenOpen, .atSign]) := by
  rw [orElse_bind, bind_assoc, pure_bind]
  simp only [bind_assoc, pure_bind]
  refine .test (fun kind => decide (kind = .name "on")) ?_ ?_
  · -- A name that is `on` is the keyword: no fragment is called so.
    refine .restrict (K := (· = .name "on")) ?_ fun kind hkind => of_decide_eq_true hkind.2
    refine .right (.left ?_ (begins_inline h nofun nofun))
      (begins_fragmentName fun _ _ hne => hne).andThen
    exact (follows_keyword _).andThen fun _ => follows_namedType.andThen fun t =>
      .mono (follows_inline h start (some t)) fun _ _ _ => trivial
  refine .restrict (K := (· ≠ .name "on")) ?_ fun kind hkind => of_decide_eq_false hkind.2
  refine .test (fun kind => (nameText? kind).isSome) ?_ ?_
  · refine .left ?_ (begins_orElse (begins_after_keyword fun h => h.1 rfl)
      (begins_inline h (fun h => nomatch h.2) (fun h => nomatch h.2)))
    refine .restrict (.bind follows_fragmentName (fun n => follows_directives.bind (fun ds =>
      .look (looks_spanFrom _) fun _ => .pure rfl) fun _ => ?_) fun _ => ?_) fun _ hkind => hkind.1
    · exact begins_pure fun _ hnext => hnext.mono (by simp)
    · exact fun _ _ _ _ _ => trivial
  · refine .right (.right (.restrict (.mono (follows_inline h start none) fun _ _ _ => trivial)
      fun _ _ => trivial) (begins_after_keyword fun h => h.1 rfl)) ?_
    refine (begins_fragmentName fun kind hname _ hkind => ?_).andThen
    rw [hkind.2] at hname
    cases hname

theorem follows_selection (h : FollowsSet p g) :
    Follows (selection depth p) Selection.bare (Grammar.selection depth g)
      (NoMark [.colon, .parenOpen, .atSign, .braceOpen]) := by
  refine .test (fun kind => decide (kind = .punctuator .ellipsis)) ?_ ?_
  · refine .restrict (K := (· = .punctuator .ellipsis)) ?_
      fun kind hkind => of_decide_eq_true hkind.2
    refine .right ((follows_mark _).andThen fun token => ?_)
      (begins_name fun _ hname => ne_mark_of_name hname).andThen.andThen
    exact .mono (follows_fragment h _) fun _ _ hnext => hnext.mono (by simp)
  · refine .restrict (K := (¬· = .punctuator .ellipsis)) ?_
      fun kind hkind => of_decide_eq_false hkind.2
    exact .left (.restrict ((follows_field h).bind (fun _ => .pure rfl) fun _ =>
      begins_pure fun _ => id) fun _ _ => trivial) (begins_after_mark fun h => h rfl)

/-- A selection set has at least one selection. -/
theorem follows_selections {p : Parser Selection} {g : Grammar Selection}
    {F : Selection → TokenKind → Prop} (hp : Follows p Selection.bare g F)
    (hbegins : g.Begins Anything fun kind => kind ≠ .punctuator .braceClose ∧ ∀ b, F b kind)
    (hclose : ∀ b, F b (.punctuator .braceClose)) :
    Follows (selections p) (List.map Selection.bare) (Grammar.nonemptyRow .braceClose g)
      Anything := by
  refine .peek fun token => .restrict (K := (· = token.kind)) ?_ fun _ hkind => hkind.2
  split
  · next hkind =>
      rw [hkind]
      exact .refuse not_reads_fail (hbegins.mono (fun _ _ => id) fun _ h => h.1).andThen
  · next hkind =>
      have hrow := follows_row hp hbegins hclose
      rw [row_eq] at hrow
      refine ⟨fun hreads hK => ?_, fun hclean hkinds hb hnext _ =>
        hrow.complete hclean hkinds (.inr hb) hnext trivial⟩
      obtain ⟨first, hkinds, hfirst | hfirst⟩ := hrow.sound hreads fun _ _ => trivial
      · obtain ⟨_, u, rest, hmark, -, rfl⟩ := hfirst
        rw [mark_iff.mp hmark] at hkinds
        exact absurd (hK _ (by rw [hkinds]; exact rfl)).symm hkind
      · exact ⟨first, hkinds, hfirst⟩

theorem followsSet_selectionSet : ∀ depth,
    FollowsSet (selectionSet depth) (Grammar.selectionSet depth)
  | 0 => ⟨.look looks_peek fun _ => .refuse not_reads_fail fun _ _ _ h => h.elim,
      fun _ _ _ h => h.elim⟩
  | depth + 1 => by
    have hset := followsSet_selectionSet depth
    refine ⟨(follows_expect _).andThen fun _ => (follows_selections (follows_selection hset) ?_
      fun _ => apart_mark (by decide)).andThen fun items => .look (looks_spanFrom _) fun _ =>
        .pure ?_, begins_after_mark rfl⟩
    · exact begins_orElse
        (begins_name fun _ h => ⟨ne_mark_of_name h, fun _ => apart_of_name h⟩).andThen.andThen
        (begins_after_mark ⟨nofun, fun _ => apart_mark (by decide)⟩)
    · rw [SelectionSet.bare, bareSelections_eq]

/-! ## Executable definitions -/

/-- Goes past the keyword of an operation, which there has to be. -/
def passKeyword : Option OperationKind → Parser OperationKind
  | some kind => do
    let _ ← advance
    return kind
  | none => unexpected .operationKeyword

theorem follows_operationKind :
    Follows operationKind id Grammar.operationKind Anything := by
  refine .peek fun token => .restrict (K := (· = token.kind)) ?_ fun _ hkind => hkind.2
  change FollowsAt _ (passKeyword (operationKind? token.kind)) _ _ _
  cases hkind : operationKind? token.kind with
  | none =>
      refine .refuse not_reads_unexpected (begins_token fun kind b hread heq => ?_)
      rw [heq, hkind] at hread
      cases hread
  | some kind => exact follows_token (fun _ heq => heq ▸ hkind) fun _ => .pure rfl

theorem follows_defaultValue : Follows defaultValue (Option.map Value.bare) Grammar.defaultValue
    (NoMark [.equals]) :=
  follows_afterMark ((follows_value _ _).andThen fun _ => .pure rfl) (.pure rfl)
    (begins_pure fun _ hnext => hnext _ (.head _))

theorem apart_defaultValue {marks : List Punctuator} (h : .equals ∉ marks) :
    Grammar.defaultValue.Begins (NoMark marks) (Apart marks) :=
  begins_orElse (begins_after_mark (apart_mark h)) (begins_pure fun _ => id)

theorem follows_variableDefinition : Follows variableDefinition VariableDefinition.bare
    Grammar.variableDefinition (NoMark [.bang, .equals]) := by
  refine .look looks_peek fun _ => follows_variableUse.andThen fun v =>
    (follows_expect _).andThen fun _ => (follows_typeExpr _).bind (fun type =>
      follows_defaultValue.bind (fun value => .look (looks_spanFrom _) fun _ => .pure rfl) ?_) ?_
  · exact fun _ => begins_pure fun _ h => h.mono (by simp)
  · exact fun _ => begins_bind (apart_defaultValue (by decide)) fun _ =>
      begins_pure fun _ h => h.mono (by simp)

theorem follows_optionalName : Follows optionalName (Option.map Name.bare)
    ((return some (← Grammar.name)) <|> (return none)) (fun _ next => nameText? next = none) := by
  refine .test (fun kind => (nameText? kind).isSome) ?_ ?_
  · refine .left (.restrict (follows_name.andThen fun _ => .pure rfl) fun _ _ => trivial)
      (begins_pure fun next hnext hK => ?_)
    rw [hnext] at hK
    exact Bool.false_ne_true hK.2
  · refine .right (.pure rfl) (begins_name fun kind hname hK => ?_).andThen
    rw [hK.2] at hname
    exact Bool.false_ne_true hname

theorem follows_operationDefinition : Follows operationDefinition OperationDefinition.bare
    Grammar.operationDefinition Anything := by
  have hset := followsSet_selectionSet maxDepth
  have hvariables : Follows (parenthesized variableDefinition) (List.map VariableDefinition.bare)
      (Grammar.parenthesized Grammar.variableDefinition) (NoMark [.parenOpen]) :=
    follows_parenthesized follows_variableDefinition
      (begins_after_mark ⟨nofun, fun _ => apart_mark (by decide)⟩).andThen
      fun _ => apart_mark (by decide)
  refine .look looks_peek fun _ => follows_atMark (.restrict (hset.follows.andThen fun _ =>
    .look (looks_spanFrom _) fun _ => .pure rfl) fun _ _ => trivial) (.restrict
      (follows_operationKind.andThen fun kind => follows_optionalName.bind (fun n =>
        hvariables.bind (fun vs => follows_directives.bind (fun ds => hset.follows.andThen fun _ =>
          .look (looks_spanFrom _) fun _ => .pure rfl) ?_) ?_) ?_) fun _ _ => trivial) ?_ ?_
  · exact fun _ => (hset.apart (by decide)).andThen
  · exact fun _ => begins_inline hset (apart_mark (by decide)) (apart_mark (by decide))
  · exact fun _ => begins_bind (G := fun _ next => nameText? next = none)
      (begins_orElse (begins_after_mark rfl) (begins_pure fun _ => id)) fun _ =>
        begins_inline hset rfl rfl
  · exact hset.begins.andThen
  · refine (begins_token fun kind b hread => ?_).andThen
    rintro rfl
    cases hread

/-- The name that a fragment is defined with. -/
theorem follows_definedName : Follows fragmentName Name.bare Grammar.fragmentName Anything := by
  refine .peek fun token => .restrict (K := (· = token.kind)) ?_ fun _ hkind => hkind.2
  split
  · next hkind => exact .refuse not_reads_fail (begins_fragmentName fun _ _ hne => hkind ▸ hne)
  · next hkind => exact follows_fragmentName.restrict fun _ heq => heq ▸ hkind

theorem follows_fragmentDefinition : Follows fragmentDefinition FragmentDefinition.bare
    Grammar.fragmentDefinition Anything :=
  (follows_expectKeyword _).andThen fun _ => follows_definedName.andThen fun _ =>
    (follows_expectKeyword _).andThen fun _ => follows_namedType.andThen fun _ =>
      follows_directives.bind (fun _ => (followsSet_selectionSet _).follows.andThen fun _ =>
        .look (looks_spanFrom _) fun _ => .pure rfl) fun _ =>
          ((followsSet_selectionSet _).apart (by decide)).andThen

end Parser

end GraphQL
