import GraphQL.Proofs.Document.Derivations

/-!
# The grammar of documents is unambiguous

No sequence of tokens has two derivations from a symbol.  What stands behind a part matters: a
field, for one, could go on with a parenthesis.  So the statement for a part, `Settled`, is that
its derivation can be told from the tokens in front, whatever comes behind them, as long as that
does not begin with one of the marks that the part could go on with.
-/

namespace GraphQL

namespace Derivation

variable {δ β : Type} [Derivation δ β]

/-- None of the marks comes first. -/
def Clear (marks : List Punctuator) (rest : List TokenKind) : Prop :=
  ∀ p ∈ marks, rest.head? ≠ some (.punctuator p)

/-- With none of the marks behind them, the tokens of the derivation are the tokens of no
other. -/
def Settled (marks : List Punctuator) (d : δ) : Prop :=
  ∀ ⦃d' : δ⦄ ⦃rest rest' : List TokenKind⦄, Clear marks rest → Clear marks rest' →
    tokens d ++ rest = tokens d' ++ rest' → d = d' ∧ rest = rest'

theorem Clear.mono {marks others : List Punctuator} {rest : List TokenKind} (h : Clear marks rest)
    (hsub : others ⊆ marks) : Clear others rest := fun p hp => h p (hsub hp)

/-- What comes first is none of the marks. -/
theorem Clear.head_ne {marks : List Punctuator} {p : Punctuator} {rest : List TokenKind}
    (h : Clear marks rest) (hp : p ∈ marks) : ∀ kind ∈ rest.head?, kind ≠ .punctuator p := by
  rintro kind hkind rfl
  exact h p hp hkind

theorem clear_nil (rest : List TokenKind) : Clear [] rest := nofun

theorem clear_end (marks : List Punctuator) : Clear marks [] := by
  rintro p - ⟨⟩

theorem clear_mark {marks : List Punctuator} {p : Punctuator} {rest : List TokenKind}
    (h : p ∉ marks) : Clear marks (.punctuator p :: rest) := by
  rintro q hq ⟨⟩
  exact h hq

/-! ## Rows -/

/-- Every derivation has tokens, and `S` holds of the first. -/
def Opens (δ : Type) {β : Type} [Derivation δ β] (S : TokenKind → Prop) : Prop :=
  ∀ d : δ, ∃ kind kinds, tokens d = kind :: kinds ∧ S kind

/-- A row ends where no item can begin, if nothing that could go on with an item can begin one. -/
theorem eq_of_rows {S : TokenKind → Prop} {marks : List Punctuator} (hopen : Opens δ S)
    (hS : ∀ p ∈ marks, ¬S (.punctuator p)) {ds : List δ} (h : ∀ d ∈ ds, Settled marks d) :
    ∀ {ds' : List δ} {rest rest' : List TokenKind}, Clear marks rest → Clear marks rest' →
      (∀ kind ∈ rest.head?, ¬S kind) → (∀ kind ∈ rest'.head?, ¬S kind) →
      tokens ds ++ rest = tokens ds' ++ rest' → ds = ds' ∧ rest = rest' := by
  have hclear (ds : List δ) {rest : List TokenKind} (hrest : Clear marks rest) :
      Clear marks (tokens ds ++ rest) := by
    cases ds with
    | nil => exact hrest
    | cons d ds =>
        obtain ⟨kind, kinds, hd, hkind⟩ := hopen d
        intro p hp heq
        change ((tokens d ++ tokens ds) ++ rest).head? = _ at heq
        rw [hd] at heq
        exact hS p hp (Option.some.inj heq ▸ hkind)
  -- The first token tells whether there is an item.
  have habsurd (d : δ) (ds : List δ) {rest rest' : List TokenKind}
      (hends : ∀ kind ∈ rest.head?, ¬S kind) : rest ≠ tokens (d :: ds) ++ rest' := by
    rintro rfl
    obtain ⟨kind, kinds, hd, hkind⟩ := hopen d
    refine hends kind ?_ hkind
    change kind ∈ ((tokens d ++ tokens ds) ++ rest').head?
    rw [hd]
    rfl
  induction ds with
  | nil =>
      intro ds' rest rest' _ _ hends _ heq
      cases ds' with
      | nil => exact ⟨rfl, heq⟩
      | cons d ds => exact absurd heq (habsurd d ds hends)
  | cons d ds ih =>
      intro ds' rest rest' hrest hrest' hends hends' heq
      cases ds' with
      | nil => exact absurd heq.symm (habsurd d ds hends')
      | cons d' ds' =>
          have hfirst : tokens d ++ (tokens ds ++ rest) = tokens d' ++ (tokens ds' ++ rest') := by
            rw [← List.append_assoc, ← List.append_assoc]
            exact heq
          obtain ⟨hd, hothers⟩ := h d (.head _) (hclear ds hrest) (hclear ds' hrest') hfirst
          obtain ⟨hds, hrests⟩ :=
            ih (fun e he => h e (.tail _ he)) hrest hrest' hends hends' hothers
          exact ⟨List.cons_eq_cons.mpr ⟨hd, hds⟩, hrests⟩

/-- A row up to a mark that no item begins with. -/
theorem eq_of_closed_rows {marks : List Punctuator} {close : Punctuator}
    (hopen : Opens δ fun kind => ∀ p ∈ close :: marks, kind ≠ .punctuator p)
    (hclose : close ∉ marks) {ds ds' : List δ} (h : ∀ d ∈ ds, Settled marks d)
    {rest rest' : List TokenKind}
    (heq : tokens ds ++ .punctuator close :: rest = tokens ds' ++ .punctuator close :: rest') :
    ds = ds' ∧ rest = rest' := by
  obtain ⟨rfl, hrest⟩ := eq_of_rows hopen
    (fun p hp hne => hne p (.tail _ hp) rfl) h (clear_mark hclose) (clear_mark hclose)
    (fun kind hkind hne => hne close (.head _) (Option.some.inj hkind).symm)
    (fun kind hkind hne => hne close (.head _) (Option.some.inj hkind).symm) heq
  exact ⟨rfl, (List.cons_eq_cons.mp hrest).2⟩

theorem eq_of_parenthesized {marks : List Punctuator}
    (hopen : Opens δ fun kind => ∀ p ∈ .parenClose :: marks, kind ≠ .punctuator p)
    (hclose : .parenClose ∉ marks) {ds ds' : List δ} (h : ∀ d ∈ ds, Settled marks d)
    {rest rest' : List TokenKind} (hrest : Clear [.parenOpen] rest)
    (hrest' : Clear [.parenOpen] rest')
    (heq : parenthesized ds ++ rest = parenthesized ds' ++ rest') :
    ds = ds' ∧ rest = rest' := by
  -- A row that is there begins with a parenthesis, and what is behind it does not.
  cases ds with
  | nil =>
      cases ds' with
      | nil => exact ⟨rfl, heq⟩
      | cons d ds =>
          refine absurd ?_ (hrest _ (.head _))
          change rest = _ at heq
          rw [heq]
          rfl
  | cons d ds =>
      cases ds' with
      | nil =>
          refine absurd ?_ (hrest' _ (.head _))
          change _ = rest' at heq
          rw [← heq]
          rfl
      | cons d' ds' =>
          simp only [parenthesized, List.cons_append, List.append_assoc, List.nil_append,
            List.cons_eq_cons, true_and] at heq
          exact eq_of_closed_rows hopen hclose h heq

/-- A part that may be missing. -/
theorem eq_of_options {S : TokenKind → Prop} (hopen : Opens δ S) {d : Option δ}
    (h : ∀ e ∈ d, Settled [] e) {d' : Option δ} {rest rest' : List TokenKind}
    (hends : ∀ kind ∈ rest.head?, ¬S kind) (hends' : ∀ kind ∈ rest'.head?, ¬S kind)
    (heq : tokens d ++ rest = tokens d' ++ rest') : d = d' ∧ rest = rest' := by
  cases d with
  | none =>
      cases d' with
      | none => exact ⟨rfl, heq⟩
      | some e =>
          obtain ⟨kind, kinds, he, hkind⟩ := hopen e
          refine absurd hkind (hends kind ?_)
          change rest = tokens e ++ rest' at heq
          rw [heq, he]
          rfl
  | some e =>
      cases d' with
      | none =>
          obtain ⟨kind, kinds, he, hkind⟩ := hopen e
          refine absurd hkind (hends' kind ?_)
          change tokens e ++ rest = rest' at heq
          rw [← heq, he]
          rfl
      | some e' =>
          obtain ⟨rfl, rfl⟩ := h e rfl (clear_nil _) (clear_nil _) heq
          exact ⟨rfl, rfl⟩

/-! ## Names and types -/

theorem Name.kind_injective : Function.Injective Name.kind := by
  intro n m h
  cases n <;> cases m <;> cases h <;> rfl

theorem Name.kind_ne (n : Name) (p : Punctuator) : n.kind ≠ .punctuator p := by
  cases n <;> nofun

theorem Name.settled (n : Name) : Settled [] n := by
  intro m rest rest' _ _ heq
  obtain ⟨hkind, hrest⟩ := List.cons_eq_cons.mp heq
  exact ⟨Name.kind_injective hkind, hrest⟩

theorem FragmentName.eq_of_kind {n m : FragmentName} (h : n.name.kind = m.name.kind) : n = m := by
  cases n
  cases m
  cases Name.kind_injective h
  rfl

theorem TypeReference.eq_of_nonNullMark {nonNull nonNull' : Bool} {rest rest' : List TokenKind}
    (hrest : Clear [.bang] rest) (hrest' : Clear [.bang] rest')
    (heq : nonNullMark nonNull ++ rest = nonNullMark nonNull' ++ rest') :
    nonNull = nonNull' ∧ rest = rest' := by
  cases nonNull with
  | true =>
      cases nonNull' with
      | true => exact ⟨rfl, (List.cons_eq_cons.mp heq).2⟩
      | false =>
          change _ = rest' at heq
          exact absurd (heq ▸ rfl) (hrest' .bang (.head _))
  | false =>
      cases nonNull' with
      | true =>
          change rest = _ at heq
          exact absurd (heq ▸ rfl) (hrest .bang (.head _))
      | false => exact ⟨rfl, heq⟩

theorem TypeReference.settled (t : TypeReference) : Settled [.bang] t := by
  induction t with
  | named n nonNull =>
      rintro (⟨m, nonNull'⟩ | ⟨u, nonNull'⟩) rest rest' hrest hrest' heq
      · obtain ⟨hkind, hmark⟩ := List.cons_eq_cons.mp heq
        obtain ⟨rfl, rfl⟩ := eq_of_nonNullMark hrest hrest' hmark
        exact ⟨by rw [Name.kind_injective hkind], rfl⟩
      · exact absurd (List.cons_eq_cons.mp heq).1 (n.kind_ne _)
  | list t nonNull ih =>
      rintro (⟨m, nonNull'⟩ | ⟨u, nonNull'⟩) rest rest' hrest hrest' heq
      · exact absurd (List.cons_eq_cons.mp heq).1.symm (m.kind_ne _)
      · have hitem := (List.cons_eq_cons.mp heq).2
        simp only [List.append_eq, List.append_assoc, List.cons_append] at hitem
        obtain ⟨rfl, hclose⟩ := ih (clear_mark (by decide)) (clear_mark (by decide)) hitem
        obtain ⟨rfl, rfl⟩ := eq_of_nonNullMark hrest hrest' (List.cons_eq_cons.mp hclose).2
        exact ⟨rfl, rfl⟩

/-! ## Values -/

theorem Literal.kind_injective : Function.Injective Literal.kind := by
  intro l m h
  cases l <;> cases m <;> cases h <;> rfl

theorem Literal.kind_ne (l : Literal) (p : Punctuator) : l.kind ≠ .punctuator p := by
  cases l <;> nofun

section

variable {constant : Bool}

theorem Value.opens : Opens (Value constant) fun kind =>
    ∀ p ∈ [.bracketClose], kind ≠ .punctuator p := by
  rintro (⟨n, _⟩ | l | items | fields) <;>
    simp only [Derivation.tokens, Value.tokens, List.cons_append]
  · exact ⟨_, _, rfl, by decide⟩
  · exact ⟨_, _, rfl, fun p _ => l.kind_ne p⟩
  · exact ⟨_, _, rfl, by decide⟩
  · exact ⟨_, _, rfl, by decide⟩

theorem ObjectField.opens : Opens (ObjectField constant) fun kind =>
    ∀ p ∈ [.braceClose], kind ≠ .punctuator p := by
  rintro ⟨n, v⟩
  simp only [Derivation.tokens, ObjectField.tokens]
  exact ⟨_, _, rfl, fun p _ => n.kind_ne p⟩

theorem Value.settled_var (n : Name) (allowed : constant = false) :
    Settled [] (Value.var n allowed) := by
  rintro (⟨m, _⟩ | m | items | fields) rest rest' - - heq <;>
    simp only [Derivation.tokens, Value.tokens, List.cons_append, List.nil_append,
      List.cons_eq_cons, TokenKind.punctuator.injEq, reduceCtorEq, false_and, true_and] at heq
  · exact ⟨by rw [Name.kind_injective heq.1], heq.2⟩
  · exact absurd heq.1.symm (m.kind_ne _)

/-- A token that is a value begins no other value, as those begin with marks. -/
theorem Value.settled_literal (l : Literal) : Settled [] (Value.literal l : Value constant) := by
  rintro (⟨m, _⟩ | m | items | fields) rest rest' - - heq <;>
    simp only [Derivation.tokens, Value.tokens, List.cons_append, List.nil_append,
      List.cons_eq_cons] at heq
  case literal => exact ⟨by rw [Literal.kind_injective heq.1], heq.2⟩
  all_goals exact absurd heq.1 (l.kind_ne _)

theorem Value.settled_list {items : List (Value constant)} (h : ∀ v ∈ items, Settled [] v) :
    Settled [] (Value.list items) := by
  rintro (⟨m, _⟩ | m | items' | fields) rest rest' - - heq <;>
    simp only [Derivation.tokens, Value.tokens, List.cons_append, List.nil_append,
      List.append_assoc, List.cons_eq_cons, TokenKind.punctuator.injEq, reduceCtorEq, false_and,
      true_and] at heq
  · exact absurd heq.1.symm (m.kind_ne _)
  · obtain ⟨rfl, rfl⟩ := eq_of_closed_rows Value.opens (by decide) h heq
    exact ⟨rfl, rfl⟩

theorem Value.settled_object {fields : List (ObjectField constant)}
    (h : ∀ f ∈ fields, Settled [] f) : Settled [] (Value.object fields) := by
  rintro (⟨m, _⟩ | m | items | fields') rest rest' - - heq <;>
    simp only [Derivation.tokens, Value.tokens, List.cons_append, List.nil_append,
      List.append_assoc, List.cons_eq_cons, TokenKind.punctuator.injEq, reduceCtorEq, false_and,
      true_and] at heq
  · exact absurd heq.1.symm (m.kind_ne _)
  · obtain ⟨rfl, rfl⟩ := eq_of_closed_rows ObjectField.opens (by decide) h heq
    exact ⟨rfl, rfl⟩

theorem ObjectField.settled_mk (n : Name) {v : Value constant} (h : Settled [] v) :
    Settled [] (ObjectField.mk n v) := by
  rintro ⟨m, w⟩ rest rest' - - heq
  simp only [Derivation.tokens, ObjectField.tokens, List.cons_append, List.cons_eq_cons,
    true_and] at heq
  obtain ⟨rfl, rfl⟩ := h (clear_nil _) (clear_nil _) heq.2
  exact ⟨by rw [Name.kind_injective heq.1], rfl⟩

mutual

theorem Value.settled : ∀ v : Value constant, Settled [] v
  | .var n allowed => Value.settled_var n allowed
  | .literal l => Value.settled_literal l
  | .list items => Value.settled_list fun v _ => v.settled
  | .object fields => Value.settled_object fun f _ => f.settled

theorem ObjectField.settled : ∀ f : ObjectField constant, Settled [] f
  | ⟨n, v⟩ => ObjectField.settled_mk n v.settled

end

end

/-! ## Arguments and directives -/

theorem Argument.settled (a : Argument) : Settled [] a := by
  intro b rest rest' _ _ heq
  obtain ⟨n, v⟩ := a
  obtain ⟨m, w⟩ := b
  simp only [Derivation.tokens, List.cons_append, List.cons_eq_cons, true_and] at heq
  obtain ⟨rfl, rfl⟩ := v.settled (clear_nil _) (clear_nil _) heq.2
  exact ⟨by rw [Name.kind_injective heq.1], rfl⟩

theorem Argument.opens : Opens Argument fun kind => ∀ p ∈ [.parenClose], kind ≠ .punctuator p :=
  fun a => ⟨_, _, rfl, fun p _ => a.name.kind_ne p⟩

theorem eq_of_arguments {as as' : List Argument} {rest rest' : List TokenKind}
    (hrest : Clear [.parenOpen] rest) (hrest' : Clear [.parenOpen] rest')
    (heq : parenthesized as ++ rest = parenthesized as' ++ rest') : as = as' ∧ rest = rest' :=
  eq_of_parenthesized Argument.opens (by decide) (fun a _ => a.settled) hrest hrest' heq

theorem Directive.settled (d : Directive) : Settled [.parenOpen] d := by
  intro e rest rest' hrest hrest' heq
  obtain ⟨n, as⟩ := d
  obtain ⟨m, as'⟩ := e
  simp only [Derivation.tokens, List.cons_append, List.cons_eq_cons, true_and] at heq
  obtain ⟨rfl, rfl⟩ := eq_of_arguments hrest hrest' heq.2
  exact ⟨by rw [Name.kind_injective heq.1], rfl⟩

theorem Directive.opens : Opens Directive (· = .punctuator .atSign) := fun _ => ⟨_, _, rfl, rfl⟩

theorem eq_of_directives {ds ds' : List Directive} {rest rest' : List TokenKind}
    (hrest : Clear [.parenOpen, .atSign] rest) (hrest' : Clear [.parenOpen, .atSign] rest')
    (heq : tokens ds ++ rest = tokens ds' ++ rest') : ds = ds' ∧ rest = rest' := by
  exact eq_of_rows Directive.opens (by decide) (fun d _ => d.settled) (hrest.mono (by simp))
    (hrest'.mono (by simp)) (hrest.head_ne (by decide)) (hrest'.head_ne (by decide)) heq

section

variable {marks : List Punctuator} {rest : List TokenKind}

theorem clear_parenthesized (h : .parenOpen ∉ marks) (hrest : Clear marks rest) (ds : List δ) :
    Clear marks (parenthesized ds ++ rest) := by
  cases ds with
  | nil => exact hrest
  | cons d ds => exact clear_mark h

theorem clear_directives (h : .atSign ∉ marks) (hrest : Clear marks rest) (ds : List Directive) :
    Clear marks (tokens ds ++ rest) := by
  cases ds with
  | nil => exact hrest
  | cons d ds => exact clear_mark h

theorem SelectionSet.clear (h : .braceOpen ∉ marks) (set : SelectionSet) :
    Clear marks (Derivation.tokens set ++ rest) := by
  obtain ⟨first, others⟩ := set
  simp only [Derivation.tokens, SelectionSet.tokens, List.cons_append]
  exact clear_mark h

theorem clear_below (h : .braceOpen ∉ marks) (hrest : Clear marks rest)
    (below : Option SelectionSet) : Clear marks (tokens below ++ rest) := by
  cases below with
  | none => exact hrest
  | some set => exact set.clear h

end

/-! ## Selections -/

theorem SelectionSet.opens : Opens SelectionSet (· = .punctuator .braceOpen) := by
  rintro ⟨first, others⟩
  simp only [Derivation.tokens, SelectionSet.tokens, List.cons_append]
  exact ⟨_, _, rfl, rfl⟩

theorem Field.opens : Opens Field fun kind => ∀ p, kind ≠ .punctuator p := by
  rintro ⟨responseName, name, arguments, directives, below⟩
  simp only [Derivation.tokens, Field.tokens_mk]
  cases responseName with
  | none => exact ⟨_, _, rfl, name.kind_ne⟩
  | some a => exact ⟨_, _, rfl, a.name.kind_ne⟩

/-- The marks that a field could go on with. -/
def fieldMarks : List Punctuator := [.colon, .parenOpen, .atSign, .braceOpen]

/-- What comes after the name of a field. -/
theorem eq_of_tails {as as' : List Argument} {ds ds' : List Directive}
    {below below' : Option SelectionSet} {rest rest' : List TokenKind}
    (h : ∀ set ∈ below, Settled [] set) (hrest : Clear fieldMarks rest)
    (hrest' : Clear fieldMarks rest')
    (heq : parenthesized as ++ (tokens ds ++ (tokens below ++ rest)) =
      parenthesized as' ++ (tokens ds' ++ (tokens below' ++ rest'))) :
    as = as' ∧ ds = ds' ∧ below = below' ∧ rest = rest' := by
  have hsub {marks : List Punctuator} (h : marks ⊆ fieldMarks) :
      Clear marks rest ∧ Clear marks rest' := ⟨hrest.mono h, hrest'.mono h⟩
  have hbelow {marks : List Punctuator} (hbrace : .braceOpen ∉ marks) (h : marks ⊆ fieldMarks) :
      Clear marks (tokens below ++ rest) ∧ Clear marks (tokens below' ++ rest') :=
    ⟨clear_below hbrace (hsub h).1 below, clear_below hbrace (hsub h).2 below'⟩
  obtain ⟨hargs, hafter⟩ := eq_of_arguments
    (clear_directives (by decide) (hbelow (by decide) (by decide)).1 ds)
    (clear_directives (by decide) (hbelow (by decide) (by decide)).2 ds') heq
  obtain ⟨hds, hlast⟩ := eq_of_directives (hbelow (by decide) (by decide)).1
    (hbelow (by decide) (by decide)).2 hafter
  obtain ⟨hbelows, hrests⟩ := eq_of_options SelectionSet.opens h (hrest.head_ne (by decide))
    (hrest'.head_ne (by decide)) hlast
  exact ⟨hargs, hds, hbelows, hrests⟩

theorem Field.settled_of_below {f : Field} (h : ∀ set ∈ f.selectionSet, Settled [] set) :
    Settled fieldMarks f := by
  intro g rest rest' hrest hrest' heq
  obtain ⟨responseName, n, as, ds, below⟩ := f
  obtain ⟨responseName', m, as', ds', below'⟩ := g
  have hcolon {as : List Argument} {ds : List Directive} {below : Option SelectionSet}
      {rest tail : List TokenKind} (hrest : Clear fieldMarks rest) :
      parenthesized as ++ (Derivation.tokens ds ++ (Derivation.tokens below ++ rest)) ≠
        .punctuator .colon :: tail := by
    intro heq
    have hclear : Clear [.colon] (parenthesized as ++
        (Derivation.tokens ds ++ (Derivation.tokens below ++ rest))) :=
      clear_parenthesized (by decide) (clear_directives (by decide)
        (clear_below (by decide) (hrest.mono (by decide)) below) ds) as
    rw [heq] at hclear
    exact hclear .colon (.head _) rfl
  simp only [Derivation.tokens, Field.tokens_mk, List.append_assoc] at heq
  -- The token behind the first name tells whether it is the name of the field.
  rcases responseName with _ | ⟨⟨a⟩⟩ <;> rcases responseName' with _ | ⟨⟨b⟩⟩
  · obtain ⟨hname, htail⟩ := List.cons_eq_cons.mp heq
    obtain ⟨rfl, rfl, rfl, rfl⟩ := eq_of_tails h hrest hrest' htail
    exact ⟨by rw [Name.kind_injective hname], rfl⟩
  · exact absurd (List.cons_eq_cons.mp heq).2 (hcolon hrest)
  · exact absurd (List.cons_eq_cons.mp heq).2.symm (hcolon hrest')
  · obtain ⟨halias, hcolons⟩ := List.cons_eq_cons.mp heq
    obtain ⟨hname, htail⟩ := List.cons_eq_cons.mp (List.cons_eq_cons.mp hcolons).2
    obtain ⟨rfl, rfl, rfl, rfl⟩ := eq_of_tails h hrest hrest' htail
    obtain rfl : a = b := Name.kind_injective halias
    exact ⟨by rw [Name.kind_injective hname], rfl⟩

theorem Selection.opens :
    Opens Selection fun kind => ∀ p ∈ .braceClose :: fieldMarks, kind ≠ .punctuator p := by
  rintro (f | ⟨name, directives⟩ | ⟨condition, directives, set⟩)
  · obtain ⟨kind, kinds, hf, hkind⟩ := Field.opens f
    exact ⟨kind, kinds, by rw [← hf, Derivation.tokens]; exact Selection.tokens.eq_1 f,
      fun p _ => hkind p⟩
  · simp only [Derivation.tokens, Selection.tokens]
    exact ⟨_, _, rfl, by decide⟩
  · simp only [Derivation.tokens, Selection.tokens, List.cons_append]
    exact ⟨_, _, rfl, by decide⟩

theorem eq_of_conditions {condition condition' : Option TypeCondition} {rest rest' : List TokenKind}
    (hrest : ∀ kind ∈ rest.head?, kind ≠ .name "on")
    (hrest' : ∀ kind ∈ rest'.head?, kind ≠ .name "on")
    (heq : tokens condition ++ rest = tokens condition' ++ rest') :
    condition = condition' ∧ rest = rest' := by
  refine eq_of_options (S := (· = .name "on")) (fun c => ⟨_, _, rfl, rfl⟩)
    (fun c _ d rest rest' _ _ heq => ?_) hrest hrest' heq
  obtain ⟨n⟩ := c
  obtain ⟨m⟩ := d
  obtain ⟨hname, hrests⟩ := List.cons_eq_cons.mp (List.cons_eq_cons.mp heq).2
  exact ⟨congrArg _ (Name.kind_injective hname), hrests⟩

/-- Directives and a selection set begin with a mark. -/
theorem exists_mark (ds : List Directive) (set : SelectionSet) (rest : List TokenKind) :
    ∃ p kinds, tokens ds ++ (tokens set ++ rest) = .punctuator p :: kinds := by
  cases ds with
  | nil =>
      obtain ⟨_, _, hset, rfl⟩ := SelectionSet.opens set
      exact ⟨_, _, by rw [hset]; rfl⟩
  | cons d ds => exact ⟨_, _, rfl⟩

/-- A fragment on the spot is no fragment by its name. -/
theorem FragmentName.ne_inline (n : FragmentName) (condition : Option TypeCondition)
    (ds : List Directive) (set : SelectionSet) (rest tail : List TokenKind) :
    tokens condition ++ (tokens ds ++ (tokens set ++ rest)) ≠ n.name.kind :: tail := by
  intro heq
  cases condition with
  | none =>
      obtain ⟨p, kinds, hkinds⟩ := exists_mark ds set rest
      change tokens ds ++ (tokens set ++ rest) = _ at heq
      rw [hkinds] at heq
      exact n.name.kind_ne p (List.cons_eq_cons.mp heq).1.symm
  | some c => exact n.ne_on (Name.kind_injective (List.cons_eq_cons.mp heq).1.symm)

/-- A set of selections that can be told apart can be told from any other. -/
theorem SelectionSet.settled_of_selections {set : SelectionSet}
    (h : ∀ s ∈ set.first :: set.others, Settled fieldMarks s) : Settled [] set := by
  intro set' rest rest' _ _ heq
  obtain ⟨first, others⟩ := set
  obtain ⟨first', others'⟩ := set'
  simp only [Derivation.tokens, SelectionSet.tokens, List.cons_append, List.append_assoc,
    List.nil_append, List.cons_eq_cons, true_and] at heq
  have heq : Derivation.tokens (first :: others) ++ .punctuator .braceClose :: rest =
      Derivation.tokens (first' :: others') ++ .punctuator .braceClose :: rest' := by
    simpa only [Derivation.tokens, List.flatMap_cons, List.append_assoc] using heq
  obtain ⟨hselections, hrests⟩ := eq_of_closed_rows Selection.opens (by decide) h heq
  obtain ⟨rfl, rfl⟩ := List.cons_eq_cons.mp hselections
  exact ⟨rfl, hrests⟩

/-- What comes after the dots of a fragment on the spot. -/
theorem eq_of_inlines {condition condition' : Option TypeCondition} {ds ds' : List Directive}
    {set set' : SelectionSet} {rest rest' : List TokenKind} (h : Settled [] set)
    (heq : tokens condition ++ (tokens ds ++ (tokens set ++ rest)) =
      tokens condition' ++ (tokens ds' ++ (tokens set' ++ rest'))) :
    condition = condition' ∧ ds = ds' ∧ set = set' ∧ rest = rest' := by
  have hmark (ds : List Directive) (set : SelectionSet) (rest : List TokenKind) :
      ∀ kind ∈ (tokens ds ++ (tokens set ++ rest)).head?, kind ≠ .name "on" := by
    obtain ⟨p, kinds, hkinds⟩ := exists_mark ds set rest
    rw [hkinds]
    rintro kind ⟨⟩
    exact nofun
  obtain ⟨hconditions, hafter⟩ := eq_of_conditions (hmark ds set rest) (hmark ds' set' rest') heq
  obtain ⟨hds, hsets⟩ := eq_of_directives (set.clear (by decide)) (set'.clear (by decide)) hafter
  obtain ⟨hset, hrests⟩ := h (clear_nil _) (clear_nil _) hsets
  exact ⟨hconditions, hds, hset, hrests⟩

/-- The dots of a fragment are not the start of a field. -/
theorem Field.ne_ellipsis (f : Field) (rest tail : List TokenKind) :
    tokens f ++ rest ≠ .punctuator .ellipsis :: tail := by
  obtain ⟨kind, kinds, hf, hkind⟩ := Field.opens f
  intro heq
  change Derivation.tokens f ++ rest = _ at heq
  rw [hf] at heq
  exact hkind _ (List.cons_eq_cons.mp heq).1

theorem Selection.settled_spread (n : FragmentName) (ds : List Directive) :
    Settled fieldMarks (Selection.spread n ds) := by
  rintro (f | ⟨m, ds'⟩ | ⟨condition, ds', set⟩) rest rest' hrest hrest' heq <;>
    simp only [Derivation.tokens, Selection.tokens, List.cons_append, List.append_assoc,
      List.cons_eq_cons, true_and] at heq
  · exact absurd heq.symm (f.ne_ellipsis rest' _)
  · obtain ⟨rfl, rfl⟩ := eq_of_directives (hrest.mono (by decide)) (hrest'.mono (by decide)) heq.2
    exact ⟨by rw [FragmentName.eq_of_kind heq.1], rfl⟩
  · exact absurd heq.symm (n.ne_inline condition ds' set rest' _)

theorem Selection.settled_inline (condition : Option TypeCondition) (ds : List Directive)
    {set : SelectionSet} (h : Settled [] set) :
    Settled fieldMarks (Selection.inline condition ds set) := by
  rintro (f | ⟨m, ds'⟩ | ⟨condition', ds', set'⟩) rest rest' hrest hrest' heq <;>
    simp only [Derivation.tokens, Selection.tokens, List.cons_append, List.append_assoc,
      List.cons_eq_cons, true_and] at heq
  · exact absurd heq.symm (f.ne_ellipsis rest' _)
  · exact absurd heq (m.ne_inline condition ds set rest _)
  · obtain ⟨rfl, rfl, rfl, rfl⟩ := eq_of_inlines h heq
    exact ⟨rfl, rfl⟩

theorem Selection.settled_field {f : Field} (h : Settled fieldMarks f) :
    Settled fieldMarks (Selection.field f) := by
  rintro (g | ⟨m, ds'⟩ | ⟨condition', ds', set'⟩) rest rest' hrest hrest' heq <;>
    simp only [Derivation.tokens, Selection.tokens, List.cons_append, List.append_assoc] at heq
  · obtain ⟨rfl, rfl⟩ := h hrest hrest' heq
    exact ⟨rfl, rfl⟩
  · exact absurd heq (f.ne_ellipsis rest _)
  · exact absurd heq (f.ne_ellipsis rest _)

mutual

theorem SelectionSet.settled : ∀ set : SelectionSet, Settled [] set
  | ⟨first, others⟩ => SelectionSet.settled_of_selections (by
      intro s hs
      rcases List.mem_cons.mp hs with heq | hs
      · exact heq ▸ first.settled
      · exact s.settled)

theorem Selection.settled : ∀ s : Selection, Settled fieldMarks s
  | .field f => Selection.settled_field f.settled
  | .spread n ds => Selection.settled_spread n ds
  | .inline condition ds set => Selection.settled_inline condition ds set.settled

theorem Field.settled : ∀ f : Field, Settled fieldMarks f
  | ⟨_, _, _, _, none⟩ => Field.settled_of_below nofun
  | ⟨_, _, _, _, some set⟩ => Field.settled_of_below (by
      rintro _ ⟨⟩
      exact set.settled)

end

/-! ## Definitions -/

theorem eq_of_defaultValue {d d' : Option DefaultValue} {rest rest' : List TokenKind}
    (hrest : Clear [.equals] rest) (hrest' : Clear [.equals] rest')
    (heq : tokens d ++ rest = tokens d' ++ rest') : d = d' ∧ rest = rest' := by
  refine eq_of_options (S := (· = .punctuator .equals)) (fun v => ⟨_, _, rfl, rfl⟩)
    (fun v _ w rest rest' _ _ heq => ?_) (hrest.head_ne (by decide)) (hrest'.head_ne (by decide)) heq
  obtain ⟨v⟩ := v
  obtain ⟨w⟩ := w
  obtain ⟨rfl, hrests⟩ := v.settled (clear_nil _) (clear_nil _) (List.cons_eq_cons.mp heq).2
  exact ⟨rfl, hrests⟩

theorem VariableDefinition.settled (d : VariableDefinition) : Settled [.bang, .equals] d := by
  intro e rest rest' hrest hrest' heq
  obtain ⟨n, t, v⟩ := d
  obtain ⟨m, u, w⟩ := e
  have hclear (v : Option DefaultValue) {rest : List TokenKind} (h : Clear [.bang, .equals] rest) :
      Clear [.bang] (Derivation.tokens v ++ rest) := by
    cases v with
    | none => exact h.mono (by simp)
    | some v => exact clear_mark (by decide)
  simp only [Derivation.tokens, List.cons_append, List.append_assoc, List.cons_eq_cons,
    true_and] at heq
  obtain ⟨hname, heq⟩ := heq
  obtain ⟨rfl, hvalue⟩ := t.settled (hclear v hrest) (hclear w hrest') heq
  obtain ⟨rfl, hrests⟩ := eq_of_defaultValue (hrest.mono (by simp)) (hrest'.mono (by simp)) hvalue
  exact ⟨by rw [Name.kind_injective hname], hrests⟩

theorem VariableDefinition.opens :
    Opens VariableDefinition fun kind =>
      ∀ p ∈ [.parenClose, .bang, .equals], kind ≠ .punctuator p :=
  fun _ => ⟨_, _, rfl, by decide⟩

theorem OperationKind.keyword_injective : Function.Injective OperationKind.keyword := by
  intro o o' h
  cases o <;> cases o' <;> first | rfl | exact absurd h (by decide)

/-- The name of an operation, with a mark behind it. -/
theorem eq_of_optionalName {n m : Option Name} {rest rest' : List TokenKind}
    (hrest : ∃ p kinds, rest = .punctuator p :: kinds)
    (hrest' : ∃ p kinds, rest' = .punctuator p :: kinds)
    (heq : tokens n ++ rest = tokens m ++ rest') : n = m ∧ rest = rest' := by
  have hends {rest : List TokenKind} (h : ∃ p kinds, rest = .punctuator p :: kinds) :
      ∀ kind ∈ rest.head?, ¬∀ p, kind ≠ .punctuator p := by
    obtain ⟨p, kinds, rfl⟩ := h
    rintro kind ⟨⟩ hne
    exact hne p rfl
  exact eq_of_options (fun n => ⟨_, _, rfl, n.kind_ne⟩) (fun n _ => n.settled) (hends hrest)
    (hends hrest') heq

theorem OperationDefinition.settled (d : OperationDefinition) : Settled [] d := by
  have hmark (vs : List VariableDefinition) (ds : List Directive) (set : SelectionSet)
      (rest : List TokenKind) : ∃ p kinds, parenthesized vs ++
        (Derivation.tokens ds ++ (Derivation.tokens set ++ rest)) = .punctuator p :: kinds := by
    cases vs with
    | nil => exact exists_mark ds set rest
    | cons v vs => exact ⟨_, _, rfl⟩
  have hclear (ds : List Directive) (set : SelectionSet) (rest : List TokenKind) :
      Clear [.parenOpen] (Derivation.tokens ds ++ (Derivation.tokens set ++ rest)) :=
    clear_directives (by decide) (set.clear (by decide)) ds
  have hkeyword (set : SelectionSet) (o : OperationKind) (rest tail : List TokenKind) :
      Derivation.tokens set ++ rest ≠ .name o.keyword :: tail := by
    obtain ⟨_, _, hset, rfl⟩ := SelectionSet.opens set
    rw [hset]
    exact nofun
  -- A query without its keyword begins with a brace, and any other operation with a keyword.
  rintro d' rest rest' - - heq
  rcases d with set | ⟨o, n, vs, ds, set⟩ <;> rcases d' with set' | ⟨o', m, vs', ds', set'⟩ <;>
    simp only [Derivation.tokens, List.cons_append, List.append_assoc] at heq
  · obtain ⟨rfl, rfl⟩ := set.settled (clear_nil _) (clear_nil _) heq
    exact ⟨rfl, rfl⟩
  · exact absurd heq (hkeyword set o' rest _)
  · exact absurd heq.symm (hkeyword set' o rest' _)
  · obtain ⟨hword, hnames⟩ := List.cons_eq_cons.mp heq
    cases OperationKind.keyword_injective (TokenKind.name.inj hword)
    obtain ⟨rfl, hvariables⟩ :=
      eq_of_optionalName (hmark vs ds set rest) (hmark vs' ds' set' rest') hnames
    obtain ⟨rfl, hdirectives⟩ := eq_of_parenthesized VariableDefinition.opens (by decide)
      (fun v _ => v.settled) (hclear ds set rest) (hclear ds' set' rest') hvariables
    obtain ⟨rfl, hsets⟩ := eq_of_directives (set.clear (by decide)) (set'.clear (by decide))
      hdirectives
    obtain ⟨rfl, rfl⟩ := set.settled (clear_nil _) (clear_nil _) hsets
    exact ⟨rfl, rfl⟩

theorem FragmentDefinition.settled (d : FragmentDefinition) : Settled [] d := by
  rintro d' rest rest' - - heq
  obtain ⟨n, condition, ds, set⟩ := d
  obtain ⟨m, condition', ds', set'⟩ := d'
  simp only [Derivation.tokens, List.cons_append, List.append_assoc, List.cons_eq_cons,
    true_and] at heq
  obtain ⟨hname, hcondition, hafter⟩ := heq
  -- Behind its type, a fragment goes on as one on the spot that has no type.
  have hafter : Derivation.tokens (none : Option TypeCondition) ++
      (Derivation.tokens ds ++ (Derivation.tokens set ++ rest)) =
        Derivation.tokens (none : Option TypeCondition) ++
          (Derivation.tokens ds' ++ (Derivation.tokens set' ++ rest')) := hafter
  obtain ⟨-, rfl, rfl, rfl⟩ := eq_of_inlines set.settled hafter
  obtain ⟨t⟩ := condition
  obtain ⟨u⟩ := condition'
  obtain rfl : t = u := Name.kind_injective hcondition
  exact ⟨by rw [FragmentName.eq_of_kind hname], rfl⟩

/-- An operation begins with a brace or the keyword of its kind. -/
theorem OperationDefinition.opens : Opens OperationDefinition fun kind =>
    kind = .punctuator .braceOpen ∨ ∃ o : OperationKind, kind = .name o.keyword := by
  rintro (set | ⟨o, n, vs, ds, set⟩)
  · obtain ⟨kind, kinds, hset, hkind⟩ := SelectionSet.opens set
    exact ⟨kind, kinds, hset, .inl hkind⟩
  · exact ⟨_, _, rfl, .inr ⟨o, rfl⟩⟩

theorem FragmentDefinition.opens : Opens FragmentDefinition (· = .name "fragment") :=
  fun _ => ⟨_, _, rfl, rfl⟩

/-- A fragment is no operation. -/
theorem FragmentDefinition.ne_operation (d : FragmentDefinition) (e : OperationDefinition)
    (rest rest' : List TokenKind) : Derivation.tokens d ++ rest ≠ Derivation.tokens e ++ rest' := by
  obtain ⟨kind, kinds, he, hkind⟩ := OperationDefinition.opens e
  intro heq
  rw [he] at heq
  rcases hkind with rfl | ⟨o, rfl⟩
  · cases (List.cons_eq_cons.mp heq).1
  · cases o <;> exact absurd (List.cons_eq_cons.mp heq).1 (by decide)

theorem Definition.settled (d : Definition) : Settled [] d := by
  rintro d' rest rest' - - heq
  rcases d with d | d <;> rcases d' with d' | d'
  · obtain ⟨rfl, rfl⟩ := d.settled (clear_nil _) (clear_nil _) heq
    exact ⟨rfl, rfl⟩
  · exact absurd heq.symm (d'.ne_operation d rest' rest)
  · exact absurd heq (d.ne_operation d' rest rest')
  · obtain ⟨rfl, rfl⟩ := d.settled (clear_nil _) (clear_nil _) heq
    exact ⟨rfl, rfl⟩

theorem Definition.opens : Opens Definition Starts := by
  rintro (d | d)
  · obtain ⟨kind, kinds, hd, rfl | ⟨o, rfl⟩⟩ := OperationDefinition.opens d
    · exact ⟨_, kinds, hd, .inl rfl⟩
    · exact ⟨_, kinds, hd, .inr ⟨o.keyword, by cases o <;> decide, rfl⟩⟩
  · obtain ⟨kind, kinds, hd, rfl⟩ := FragmentDefinition.opens d
    exact ⟨_, kinds, hd, .inr ⟨"fragment", by decide, rfl⟩⟩

/-! ## Whole sequences -/

theorem TypeReference.tokens_injective :
    Function.Injective (Derivation.tokens : TypeReference → List TokenKind) := fun t _ heq =>
  (t.settled (clear_end _) (clear_end _) (congrArg (· ++ []) heq)).1

theorem Value.tokens_injective {constant : Bool} :
    Function.Injective (Derivation.tokens : Value constant → List TokenKind) := fun v _ heq =>
  (v.settled (clear_nil []) (clear_nil []) (congrArg (· ++ []) heq)).1

/-- A row of definitions that begins another is where that one begins. -/
theorem exists_of_definitions : ∀ {ds es : List Definition} {rest : List TokenKind},
    tokens es = tokens ds ++ rest → ∃ others, es = ds ++ others ∧ rest = tokens others
  | [], es, _, heq => ⟨es, rfl, heq.symm⟩
  | d :: ds, [], _, heq => by
      obtain ⟨kind, kinds, hd, -⟩ := Definition.opens d
      change _ = (tokens d ++ tokens ds) ++ _ at heq
      rw [hd] at heq
      cases heq
  | d :: ds, e :: es, _, heq => by
      change tokens e ++ tokens es = (tokens d ++ tokens ds) ++ _ at heq
      rw [List.append_assoc] at heq
      obtain ⟨rfl, hrest⟩ := e.settled (clear_nil _) (clear_nil _) heq
      obtain ⟨others, rfl, rfl⟩ := exists_of_definitions hrest
      exact ⟨others, rfl, rfl⟩

/-- There are no definitions without tokens. -/
theorem definitions_eq_nil {ds : List Definition} (h : tokens ds = []) : ds = [] := by
  cases ds with
  | nil => rfl
  | cons d ds =>
      obtain ⟨kind, kinds, hd, -⟩ := Definition.opens d
      change tokens d ++ tokens ds = [] at h
      rw [hd] at h
      cases h

theorem Document.tokens_injective :
    Function.Injective (Derivation.tokens : Document → List TokenKind) := by
  rintro ⟨first, ds⟩ ⟨first', ds'⟩ heq
  have hrows : Derivation.tokens (first' :: ds') = Derivation.tokens (first :: ds) ++ [] := by
    rw [List.append_nil]
    exact heq.symm
  obtain ⟨others, hcons, hnil⟩ := exists_of_definitions hrows
  rw [definitions_eq_nil hnil.symm, List.append_nil] at hcons
  obtain ⟨rfl, rfl⟩ := List.cons_eq_cons.mp hcons
  rfl

/-- Whatever is derived has no definitions of a type system. -/
theorem Document.startsExecutable (d : Document) : StartsExecutable (Derivation.tokens d) := by
  intro ds next rest heq
  have hrows : Derivation.tokens (d.first :: d.others) = Derivation.tokens ds ++ next :: rest := heq
  obtain ⟨others, -, hnext⟩ := exists_of_definitions hrows
  cases others with
  | nil => cases hnext
  | cons e others =>
      obtain ⟨kind, kinds, he, hkind⟩ := Definition.opens e
      change _ = Derivation.tokens e ++ Derivation.tokens others at hnext
      rw [he] at hnext
      cases (List.cons_eq_cons.mp hnext).1
      exact hkind.not_typeSystem

end Derivation

end GraphQL
