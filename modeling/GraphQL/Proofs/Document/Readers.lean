import Mathlib
import GraphQL.Document.Parser

/-!
# What readers do

`Reads p s a s'` says that the reader `p` comes from the state `s` to the tree `a` and the state
`s'`.  Readers are put together from few steps: looking at the next token, reading it, and noting a
span.  The lemmas here say for each step what it does, in terms of the kinds of the tokens that are
left; no more of a token counts for what is read.

`Stops p s e` says that the reader stops with an error.  The last token of a text is its end, and
only `expectEnd` goes past it.  As long as it is ahead (`State.HasEnd`) there is a token to look at,
and the error that there is none is out of reach.  `Keeps K p` says that a reader that starts there,
before a token that `K` holds of, stays there; that is shown for the readers that neither loop nor
nest.
-/

namespace GraphQL

namespace Parser

variable {α β : Type}

/-- The kinds of the tokens that are left. -/
def State.kinds (s : State) : List TokenKind := s.tokens.map (·.kind)

/-- A reader reads a tree. -/
def Reads (p : Parser α) (s : State) (a : α) (s' : State) : Prop := p s = .ok (a, s')

/-- No stretch of the text that is left is no token. -/
def State.Clean (s : State) : Prop := ∀ fault, .error fault ∉ s.kinds

variable {s s' : State} {a : α} {b : β} {token : Token} {kinds : List TokenKind} {kind : TokenKind}
  {mark : Punctuator}

theorem reads_bind {p : Parser α} {f : α → Parser β} :
    Reads (p >>= f) s b s' ↔ ∃ a t, Reads p s a t ∧ Reads (f a) t b s' := by
  simp only [Reads, bind, StateT.bind, Except.bind]
  cases h : p s with
  | error e => simp
  | ok r =>
      obtain ⟨a, t⟩ := r
      simp

theorem reads_pure {a' : α} : Reads (pure a) s a' s' ↔ a' = a ∧ s' = s := by
  simp only [Reads, pure, StateT.pure, Except.pure, Except.ok.injEq, Prod.mk.injEq]
  exact ⟨fun ⟨h, h'⟩ => ⟨h.symm, h'.symm⟩, fun ⟨h, h'⟩ => ⟨h.symm, h'.symm⟩⟩

theorem not_reads_fail {fault : SyntaxFault} {span : Span} :
    ¬Reads (fail fault span) s a s' := by
  intro h
  cases h

/-! ## Looking at the next token -/

theorem reads_peek :
    Reads peek s token s' ↔
      s' = s ∧ s.tokens.head? = some token ∧ ∀ fault, token.kind ≠ .error fault := by
  obtain ⟨tokens, lastEnd, options⟩ := s
  cases tokens with
  | nil => simp [Reads, peek, fail, bind, StateT.bind, Except.bind, get, getThe,
      MonadStateOf.get, StateT.get, throw, throwThe, MonadExceptOf.throw, StateT.lift, pure,
      Except.pure]
  | cons first rest =>
      simp only [Reads, peek, fail, bind, StateT.bind, Except.bind, get, getThe,
        MonadStateOf.get, StateT.get, pure, Except.pure, List.head?_cons, Option.some.injEq]
      cases hkind : first.kind with
      | error fault =>
          refine iff_of_false ?_ ?_
          · intro h
            cases h
          · rintro ⟨-, rfl, hclean⟩
            exact hclean fault hkind
      | _ =>
          simp only [StateT.pure, pure, Except.pure, Except.ok.injEq, Prod.mk.injEq]
          constructor
          · rintro ⟨rfl, rfl⟩
            exact ⟨rfl, rfl, fun fault h => by rw [hkind] at h; cases h⟩
          · rintro ⟨rfl, rfl, -⟩
            exact ⟨rfl, rfl⟩

theorem reads_get {t : State} : Reads get s t s' ↔ t = s ∧ s' = s := by
  refine Iff.trans ?_ reads_pure
  rfl

/-- A reader that reads no token, and does so wherever there is one. -/
structure Looks (p : Parser α) : Prop where
  silent : ∀ {s a s'}, Reads p s a s' → s' = s
  ready : ∀ {s}, s.Clean → s.kinds ≠ [] → ∃ a, Reads p s a s

theorem head?_kinds (h : s.tokens.head? = some token) : s.kinds.head? = some token.kind := by
  rw [State.kinds, List.head?_map, h]
  rfl

theorem exists_head? (h : s.kinds = kind :: kinds) :
    ∃ token, s.tokens.head? = some token ∧ token.kind = kind := by
  obtain ⟨token, rest, htokens, hkind, -⟩ := List.map_eq_cons_iff.mp h
  exact ⟨token, by rw [htokens]; rfl, hkind⟩

theorem reads_peek_of_kinds (h : s.kinds = kind :: kinds) (hclean : s.Clean) :
    ∃ token, Reads peek s token s ∧ token.kind = kind := by
  obtain ⟨token, hhead, hkind⟩ := exists_head? h
  refine ⟨token, reads_peek.mpr ⟨rfl, hhead, fun fault hfault => hclean fault ?_⟩, hkind⟩
  rw [h, ← hkind, hfault]
  exact List.mem_cons_self

theorem kinds_of_reads_peek (h : Reads peek s token s') : s.kinds.head? = some token.kind :=
  head?_kinds (reads_peek.mp h).2.1

theorem looks_peek : Looks peek where
  silent h := (reads_peek.mp h).1
  ready hclean hne := by
    obtain ⟨kind, kinds, hkinds⟩ := List.exists_cons_of_ne_nil hne
    obtain ⟨token, hpeek, -⟩ := reads_peek_of_kinds hkinds hclean
    exact ⟨token, hpeek⟩

theorem looks_spanFrom (first : Span) : Looks (spanFrom first) where
  silent h := by
    obtain ⟨state, t, hget, hpure⟩ := reads_bind.mp h
    exact (reads_pure.mp hpure).2.trans (reads_get.mp hget).2
  ready _ _ := ⟨_, reads_bind.mpr ⟨_, _, reads_get.mpr ⟨rfl, rfl⟩, reads_pure.mpr ⟨rfl, rfl⟩⟩⟩

theorem looks_tokenSpan (span : Span) : Looks (tokenSpan span) where
  silent h := by
    obtain ⟨state, t, hget, hpure⟩ := reads_bind.mp h
    exact (reads_pure.mp hpure).2.trans (reads_get.mp hget).2
  ready _ _ := ⟨_, reads_bind.mpr ⟨_, _, reads_get.mpr ⟨rfl, rfl⟩, reads_pure.mpr ⟨rfl, rfl⟩⟩⟩

theorem reads_limit {n : ℕ} : Reads limit s n s' ↔ n = s.kinds.length ∧ s' = s := by
  refine Iff.trans ?_ (reads_pure (a := s.kinds.length))
  rw [State.kinds, List.length_map]
  rfl

theorem looks_limit : Looks limit where
  silent h := (reads_limit.mp h).2
  ready _ _ := ⟨_, reads_limit.mpr ⟨rfl, rfl⟩⟩

/-! ## Reading the next token -/

/-- The state after the next token. -/
def State.next (s : State) (token : Token) : State :=
  { s with tokens := s.tokens.tail, lastEnd := some token.span.stop }

theorem kinds_next : (s.next token).kinds = s.kinds.tail := List.map_tail

theorem reads_advance :
    Reads advance s token s' ↔ Reads peek s token s ∧ s' = s.next token := by
  rw [advance, reads_bind]
  constructor
  · rintro ⟨first, t, hpeek, h⟩
    obtain ⟨⟨⟩, u, hmodify, hpure⟩ := reads_bind.mp h
    obtain ⟨rfl, rfl⟩ := reads_pure.mp hpure
    cases looks_peek.silent hpeek
    refine ⟨hpeek, ?_⟩
    cases hmodify
    rfl
  · rintro ⟨hpeek, rfl⟩
    exact ⟨token, s, hpeek, reads_bind.mpr ⟨(), s.next token, rfl, reads_pure.mpr ⟨rfl, rfl⟩⟩⟩

theorem kinds_of_reads_advance (h : Reads advance s token s') :
    s.kinds = token.kind :: s'.kinds := by
  obtain ⟨hpeek, rfl⟩ := reads_advance.mp h
  rw [kinds_next]
  exact List.eq_cons_of_mem_head? (kinds_of_reads_peek hpeek)

theorem not_reads_unexpected {expected : Expectation} : ¬Reads (unexpected expected) s a s' := by
  intro h
  obtain ⟨token, t, -, h⟩ := reads_bind.mp h
  cases hkind : token.kind <;> rw [hkind] at h <;> exact not_reads_fail h

/-! ## Marks and words -/

/-- A question about the next token is answered by its kind, and nothing is read. -/
theorem reads_ask {f : TokenKind → Bool} {b : Bool} :
    Reads (do return f (← peek).kind) s b s' ↔
      ∃ token, Reads peek s token s ∧ s' = s ∧ b = f token.kind := by
  rw [reads_bind]
  constructor
  · rintro ⟨token, t, hpeek, hpure⟩
    cases looks_peek.silent hpeek
    obtain ⟨rfl, rfl⟩ := reads_pure.mp hpure
    exact ⟨token, hpeek, rfl, rfl⟩
  · rintro ⟨token, hpeek, rfl, rfl⟩
    exact ⟨token, s', hpeek, reads_pure.mpr ⟨rfl, rfl⟩⟩

/-- A question about the next token. -/
theorem looks_ask (ask : TokenKind → Bool) : Looks (do return ask (← peek).kind) where
  silent h := by
    obtain ⟨-, -, rfl, -⟩ := reads_ask.mp h
    rfl
  ready hclean hne := by
    obtain ⟨token, hpeek⟩ := looks_peek.ready hclean hne
    exact ⟨_, reads_ask.mpr ⟨token, hpeek, rfl, rfl⟩⟩

theorem reads_peekIs {b : Bool} :
    Reads (peekIs mark) s b s' ↔
      ∃ token, Reads peek s token s ∧ s' = s ∧ b = decide (token.kind = .punctuator mark) :=
  reads_ask (f := fun kind => decide (kind = .punctuator mark))

theorem reads_peekIsKeyword {word : String} {b : Bool} :
    Reads (peekIsKeyword word) s b s' ↔
      ∃ token, Reads peek s token s ∧ s' = s ∧ b = decide (token.kind = .name word) :=
  reads_ask (f := fun kind => decide (kind = .name word))

/-- One of two readers, as the next token says. -/
theorem reads_atMark {item otherwise : Parser α} :
    Reads (atMark mark item otherwise) s a s' ↔
      ∃ token, Reads peek s token s ∧
        if token.kind = .punctuator mark then Reads item s a s' else Reads otherwise s a s' := by
  rw [atMark, reads_bind]
  constructor
  · rintro ⟨b, t, hpeekIs, h⟩
    obtain ⟨token, hpeek, rfl, rfl⟩ := reads_peekIs.mp hpeekIs
    refine ⟨token, hpeek, ?_⟩
    by_cases hkind : token.kind = .punctuator mark
    · rw [if_pos (decide_eq_true hkind)] at h
      rwa [if_pos hkind]
    · rw [if_neg (by simpa using hkind)] at h
      rwa [if_neg hkind]
  · rintro ⟨token, hpeek, h⟩
    refine ⟨_, s, reads_peekIs.mpr ⟨token, hpeek, rfl, rfl⟩, ?_⟩
    by_cases hkind : token.kind = .punctuator mark
    · rw [if_pos hkind] at h
      rwa [if_pos (decide_eq_true hkind)]
    · rw [if_neg hkind] at h
      rwa [if_neg (by simpa using hkind)]

theorem reads_skipIf {b : Bool} :
    Reads (skipIf mark) s b s' ↔
      ∃ token, Reads peek s token s ∧ if token.kind = .punctuator mark
        then b = true ∧ s' = s.next token else b = false ∧ s' = s := by
  have hskip : skipIf mark = atMark mark (advance >>= fun _ => pure true) (pure false) := rfl
  rw [hskip, reads_atMark]
  refine exists_congr fun token => and_congr_right fun hpeek => ?_
  by_cases hkind : token.kind = .punctuator mark
  · rw [if_pos hkind, if_pos hkind, reads_bind]
    constructor
    · rintro ⟨token', t, hadvance, hpure⟩
      obtain ⟨hpeek', rfl⟩ := reads_advance.mp hadvance
      cases (reads_peek.mp hpeek).2.1.symm.trans (reads_peek.mp hpeek').2.1
      exact reads_pure.mp hpure
    · rintro ⟨rfl, rfl⟩
      exact ⟨token, _, reads_advance.mpr ⟨hpeek, rfl⟩, reads_pure.mpr ⟨rfl, rfl⟩⟩
  · rw [if_neg hkind, if_neg hkind]
    exact reads_pure

theorem reads_afterMark {item otherwise : Parser α} :
    Reads (afterMark mark item otherwise) s a s' ↔
      ∃ token, Reads peek s token s ∧ if token.kind = .punctuator mark
        then Reads item (s.next token) a s' else Reads otherwise s a s' := by
  rw [afterMark, reads_bind]
  constructor
  · rintro ⟨b, t, hskip, h⟩
    obtain ⟨token, hpeek, hcase⟩ := reads_skipIf.mp hskip
    refine ⟨token, hpeek, ?_⟩
    by_cases hkind : token.kind = .punctuator mark
    · rw [if_pos hkind] at hcase ⊢
      obtain ⟨rfl, rfl⟩ := hcase
      exact h
    · rw [if_neg hkind] at hcase ⊢
      obtain ⟨rfl, rfl⟩ := hcase
      exact h
  · rintro ⟨token, hpeek, h⟩
    by_cases hkind : token.kind = .punctuator mark
    · rw [if_pos hkind] at h
      exact ⟨true, _, reads_skipIf.mpr ⟨token, hpeek, by rw [if_pos hkind]; exact ⟨rfl, rfl⟩⟩, h⟩
    · rw [if_neg hkind] at h
      exact ⟨false, _, reads_skipIf.mpr ⟨token, hpeek, by rw [if_neg hkind]; exact ⟨rfl, rfl⟩⟩, h⟩

theorem reads_expect :
    Reads (expect mark) s token s' ↔
      Reads advance s token s' ∧ token.kind = .punctuator mark := by
  have hexpect : expect mark = atMark mark advance (unexpected (.punctuator mark)) := rfl
  rw [hexpect, reads_atMark]
  constructor
  · rintro ⟨token', hpeek, h⟩
    by_cases hkind : token'.kind = .punctuator mark
    · rw [if_pos hkind] at h
      obtain ⟨hpeek', rfl⟩ := reads_advance.mp h
      cases (reads_peek.mp hpeek).2.1.symm.trans (reads_peek.mp hpeek').2.1
      exact ⟨h, hkind⟩
    · rw [if_neg hkind] at h
      exact absurd h not_reads_unexpected
  · rintro ⟨hadvance, hkind⟩
    exact ⟨token, (reads_advance.mp hadvance).1, by rwa [if_pos hkind]⟩

theorem reads_expectKeyword {word : String} :
    Reads (expectKeyword word) s token s' ↔
      Reads advance s token s' ∧ token.kind = .name word := by
  rw [expectKeyword, reads_bind]
  constructor
  · rintro ⟨b, t, hpeekIs, h⟩
    obtain ⟨token', hpeek, rfl, rfl⟩ := reads_peekIsKeyword.mp hpeekIs
    by_cases hkind : token'.kind = .name word
    · rw [if_pos (decide_eq_true hkind)] at h
      obtain ⟨hpeek', rfl⟩ := reads_advance.mp h
      cases (reads_peek.mp hpeek).2.1.symm.trans (reads_peek.mp hpeek').2.1
      exact ⟨h, hkind⟩
    · rw [if_neg (by simpa using hkind)] at h
      exact absurd h not_reads_unexpected
  · rintro ⟨hadvance, hkind⟩
    refine ⟨_, s, reads_peekIsKeyword.mpr ⟨token, (reads_advance.mp hadvance).1, rfl, rfl⟩, ?_⟩
    rwa [if_pos (decide_eq_true hkind)]

/-! ## Errors -/

variable {K : TokenKind → Prop} {e : SyntaxError}

/-- A reader stops with an error. -/
def Stops (p : Parser α) (s : State) (e : SyntaxError) : Prop := p s = .error e

theorem stops_bind {p : Parser α} {f : α → Parser β} :
    Stops (p >>= f) s e ↔ Stops p s e ∨ ∃ a t, Reads p s a t ∧ Stops (f a) t e := by
  simp only [Stops, Reads, bind, StateT.bind, Except.bind]
  cases h : p s with
  | error e => simp
  | ok r =>
      obtain ⟨a, t⟩ := r
      simp

theorem not_stops_pure : ¬Stops (pure a) s e := nofun

theorem stops_fail {fault : SyntaxFault} {span : Span} :
    Stops (fail fault span : Parser α) s e ↔ e = { fault, span } :=
  ⟨fun h => by cases h; rfl, fun h => by cases h; rfl⟩

/-- A look ahead finds the tokens exhausted, or a stretch of text that is no token. -/
theorem fault_eq_iff_of_stops_peek (h : Stops peek s e) :
    e.fault = .unexpectedEnd [] ↔ s.tokens = [] := by
  obtain ⟨tokens, lastEnd, options⟩ := s
  cases tokens with
  | nil =>
      cases h
      exact iff_of_true rfl rfl
  | cons first rest =>
      simp only [Stops, peek, fail, bind, StateT.bind, Except.bind, get, getThe,
        MonadStateOf.get, StateT.get, pure, Except.pure] at h
      cases hkind : first.kind with
      | error fault =>
          rw [hkind] at h
          cases h
          exact iff_of_false nofun nofun
      | _ =>
          rw [hkind] at h
          cases h

/-- Only the look ahead can stop a step. -/
theorem stops_advance : Stops advance s e ↔ Stops peek s e := by
  rw [advance, stops_bind, or_iff_left]
  rintro ⟨token, t, -, hrest⟩
  cases hrest

/-! ## The end ahead -/

/-- The end of the text is still ahead. -/
def State.HasEnd (s : State) : Prop := s.kinds.getLast? = some .eof

/-- `K` holds of the next token. -/
def State.NextIs (K : TokenKind → Prop) (s : State) : Prop := ∀ kind ∈ s.kinds.head?, K kind

theorem State.NextIs.any (s : State) : s.NextIs fun _ => True := fun _ _ => trivial

theorem State.HasEnd.ne_nil (h : s.HasEnd) : s.tokens ≠ [] := by
  intro hnil
  rw [State.HasEnd, State.kinds, hnil] at h
  cases h

theorem nextIs_of_reads_peek (h : Reads peek s token s') : s.NextIs (· = token.kind) := by
  intro kind hkind
  rw [kinds_of_reads_peek h] at hkind
  exact (Option.some.inj hkind).symm

theorem State.HasEnd.next (h : s.HasEnd) (hpeek : Reads peek s token s') (hne : token.kind ≠ .eof) :
    (s.next token).HasEnd := by
  have hkinds := List.eq_cons_of_mem_head? (kinds_of_reads_peek hpeek)
  rw [State.HasEnd, hkinds, List.getLast?_cons] at h
  rw [State.HasEnd, kinds_next]
  cases hlast : s.kinds.tail.getLast? with
  | none =>
      rw [hlast] at h
      exact absurd (Option.some.inj h) hne
  | some kind =>
      rw [hlast] at h
      exact h

theorem length_next : (s.next token).tokens.length ≤ s.tokens.length := by
  rw [State.next, List.length_tail]
  exact Nat.sub_le _ 1

theorem fault_of_stops_peek (h : Stops peek s e) (hend : s.HasEnd) :
    e.fault ≠ .unexpectedEnd [] :=
  mt (fault_eq_iff_of_stops_peek h).mp hend.ne_nil

theorem fault_of_stops_advance (h : Stops advance s e) (hend : s.HasEnd) :
    e.fault ≠ .unexpectedEnd [] :=
  fault_of_stops_peek (stops_advance.mp h) hend

/-! ## Readers that stay before the end -/

/-- With the end ahead and `K` true of the next token, the reader takes tokens from the front, stops
before the end, and does not find the tokens exhausted. -/
structure Keeps (K : TokenKind → Prop) (p : Parser α) : Prop where
  reads : ∀ {s a s'}, s.HasEnd → s.NextIs K → Reads p s a s' →
    s'.HasEnd ∧ s'.tokens.length ≤ s.tokens.length
  stops : ∀ {s e}, s.HasEnd → s.NextIs K → Stops p s e → e.fault ≠ .unexpectedEnd []

section

variable {p : Parser α} {f : α → Parser β}

theorem Keeps.restrict {L : TokenKind → Prop} (h : Keeps K p) (hL : ∀ kind, L kind → K kind) :
    Keeps L p where
  reads hend hnext := h.reads hend fun kind hkind => hL kind (hnext kind hkind)
  stops hend hnext := h.stops hend fun kind hkind => hL kind (hnext kind hkind)

theorem Keeps.pure : Keeps K (pure a) where
  reads hend _ hreads := by
    obtain ⟨-, rfl⟩ := reads_pure.mp hreads
    exact ⟨hend, le_rfl⟩
  stops _ _ hstops := absurd hstops not_stops_pure

theorem Keeps.fail {fault : SyntaxFault} {span : Span} (h : fault ≠ .unexpectedEnd []) :
    Keeps K (fail fault span : Parser α) where
  reads _ _ hreads := absurd hreads not_reads_fail
  stops _ _ hstops := by
    rw [stops_fail.mp hstops]
    exact h

theorem Keeps.bind (hp : Keeps K p) (hf : ∀ a, Keeps (fun _ => True) (f a)) :
    Keeps K (p >>= f) where
  reads hend hnext hreads := by
    obtain ⟨a, t, hfirst, hrest⟩ := reads_bind.mp hreads
    obtain ⟨hend', hle⟩ := hp.reads hend hnext hfirst
    obtain ⟨hend'', hle'⟩ := (hf a).reads hend' (.any _) hrest
    exact ⟨hend'', hle'.trans hle⟩
  stops hend hnext hstops := by
    rcases stops_bind.mp hstops with hfirst | ⟨a, t, hfirst, hrest⟩
    · exact hp.stops hend hnext hfirst
    · exact (hf a).stops (hp.reads hend hnext hfirst).1 (.any _) hrest

/-- A reader that knows the next token. -/
theorem Keeps.peek {f : Token → Parser α}
    (hf : ∀ token, Keeps (fun kind => K kind ∧ kind = token.kind) (f token)) :
    Keeps K (peek >>= f) where
  reads := by
    intro s a s' hend hnext hreads
    obtain ⟨token, t, hpeek, hrest⟩ := reads_bind.mp hreads
    cases looks_peek.silent hpeek
    exact (hf token).reads hend
      (fun kind hkind => ⟨hnext kind hkind, nextIs_of_reads_peek hpeek kind hkind⟩) hrest
  stops := by
    intro s e hend hnext hstops
    rcases stops_bind.mp hstops with hpeek | ⟨token, t, hpeek, hrest⟩
    · exact fault_of_stops_peek hpeek hend
    · cases looks_peek.silent hpeek
      exact (hf token).stops hend
        (fun kind hkind => ⟨hnext kind hkind, nextIs_of_reads_peek hpeek kind hkind⟩) hrest

theorem keeps_peek : Keeps K Parser.peek where
  reads hend _ hreads := by
    cases looks_peek.silent hreads
    exact ⟨hend, le_rfl⟩
  stops hend _ hstops := fault_of_stops_peek hstops hend

/-- A question about the next token. -/
theorem keeps_ask (ask : TokenKind → Bool) : Keeps K (do return ask (← Parser.peek).kind) :=
  keeps_peek.bind fun _ => .pure

/-- Only the end itself may not be read. -/
theorem keeps_advance (h : ∀ kind, K kind → kind ≠ .eof) : Keeps K advance where
  reads := by
    intro s token s' hend hnext hreads
    obtain ⟨hpeek, rfl⟩ := reads_advance.mp hreads
    exact ⟨hend.next hpeek (h _ (hnext _ (kinds_of_reads_peek hpeek))), length_next⟩
  stops hend _ hstops := fault_of_stops_advance hstops hend

theorem keeps_unexpected {expected : Expectation} : Keeps K (unexpected expected : Parser α) := by
  refine .peek fun token => ?_
  cases token.kind <;> exact .fail (by simp)

theorem keeps_spanFrom (first : Span) : Keeps K (spanFrom first) where
  reads hend _ hreads := by
    cases (looks_spanFrom first).silent hreads
    exact ⟨hend, le_rfl⟩
  stops _ _ hstops := by cases hstops

theorem keeps_tokenSpan (span : Span) : Keeps K (tokenSpan span) where
  reads hend _ hreads := by
    cases (looks_tokenSpan span).silent hreads
    exact ⟨hend, le_rfl⟩
  stops _ _ hstops := by cases hstops

/-- A reader that goes on as a test of the next token says. -/
theorem Keeps.test (test : TokenKind → Bool) {f : Bool → Parser α}
    (htrue : Keeps (fun kind => K kind ∧ test kind = true) (f true))
    (hfalse : Keeps (fun kind => K kind ∧ test kind = false) (f false)) :
    Keeps K ((do return test (← Parser.peek).kind) >>= f) := by
  rw [bind_assoc]
  refine .peek fun token => ?_
  rw [pure_bind]
  cases htest : test token.kind with
  | true => exact htrue.restrict fun kind hkind => ⟨hkind.1, hkind.2 ▸ htest⟩
  | false => exact hfalse.restrict fun kind hkind => ⟨hkind.1, hkind.2 ▸ htest⟩

end

/-! ## Readers without loops -/

theorem keeps_skipIf (mark : Punctuator) : Keeps K (skipIf mark) := by
  refine .test (fun kind => decide (kind = .punctuator mark)) ?_ .pure
  refine (keeps_advance ?_).bind fun _ => .pure
  rintro _ ⟨-, hmark⟩ rfl
  cases of_decide_eq_true hmark

theorem Keeps.afterMark {item otherwise : Parser α} (hitem : Keeps (fun _ => True) item)
    (hother : Keeps (fun _ => True) otherwise) : Keeps K (afterMark mark item otherwise) :=
  (keeps_skipIf mark).bind fun b => by
    cases b with
    | true => exact hitem
    | false => exact hother

theorem keeps_expect (mark : Punctuator) : Keeps K (expect mark) := by
  refine .test (fun kind => decide (kind = .punctuator mark)) (keeps_advance ?_) keeps_unexpected
  rintro _ ⟨-, hmark⟩ rfl
  cases of_decide_eq_true hmark

theorem keeps_expectKeyword (word : String) : Keeps K (expectKeyword word) := by
  refine .test (fun kind => decide (kind = .name word)) (keeps_advance ?_) keeps_unexpected
  rintro _ ⟨-, hword⟩ rfl
  cases of_decide_eq_true hword

theorem keeps_name : Keeps K name := by
  refine .peek fun token => ?_
  cases htext : nameText? token.kind with
  | none => exact keeps_unexpected
  | some text =>
      refine (keeps_advance ?_).bind fun _ => (keeps_tokenSpan _).bind fun _ => .pure
      rintro _ ⟨-, heq⟩ rfl
      rw [← heq] at htext
      cases htext

theorem keeps_namedType : Keeps K namedType :=
  .peek fun _ => keeps_name.bind fun _ => (keeps_spanFrom _).bind fun _ => .pure

theorem keeps_variableUse : Keeps K variableUse :=
  (keeps_expect _).bind fun _ => keeps_name.bind fun _ => (keeps_spanFrom _).bind fun _ => .pure

theorem keeps_operationKind : Keeps K operationKind := by
  refine .peek fun token => ?_
  cases token.kind with
  | name word =>
      dsimp only
      cases OperationKind.ofKeyword? word with
      | none => exact keeps_unexpected
      | some kind =>
          refine (keeps_advance ?_).bind fun _ => .pure
          rintro _ ⟨-, rfl⟩
          nofun
  | _ => exact keeps_unexpected

theorem keeps_optionalName : Keeps K optionalName :=
  .test (fun kind => (nameText? kind).isSome) (keeps_name.bind fun _ => .pure) .pure

theorem keeps_fragmentName : Keeps K fragmentName := by
  refine .peek fun token => ?_
  split
  · exact .fail nofun
  · exact keeps_name

/-- A name of which some are an error. -/
theorem keeps_nameBut (excluded : String → Prop) [DecidablePred excluded]
    {fault : String → SyntaxFault} {span : Span} (h : ∀ text, fault text ≠ .unexpectedEnd []) :
    Keeps K (name >>= fun n => if excluded n.text then fail (fault n.text) span else pure n) := by
  refine keeps_name.bind fun n => ?_
  split
  · exact .fail (h _)
  · exact .pure

theorem keeps_enumValueName : Keeps K enumValueName :=
  .peek fun _ => keeps_nameBut (fun text => text = "true" ∨ text = "false" ∨ text = "null") nofun

theorem keeps_directiveLocation : Keeps K directiveLocation :=
  .peek fun _ => keeps_nameBut (fun text => (DirectiveLocation.ofText? text).isNone) nofun

theorem keeps_description : Keeps K description := by
  refine .peek fun token => ?_
  cases token.kind with
  | string text | blockString text =>
      refine (keeps_advance ?_).bind fun _ => .pure
      rintro _ ⟨-, rfl⟩
      nofun
  | _ => exact .pure

theorem keeps_operationTypeDefinition : Keeps K operationTypeDefinition :=
  .peek fun _ => keeps_operationKind.bind fun _ => (keeps_expect _).bind fun _ =>
    keeps_namedType.bind fun _ => (keeps_spanFrom _).bind fun _ => .pure

/-! ## The end itself -/

theorem fault_of_stops_expectEnd (h : Stops expectEnd s e) (hend : s.HasEnd) :
    e.fault ≠ .unexpectedEnd [] := by
  rcases stops_bind.mp h with hpeek | ⟨token, t, hpeek, hrest⟩
  · exact fault_of_stops_peek hpeek hend
  cases looks_peek.silent hpeek
  cases hkind : token.kind with
  | eof =>
      rw [hkind] at hrest
      rcases stops_bind.mp hrest with hadvance | ⟨_, u, -, hpure⟩
      · exact fault_of_stops_advance hadvance hend
      · exact absurd hpure not_stops_pure
  | _ =>
      rw [hkind] at hrest
      exact keeps_unexpected.stops hend (State.NextIs.any _) hrest

end Parser

end GraphQL
