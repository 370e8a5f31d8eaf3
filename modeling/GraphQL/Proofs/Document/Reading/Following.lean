import GraphQL.Proofs.Document.Grammar
import GraphQL.Proofs.Document.Readers

/-!
# Readers that follow a grammar

`Follows p bare g F` ties a reader to a grammar in both directions.  Whatever `p` reads is in
`g`, as the bare tree; and `p` reads all that is in `g`, if the token that comes next is one
that `F` allows.  A condition on that token is needed because a reader takes an optional part
whenever the next token could start one.  For the same reason, putting two readers together
takes that the second part cannot start with a token that the first one would go on with:
`Grammar.Begins` says what the first token of a part, or of what is behind an empty one, can be.

There is one lemma for each way in which readers and grammars are put together.
-/

namespace GraphQL

/-! ## What a part begins with -/

namespace Grammar

variable {α β : Type} {g : Grammar α} {F : β → TokenKind → Prop} {S : TokenKind → Prop}

/-- Where `F` allows the token behind it, the part begins with a token that `S` holds of; if
it is empty, that is the token behind it. -/
def Begins (g : Grammar β) (F : β → TokenKind → Prop) (S : TokenKind → Prop) : Prop :=
  ∀ kinds b next, g kinds b → F b next → S (kinds.head?.getD next)

/-- None of the marks comes next. -/
def Apart (marks : List Punctuator) (next : TokenKind) : Prop :=
  ∀ p ∈ marks, next ≠ .punctuator p

theorem Apart.mono {marks others : List Punctuator} {next : TokenKind} (h : Apart marks next)
    (hsub : others ⊆ marks) : Apart others next := fun p hp => h p (hsub hp)

theorem apart_mark {marks : List Punctuator} {p : Punctuator} (h : p ∉ marks) :
    Apart marks (.punctuator p) := by
  rintro q hq ⟨⟩
  exact h hq

theorem apart_of_name {marks : List Punctuator} {next : TokenKind}
    (h : (Parser.nameText? next).isSome) : Apart marks next := by
  rintro p - rfl
  cases h

theorem head?_append_getD (first rest : List TokenKind) (next : TokenKind) :
    (first ++ rest).head?.getD next = first.head?.getD (rest.head?.getD next) := by
  cases first <;> rfl

theorem begins_pure {b : β} (h : ∀ next, F b next → S next) : (pure b : Grammar β).Begins F S := by
  rintro kinds c next ⟨rfl, rfl⟩ hnext
  exact h next hnext

theorem begins_bind {f : α → Grammar β} {G : α → TokenKind → Prop} (hg : g.Begins G S)
    (hf : ∀ a, (f a).Begins F (G a)) : (g >>= f).Begins F S := by
  rintro kinds c next ⟨first, a, rest, hfirst, hrest, rfl⟩ hnext
  rw [head?_append_getD]
  exact hg first a _ hfirst (hf a rest c next hrest hnext)

/-- What a part begins with that is never empty. -/
theorem Begins.andThen {f : α → Grammar β} (hg : g.Begins (fun _ _ => True) S) :
    (g >>= f).Begins F S :=
  begins_bind hg fun _ _ _ _ _ _ => trivial

theorem begins_orElse {g h : Grammar β} (hg : g.Begins F S) (hh : h.Begins F S) :
    (g <|> h).Begins F S := by
  rintro kinds c next (hc | hc) hnext
  · exact hg kinds c next hc hnext
  · exact hh kinds c next hc hnext

theorem begins_token {read? : TokenKind → Option β} (h : ∀ kind b, read? kind = some b → S kind) :
    (token read?).Begins F S := by
  rintro kinds b next ⟨kind, rfl, hread⟩ -
  exact h kind b hread

theorem mark_iff {p : Punctuator} {kinds : List TokenKind} {u : Unit} :
    mark p kinds u ↔ kinds = [.punctuator p] := by
  simp [mark, token]

theorem keyword_iff {word : String} {kinds : List TokenKind} {u : Unit} :
    keyword word kinds u ↔ kinds = [.name word] := by
  simp [keyword, token]

theorem begins_mark {p : Punctuator} {F : Unit → TokenKind → Prop} (h : S (.punctuator p)) :
    (mark p).Begins F S := by
  rintro kinds u next hmark -
  rw [mark_iff.mp hmark]
  exact h

theorem begins_keyword {word : String} {F : Unit → TokenKind → Prop} (h : S (.name word)) :
    (keyword word).Begins F S := by
  rintro kinds u next hkeyword -
  rw [keyword_iff.mp hkeyword]
  exact h

theorem bind_pure_id (g : Grammar β) : (g >>= fun b => pure (id b)) = g := by
  funext kinds b
  refine propext ⟨?_, fun hb => ⟨kinds, b, [], hb, ⟨rfl, rfl⟩, (List.append_nil kinds).symm⟩⟩
  rintro ⟨first, c, rest, hc, ⟨rfl, rfl⟩, rfl⟩
  rwa [List.append_nil]

theorem pure_bind_eq (a : α) (f : α → Grammar β) : (pure a >>= f) = f a := by
  funext kinds b
  refine propext ⟨?_, fun hb => ⟨[], a, kinds, ⟨rfl, rfl⟩, hb, rfl⟩⟩
  rintro ⟨first, c, rest, ⟨rfl, rfl⟩, hrest, rfl⟩
  exact hrest

theorem bind_bind_eq {γ : Type} (g : Grammar α) (f : α → Grammar β) (h : β → Grammar γ) :
    (g >>= f >>= h) = (g >>= fun a => f a >>= h) := by
  funext kinds c
  refine propext ⟨?_, ?_⟩
  · rintro ⟨_, b, rest, ⟨first, a, second, hg, hf, rfl⟩, hh, rfl⟩
    exact ⟨first, a, _, hg, ⟨second, b, rest, hf, hh, rfl⟩, List.append_assoc ..⟩
  · rintro ⟨first, a, _, hg, ⟨second, b, rest, hf, hh, rfl⟩, rfl⟩
    exact ⟨_, b, rest, ⟨first, a, second, hg, hf, rfl⟩, hh, (List.append_assoc ..).symm⟩

instance : LawfulMonad Grammar := .mk' _ bind_pure_id pure_bind_eq bind_bind_eq

/-- What comes after one grammar or the other comes after each of them. -/
theorem orElse_bind (g h : Grammar α) (f : α → Grammar β) :
    ((g <|> h) >>= f) = ((g >>= f) <|> (h >>= f)) := by
  funext kinds c
  refine propext ⟨?_, ?_⟩
  · rintro ⟨first, a, rest, hg | hh, hf, rfl⟩
    · exact .inl ⟨first, a, rest, hg, hf, rfl⟩
    · exact .inr ⟨first, a, rest, hh, hf, rfl⟩
  · rintro (⟨first, a, rest, hg, hf, rfl⟩ | ⟨first, a, rest, hh, hf, rfl⟩)
    · exact ⟨first, a, rest, .inl hg, hf, rfl⟩
    · exact ⟨first, a, rest, .inr hh, hf, rfl⟩

/-- A part that starts with a mark begins with it. -/
theorem begins_after_mark {p : Punctuator} {f : Unit → Grammar β} (h : S (.punctuator p)) :
    (mark p >>= f).Begins F S :=
  (begins_mark h).andThen

theorem begins_after_keyword {word : String} {f : Unit → Grammar β} (h : S (.name word)) :
    (keyword word >>= f).Begins F S :=
  (begins_keyword h).andThen

theorem begins_many {item : Grammar β} {F : List β → TokenKind → Prop}
    (h : item.Begins (fun _ _ => True) S) (hnext : ∀ bs next, F bs next → S next) :
    Begins (many item) F S := by
  rintro kinds bs next hmany hF
  cases hmany with
  | nil => exact hnext _ _ hF
  | @cons first rest b others hfirst hrest =>
      rw [head?_append_getD]
      exact h first b _ hfirst trivial

theorem many.mono {item other : Grammar β} (h : ∀ kinds b, item kinds b → other kinds b)
    {kinds : List TokenKind} {bs : List β} (hitems : many item kinds bs) : many other kinds bs := by
  induction hitems with
  | nil => exact .nil
  | cons hfirst _ ih => exact .cons (h _ _ hfirst) ih

theorem manyApart.mono {item other : Grammar β} (h : ∀ kinds b, item kinds b → other kinds b)
    {kinds : List TokenKind} {bs : List β} (hitems : manyApart F item kinds bs) :
    manyApart F other kinds bs := by
  induction hitems with
  | nil => exact .nil
  | cons hfirst _ hnext ih => exact .cons (h _ _ hfirst) ih hnext

theorem row_iff {close : Punctuator} {item : Grammar β} {kinds : List TokenKind} {bs : List β} :
    row close item kinds bs ↔ ∃ first, many item first bs ∧ kinds = first ++ [.punctuator close] := by
  constructor
  · rintro ⟨first, items, rest, hitems, ⟨second, u, last, hmark, ⟨rfl, rfl⟩, rfl⟩, rfl⟩
    exact ⟨first, hitems, by rw [mark_iff.mp hmark, List.append_nil]⟩
  · rintro ⟨first, hitems, rfl⟩
    exact ⟨first, bs, _, hitems, ⟨_, (), [], mark_iff.mpr rfl, ⟨rfl, rfl⟩, rfl⟩, rfl⟩

/-- A row starts with its end or with an item. -/
theorem row_eq (close : Punctuator) (item : Grammar β) :
    row close item = ((mark close >>= fun _ => pure []) <|>
      (item >>= fun first => row close item >>= fun rest => pure (first :: rest))) := by
  funext kinds bs
  refine propext ⟨fun h => ?_, ?_⟩
  · obtain ⟨_, hitems, rfl⟩ := row_iff.mp h
    cases hitems with
    | nil => exact .inl ⟨_, (), [], mark_iff.mpr rfl, ⟨rfl, rfl⟩, rfl⟩
    | @cons first rest b others hfirst hrest =>
        refine .inr ⟨first, b, rest ++ [.punctuator close], hfirst, ?_, List.append_assoc ..⟩
        exact ⟨_, others, [], row_iff.mpr ⟨rest, hrest, rfl⟩, ⟨rfl, rfl⟩, (List.append_nil _).symm⟩
  · rintro (⟨first, u, rest, hmark, ⟨rfl, rfl⟩, rfl⟩ |
      ⟨first, b, _, hfirst, ⟨second, others, last, hrow, ⟨rfl, rfl⟩, rfl⟩, rfl⟩)
    · exact row_iff.mpr ⟨[], .nil, by rw [mark_iff.mp hmark]; rfl⟩
    · obtain ⟨rest, hrest, rfl⟩ := row_iff.mp hrow
      refine row_iff.mpr ⟨first ++ rest, .cons hfirst hrest, ?_⟩
      rw [List.append_nil, List.append_assoc]

/-- Any number of items is an item and more of them, or nothing. -/
theorem many_eq (item : Grammar β) :
    (many item : Grammar (List β)) = ((item >>= fun first =>
      (many item : Grammar (List β)) >>= fun rest => pure (first :: rest)) <|> pure []) := by
  funext kinds bs
  refine propext ⟨fun h => ?_, ?_⟩
  · cases h with
    | nil => exact .inr ⟨rfl, rfl⟩
    | @cons first rest b others hfirst hrest =>
        exact .inl ⟨first, b, rest, hfirst,
          ⟨rest, others, [], hrest, ⟨rfl, rfl⟩, (List.append_nil rest).symm⟩, rfl⟩
  · rintro (⟨first, b, _, hfirst, ⟨rest, others, last, hrest, ⟨rfl, rfl⟩, rfl⟩, rfl⟩ | ⟨rfl, rfl⟩)
    · rw [List.append_nil]
      exact .cons hfirst hrest
    · exact .nil

theorem begins_row {close : Punctuator} {item : Grammar β} {F : List β → TokenKind → Prop}
    (h : item.Begins (fun _ _ => True) S) (hclose : S (.punctuator close)) :
    (row close item).Begins F S := by
  rintro kinds bs next hrow -
  obtain ⟨first, hitems, rfl⟩ := row_iff.mp hrow
  rw [head?_append_getD]
  exact begins_many (F := fun _ => S) h (fun _ _ => id) first bs _ hitems hclose

/-- There are no more items than tokens if every item has one. -/
theorem length_le_of_many {item : Grammar β} (h : ∀ b, ¬item [] b) {kinds : List TokenKind}
    {bs : List β} (hitems : many item kinds bs) : bs.length ≤ kinds.length := by
  induction hitems with
  | nil => exact Nat.zero_le _
  | @cons first rest b others hfirst hrest ih =>
      have hpos : 0 < first.length := List.length_pos_iff.mpr fun hnil => h b (hnil ▸ hfirst)
      rw [List.length_cons, List.length_append]
      omega

theorem Begins.mono {g : Grammar β} {G : β → TokenKind → Prop} {T : TokenKind → Prop}
    (h : g.Begins F S) (hG : ∀ b next, G b next → F b next) (hT : ∀ next, S next → T next) :
    g.Begins G T := fun kinds b next hb hnext =>
  hT _ (h kinds b next hb (hG b next hnext))

end Grammar

namespace Parser

open Grammar

variable {α β γ δ : Type} {K : TokenKind → Prop} {s s' : State}

/-- Between the tokens that `K` holds of, the reader reads what is in the grammar, and nothing
else; `F` says which token may come right after a tree. -/
structure FollowsAt (K : TokenKind → Prop) (p : Parser α) (bare : α → β) (g : Grammar β)
    (F : β → TokenKind → Prop) : Prop where
  sound : ∀ {s a s'}, Reads p s a s' → (∀ kind ∈ s.kinds.head?, K kind) →
    ∃ first, s.kinds = first ++ s'.kinds ∧ g first (bare a)
  complete : ∀ {s first b next rest}, s.Clean → s.kinds = first ++ next :: rest → g first b →
    F b next → K (first.head?.getD next) →
    ∃ a s', Reads p s a s' ∧ bare a = b ∧ s'.kinds = next :: rest

/-- The reader follows the grammar, whatever token comes first. -/
abbrev Follows (p : Parser α) (bare : α → β) (g : Grammar β) (F : β → TokenKind → Prop) : Prop :=
  FollowsAt (fun _ => True) p bare g F

/-- Whatever comes next is allowed. -/
abbrev Anything {β : Type} : β → TokenKind → Prop := fun _ _ => True

/-- None of the marks may come next. -/
abbrev NoMark {β : Type} (marks : List Punctuator) : β → TokenKind → Prop := fun _ => Apart marks

section

variable {p : Parser α} {bare : α → β} {g : Grammar β} {F : β → TokenKind → Prop}

theorem clean_of_suffix {first rest : List TokenKind} (h : s.Clean) (hkinds : s.kinds = first ++ rest)
    (hrest : s'.kinds = rest) : s'.Clean := fun fault hfault =>
  h fault (by rw [hkinds]; exact List.mem_append_right _ (hrest ▸ hfault))

/-- What is followed at some tokens is followed at fewer. -/
theorem FollowsAt.restrict {L : TokenKind → Prop} (h : FollowsAt K p bare g F)
    (hL : ∀ kind, L kind → K kind) : FollowsAt L p bare g F where
  sound hreads hkind := h.sound hreads fun kind hhead => hL _ (hkind kind hhead)
  complete hclean hkinds hb hnext hkind := h.complete hclean hkinds hb hnext (hL _ hkind)

theorem FollowsAt.mono {G : β → TokenKind → Prop} (h : FollowsAt K p bare g F)
    (hG : ∀ b next, G b next → F b next) : FollowsAt K p bare g G where
  sound := h.sound
  complete hclean hkinds hb hnext hK := h.complete hclean hkinds hb (hG _ _ hnext) hK

/-! ## One reader after another -/

theorem FollowsAt.pure {a : α} {b : β} (h : bare a = b) :
    FollowsAt K (pure a) bare (pure b) F where
  sound hreads _ := by
    obtain ⟨rfl, rfl⟩ := reads_pure.mp hreads
    exact ⟨[], rfl, rfl, h⟩
  complete := by
    rintro s first c next rest - hkinds ⟨rfl, rfl⟩ - -
    exact ⟨a, s, reads_pure.mpr ⟨rfl, rfl⟩, h, hkinds⟩

theorem FollowsAt.bind {bare' : γ → δ} {f : α → Parser γ} {h : β → Grammar δ}
    {G : δ → TokenKind → Prop} (hp : FollowsAt K p bare g F)
    (hf : ∀ a, Follows (f a) bare' (h (bare a)) G) (hnext : ∀ b, (h b).Begins G (F b)) :
    FollowsAt K (p >>= f) bare' (g >>= h) G where
  sound hreads hK := by
    obtain ⟨a, t, hfirst, hrest⟩ := reads_bind.mp hreads
    obtain ⟨first, hkinds, hg⟩ := hp.sound hfirst hK
    obtain ⟨second, hkinds', hh⟩ := (hf a).sound hrest fun _ _ => trivial
    refine ⟨first ++ second, ?_, first, bare a, second, hg, hh, rfl⟩
    rw [hkinds, hkinds', List.append_assoc]
  complete := by
    rintro s kinds c next rest hclean hkinds ⟨first, b, second, hg, hh, rfl⟩ hc hK
    rw [head?_append_getD] at hK
    -- the first reader stops before the second part, or before what comes after it
    obtain ⟨next', rest', hsplit, hnext'⟩ : ∃ next' rest', second ++ next :: rest = next' :: rest' ∧
        next' = second.head?.getD next := by
      cases second with
      | nil => exact ⟨next, rest, rfl, rfl⟩
      | cons kind second => exact ⟨kind, second ++ next :: rest, rfl, rfl⟩
    rw [List.append_assoc, hsplit] at hkinds
    have hF := hnext b second c next hh hc
    rw [← hnext'] at hF hK
    obtain ⟨a, t, hfirst, rfl, ht⟩ := hp.complete hclean hkinds hg hF hK
    obtain ⟨d, s', hrest, hd, hs'⟩ := (hf a).complete (clean_of_suffix hclean hkinds ht)
      (ht.trans hsplit.symm) hh hc trivial
    exact ⟨d, s', reads_bind.mpr ⟨a, t, hfirst, hrest⟩, hd, hs'⟩

/-- A reader after one that may have anything behind it. -/
theorem FollowsAt.andThen {bare' : γ → δ} {f : α → Parser γ} {h : β → Grammar δ}
    {G : δ → TokenKind → Prop} (hp : FollowsAt K p bare g Anything)
    (hf : ∀ a, Follows (f a) bare' (h (bare a)) G) : FollowsAt K (p >>= f) bare' (g >>= h) G :=
  hp.bind hf fun _ _ _ _ _ _ => trivial

/-- A reader after a step that reads nothing. -/
theorem FollowsAt.look {q : Parser γ} {f : γ → Parser α} (hq : Looks q)
    (hf : ∀ c, FollowsAt K (f c) bare g F) : FollowsAt K (q >>= f) bare g F where
  sound hreads hK := by
    obtain ⟨c, t, hsilent, hrest⟩ := reads_bind.mp hreads
    cases hq.silent hsilent
    exact (hf c).sound hrest hK
  complete hclean hkinds hb hnext hK := by
    obtain ⟨c, hlook⟩ := hq.ready hclean (by rw [hkinds]; simp)
    obtain ⟨a, s', hreads, ha, hs'⟩ := (hf c).complete hclean hkinds hb hnext hK
    exact ⟨a, s', reads_bind.mpr ⟨c, _, hlook, hreads⟩, ha, hs'⟩

/-- A reader that knows the next token. -/
theorem FollowsAt.peek {f : Token → Parser α}
    (hf : ∀ token, FollowsAt (fun kind => K kind ∧ kind = token.kind) (f token) bare g F) :
    FollowsAt K (peek >>= f) bare g F where
  sound := by
    intro s a s' hreads hK
    obtain ⟨token, t, hpeek, hrest⟩ := reads_bind.mp hreads
    cases looks_peek.silent hpeek
    have hhead := kinds_of_reads_peek hpeek
    refine (hf token).sound hrest fun kind hkind => ⟨hK kind hkind, ?_⟩
    rw [hhead] at hkind
    exact (Option.some.inj hkind).symm
  complete := by
    intro s first b next rest hclean hkinds hb hnext hK
    obtain ⟨kind, kinds, hcons, hhead⟩ : ∃ kind kinds, first ++ next :: rest = kind :: kinds ∧
        kind = first.head?.getD next := by
      cases first with
      | nil => exact ⟨next, rest, rfl, rfl⟩
      | cons kind first => exact ⟨kind, first ++ next :: rest, rfl, rfl⟩
    obtain ⟨token, hpeek, hkind⟩ := reads_peek_of_kinds (hkinds.trans hcons) hclean
    obtain ⟨a, s', hreads, ha, hs'⟩ := (hf token).complete hclean hkinds hb hnext
      ⟨hK, by rw [hkind, hhead]⟩
    exact ⟨a, s', reads_bind.mpr ⟨token, s, hpeek, hreads⟩, ha, hs'⟩

/-! ## One reader or another -/

theorem FollowsAt.left {h : Grammar β} (hp : FollowsAt K p bare g F)
    (hother : h.Begins F (¬K ·)) : FollowsAt K p bare (g <|> h) F where
  sound hreads hK := by
    obtain ⟨first, hkinds, hg⟩ := hp.sound hreads hK
    exact ⟨first, hkinds, .inl hg⟩
  complete hclean hkinds hb hnext hK := by
    rcases hb with hb | hb
    · exact hp.complete hclean hkinds hb hnext hK
    · exact absurd hK (hother _ _ _ hb hnext)

theorem FollowsAt.right {h : Grammar β} (hp : FollowsAt K p bare h F)
    (hother : g.Begins F (¬K ·)) : FollowsAt K p bare (g <|> h) F where
  sound hreads hK := by
    obtain ⟨first, hkinds, hg⟩ := hp.sound hreads hK
    exact ⟨first, hkinds, .inr hg⟩
  complete hclean hkinds hb hnext hK := by
    rcases hb with hb | hb
    · exact absurd hK (hother _ _ _ hb hnext)
    · exact hp.complete hclean hkinds hb hnext hK

/-- A reader that reads nothing, where nothing of the grammar can begin. -/
theorem FollowsAt.refuse (hp : ∀ {s a s'}, ¬Reads p s a s') (h : g.Begins F (¬K ·)) :
    FollowsAt K p bare g F where
  sound hreads _ := absurd hreads hp
  complete _ _ hb hnext hK := absurd hK (h _ _ _ hb hnext)

/-! ## Single tokens -/

/-- The next token, if the grammar can make something of it. -/
theorem follows_advance {read? : TokenKind → Option β} {b : β}
    (h : ∀ kind, K kind → read? kind = some b) :
    FollowsAt K advance (fun _ => b) (token read?) Anything where
  sound := by
    intro s token s' hreads hK
    have hkinds := kinds_of_reads_advance hreads
    exact ⟨[token.kind], hkinds, token.kind, rfl, h _ (hK _ (by rw [hkinds]; exact rfl))⟩
  complete := by
    rintro s first c next rest hclean hkinds ⟨kind, rfl, hread⟩ - hK
    obtain ⟨token, hpeek, -⟩ := reads_peek_of_kinds hkinds hclean
    refine ⟨token, _, reads_advance.mpr ⟨hpeek, rfl⟩, Option.some.inj ((h kind hK).symm.trans hread), ?_⟩
    rw [kinds_next, hkinds]
    rfl

end

theorem follows_mark (mark : Punctuator) :
    FollowsAt (· = .punctuator mark) advance (fun _ => ()) (Grammar.mark mark) Anything :=
  follows_advance fun kind hkind => by rw [hkind, if_pos rfl]

theorem follows_keyword (word : String) :
    FollowsAt (· = .name word) advance (fun _ => ()) (Grammar.keyword word) Anything :=
  follows_advance fun kind hkind => by rw [hkind, if_pos rfl]

theorem follows_expect (mark : Punctuator) :
    Follows (expect mark) (fun _ => ()) (Grammar.mark mark) Anything where
  sound := by
    intro s token s' hreads _
    obtain ⟨hadvance, hkind⟩ := reads_expect.mp hreads
    exact ⟨[token.kind], kinds_of_reads_advance hadvance, mark_iff.mpr (by rw [hkind])⟩
  complete := by
    rintro s first ⟨⟩ next rest hclean hkinds hmark - -
    rw [mark_iff.mp hmark] at hkinds
    obtain ⟨token, hpeek, htoken⟩ := reads_peek_of_kinds hkinds hclean
    refine ⟨token, _, reads_expect.mpr ⟨reads_advance.mpr ⟨hpeek, rfl⟩, htoken⟩, rfl, ?_⟩
    rw [kinds_next, hkinds]
    rfl

theorem follows_expectKeyword (word : String) :
    Follows (expectKeyword word) (fun _ => ()) (Grammar.keyword word) Anything where
  sound := by
    intro s token s' hreads _
    obtain ⟨hadvance, hkind⟩ := reads_expectKeyword.mp hreads
    exact ⟨[token.kind], kinds_of_reads_advance hadvance, keyword_iff.mpr (by rw [hkind])⟩
  complete := by
    rintro s first ⟨⟩ next rest hclean hkinds hkeyword - -
    rw [keyword_iff.mp hkeyword] at hkinds
    obtain ⟨token, hpeek, htoken⟩ := reads_peek_of_kinds hkinds hclean
    refine ⟨token, _, reads_expectKeyword.mpr ⟨reads_advance.mpr ⟨hpeek, rfl⟩, htoken⟩, rfl, ?_⟩
    rw [kinds_next, hkinds]
    rfl

/-! ## Optional parts -/

section

variable {bare : α → β} {g h : Grammar β} {F : β → TokenKind → Prop} {mark : Punctuator}
  {item otherwise : Parser α}

/-- A reader that goes on as a test of the next token says. -/
theorem FollowsAt.test (test : TokenKind → Bool) {f : Bool → Parser α}
    (htrue : FollowsAt (fun kind => K kind ∧ test kind = true) (f true) bare g F)
    (hfalse : FollowsAt (fun kind => K kind ∧ test kind = false) (f false) bare g F) :
    FollowsAt K ((do return test (← Parser.peek).kind) >>= f) bare g F := by
  rw [bind_assoc]
  refine .peek fun token => ?_
  rw [pure_bind]
  cases htest : test token.kind with
  | true => exact htrue.restrict fun kind hkind => ⟨hkind.1, hkind.2 ▸ htest⟩
  | false => exact hfalse.restrict fun kind hkind => ⟨hkind.1, hkind.2 ▸ htest⟩

theorem follows_atMark (hitem : FollowsAt (· = .punctuator mark) item bare g F)
    (hother : FollowsAt (· ≠ .punctuator mark) otherwise bare h F)
    (hg : g.Begins F (· = .punctuator mark)) (hh : h.Begins F (· ≠ .punctuator mark)) :
    Follows (atMark mark item otherwise) bare (g <|> h) F := by
  refine .test (fun kind => decide (kind = .punctuator mark)) ?_ ?_
  · refine (hitem.left (hh.mono (fun _ _ => id) fun _ => id)).restrict fun kind hkind => ?_
    exact of_decide_eq_true hkind.2
  · refine (hother.right (hg.mono (fun _ _ => id) fun _ => not_not_intro)).restrict fun kind hkind => ?_
    exact of_decide_eq_false hkind.2

theorem afterMark_eq : afterMark mark item otherwise =
    atMark mark (advance >>= fun _ => item) otherwise := by
  rw [afterMark, skipIf, bind_assoc, atMark]
  refine congrArg (peekIs mark >>= ·) (funext fun b => ?_)
  cases b with
  | true => simp
  | false => simp

theorem follows_afterMark (hitem : Follows item bare g F)
    (hother : FollowsAt (· ≠ .punctuator mark) otherwise bare h F)
    (hh : h.Begins F (· ≠ .punctuator mark)) :
    Follows (afterMark mark item otherwise) bare ((Grammar.mark mark >>= fun _ => g) <|> h) F := by
  rw [afterMark_eq]
  exact follows_atMark ((follows_mark mark).andThen fun _ => hitem) hother (begins_after_mark rfl) hh

theorem follows_skipIf (mark : Punctuator) :
    Follows (skipIf mark) (fun _ => ()) (Grammar.mark mark <|> pure ()) (NoMark [mark]) := by
  have hskip : skipIf mark = atMark mark (advance >>= fun _ => pure true) (pure false) := rfl
  rw [hskip]
  refine follows_atMark ?_ (.pure rfl) (begins_mark rfl)
    (begins_pure fun next hnext => hnext mark (.head _))
  rw [← bind_pure (Grammar.mark mark)]
  exact (follows_mark mark).mono (fun _ _ _ => trivial) |>.andThen fun _ => .pure rfl

end

/-! ## Rows -/

section

variable {p : Parser α} {bare : α → β} {g : Grammar β} {F : β → TokenKind → Prop}
  {mark opening close : Punctuator}

theorem itemsUntil_succ (fuel : ℕ) : itemsUntil close p (fuel + 1) =
    afterMark close (pure [])
      (p >>= fun first => itemsUntil close p fuel >>= fun rest => pure (first :: rest)) := rfl

theorem itemsAfter_succ (fuel : ℕ) : itemsAfter mark p (fuel + 1) =
    atMark mark
      (p >>= fun first => itemsAfter mark p fuel >>= fun rest => pure (first :: rest))
      (pure []) := rfl

/-- Items can be read as long as there is fuel for them. -/
theorem follows_itemsUntil (hp : Follows p bare g F)
    (hbegins : g.Begins Anything fun kind => kind ≠ .punctuator close ∧ ∀ b, F b kind)
    (hclose : ∀ b, F b (.punctuator close)) (fuel : ℕ) :
    Follows (itemsUntil close p fuel) (List.map bare) (Grammar.row close g)
      (fun bs _ => bs.length < fuel) := by
  induction fuel with
  | zero => exact .refuse not_reads_unexpected fun _ _ _ _ hlt => absurd hlt (Nat.not_lt_zero _)
  | succ fuel ih =>
      have hmore : Follows (p >>= fun first => itemsUntil close p fuel >>= fun rest =>
          pure (first :: rest)) (List.map bare) (g >>= fun first => Grammar.row close g >>= fun rest =>
            pure (first :: rest)) (fun bs _ => bs.length < fuel + 1) := by
        refine hp.bind (fun first => ih.bind (fun rest => .pure rfl) fun bs => ?_) fun b => ?_
        · exact begins_pure fun _ => Nat.lt_of_succ_lt_succ
        · exact (begins_row (hbegins.mono (fun _ _ => id) fun _ h => h.2 b) (hclose b)).andThen
      rw [itemsUntil_succ, row_eq]
      exact follows_afterMark (.pure rfl) (hmore.restrict fun _ _ => trivial)
        (hbegins.mono (fun _ _ => id) fun _ h => h.1).andThen

theorem follows_row (hp : Follows p bare g F)
    (hbegins : g.Begins Anything fun kind => kind ≠ .punctuator close ∧ ∀ b, F b kind)
    (hclose : ∀ b, F b (.punctuator close)) :
    Follows (row close p) (List.map bare) (Grammar.row close g) Anything where
  sound hreads hK := by
    obtain ⟨n, t, hlimit, hitems⟩ := reads_bind.mp hreads
    obtain ⟨rfl, rfl⟩ := reads_limit.mp hlimit
    exact (follows_itemsUntil hp hbegins hclose _).sound hitems hK
  complete := by
    intro s first bs next rest hclean hkinds hrow _ hK
    have hlength : bs.length < s.kinds.length + 1 := by
      obtain ⟨items, hitems, rfl⟩ := row_iff.mp hrow
      have hle := length_le_of_many (fun b hnil =>
        (hbegins [] b (.punctuator close) hnil trivial).1 rfl) hitems
      rw [hkinds, List.length_append, List.length_append]
      omega
    obtain ⟨as, s', hitems, has, hs'⟩ :=
      (follows_itemsUntil hp hbegins hclose _).complete hclean hkinds hrow hlength hK
    exact ⟨as, s', reads_bind.mpr ⟨_, s, reads_limit.mpr ⟨rfl, rfl⟩, hitems⟩, has, hs'⟩

theorem follows_nonemptyRow (hp : Follows p bare g F)
    (hbegins : g.Begins Anything fun kind => kind ≠ .punctuator close ∧ ∀ b, F b kind)
    (hclose : ∀ b, F b (.punctuator close)) :
    Follows (nonemptyRow close p) (List.map bare) (Grammar.nonemptyRow close g) Anything :=
  hp.bind (fun _ => (follows_row hp hbegins hclose).andThen fun _ => .pure rfl) fun b =>
    (begins_row (hbegins.mono (fun _ _ => id) fun _ h => h.2 b) (hclose b)).andThen

/-- A row between two marks, or nothing if the first mark does not come next. -/
theorem follows_enclosed (hp : Follows p bare g F)
    (hbegins : g.Begins Anything fun kind => kind ≠ .punctuator close ∧ ∀ b, F b kind)
    (hclose : ∀ b, F b (.punctuator close)) :
    Follows (afterMark opening (nonemptyRow close p) (pure [])) (List.map bare)
      ((Grammar.mark opening >>= fun _ => Grammar.nonemptyRow close g) <|> pure [])
      (fun bs next => bs = [] → next ≠ .punctuator opening) :=
  follows_afterMark ((follows_nonemptyRow hp hbegins hclose).mono fun _ _ _ => trivial) (.pure rfl)
    (begins_pure fun _ hnext => hnext rfl)

theorem follows_itemsAfter (hp : FollowsAt (· = .punctuator mark) p bare g F)
    (hbegins : g.Begins Anything (· = .punctuator mark)) (hmark : ∀ b, F b (.punctuator mark))
    (fuel : ℕ) : Follows (itemsAfter mark p fuel) (List.map bare) (Grammar.many g)
      (fun bs next => bs.length ≤ fuel ∧ next ≠ .punctuator mark ∧ ∀ b, F b next) := by
  rw [many_eq]
  induction fuel with
  | zero =>
      refine .right (.pure rfl) ?_
      rintro kinds bs next ⟨first, b, _, -, ⟨rest, others, last, -, ⟨rfl, rfl⟩, rfl⟩, rfl⟩ ⟨hle, -⟩
      exact absurd hle (Nat.not_succ_le_zero _)
  | succ fuel ih =>
      rw [← many_eq] at ih
      rw [itemsAfter_succ]
      refine follows_atMark (hp.bind (fun first => ih.bind (fun rest => .pure rfl) fun bs => ?_)
        fun b => ?_) (.pure rfl) ?_ (begins_pure fun _ h => h.2.1)
      · exact begins_pure fun _ h => ⟨Nat.le_of_succ_le_succ h.1, h.2⟩
      · refine begins_bind (G := fun _ => F b) (begins_many ?_ fun _ _ => id) fun bs =>
          begins_pure fun _ h => h.2.2 b
        exact hbegins.mono (fun _ _ => id) fun _ h => h ▸ hmark b
      · exact hbegins.andThen

theorem follows_rowAfter {f : Token → Parser α} (hf : ∀ token, Follows (f token) bare g F)
    (hmark : ∀ b, F b (.punctuator mark)) :
    Follows (rowAfter mark (advance >>= f)) (List.map bare) (Grammar.rowAfter mark g)
      (fun _ next => next ≠ .punctuator mark ∧ ∀ b, F b next) where
  sound hreads hK := by
    obtain ⟨n, t, hlimit, hitems⟩ := reads_bind.mp hreads
    obtain ⟨rfl, rfl⟩ := reads_limit.mp hlimit
    exact (follows_itemsAfter ((follows_mark mark).andThen hf) (begins_after_mark rfl) hmark _).sound
      hitems hK
  complete := by
    intro s first bs next rest hclean hkinds hmany hnext hK
    have hlength : bs.length ≤ s.kinds.length := by
      have hle := length_le_of_many (fun b hnil => by
        have hbegin := begins_after_mark (S := (· = .punctuator mark)) (F := Anything) rfl [] b .eof
          hnil trivial
        cases hbegin) hmany
      rw [hkinds, List.length_append]
      omega
    obtain ⟨as, s', hitems, has, hs'⟩ :=
      (follows_itemsAfter ((follows_mark mark).andThen hf) (begins_after_mark rfl) hmark _).complete
        hclean hkinds hmany ⟨hlength, hnext⟩ hK
    exact ⟨as, s', reads_bind.mpr ⟨_, s, reads_limit.mpr ⟨rfl, rfl⟩, hitems⟩, has, hs'⟩

theorem follows_separated (hp : Follows p bare g Anything)
    (hbegins : g.Begins Anything (Apart [mark])) :
    Follows (separated mark p) (List.map bare) (Grammar.separated mark g) (NoMark [mark]) := by
  refine (follows_skipIf mark).bind (fun _ => hp.andThen fun first => ?_) fun _ => hbegins.andThen
  refine (follows_rowAfter (fun _ => hp) fun _ => trivial).bind (fun _ => .pure rfl) fun _ => ?_
  exact begins_pure fun _ h => ⟨h mark (.head _), fun _ => trivial⟩

end

end Parser

end GraphQL
