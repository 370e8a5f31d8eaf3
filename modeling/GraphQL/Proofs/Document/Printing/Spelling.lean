import GraphQL.Proofs.Document.Reading.Following
import GraphQL.Proofs.Token.Words

/-!
# What the text of a tree spells

`Spells text g b` says that the text is made of tokens that the grammar `g` reads as `b`, and
`Readable g b` that some tokens of a text are read so.  Both go along with the way grammars are
put together, so that the tokens themselves need not be mentioned.  The theorems of this module
say for each part of a document that its printed text spells it, if it is readable.
-/

namespace GraphQL

open Token

variable {α β : Type}

/-- Some names, numbers, strings and marks are read as the tree. -/
def Readable (g : Grammar β) (b : β) : Prop :=
  ∃ kinds, g kinds b ∧ ∀ kind ∈ kinds, kind.Genuine

/-- The text is made of tokens that are read as the tree. -/
def Spells (text : List Char) (g : Grammar β) (b : β) : Prop :=
  ∃ kinds, g kinds b ∧ Spelled text kinds

/-! ## Readable trees -/

section

variable {g h : Grammar α} {f : α → Grammar β} {a : α} {b : β} {bs : List β} {item : Grammar β}

@[simp] theorem readable_bind : Readable (g >>= f) b ↔ ∃ a, Readable g a ∧ Readable (f a) b := by
  constructor
  · rintro ⟨_, ⟨first, a, rest, hg, hf, rfl⟩, hgenuine⟩
    exact ⟨a, ⟨first, hg, fun kind hkind => hgenuine kind (List.mem_append_left _ hkind)⟩,
      rest, hf, fun kind hkind => hgenuine kind (List.mem_append_right _ hkind)⟩
  · rintro ⟨a, ⟨first, hg, hfirst⟩, rest, hf, hrest⟩
    refine ⟨first ++ rest, ⟨first, a, rest, hg, hf, rfl⟩, fun kind hkind => ?_⟩
    rcases List.mem_append.mp hkind with hkind | hkind
    · exact hfirst kind hkind
    · exact hrest kind hkind

@[simp] theorem readable_pure {c : β} : Readable (pure c) b ↔ b = c := by
  constructor
  · rintro ⟨kinds, ⟨-, rfl⟩, -⟩
    rfl
  · rintro rfl
    exact ⟨[], ⟨rfl, rfl⟩, nofun⟩

@[simp] theorem readable_orElse : Readable (g <|> h) a ↔ Readable g a ∨ Readable h a := by
  constructor
  · rintro ⟨kinds, hg | hh, hgenuine⟩
    · exact .inl ⟨kinds, hg, hgenuine⟩
    · exact .inr ⟨kinds, hh, hgenuine⟩
  · rintro (⟨kinds, hg, hgenuine⟩ | ⟨kinds, hh, hgenuine⟩)
    · exact ⟨kinds, .inl hg, hgenuine⟩
    · exact ⟨kinds, .inr hh, hgenuine⟩

@[simp] theorem not_readable_never : ¬Readable Grammar.never b := fun ⟨_, h, _⟩ => h

theorem readable_token {read? : TokenKind → Option β} :
    Readable (Grammar.token read?) b ↔ ∃ kind : TokenKind, kind.Genuine ∧ read? kind = some b := by
  constructor
  · rintro ⟨kinds, ⟨kind, rfl, hread⟩, hgenuine⟩
    exact ⟨kind, hgenuine kind (.head _), hread⟩
  · rintro ⟨kind, hgenuine, hread⟩
    exact ⟨[kind], ⟨kind, rfl, hread⟩, by simpa using hgenuine⟩

theorem readable_many : Readable (Grammar.many item) bs → ∀ b ∈ bs, Readable item b := by
  rintro ⟨kinds, hmany, hgenuine⟩
  induction hmany with
  | nil => exact nofun
  | @cons first rest b others hfirst hrest ih =>
      intro c hc
      rcases List.mem_cons.mp hc with rfl | hc
      · exact ⟨first, hfirst, fun kind hkind => hgenuine kind (List.mem_append_left _ hkind)⟩
      · exact ih (fun kind hkind => hgenuine kind (List.mem_append_right _ hkind)) c hc

theorem readable_row {close : Punctuator} (h : Readable (Grammar.row close item) bs) :
    ∀ b ∈ bs, Readable item b := by
  obtain ⟨_, hrow, hgenuine⟩ := h
  obtain ⟨first, hitems, rfl⟩ := Grammar.row_iff.mp hrow
  exact readable_many ⟨first, hitems, fun kind hkind => hgenuine kind (List.mem_append_left _ hkind)⟩

theorem readable_nonemptyRow {close : Punctuator} (h : Readable (Grammar.nonemptyRow close item) bs) :
    bs ≠ [] ∧ ∀ b ∈ bs, Readable item b := by
  simp only [Grammar.nonemptyRow, readable_bind, readable_pure] at h
  obtain ⟨first, hfirst, rest, hrest, rfl⟩ := h
  refine ⟨List.cons_ne_nil _ _, fun b hb => ?_⟩
  rcases List.mem_cons.mp hb with rfl | hb
  · exact hfirst
  · exact readable_row hrest b hb

theorem readable_rowAfter {p : Punctuator} (h : Readable (Grammar.rowAfter p item) bs) :
    ∀ b ∈ bs, Readable item b := by
  intro b hb
  obtain ⟨-, -, hb⟩ := readable_bind.mp (readable_many h b hb)
  exact hb

theorem readable_separated {p : Punctuator} (h : Readable (Grammar.separated p item) bs) :
    bs ≠ [] ∧ ∀ b ∈ bs, Readable item b := by
  simp only [Grammar.separated, readable_bind, readable_pure] at h
  obtain ⟨-, -, first, hfirst, rest, hrest, rfl⟩ := h
  refine ⟨List.cons_ne_nil _ _, fun b hb => ?_⟩
  rcases List.mem_cons.mp hb with rfl | hb
  · exact hfirst
  · exact readable_rowAfter hrest b hb

theorem readable_parenthesized (h : Readable (Grammar.parenthesized item) bs) :
    ∀ b ∈ bs, Readable item b := by
  simp only [Grammar.parenthesized, readable_orElse, readable_bind, readable_pure] at h
  rcases h with ⟨-, -, h⟩ | rfl
  · exact (readable_nonemptyRow h).2
  · exact nofun

theorem readable_braced (h : Readable (Grammar.braced item) bs) : ∀ b ∈ bs, Readable item b := by
  simp only [Grammar.braced, readable_orElse, readable_bind, readable_pure] at h
  rcases h with ⟨-, -, h⟩ | rfl
  · exact (readable_nonemptyRow h).2
  · exact nofun

end

/-! ## Spelled trees -/

namespace Spells

variable {g h : Grammar α} {f : α → Grammar β} {a : α} {b : β} {text other : List Char}

theorem bind (hg : Spells text g a) (hf : Spells other (f a) b) (hapart : startsApart other) :
    Spells (text ++ other) (g >>= f) b := by
  obtain ⟨first, hfirst, hspelled⟩ := hg
  obtain ⟨rest, hrest, hspelled'⟩ := hf
  exact ⟨first ++ rest, ⟨first, a, rest, hfirst, hrest, rfl⟩, hspelled.append hspelled' hapart⟩

theorem pure : Spells [] (pure b : Grammar β) b := ⟨[], ⟨rfl, rfl⟩, .nil⟩

/-- Nothing stands for a part that is left out. -/
theorem nothing (hg : Spells [] g a) (hf : Spells text (f a) b) : Spells text (g >>= f) b := by
  obtain ⟨first, hfirst, hspelled⟩ := hg
  obtain ⟨rest, hrest, hspelled'⟩ := hf
  cases hspelled.eq_nil
  exact ⟨rest, ⟨[], a, rest, hfirst, hrest, rfl⟩, hspelled'⟩

theorem left (hg : Spells text g a) : Spells text (g <|> h) a :=
  hg.imp fun _ ⟨hkinds, hspelled⟩ => ⟨.inl hkinds, hspelled⟩

theorem right (hh : Spells text h a) : Spells text (g <|> h) a :=
  hh.imp fun _ ⟨hkinds, hspelled⟩ => ⟨.inr hkinds, hspelled⟩

theorem ignored {c : Char} (hc : isIgnored c) (hg : Spells text g a) : Spells (c :: text) g a :=
  hg.imp fun _ ⟨hkinds, hspelled⟩ => ⟨hkinds, .ignored hc hspelled⟩

theorem blank (hg : Spells text g a) : Spells (' ' :: text) g a := hg.ignored rfl

theorem mark (p : Punctuator) {f : Unit → Grammar β} (hf : Spells text (f ()) b) :
    Spells (p.text.toList ++ text) (Grammar.mark p >>= f) b := by
  obtain ⟨rest, hrest, hspelled⟩ := hf
  exact ⟨_ :: rest, ⟨[_], (), rest, Grammar.mark_iff.mpr rfl, hrest, rfl⟩, .mark p hspelled⟩

theorem keyword {word : String} {f : Unit → Grammar β} (hword : Word word.toList (.name word))
    (hf : Spells text (f ()) b) (hapart : startsApart text) :
    Spells (word.toList ++ text) (Grammar.keyword word >>= f) b := by
  obtain ⟨rest, hrest, hspelled⟩ := hf
  exact ⟨_ :: rest, ⟨[_], (), rest, Grammar.keyword_iff.mpr rfl, hrest, rfl⟩,
    .word hword hapart hspelled⟩

theorem token {read? : TokenKind → Option β} {kind : TokenKind} (hword : Word text kind)
    (hread : read? kind = some b) : Spells text (Grammar.token read?) b :=
  ⟨[kind], ⟨kind, rfl, hread⟩, .of_word hword⟩

/-- A part before one that is left out. -/
theorem last (hg : Spells text g a) (hf : Spells [] (f a) b) : Spells text (g >>= f) b := by
  have hall := hg.bind hf rfl
  rwa [List.append_nil] at hall

/-- What is made of a tree that is spelled. -/
theorem map {f : α → β} (hg : Spells text g a) :
    Spells text (g >>= fun a => Pure.pure (f a)) (f a) := hg.last .pure

theorem ignoredAll {before : List Char} (hbefore : ∀ c ∈ before, isIgnored c)
    (hg : Spells text g a) : Spells (before ++ text) g a := by
  induction before with
  | nil => exact hg
  | cons c before ih => exact .ignored (hbefore c (.head _)) (ih fun d hd => hbefore d (.tail _ hd))

/-- A token is not written as nothing. -/
theorem ne_nil {read? : TokenKind → Option β} (h : Spells text (Grammar.token read?) b) :
    text ≠ [] := by
  rintro rfl
  obtain ⟨_, ⟨kind, rfl, -⟩, hspelled⟩ := h
  exact List.cons_ne_nil _ _ hspelled.eq_nil

end Spells

/-! ### Indented texts -/

theorem indent_append (text other : List Char) :
    Printer.indent (text ++ other) = Printer.indent text ++ Printer.indent other :=
  List.flatMap_append

theorem indent_of_oneLine {text : List Char} (h : '\n' ∉ text) : Printer.indent text = text := by
  induction text with
  | nil => rfl
  | cons c text ih =>
      have hc : c ≠ '\n' := fun heq => h (heq ▸ .head _)
      rw [Printer.indent, List.flatMap_cons, if_neg hc, List.singleton_append]
      exact congrArg (c :: ·) (ih fun hmem => h (.tail _ hmem))

theorem startsApart_indent {text : List Char} (h : startsApart text) :
    startsApart (Printer.indent text) := by
  cases text with
  | nil => rfl
  | cons c text =>
      rw [Printer.indent, List.flatMap_cons]
      by_cases hc : c = '\n'
      · rw [if_pos hc]
        rfl
      · rw [if_neg hc]
        exact h

/-- A text spells the same with its lines indented, since no token has a line end in it. -/
theorem Spelled.indent {text : List Char} {kinds : List TokenKind} (h : Spelled text kinds) :
    Spelled (Printer.indent text) kinds := by
  induction h with
  | nil => exact .nil
  | @ignored c text kinds hc _ ih =>
      rw [Printer.indent, List.flatMap_cons]
      split
      · exact .ignored rfl (.ignored rfl (.ignored rfl ih))
      · exact .ignored hc ih
  | mark p _ ih =>
      rw [indent_append, indent_of_oneLine (by cases p <;> decide)]
      exact .mark p ih
  | word hword hapart _ ih =>
      rw [indent_append, indent_of_oneLine hword.oneLine]
      exact .word hword (startsApart_indent hapart) ih

/-! ### Rows -/

section

variable {item : Grammar β} {write : β → List Char} {bs : List β} {text other : List Char} {b : β}
  {close : Punctuator}

theorem joinWith_eq (separator : String) (t : List Char) (rest : List (List Char)) :
    Printer.joinWith separator (t :: rest) = t ++ rest.flatMap (separator.toList ++ ·) := by
  induction rest generalizing t with
  | nil => simp [Printer.joinWith, List.intercalate]
  | cons u rest ih =>
      have hcons : Printer.joinWith separator (t :: u :: rest) =
          t ++ (separator.toList ++ Printer.joinWith separator (u :: rest)) := by
        simp [Printer.joinWith, List.intercalate]
      rw [hcons, ih, List.flatMap_cons, List.append_assoc]

theorem Spells.cons (hb : Spells text item b) (hrest : Spells other (Grammar.many item) bs)
    (hapart : startsApart other) : Spells (text ++ other) (Grammar.many item) (b :: bs) := by
  obtain ⟨first, hfirst, hspelled⟩ := hb
  obtain ⟨rest, hrest, hspelled'⟩ := hrest
  exact ⟨first ++ rest, .cons hfirst hrest, hspelled.append hspelled' hapart⟩

theorem startsApart_flatMap (h : ∀ b ∈ bs, startsApart (write b)) :
    startsApart (bs.flatMap write) := by
  induction bs with
  | nil => rfl
  | cons b bs ih =>
      rw [List.flatMap_cons]
      exact startsApart_append (h b (.head _)) (ih fun c hc => h c (.tail _ hc))

/-- Items each of which starts apart from the one before. -/
theorem Spells.flatMap (hitem : ∀ b ∈ bs, Spells (write b) item b)
    (hapart : ∀ b ∈ bs, startsApart (write b)) :
    Spells (bs.flatMap write) (Grammar.many item) bs := by
  induction bs with
  | nil => exact ⟨[], .nil, .nil⟩
  | cons b bs ih =>
      rw [List.flatMap_cons]
      exact (hitem b (.head _)).cons
        (ih (fun c hc => hitem c (.tail _ hc)) fun c hc => hapart c (.tail _ hc))
        (startsApart_flatMap fun c hc => hapart c (.tail _ hc))

/-- A text of ignored characters that keeps words apart. -/
structure Separator (separator : String) : Prop where
  ne_nil : separator.toList ≠ []
  ignored : separator.toList.all isIgnored

theorem Separator.startsApart {separator : String} (h : Separator separator) (text : List Char) :
    Token.startsApart (separator.toList ++ text) := by
  obtain ⟨c, rest, hcons⟩ := List.exists_cons_of_ne_nil h.ne_nil
  rw [hcons]
  exact startsApart_of_isIgnored (List.all_eq_true.mp h.ignored c (by rw [hcons]; exact .head _)) _

/-- Items with nothing but ignored characters between them. -/
theorem Spells.joinWith {separator : String} (hseparator : Separator separator)
    (h : ∀ b ∈ bs, Spells (write b) item b) :
    Spells (Printer.joinWith separator (bs.map write)) (Grammar.many item) bs := by
  cases bs with
  | nil => exact ⟨[], .nil, .nil⟩
  | cons b bs =>
      rw [List.map_cons, joinWith_eq, List.flatMap_map]
      refine (h b (.head _)).cons (.flatMap (fun c hc => ?_) fun c _ => hseparator.startsApart _)
        (startsApart_flatMap fun c _ => hseparator.startsApart _)
      exact .ignoredAll (List.all_eq_true.mp hseparator.ignored) (h c (.tail _ hc))

theorem Spells.row (h : Spells text (Grammar.many item) bs) (hother : startsApart other)
    (hclose : Spells other (Grammar.mark close >>= fun _ => Pure.pure bs) bs) :
    Spells (text ++ other) (Grammar.row close item) bs :=
  Spells.bind (g := Grammar.many item) h hclose hother

theorem Spells.nonemptyRow (h : Spells text (Grammar.row close item) bs) (hne : bs ≠ []) :
    Spells text (Grammar.nonemptyRow close item) bs := by
  rw [Grammar.row_eq] at h
  obtain ⟨kinds, (⟨first, u, rest, hmark, ⟨rfl, rfl⟩, rfl⟩ | hkinds), hspelled⟩ := h
  · exact absurd rfl hne
  · exact ⟨kinds, hkinds, hspelled⟩

theorem Spells.parenthesized (h : ∀ b ∈ bs, Spells (write b) item b) :
    Spells (Printer.parenthesized (bs.map write)) (Grammar.parenthesized item) bs := by
  by_cases hne : bs = []
  · subst hne
    exact .right .pure
  · have hrow : Spells (Printer.joinWith ", " (bs.map write) ++
        (Punctuator.parenClose.text.toList ++ [])) (Grammar.row .parenClose item) bs :=
      (Spells.joinWith ⟨by decide, rfl⟩ h).row rfl (.mark .parenClose .pure)
    have htext : Printer.parenthesized (bs.map write) = Punctuator.parenOpen.text.toList ++
        (Printer.joinWith ", " (bs.map write) ++ (Punctuator.parenClose.text.toList ++ [])) := by
      rw [Printer.parenthesized, List.isEmpty_map, if_neg (by simpa using hne)]
      rfl
    rw [htext]
    exact .left (.mark .parenOpen (hrow.nonemptyRow hne))

/-- Items in braces, one a line. -/
theorem Spells.block (h : ∀ b ∈ bs, Spells (write b) item b) (hne : bs ≠ []) :
    Spells (Printer.block (bs.map write))
      (Grammar.mark .braceOpen >>= fun _ => Grammar.nonemptyRow .braceClose item) bs := by
  have hitems : Spells (Printer.indent (Printer.joinWith "\n" (bs.map write)))
      (Grammar.many item) bs :=
    (Spells.joinWith ⟨by decide, rfl⟩ h).imp fun _ hkinds => ⟨hkinds.1, hkinds.2.indent⟩
  have hrow : Spells (Printer.indent (Printer.joinWith "\n" (bs.map write)) ++
      ('\n' :: (Punctuator.braceClose.text.toList ++ []))) (Grammar.row .braceClose item) bs :=
    hitems.row rfl (.ignored rfl (.mark .braceClose .pure))
  have htext : Printer.block (bs.map write) = Punctuator.braceOpen.text.toList ++ ('\n' :: ' ' :: ' ' ::
      (Printer.indent (Printer.joinWith "\n" (bs.map write)) ++
        ('\n' :: (Punctuator.braceClose.text.toList ++ [])))) := by
    rw [Printer.block, List.isEmpty_map, if_neg (by simpa using hne)]
    simp [Punctuator.text]
  rw [htext]
  exact .mark .braceOpen (.ignored rfl (.blank (.blank (hrow.nonemptyRow hne))))

theorem Spells.braced (h : ∀ b ∈ bs, Spells (write b) item b) :
    Spells (Printer.block (bs.map write)) (Grammar.braced item) bs := by
  by_cases hne : bs = []
  · subst hne
    exact .right .pure
  · exact .left (.block h hne)

/-- Items with a mark and blanks between them. -/
theorem Spells.separated {p : Punctuator} {separator : String}
    (hseparator : separator.toList = ' ' :: (p.text.toList ++ [' ']))
    (h : ∀ b ∈ bs, Spells (write b) item b) (hne : bs ≠ []) :
    Spells (Printer.joinWith separator (bs.map write)) (Grammar.separated p item) bs := by
  obtain ⟨b, rest, rfl⟩ := List.exists_cons_of_ne_nil hne
  rw [List.map_cons, joinWith_eq, List.flatMap_map]
  have hapart (c : β) : startsApart (separator.toList ++ write c) := by
    rw [hseparator]
    rfl
  have hrest : Spells (rest.flatMap fun c => separator.toList ++ write c)
      (Grammar.rowAfter p item) rest := by
    refine .flatMap (fun c hc => ?_) fun c _ => hapart c
    rw [hseparator, List.cons_append, List.append_assoc]
    exact .blank (.mark p (.blank (h c (.tail _ hc))))
  exact .nothing (.right .pure)
    ((h b (.head _)).bind hrest.map (startsApart_flatMap fun c _ => hapart c))

end

/-! ### Texts with blanks between them -/

/-- The texts that are not empty, each with a blank in front. -/
def spaced (texts : List (List Char)) : List Char :=
  (texts.filter (!·.isEmpty)).flatMap (' ' :: ·)

theorem spaced_cons (t : List Char) (rest : List (List Char)) :
    spaced (t :: rest) = if t = [] then spaced rest else ' ' :: (t ++ spaced rest) := by
  unfold spaced
  split
  · next h => rw [List.filter_cons_of_neg (by simp [h])]
  · next h => rw [List.filter_cons_of_pos (by simp [h]), List.flatMap_cons, List.cons_append]

theorem words_eq {t : List Char} (h : t ≠ []) (rest : List (List Char)) :
    Printer.words (t :: rest) = t ++ spaced rest := by
  rw [Printer.words, List.filter_cons_of_pos (by simp [h]), joinWith_eq]
  rfl

theorem startsApart_spaced (texts : List (List Char)) : startsApart (spaced texts) :=
  startsApart_flatMap fun _ _ => rfl

/-- One more part with a blank in front, unless it is empty. -/
theorem Spells.spaced {g : Grammar α} {f : α → Grammar β} {a : α} {b : β} {t : List Char}
    {rest : List (List Char)} (hg : Spells t g a) (hf : Spells (GraphQL.spaced rest) (f a) b) :
    Spells (GraphQL.spaced (t :: rest)) (g >>= f) b := by
  rw [spaced_cons]
  split
  · next h =>
      subst h
      exact .nothing hg hf
  · exact .blank (hg.bind hf (startsApart_spaced rest))

/-- Two more parts with a blank in front, unless both are empty. -/
theorem Spells.spacedPair {γ : Type} {g : Grammar α} {f : α → Grammar β} {h : α → β → Grammar γ}
    {a : α} {b : β} {c : γ} {t u : List Char} {rest : List (List Char)} (hg : Spells t g a)
    (hf : Spells u (f a) b) (hapart : startsApart u) (hh : Spells (GraphQL.spaced rest) (h a b) c) :
    Spells (GraphQL.spaced ((t ++ u) :: rest)) (g >>= fun a => f a >>= fun b => h a b) c := by
  have hpair : Spells (t ++ u) (g >>= fun a => f a >>= fun b => Pure.pure (a, b)) (a, b) :=
    hg.bind hf.map hapart
  have hall := hpair.spaced (f := fun p => h p.1 p.2) hh
  simpa only [bind_assoc, pure_bind] using hall

/-- A description above what it describes, if there is one. -/
theorem Spells.described {f : Option String → Grammar β} {description : Option String}
    {body : List Char} {b : β} (h : Spells body (f description) b) :
    Spells (Printer.described description body) (Grammar.description >>= f) b := by
  cases description with
  | none => exact .nothing (.right .pure) h
  | some text =>
      exact .bind (.left (.map (.token (word_string text) rfl))) (.ignored rfl h) rfl

end GraphQL
