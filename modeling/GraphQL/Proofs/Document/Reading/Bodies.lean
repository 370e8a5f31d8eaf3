import GraphQL.Proofs.Document.Reading.TypeSystem

/-!
# Braces behind types without a body

A type may be written without a body, but its reader takes a brace that comes next as the start
of one.  So where a brace stands behind such a type, it is not read as what it was: there is an
error, or what is read has a body (`TakesBrace`).  The part in front of the body is read as it
would be elsewhere, since nothing in it could go on with a brace; that is how the lemma for a
whole definition comes from the one for its body.
-/

namespace GraphQL

namespace Parser

open Grammar

variable {α β γ δ : Type} {s s' t : State}

/-- A reader reads one thing at most. -/
theorem Reads.unique {p : Parser α} {a b : α} (h : Reads p s a s') (h' : Reads p s b t) :
    a = b ∧ s' = t :=
  Prod.mk.inj (Except.ok.inj (h.symm.trans h'))

/-- Where a brace comes behind what is open-ended, nothing open-ended is read. -/
structure TakesBrace (p : Parser α) (bare : α → β) (g : Grammar β) (opened : β → Prop) : Prop where
  taken : ∀ {s first b rest a s'}, s.Clean → s.kinds = first ++ .punctuator .braceOpen :: rest →
    g first b → opened b → Reads p s a s' → ¬opened (bare a)

section

variable {p : Parser α} {bare : α → β} {g : Grammar β} {F : β → TokenKind → Prop}
  {opened : β → Prop}

/-- A reader that takes the brace after one that stops before what comes next. -/
theorem TakesBrace.after {bare' : γ → δ} {f : α → Parser γ} {h : β → Grammar δ}
    {opened : δ → Prop} (hp : Follows p bare g F)
    (hf : ∀ a, TakesBrace (f a) bare' (h (bare a)) opened)
    (hnext : ∀ b, (h b).Begins (fun d next => opened d ∧ next = .punctuator .braceOpen) (F b)) :
    TakesBrace (p >>= f) bare' (g >>= h) opened where
  taken := by
    rintro s _ d rest c s' hclean hkinds ⟨first, b, second, hg, hh, rfl⟩ hd hreads
    obtain ⟨a, t, hfirst, hrest⟩ := reads_bind.mp hreads
    obtain ⟨next, tail, hsplit, hhead⟩ : ∃ next tail,
        second ++ .punctuator .braceOpen :: rest = next :: tail ∧
          next = second.head?.getD (.punctuator .braceOpen) := by
      cases second with
      | nil => exact ⟨_, _, rfl, rfl⟩
      | cons kind second => exact ⟨kind, _, rfl, rfl⟩
    rw [List.append_assoc, hsplit] at hkinds
    have hF : F b next := hhead ▸ hnext b second d _ hh ⟨hd, rfl⟩
    obtain ⟨a', t', hfirst', rfl, ht⟩ := hp.complete hclean hkinds hg hF trivial
    obtain ⟨rfl, rfl⟩ := hfirst.unique hfirst'
    exact (hf a).taken (clean_of_suffix hclean hkinds ht) (ht.trans hsplit.symm) hh hd hrest

/-- A reader that takes the brace after one that may have anything behind it. -/
theorem TakesBrace.behind {bare' : γ → δ} {f : α → Parser γ} {h : β → Grammar δ}
    {opened : δ → Prop} (hp : Follows p bare g Anything)
    (hf : ∀ a, TakesBrace (f a) bare' (h (bare a)) opened) :
    TakesBrace (p >>= f) bare' (g >>= h) opened :=
  .after hp hf fun _ _ _ _ _ _ => trivial

/-- A reader that takes the brace and makes something of what was read. -/
theorem TakesBrace.then {bare' : γ → δ} {f : α → Parser γ} {make : β → δ} {opened' : δ → Prop}
    (hp : TakesBrace p bare g opened) (hf : ∀ a, Follows (f a) bare' (pure (make (bare a))) Anything)
    (hopened : ∀ b, opened' (make b) ↔ opened b) :
    TakesBrace (p >>= f) bare' (g >>= fun b => pure (make b)) opened' where
  taken := by
    rintro s _ d rest c s' hclean hkinds ⟨first, b, _, hg, ⟨rfl, rfl⟩, rfl⟩ hd hreads
    rw [List.append_nil] at hkinds
    obtain ⟨a, t, hfirst, hrest⟩ := reads_bind.mp hreads
    obtain ⟨-, -, -, hc⟩ := (hf a).sound hrest fun _ _ => trivial
    rw [hc, hopened]
    exact hp.taken hclean hkinds hg ((hopened b).mp hd) hfirst

theorem TakesBrace.look {q : Parser γ} {f : γ → Parser α} (hq : Looks q)
    (hf : ∀ c, TakesBrace (f c) bare g opened) : TakesBrace (q >>= f) bare g opened where
  taken := by
    intro s first b rest a s' hclean hkinds hg hb hreads
    obtain ⟨c, t, hlook, hrest⟩ := reads_bind.mp hreads
    cases hq.silent hlook
    exact (hf c).taken hclean hkinds hg hb hrest

/-! ## Bodies -/

theorem ne_nil_of_nonemptyRow {close : Punctuator} {item : Parser α} {as : List α}
    (h : Reads (nonemptyRow close item) s as s') : as ≠ [] := by
  obtain ⟨first, t, -, hrest⟩ := reads_bind.mp h
  obtain ⟨rest, u, -, hpure⟩ := reads_bind.mp hrest
  obtain ⟨rfl, -⟩ := reads_pure.mp hpure
  exact List.cons_ne_nil first rest

/-- Nothing but the empty row is read as a body without items. -/
theorem eq_nil_of_braced {item : Grammar β} {kinds : List TokenKind}
    (h : Grammar.braced item kinds []) : kinds = [] := by
  rcases h with ⟨_, _, _, -, ⟨_, _, _, -, ⟨_, _, _, -, ⟨-, hcons⟩, -⟩, -⟩, -⟩ | ⟨rfl, -⟩
  · cases hcons
  · rfl

theorem takesBrace_braced : TakesBrace (braced p) (List.map bare) (Grammar.braced g) (· = []) where
  taken := by
    rintro s first bs rest as s' hclean hkinds hg rfl hreads
    rw [eq_nil_of_braced hg] at hkinds
    obtain ⟨token, hpeek, hcase⟩ := reads_afterMark.mp hreads
    have hkind : token.kind = .punctuator .braceOpen := by
      have hhead := kinds_of_reads_peek hpeek
      rw [hkinds] at hhead
      exact (Option.some.inj hhead).symm
    rw [if_pos hkind] at hcase
    exact mt List.map_eq_nil_iff.mp (ne_nil_of_nonemptyRow hcase)

theorem takesBrace_body {bare' : γ → δ} {make : List Directive → List α → Option Span → γ}
    {make' : List Directive → List β → δ} {opened : δ → Prop} {start : Span}
    (hmake : ∀ ds fs span, bare' (make ds fs span) = make' (ds.map Directive.bare) (fs.map bare))
    (hopened : ∀ ds fs, opened (make' ds fs) ↔ fs = []) :
    TakesBrace (do
        let ds ← directives true maxDepth
        let fs ← braced p
        return make ds fs (← spanFrom start))
      bare'
      (do
        let ds ← Grammar.directives true maxDepth
        return make' ds (← Grammar.braced g)) opened := by
  refine .after follows_directives (fun ds => .then takesBrace_braced (fun fs =>
    .look (looks_spanFrom _) fun span => .pure (hmake ds fs span)) (hopened _)) ?_
  refine fun ds => begins_bind (G := NoMark [.atSign, .parenOpen])
    (begins_orElse (begins_after_mark (apart_mark (by decide))) (begins_pure fun _ => id)) fun fs =>
      begins_pure ?_
  rintro next ⟨-, rfl⟩
  exact apart_mark (by decide)

end

/-! ## Definitions -/

section

variable {start : Span} {description : Option String}

theorem takesBrace_objectTypeDefinition : TakesBrace (objectTypeDefinition start description)
    ObjectTypeDefinition.bare (Grammar.objectTypeDefinition description) (·.fields = []) := by
  refine .behind (follows_expectKeyword _) fun _ => .behind follows_name fun n =>
    .after follows_implementsInterfaces (fun interfaces => takesBrace_body (fun _ _ _ => rfl)
      fun _ _ => Iff.rfl) fun _ => begins_body ⟨nofun, apart_mark (by decide)⟩
        ⟨nofun, apart_mark (by decide)⟩ ?_
  rintro d next ⟨-, rfl⟩
  exact ⟨nofun, apart_mark (by decide)⟩

theorem takesBrace_interfaceTypeDefinition : TakesBrace (interfaceTypeDefinition start description)
    InterfaceTypeDefinition.bare (Grammar.interfaceTypeDefinition description) (·.fields = []) :=
  .behind (follows_expectKeyword _) fun _ => .behind follows_name fun _ =>
    takesBrace_body (fun _ _ _ => rfl) fun _ _ => Iff.rfl

theorem takesBrace_enumTypeDefinition : TakesBrace (enumTypeDefinition start description)
    EnumTypeDefinition.bare (Grammar.enumTypeDefinition description) (·.values = []) :=
  .behind (follows_expectKeyword _) fun _ => .behind follows_name fun _ =>
    takesBrace_body (fun _ _ _ => rfl) fun _ _ => Iff.rfl

theorem takesBrace_inputObjectTypeDefinition :
    TakesBrace (inputObjectTypeDefinition start description) InputObjectTypeDefinition.bare
      (Grammar.inputObjectTypeDefinition description) (·.fields = []) :=
  .behind (follows_expectKeyword _) fun _ => .behind follows_name fun _ =>
    takesBrace_body (fun _ _ _ => rfl) fun _ _ => Iff.rfl

theorem takesBrace_typeExtensionDefinition : TakesBrace (typeExtensionDefinition start)
    TypeExtensionDefinition.bare Grammar.typeExtensionDefinition (·.definition.fields = []) :=
  .behind (follows_expectKeyword _) fun _ => .look looks_peek fun _ =>
    .then takesBrace_objectTypeDefinition (fun _ => .look (looks_spanFrom _) fun _ => .pure rfl)
      fun _ => Iff.rfl

end

/-- A definition of one kind among those of all kinds. -/
theorem TakesBrace.made {p : Parser α} {bare : α → α} {g : Grammar α} {opened : α → Prop}
    (make : α → Definition) (hp : TakesBrace p bare g opened)
    (hbare : ∀ a, (make a).bare = make (bare a)) (hopened : ∀ a, OpenEnded (make a) ↔ opened a) :
    TakesBrace (p >>= fun a => pure (make a)) Definition.bare (g >>= fun a => pure (make a))
      OpenEnded :=
  hp.then (fun a => .pure (hbare a)) hopened

theorem takesBrace_typeSystemDefinition :
    TakesBrace typeSystemDefinition Definition.bare Grammar.typeSystemDefinition OpenEnded := by
  refine .look looks_peek fun start => .after follows_description (fun description => ⟨?_⟩)
    fun _ => begins_oneOf_definitionOf _
  rintro s first b rest a s' hclean hkinds ⟨word, hb⟩ hopen hreads
  obtain ⟨token, t, hpeek, hreads⟩ := reads_bind.mp hreads
  cases looks_peek.silent hpeek
  have hkind : token.kind = .name word := by
    have hhead := kinds_of_reads_peek hpeek
    have hword := begins_definitionOf (F := Anything) _ word first b (.punctuator .braceOpen) hb trivial
    cases first with
    | nil => cases hword
    | cons kind first =>
        rw [hkinds] at hhead
        exact (Option.some.inj hhead).symm.trans hword
  rw [hkind] at hreads
  -- the kinds of definitions that cannot be open-ended are of no concern here
  have habsurd {γ : Type} {g : Grammar γ} {make : γ → Definition} (hmake : ∀ c, ¬OpenEnded (make c))
      (hb : (g >>= fun c => pure (make c)) first b) : ¬OpenEnded a.bare := by
    obtain ⟨_, c, _, -, ⟨-, rfl⟩, -⟩ := hb
    exact absurd hopen (hmake c)
  unfold definitionOf at hb
  split at hb
  case h_1 =>
    split at hb
    · exact habsurd (fun _ => id) hb
    · exact hb.elim
  case h_2 =>
    split at hb
    · next hnone =>
        cases Option.isNone_iff_eq_none.mp hnone
        exact (takesBrace_typeExtensionDefinition.made .typeExtension (fun _ => rfl)
          fun _ => Iff.rfl).taken hclean hkinds hb hopen hreads
    · exact hb.elim
  case h_3 | h_6 | h_9 => exact habsurd (fun _ => id) hb
  case h_4 =>
    exact (takesBrace_objectTypeDefinition.made .objectType (fun _ => rfl) fun _ => Iff.rfl).taken
      hclean hkinds hb hopen hreads
  case h_5 =>
    exact (takesBrace_interfaceTypeDefinition.made .interfaceType (fun _ => rfl)
      fun _ => Iff.rfl).taken hclean hkinds hb hopen hreads
  case h_7 =>
    exact (takesBrace_enumTypeDefinition.made .enumType (fun _ => rfl) fun _ => Iff.rfl).taken
      hclean hkinds hb hopen hreads
  case h_8 =>
    exact (takesBrace_inputObjectTypeDefinition.made .inputObjectType (fun _ => rfl)
      fun _ => Iff.rfl).taken hclean hkinds hb hopen hreads
  case h_10 => exact hb.elim

theorem takesBrace_definition :
    TakesBrace definition Definition.bare Grammar.definition OpenEnded where
  taken := by
    rintro s first b rest a s' hclean hkinds hb hopen hreads
    have hsystem : Grammar.typeSystemDefinition first b := by
      rcases hb with ⟨_, _, _, -, ⟨-, rfl⟩, -⟩ | ⟨_, _, _, -, ⟨-, rfl⟩, -⟩ | hsystem
      · exact hopen.elim
      · exact hopen.elim
      · exact hsystem
    have hmade {γ : Type} {q : Parser γ} {make : γ → Definition} (hmake : ∀ c, ¬OpenEnded (make c).bare)
        (hreads : Reads (q >>= fun c => pure (make c)) s a s') : ¬OpenEnded a.bare := by
      obtain ⟨c, t, -, hpure⟩ := reads_bind.mp hreads
      obtain ⟨rfl, -⟩ := reads_pure.mp hpure
      exact hmake c
    -- What is read as an operation or a fragment is not open-ended, whatever it was written as.
    obtain ⟨token, t, hpeek, hreads⟩ := reads_bind.mp hreads
    cases looks_peek.silent hpeek
    split at hreads
    · exact hmade (fun _ => id) hreads
    · exact takesBrace_typeSystemDefinition.taken hclean hkinds hsystem hopen hreads
    · exact takesBrace_typeSystemDefinition.taken hclean hkinds hsystem hopen hreads
    · split at hreads
      · exact hmade (fun _ => id) hreads
      · split at hreads
        · exact hmade (fun _ => id) hreads
        · split at hreads
          · exact takesBrace_typeSystemDefinition.taken hclean hkinds hsystem hopen hreads
          · exact absurd hreads not_reads_unexpected
    · exact absurd hreads not_reads_unexpected

/-! ## Rows of definitions -/

variable {item : Grammar Definition} {first rest kinds : List TokenKind} {d a : Definition}
  {ds : List Definition}

/-- If the first of some definitions is read as it is, no brace behind it was taken. -/
theorem apart_of_reads_definition (hfirst : Grammar.definition first d)
    (hrest : many Grammar.definition rest ds) (hclean : s.Clean)
    (hkinds : s.kinds = first ++ rest ++ [.eof]) (hreads : Reads definition s a t) (ha : a.bare = d) :
    (∀ next ∈ rest.head?, OpenEnded d → next ≠ .punctuator .braceOpen) ∧
      t.Clean ∧ t.kinds = rest ++ [.eof] := by
  have hnext : ∀ next ∈ rest.head?, OpenEnded d → next ≠ .punctuator .braceOpen := by
    rintro next hhead hopen rfl
    obtain ⟨tail, rfl⟩ : ∃ tail, rest = .punctuator .braceOpen :: tail :=
      ⟨rest.tail, List.eq_cons_of_mem_head? hhead⟩
    rw [List.append_assoc, List.cons_append] at hkinds
    exact takesBrace_definition.taken hclean hkinds hfirst hopen hreads (ha ▸ hopen)
  -- So the definition is read as far as it was written, and there is but one way to read it.
  obtain ⟨a', t', hreads', -, hclean', ht⟩ := complete_first hfirst hrest hnext hclean hkinds
  obtain ⟨-, rfl⟩ := hreads.unique hreads'
  exact ⟨hnext, hclean', ht⟩

/-- If definitions are read as they are, none is followed by a brace that it would take. -/
theorem apart_of_reads_definitions (hitem : ∀ kinds d, item kinds d → Grammar.definition kinds d)
    (h : many item kinds ds) : ∀ {s s' : State} {fuel : ℕ} {as : List Definition}, s.Clean →
      s.kinds = kinds ++ [.eof] → Reads (definitions fuel) s as s' → as.map Definition.bare = ds →
      manyApart (fun d next => OpenEnded d → next ≠ .punctuator .braceOpen) item kinds ds := by
  induction h with
  | nil => exact fun _ _ _ _ => .nil
  | @cons first rest d others hfirst hrest ih =>
      intro s s' fuel as hclean hkinds hreads has
      cases fuel with
      | zero => exact absurd hreads not_reads_unexpected
      | succ fuel =>
          rw [definitions_succ] at hreads
          obtain ⟨token, t, hpeek, hreads⟩ := reads_bind.mp hreads
          cases looks_peek.silent hpeek
          split at hreads
          · obtain ⟨rfl, -⟩ := reads_pure.mp hreads
            cases has
          · obtain ⟨a, t, ha, hreads⟩ := reads_bind.mp hreads
            obtain ⟨as, u, has', hpure⟩ := reads_bind.mp hreads
            obtain ⟨rfl, rfl⟩ := reads_pure.mp hpure
            obtain ⟨hbare, hbares⟩ := List.cons_eq_cons.mp has
            obtain ⟨hnext, hclean', ht⟩ := apart_of_reads_definition (hitem _ _ hfirst)
              (hrest.mono hitem) hclean hkinds ha hbare
            exact .cons hfirst (ih hclean' ht has' hbares) hnext

theorem apart_of_reads_document {document : Document}
    (hitem : ∀ kinds d, item kinds d → Grammar.definition kinds d) (h : many item kinds ds)
    (hclean : s.Clean) (hkinds : s.kinds = kinds ++ [.eof])
    (hreads : Reads Parser.document s document s')
    (hbare : document.definitions.map Definition.bare = ds) :
    manyApart (fun d next => OpenEnded d → next ≠ .punctuator .braceOpen) item kinds ds := by
  obtain ⟨a, t, as, fuel, ha, has, hdefinitions⟩ := reads_definitions_of_document hreads
  rw [hdefinitions, List.map_cons] at hbare
  cases h with
  | nil => cases hbare
  | @cons first rest d others hfirst hrest =>
      obtain ⟨hbare, hbares⟩ := List.cons_eq_cons.mp hbare
      obtain ⟨hnext, hclean', ht⟩ := apart_of_reads_definition (hitem _ _ hfirst)
        (hrest.mono hitem) hclean hkinds ha hbare
      exact .cons hfirst (apart_of_reads_definitions hitem hrest hclean' ht has hbares) hnext

end Parser

end GraphQL
