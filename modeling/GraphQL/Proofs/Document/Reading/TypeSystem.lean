import GraphQL.Proofs.Document.Reading.Executable

/-!
# What the readers of a type system and of whole documents read

A type that was read with its body ends there; one without takes the body that comes next.  So
the follow condition of a definition depends on what was read, and a whole document is read as
its definitions if no brace comes after one that is open-ended.
-/

namespace GraphQL

namespace Parser

open Grammar

variable {α β γ δ : Type} {K S : TokenKind → Prop}

/-! ## Parts of definitions -/

theorem begins_description {F : Option String → TokenKind → Prop}
    (hstring : ∀ kind, (stringValue? kind).isSome → S kind) (hnext : ∀ next, F none next → S next) :
    Grammar.description.Begins F S :=
  begins_orElse (Begins.andThen <| begins_token fun kind _ h => hstring kind (by rw [h]; rfl))
    (begins_pure hnext)

theorem follows_description :
    Follows description id Grammar.description (fun _ next => stringValue? next = none) := by
  refine .peek fun token => .restrict (K := (· = token.kind)) ?_ fun _ hkind => hkind.2
  cases token.kind with
  | string text | blockString text =>
      refine .left (.andThen (follows_advance (b := text) ?_) fun _ => .pure rfl) (begins_pure ?_)
      · rintro kind rfl
        rfl
      · rintro next hnext rfl
        cases hnext
  | _ =>
      refine .right (.pure rfl) (begins_token fun kind b hread heq => ?_).andThen
      rw [heq] at hread
      cases hread

/-- A name is no string, so it can stand behind a description that was left out. -/
theorem stringValue?_of_name {kind : TokenKind} (h : (nameText? kind).isSome) :
    stringValue? kind = none := by
  cases kind <;> first | rfl | cases h

/-- What an item with a description begins with. -/
theorem begins_described {f : Option String → Grammar β} {F : β → TokenKind → Prop}
    (hf : ∀ description, (f description).Begins F fun kind => (nameText? kind).isSome)
    (hstring : ∀ kind, (stringValue? kind).isSome → S kind)
    (hname : ∀ kind, (nameText? kind).isSome → S kind) :
    (Grammar.description >>= f).Begins F S :=
  begins_bind (G := fun _ kind => (nameText? kind).isSome)
    (begins_description hstring hname) hf

theorem ne_mark_of_string {kind : TokenKind} {p : Punctuator} (h : (stringValue? kind).isSome) :
    kind ≠ .punctuator p := by
  rintro rfl
  cases h

theorem follows_operationTypeDefinition : Follows operationTypeDefinition
    OperationTypeDefinition.bare Grammar.operationTypeDefinition Anything :=
  .look looks_peek fun _ => follows_operationKind.andThen fun _ => (follows_expect _).andThen fun _ =>
    follows_namedType.andThen fun _ => .look (looks_spanFrom _) fun _ => .pure rfl

theorem follows_inputValueDefinition : Follows inputValueDefinition InputValueDefinition.bare
    Grammar.inputValueDefinition (NoMark [.bang, .equals, .atSign, .parenOpen]) := by
  refine .look looks_peek fun _ => follows_description.bind (fun d => follows_name.andThen fun n =>
    (follows_expect _).andThen fun _ => (follows_typeExpr _).bind (fun type =>
      follows_defaultValue.bind (fun value => follows_directives.bind (fun ds =>
        .look (looks_spanFrom _) fun _ => .pure rfl) ?_) ?_) ?_) ?_
  · exact fun _ => begins_pure fun _ h => h.mono (by simp)
  · exact fun _ => begins_bind (apart_directives (by decide)) fun _ =>
      begins_pure fun _ h => h.mono (by simp)
  · exact fun _ => begins_bind (apart_defaultValue (by decide)) fun _ =>
      begins_bind (apart_directives (by decide)) fun _ => begins_pure fun _ h => h.mono (by simp)
  · exact fun _ => (begins_name fun _ => stringValue?_of_name).andThen

theorem follows_argumentsDefinition : Follows argumentsDefinition
    (List.map InputValueDefinition.bare) Grammar.argumentsDefinition (NoMark [.parenOpen]) :=
  follows_parenthesized follows_inputValueDefinition
    (begins_described (fun _ => (begins_name fun _ => id).andThen)
      (fun _ h => ⟨ne_mark_of_string h, fun _ _ _ => ne_mark_of_string h⟩)
      fun _ h => ⟨ne_mark_of_name h, fun _ => apart_of_name h⟩)
    fun _ => apart_mark (by decide)

theorem follows_fieldDefinition : Follows fieldDefinition FieldDefinition.bare
    Grammar.fieldDefinition (NoMark [.bang, .atSign, .parenOpen]) := by
  refine .look looks_peek fun _ => follows_description.bind (fun d => follows_name.andThen fun n =>
    follows_argumentsDefinition.bind (fun as => (follows_expect _).andThen fun _ =>
      (follows_typeExpr _).bind (fun type => follows_directives.bind (fun ds =>
        .look (looks_spanFrom _) fun _ => .pure rfl) ?_) ?_) ?_) ?_
  · exact fun _ => begins_pure fun _ h => h.mono (by simp)
  · exact fun _ => begins_bind (apart_directives (by decide)) fun _ =>
      begins_pure fun _ h => h.mono (by simp)
  · exact fun _ => begins_after_mark (apart_mark (by decide))
  · exact fun _ => (begins_name fun _ => stringValue?_of_name).andThen

theorem follows_enumValueDefinition : Follows enumValueDefinition EnumValueDefinition.bare
    Grammar.enumValueDefinition (NoMark [.atSign, .parenOpen]) := by
  have hname : Follows enumValueName Name.bare Grammar.enumValueName Anything :=
    .look looks_peek fun _ => follows_nameBut fun text => text = "true" ∨ text = "false" ∨ text = "null"
  refine .look looks_peek fun _ => follows_description.bind (fun d => hname.andThen fun n =>
    follows_directives.bind (fun ds => .look (looks_spanFrom _) fun _ => .pure rfl) ?_) ?_
  · exact fun _ => begins_pure fun _ => id
  · exact fun _ => (begins_nameBut fun _ => stringValue?_of_name).andThen

theorem follows_implementsInterfaces : Follows implementsInterfaces (List.map NamedType.bare)
    Grammar.implementsInterfaces
    (fun _ next => next ≠ .name "implements" ∧ Apart [.ampersand] next) := by
  refine .test (fun kind => decide (kind = .name "implements")) ?_ ?_
  · refine .restrict (K := (· = .name "implements")) ?_ fun _ hkind => of_decide_eq_true hkind.2
    refine .left ((follows_keyword _).andThen fun _ => .mono (follows_separated follows_namedType
      (begins_name fun _ => apart_of_name).andThen) fun _ _ h => h.2) (begins_pure fun _ h => h.1)
  · refine .restrict (K := (· ≠ .name "implements")) ?_ fun _ hkind => of_decide_eq_false hkind.2
    exact .right (.pure rfl) (begins_after_keyword fun h => h rfl)

/-! ## Definitions -/

/-- What may come after a definition, unless it is the body of one that has none. -/
structure Separate (next : TokenKind) : Prop where
  apart : Apart [.atSign, .parenOpen, .ampersand, .equals, .pipe] next
  ne_implements : next ≠ .name "implements"

section

variable {p : Parser α} {bare : α → β} {g : Grammar β} {F : β → TokenKind → Prop}
  {bare' : γ → δ} {make : List Directive → List α → Option Span → γ}
  {make' : List Directive → List β → δ} {body : δ → List β} {start : Span}

/-- The directives of a type and its body. -/
theorem follows_body (hp : Follows p bare g F)
    (hbegins : g.Begins Anything fun kind => kind ≠ .punctuator .braceClose ∧ ∀ b, F b kind)
    (hclose : ∀ b, F b (.punctuator .braceClose))
    (hmake : ∀ ds fs span, bare' (make ds fs span) = make' (ds.map Directive.bare) (fs.map bare))
    (hbody : ∀ ds fs, body (make' ds fs) = fs) :
    Follows (do
        let ds ← directives true maxDepth
        let fs ← braced p
        return make ds fs (← spanFrom start))
      bare'
      (do
        let ds ← Grammar.directives true maxDepth
        return make' ds (← Grammar.braced g))
      (fun d next => Separate next ∧ (body d = [] → next ≠ .punctuator .braceOpen)) := by
  refine follows_directives.bind (fun ds => (follows_braced hp hbegins hclose).bind (fun fs =>
    .look (looks_spanFrom _) fun span => .pure (hmake ds fs span)) ?_) ?_
  · exact fun fs => begins_pure fun _ h hnil => h.2 ((hbody _ _).trans hnil)
  · exact fun _ => begins_bind (apart_braced (by decide)) fun _ =>
      begins_pure fun _ h => h.1.apart.mono (by simp)

theorem begins_body {G : δ → TokenKind → Prop} (hat : S (.punctuator .atSign))
    (hbrace : S (.punctuator .braceOpen)) (hnext : ∀ d next, G d next → S next) :
    Begins (do
        let ds ← Grammar.directives true maxDepth
        return make' ds (← Grammar.braced g)) G S :=
  begins_bind (G := fun _ => S) (begins_many (begins_after_mark hat) fun _ _ => id) fun _ =>
    begins_bind (G := fun _ => S) (begins_orElse (begins_after_mark hbrace) (begins_pure fun _ => id))
      fun _ => begins_pure (hnext _)

end

variable {start : Span} {description : Option String}

theorem follows_schemaDefinition : Follows (schemaDefinition start) SchemaDefinition.bare
    Grammar.schemaDefinition Anything := by
  refine (follows_expectKeyword _).andThen fun _ => follows_directives.bind (fun ds =>
    (follows_expect _).andThen fun _ => (follows_nonemptyRow follows_operationTypeDefinition ?_
      fun _ => trivial).andThen fun _ => .look (looks_spanFrom _) fun _ => .pure rfl) ?_
  · refine (begins_token fun kind b hread => ⟨?_, fun _ => trivial⟩).andThen
    rintro rfl
    cases hread
  · exact fun _ => begins_after_mark (apart_mark (by decide))

theorem follows_scalarTypeDefinition : Follows (scalarTypeDefinition start description)
    ScalarTypeDefinition.bare (Grammar.scalarTypeDefinition description)
    (NoMark [.atSign, .parenOpen]) :=
  (follows_expectKeyword _).andThen fun _ => follows_name.andThen fun _ => follows_directives.bind
    (fun _ => .look (looks_spanFrom _) fun _ => .pure rfl) fun _ => begins_pure fun _ => id

/-- The fields of an object type or an interface. -/
theorem begins_fieldDefinition : Grammar.fieldDefinition.Begins Anything fun kind =>
    kind ≠ .punctuator .braceClose ∧
      ∀ b, NoMark (β := FieldDefinition) [.bang, .atSign, .parenOpen] b kind :=
  begins_described (fun _ => (begins_name fun _ => id).andThen)
    (fun _ h => ⟨ne_mark_of_string h, fun _ _ _ => ne_mark_of_string h⟩)
    fun _ h => ⟨ne_mark_of_name h, fun _ => apart_of_name h⟩

theorem follows_objectTypeDefinition : Follows (objectTypeDefinition start description)
    ObjectTypeDefinition.bare (Grammar.objectTypeDefinition description)
    (fun d next => Separate next ∧ (d.fields = [] → next ≠ .punctuator .braceOpen)) := by
  refine (follows_expectKeyword _).andThen fun _ => follows_name.andThen fun n =>
    follows_implementsInterfaces.bind (fun interfaces => follows_body follows_fieldDefinition
      begins_fieldDefinition (fun _ => apart_mark (by decide)) (fun _ _ _ => rfl) fun _ _ => rfl) ?_
  exact fun _ => begins_body ⟨nofun, apart_mark (by decide)⟩ ⟨nofun, apart_mark (by decide)⟩
    fun d next hnext => ⟨hnext.1.ne_implements, hnext.1.apart.mono (by simp)⟩

theorem follows_interfaceTypeDefinition : Follows (interfaceTypeDefinition start description)
    InterfaceTypeDefinition.bare (Grammar.interfaceTypeDefinition description)
    (fun d next => Separate next ∧ (d.fields = [] → next ≠ .punctuator .braceOpen)) :=
  (follows_expectKeyword _).andThen fun _ => follows_name.andThen fun _ => follows_body
    follows_fieldDefinition begins_fieldDefinition (fun _ => apart_mark (by decide))
    (fun _ _ _ => rfl) fun _ _ => rfl

theorem follows_unionTypeDefinition : Follows (unionTypeDefinition start description)
    UnionTypeDefinition.bare (Grammar.unionTypeDefinition description)
    (fun _ next => Separate next) := by
  have hmembers : Follows (afterMark .equals (separated .pipe namedType) (return []))
      (List.map NamedType.bare)
      ((do
        Grammar.mark .equals
        Grammar.separated .pipe Grammar.namedType) <|> (return []))
      (fun _ next => Separate next) :=
    follows_afterMark (.mono (follows_separated follows_namedType
      (begins_name fun _ => apart_of_name).andThen) fun _ _ h => h.apart.mono (by simp)) (.pure rfl)
      (begins_pure fun _ h => h.apart _ (by simp))
  refine (follows_expectKeyword _).andThen fun _ => follows_name.andThen fun n =>
    follows_directives.bind (fun ds => hmembers.bind (fun types => .look (looks_spanFrom _) fun _ =>
      .pure rfl) fun _ => begins_pure fun _ => id) fun _ => ?_
  exact begins_bind (G := fun _ => Apart [.atSign, .parenOpen])
    (begins_orElse (begins_after_mark (apart_mark (by decide))) (begins_pure fun _ => id))
    fun _ => begins_pure fun _ h => h.apart.mono (by simp)

theorem follows_enumTypeDefinition : Follows (enumTypeDefinition start description)
    EnumTypeDefinition.bare (Grammar.enumTypeDefinition description)
    (fun d next => Separate next ∧ (d.values = [] → next ≠ .punctuator .braceOpen)) :=
  (follows_expectKeyword _).andThen fun _ => follows_name.andThen fun _ => follows_body
    follows_enumValueDefinition (begins_described (fun _ => (begins_nameBut fun _ => id).andThen)
      (fun _ h => ⟨ne_mark_of_string h, fun _ _ _ => ne_mark_of_string h⟩)
      fun _ h => ⟨ne_mark_of_name h, fun _ => apart_of_name h⟩)
    (fun _ => apart_mark (by decide)) (fun _ _ _ => rfl) fun _ _ => rfl

theorem follows_inputObjectTypeDefinition : Follows (inputObjectTypeDefinition start description)
    InputObjectTypeDefinition.bare (Grammar.inputObjectTypeDefinition description)
    (fun d next => Separate next ∧ (d.fields = [] → next ≠ .punctuator .braceOpen)) :=
  (follows_expectKeyword _).andThen fun _ => follows_name.andThen fun _ => follows_body
    follows_inputValueDefinition (begins_described (fun _ => (begins_name fun _ => id).andThen)
      (fun _ h => ⟨ne_mark_of_string h, fun _ _ _ => ne_mark_of_string h⟩)
      fun _ h => ⟨ne_mark_of_name h, fun _ => apart_of_name h⟩)
    (fun _ => apart_mark (by decide)) (fun _ _ _ => rfl) fun _ _ => rfl

theorem follows_typeExtensionDefinition : Follows (typeExtensionDefinition start)
    TypeExtensionDefinition.bare Grammar.typeExtensionDefinition
    (fun d next => Separate next ∧
      (d.definition.fields = [] → next ≠ .punctuator .braceOpen)) :=
  (follows_expectKeyword _).andThen fun _ => .look looks_peek fun _ =>
    follows_objectTypeDefinition.bind (fun _ => .look (looks_spanFrom _) fun _ => .pure rfl)
      fun _ => begins_pure fun _ => id

theorem follows_directiveDefinition : Follows (directiveDefinition start description)
    DirectiveDefinition.bare (Grammar.directiveDefinition description) (NoMark [.pipe]) := by
  have hlocation : Follows directiveLocation Name.bare Grammar.directiveLocation Anything :=
    .look looks_peek fun _ => follows_nameBut fun text => (DirectiveLocation.ofText? text).isNone
  refine (follows_expectKeyword _).andThen fun _ => (follows_expect _).andThen fun _ =>
    follows_name.andThen fun n => follows_argumentsDefinition.bind (fun as =>
      (follows_expectKeyword _).andThen fun _ => (follows_separated hlocation
        (begins_nameBut fun _ => apart_of_name)).bind (fun ls => .look (looks_spanFrom _) fun _ =>
          .pure rfl) fun _ => begins_pure fun _ => id) fun _ => ?_
  exact begins_after_keyword (apart_of_name rfl)

/-! ## Documents -/

/-- What may come after a definition. -/
def Ends (d : Definition) (next : TokenKind) : Prop :=
  Separate next ∧ (OpenEnded d → next ≠ .punctuator .braceOpen)

/-- Every definition may be the last one. -/
theorem ends_eof (d : Definition) : Ends d .eof := ⟨⟨fun _ _ => nofun, nofun⟩, fun _ => nofun⟩

theorem begins_definitionOf {F : Definition → TokenKind → Prop} (description : Option String)
    (word : String) : (definitionOf description word).Begins F (· = .name word) := by
  unfold definitionOf
  split
  case h_1 | h_2 =>
    split
    · exact (begins_after_keyword (by rfl)).andThen
    · exact fun _ _ _ h => h.elim
  case h_10 => exact fun _ _ _ h => h.elim
  all_goals exact (begins_after_keyword (by rfl)).andThen

/-- No string begins a definition behind its description. -/
theorem begins_oneOf_definitionOf {F : Definition → TokenKind → Prop} (description : Option String) :
    (Grammar.oneOf (definitionOf description)).Begins F (stringValue? · = none) := by
  rintro kinds d next ⟨word, hd⟩ hnext
  rw [begins_definitionOf description word kinds d next hd hnext]
  rfl

/-- Only some words begin a definition, and fewer can have a description in front. -/
theorem mem_of_definitionOf {description : Option String} {word : String}
    {kinds : List TokenKind} {d : Definition} (h : definitionOf description word kinds d) :
    word ∈ typeSystemKeywords ∧ (description.isSome → word ≠ "schema" ∧ word ≠ "extend") := by
  unfold definitionOf at h
  split at h
  case h_1 | h_2 =>
    split at h
    · next hnone =>
        refine ⟨by decide, fun hsome => ?_⟩
        rw [Option.isNone_iff_eq_none.mp hnone] at hsome
        cases hsome
    · exact h.elim
  case h_10 => exact h.elim
  all_goals exact ⟨by decide, fun _ => ⟨by decide, by decide⟩⟩

/-- One of many grammars, told by the first token. -/
theorem FollowsAt.oneOf {ι : Type} {p : Parser α} {bare : α → β} {g : ι → Grammar β}
    {F : β → TokenKind → Prop} (i : ι) (h : FollowsAt K p bare (g i) F)
    (hother : ∀ j, j ≠ i → (g j).Begins F (¬K ·)) : FollowsAt K p bare (Grammar.oneOf g) F where
  sound hreads hK := by
    obtain ⟨first, hkinds, hg⟩ := h.sound hreads hK
    exact ⟨first, hkinds, i, hg⟩
  complete := by
    rintro s first b next rest hclean hkinds ⟨j, hb⟩ hnext hK
    by_cases hji : j = i
    · subst hji
      exact h.complete hclean hkinds hb hnext hK
    · exact absurd hK (hother j hji _ _ _ hb hnext)

/-- A definition of one kind among those of all kinds. -/
theorem follows_made {p : Parser α} {bare : α → α} {g : Grammar α} {F : α → TokenKind → Prop}
    {make : α → Definition} (hp : Follows p bare g F) (hbare : ∀ a, (make a).bare = make (bare a))
    (hends : ∀ a next, Ends (make a) next → F a next) :
    FollowsAt K (p >>= fun a => pure (make a)) Definition.bare (g >>= fun a => pure (make a)) Ends :=
  .restrict (hp.bind (fun a => .pure (hbare a)) fun a => begins_pure (hends a)) fun _ _ => trivial

theorem follows_typeSystemDefinition :
    Follows typeSystemDefinition Definition.bare Grammar.typeSystemDefinition Ends := by
  refine .look looks_peek fun start => follows_description.bind (fun description =>
    .peek fun token => .restrict (K := (· = token.kind)) ?_ fun _ hkind => hkind.2) fun _ => ?_
  · have hbegins (kind : TokenKind) (hkind : ∀ word, kind ≠ .name word) :
        (Grammar.oneOf (definitionOf description)).Begins Ends (¬· = kind) := by
      rintro kinds d next ⟨word, hd⟩ hnext heq
      exact hkind word (heq.symm.trans (begins_definitionOf description word kinds d next hd hnext))
    cases token.kind with
    | name word =>
        refine .oneOf word ?_ fun other hne => ?_
        · dsimp only [id]
          split
          case h_1 heq =>
            exact heq ▸ follows_made follows_schemaDefinition (fun _ => rfl) fun _ _ _ => trivial
          case h_2 heq =>
            exact heq ▸ follows_made follows_typeExtensionDefinition (fun _ => rfl) fun _ _ h => h
          case h_3 heq =>
            exact heq ▸ follows_made follows_scalarTypeDefinition (fun _ => rfl)
              fun _ _ h => h.1.apart.mono (by simp)
          case h_4 heq =>
            exact heq ▸ follows_made follows_objectTypeDefinition (fun _ => rfl) fun _ _ h => h
          case h_5 heq =>
            exact heq ▸ follows_made follows_interfaceTypeDefinition (fun _ => rfl) fun _ _ h => h
          case h_6 heq =>
            exact heq ▸ follows_made follows_unionTypeDefinition (fun _ => rfl) fun _ _ h => h.1
          case h_7 heq =>
            exact heq ▸ follows_made follows_enumTypeDefinition (fun _ => rfl) fun _ _ h => h
          case h_8 heq =>
            exact heq ▸ follows_made follows_inputObjectTypeDefinition (fun _ => rfl) fun _ _ h => h
          case h_9 heq =>
            exact heq ▸ follows_made follows_directiveDefinition (fun _ => rfl)
              fun _ _ h => h.1.apart.mono (by simp)
          case h_10 | h_11 =>
            refine .refuse not_reads_unexpected fun kinds d next hd _ _ => ?_
            obtain ⟨hword, hdescribed⟩ := mem_of_definitionOf hd
            simp only [typeSystemKeywords, List.mem_cons, List.not_mem_nil, or_false] at hword
            grind
        · exact (begins_definitionOf description other).mono (fun _ _ => id) fun _ heq heq' =>
            hne (TokenKind.name.inj (heq.symm.trans heq'))
    | _ => cases description <;> exact .refuse not_reads_unexpected (hbegins _ nofun)
  · exact begins_oneOf_definitionOf _

theorem begins_operationDefinition {F : OperationDefinition → TokenKind → Prop}
    (hbrace : S (.punctuator .braceOpen))
    (hword : ∀ word, (OperationKind.ofKeyword? word).isSome → S (.name word)) :
    Grammar.operationDefinition.Begins F S := by
  refine begins_orElse ((followsSet_selectionSet maxDepth).begins.mono (fun _ _ => id)
    fun _ heq => heq ▸ hbrace).andThen (begins_token fun kind b hread => ?_).andThen
  cases kind with
  | name word => exact hword word (by rw [show OperationKind.ofKeyword? word = some b from hread]; rfl)
  | _ => cases hread

theorem begins_typeSystemDefinition {F : Definition → TokenKind → Prop}
    (hstring : ∀ kind, (stringValue? kind).isSome → S kind)
    (hword : ∀ word ∈ typeSystemKeywords, S (.name word)) :
    Grammar.typeSystemDefinition.Begins F S := by
  refine begins_bind (G := fun _ => S) (begins_description hstring fun _ => id) fun description => ?_
  rintro kinds d next ⟨word, hd⟩ hnext
  rw [begins_definitionOf description word kinds d next hd hnext]
  exact hword word (mem_of_definitionOf hd).1

/-- The first words of definitions are apart from one another. -/
theorem isNone_of_mem_typeSystemKeywords {word : String} (h : word ∈ typeSystemKeywords) :
    (OperationKind.ofKeyword? word).isNone ∧ word ≠ "fragment" := by
  revert word
  decide

theorem not_begins_operation {kind : TokenKind} (hbrace : kind ≠ .punctuator .braceOpen)
    (hword : ∀ word, kind = .name word → (OperationKind.ofKeyword? word).isNone) :
    Begins (return .operation (← Grammar.operationDefinition)) Ends (¬· = kind) := by
  refine (begins_operationDefinition hbrace.symm fun word hsome heq => ?_).andThen
  rw [Option.isNone_iff_eq_none.mp (hword word heq.symm)] at hsome
  cases hsome

theorem not_begins_fragment {kind : TokenKind} (h : kind ≠ .name "fragment") :
    Begins (return .fragment (← Grammar.fragmentDefinition)) Ends (¬· = kind) :=
  (begins_after_keyword h.symm).andThen

theorem not_begins_typeSystem {kind : TokenKind} (hstring : stringValue? kind = none)
    (hword : ∀ word ∈ typeSystemKeywords, kind ≠ .name word) :
    Grammar.typeSystemDefinition.Begins Ends (¬· = kind) := by
  refine begins_typeSystemDefinition ?_ fun word hmem => (hword word hmem).symm
  rintro _ hsome rfl
  rw [hstring] at hsome
  cases hsome

theorem follows_definition :
    Follows definition Definition.bare Grammar.definition Ends := by
  refine .peek fun token => .restrict (K := (· = token.kind)) ?_ fun _ hkind => hkind.2
  cases token.kind with
  | punctuator p =>
      cases p with
      | braceOpen =>
          exact .left (follows_made follows_operationDefinition (fun _ => rfl) fun _ _ _ => trivial)
            (begins_orElse (not_begins_fragment nofun) (not_begins_typeSystem rfl nofun))
      | _ =>
          exact .refuse not_reads_unexpected (begins_orElse (not_begins_operation nofun nofun)
            (begins_orElse (not_begins_fragment nofun) (not_begins_typeSystem rfl nofun)))
  | string text | blockString text =>
      exact .right (.right (follows_typeSystemDefinition.restrict fun _ _ => trivial)
        (not_begins_fragment nofun)) (not_begins_operation nofun nofun)
  | name word =>
      dsimp only
      split
      · -- No keyword of another definition is that of an operation.
        next hword =>
          have hnone {other : String} (h : (OperationKind.ofKeyword? other).isNone) :
              TokenKind.name word ≠ .name other := by
            rintro ⟨⟩
            rw [Option.isNone_iff_eq_none.mp h] at hword
            cases hword
          exact .left (follows_made follows_operationDefinition (fun _ => rfl) fun _ _ _ => trivial)
            (begins_orElse (not_begins_fragment (hnone rfl)) (not_begins_typeSystem rfl fun _ hmem =>
              hnone (isNone_of_mem_typeSystemKeywords hmem).1))
      · next hword =>
          have hoperation := not_begins_operation (by nofun : TokenKind.name word ≠ _) fun _ heq => by
            rw [← TokenKind.name.inj heq]
            exact Option.not_isSome_iff_eq_none.mp hword ▸ rfl
          split
          · next hfragment =>
              refine .right (.left (follows_made follows_fragmentDefinition (fun _ => rfl)
                fun _ _ _ => trivial) (not_begins_typeSystem rfl ?_)) hoperation
              rintro other hmem ⟨⟩
              exact (isNone_of_mem_typeSystemKeywords hmem).2 hfragment
          · next hfragment =>
              have hfragment := not_begins_fragment (mt TokenKind.name.inj hfragment)
              split
              · exact .right (.right (follows_typeSystemDefinition.restrict fun _ _ => trivial)
                  hfragment) hoperation
              · next hmem =>
                  refine .refuse not_reads_unexpected (begins_orElse hoperation (begins_orElse
                    hfragment (not_begins_typeSystem rfl ?_)))
                  rintro other hother ⟨⟩
                  exact hmem hother
  | _ =>
      exact .refuse not_reads_unexpected (begins_orElse (not_begins_operation nofun nofun)
        (begins_orElse (not_begins_fragment nofun) (not_begins_typeSystem rfl nofun)))

/-! ## Whole documents -/

/-- A definition begins with a brace, a description or one of some words. -/
theorem begins_definition {F : Definition → TokenKind → Prop} (hbrace : S (.punctuator .braceOpen))
    (hstring : ∀ kind, (stringValue? kind).isSome → S kind)
    (hword : ∀ word, word ≠ "implements" → S (.name word)) : Grammar.definition.Begins F S := by
  refine begins_orElse (begins_operationDefinition hbrace fun word hsome => hword word ?_).andThen
    (begins_orElse (begins_after_keyword (hword _ (by decide))).andThen
      (begins_typeSystemDefinition hstring fun word hmem => hword word ?_))
  · rintro rfl
    exact absurd hsome (by decide)
  · rintro rfl
    exact absurd hmem (by decide)

/-- A definition can come after another one. -/
theorem separate_definition {F : Definition → TokenKind → Prop} :
    Grammar.definition.Begins F Separate :=
  begins_definition ⟨apart_mark (by decide), nofun⟩
    (fun _ h => ⟨fun _ _ => ne_mark_of_string h, by rintro rfl; cases h⟩)
    fun _ h => ⟨apart_of_name rfl, fun heq => h (TokenKind.name.inj heq)⟩

theorem ne_eof_definition {F : Definition → TokenKind → Prop} :
    Grammar.definition.Begins F (· ≠ .eof) :=
  begins_definition nofun (by rintro _ h rfl; cases h) nofun

theorem definitions_succ (fuel : ℕ) : definitions (fuel + 1) = peek >>= fun token =>
    if token.kind = .eof then pure []
    else definition >>= fun first => definitions fuel >>= fun rest => pure (first :: rest) := by
  rw [definitions]
  refine congrArg (peek >>= ·) (funext fun token => ?_)
  cases token.kind <;> rfl

/-- Whatever is read as definitions is a row of them. -/
theorem sound_definitions (fuel : ℕ) : ∀ {s s' : State} {ds : List Definition},
    Reads (definitions fuel) s ds s' →
      ∃ first, s.kinds = first ++ s'.kinds ∧ many Grammar.definition first (ds.map Definition.bare) := by
  induction fuel with
  | zero => exact fun h => absurd h not_reads_unexpected
  | succ fuel ih =>
      intro s s' ds hreads
      rw [definitions_succ] at hreads
      obtain ⟨token, t, hpeek, hrest⟩ := reads_bind.mp hreads
      cases looks_peek.silent hpeek
      split at hrest
      · obtain ⟨rfl, rfl⟩ := reads_pure.mp hrest
        exact ⟨[], rfl, .nil⟩
      · obtain ⟨d, t, hd, hrest⟩ := reads_bind.mp hrest
        obtain ⟨others, u, hothers, hpure⟩ := reads_bind.mp hrest
        obtain ⟨rfl, rfl⟩ := reads_pure.mp hpure
        obtain ⟨first, hkinds, hfirst⟩ := follows_definition.sound hd fun _ _ => trivial
        obtain ⟨second, hkinds', hsecond⟩ := ih hothers
        exact ⟨first ++ second, by rw [hkinds, hkinds', List.append_assoc], .cons hfirst hsecond⟩

theorem not_definition_nil {d : Definition} : ¬Grammar.definition [] d := fun h =>
  ne_eof_definition (F := Anything) [] d .eof h trivial rfl

theorem many_of_manyApart {F : β → TokenKind → Prop} {item : Grammar β} {kinds : List TokenKind}
    {bs : List β} (h : manyApart F item kinds bs) : many item kinds bs := by
  induction h with
  | nil => exact .nil
  | cons hfirst _ _ ih => exact .cons hfirst ih

/-- The first of some definitions is read up to the next one, or to the end. -/
theorem complete_first {first rest : List TokenKind} {d : Definition} {others : List Definition}
    {s : State} (hfirst : Grammar.definition first d) (hrest : many Grammar.definition rest others)
    (hnext : ∀ next ∈ rest.head?, OpenEnded d → next ≠ .punctuator .braceOpen) (hclean : s.Clean)
    (hkinds : s.kinds = first ++ rest ++ [.eof]) :
    ∃ a t, Reads definition s a t ∧ a.bare = d ∧ t.Clean ∧ t.kinds = rest ++ [.eof] := by
  obtain ⟨next, tail, htail, hends⟩ : ∃ next tail, rest ++ [.eof] = next :: tail ∧ Ends d next := by
    have hseparate : Separate (rest.head?.getD .eof) :=
      begins_many (F := fun _ => Separate) separate_definition (fun _ _ => id) rest others .eof
        hrest (ends_eof d).1
    cases rest with
    | nil => exact ⟨_, _, rfl, ends_eof d⟩
    | cons next rest => exact ⟨_, _, rfl, hseparate, hnext next rfl⟩
  rw [List.append_assoc, htail] at hkinds
  obtain ⟨a, t, hd, ha, ht⟩ := follows_definition.complete hclean hkinds hfirst hends trivial
  exact ⟨a, t, hd, ha, clean_of_suffix hclean hkinds ht, ht.trans htail.symm⟩

/-- Definitions are read up to the end, unless one takes a brace that comes next as its body. -/
theorem complete_definitions {kinds : List TokenKind} {ds : List Definition}
    (h : Grammar.definitions kinds ds) : ∀ {s : State} {fuel : ℕ}, s.Clean →
      s.kinds = kinds ++ [.eof] → ds.length < fuel →
      ∃ as s', Reads (definitions fuel) s as s' ∧ as.map Definition.bare = ds := by
  induction h with
  | nil =>
      intro s fuel hclean hkinds hlt
      obtain ⟨fuel, rfl⟩ := Nat.exists_eq_succ_of_ne_zero (Nat.ne_of_gt (Nat.zero_lt_of_lt hlt))
      obtain ⟨token, hpeek, hkind⟩ := reads_peek_of_kinds hkinds hclean
      refine ⟨[], s, ?_, rfl⟩
      rw [definitions_succ]
      exact reads_bind.mpr ⟨token, s, hpeek, by rw [if_pos hkind]; exact reads_pure.mpr ⟨rfl, rfl⟩⟩
  | @cons first rest d others hfirst hrest hnext ih =>
      -- A definition has tokens, so what is looked at is not the end.
      intro s fuel hclean hkinds hlt
      obtain ⟨fuel, rfl⟩ := Nat.exists_eq_succ_of_ne_zero (Nat.ne_of_gt (Nat.zero_lt_of_lt hlt))
      obtain ⟨a, t, hd, rfl, hclean', ht⟩ := complete_first hfirst (many_of_manyApart hrest) hnext hclean
        hkinds
      obtain ⟨as, s', hds, rfl⟩ := ih hclean' ht (Nat.lt_of_succ_lt_succ hlt)
      obtain ⟨kind, first, rfl⟩ := List.exists_cons_of_ne_nil
        fun hnil : first = [] => not_definition_nil (hnil ▸ hfirst)
      obtain ⟨token, hpeek, hkind⟩ := reads_peek_of_kinds hkinds hclean
      have hne : token.kind ≠ .eof := by
        rw [hkind]
        exact ne_eof_definition (F := Anything) _ _ .eof hfirst trivial
      refine ⟨a :: as, s', ?_, rfl⟩
      rw [definitions_succ]
      refine reads_bind.mpr ⟨token, s, hpeek, ?_⟩
      rw [if_neg hne]
      exact reads_bind.mpr ⟨a, t, hd, reads_bind.mpr ⟨as, s', hds, reads_pure.mpr ⟨rfl, rfl⟩⟩⟩

/-- A document is a definition and any number of others. -/
theorem reads_definitions_of_document {s s' : State} {document : Document}
    (h : Reads Parser.document s document s') :
    ∃ d t ds fuel, Reads definition s d t ∧ Reads (definitions fuel) t ds s' ∧
      document.definitions = d :: ds := by
  obtain ⟨start, t, hpeek, h⟩ := reads_bind.mp h
  cases looks_peek.silent hpeek
  obtain ⟨d, t, hd, h⟩ := reads_bind.mp h
  obtain ⟨n, u, hlimit, h⟩ := reads_bind.mp h
  cases (reads_limit.mp hlimit).2
  obtain ⟨ds, u, hds, h⟩ := reads_bind.mp h
  obtain ⟨span, v, hspan, h⟩ := reads_bind.mp h
  cases (looks_spanFrom _).silent hspan
  obtain ⟨rfl, rfl⟩ := reads_pure.mp h
  exact ⟨d, t, ds, n, hd, hds, rfl⟩

/-- What a document is read as is a row of definitions. -/
theorem sound_document {s s' : State} {document : Document} (h : Reads Parser.document s document s') :
    ∃ first, s.kinds = first ++ s'.kinds ∧
      many Grammar.definition first (document.definitions.map Definition.bare) := by
  obtain ⟨d, t, ds, fuel, hd, hds, hdefinitions⟩ := reads_definitions_of_document h
  rw [hdefinitions]
  obtain ⟨first, hkinds, hfirst⟩ := follows_definition.sound hd fun _ _ => trivial
  obtain ⟨second, hkinds', hsecond⟩ := sound_definitions _ hds
  exact ⟨first ++ second, by rw [hkinds, hkinds', List.append_assoc], .cons hfirst hsecond⟩

/-- A document is read from the definitions it has, if it has any. -/
theorem complete_document {kinds : List TokenKind} {ds : List Definition} {s : State}
    (h : Grammar.definitions kinds ds) (hne : ds ≠ []) (hclean : s.Clean)
    (hkinds : s.kinds = kinds ++ [.eof]) :
    ∃ document s', Reads Parser.document s document s' ∧
      document.definitions.map Definition.bare = ds := by
  cases h with
  | nil => exact absurd rfl hne
  | @cons first rest d others hfirst hrest hnext =>
      obtain ⟨a, t, hd, rfl, hclean', ht⟩ := complete_first hfirst (many_of_manyApart hrest) hnext hclean
        hkinds
      have hlength : others.length < t.kinds.length := by
        have hle := length_le_of_many (fun _ => not_definition_nil) (many_of_manyApart hrest)
        rw [ht, List.length_append]
        exact Nat.lt_succ_of_le hle
      obtain ⟨as, s', hds, rfl⟩ := complete_definitions hrest hclean' ht hlength
      obtain ⟨start, hstart⟩ := looks_peek.ready hclean (by rw [hkinds]; simp)
      obtain ⟨span, hspan⟩ : ∃ span, Reads (spanFrom start.span) s' span s' :=
        ⟨_, reads_bind.mpr ⟨_, _, reads_get.mpr ⟨rfl, rfl⟩, reads_pure.mpr ⟨rfl, rfl⟩⟩⟩
      exact ⟨_, s', reads_bind.mpr ⟨start, s, hstart, reads_bind.mpr ⟨a, t, hd, reads_bind.mpr
        ⟨_, t, reads_limit.mpr ⟨rfl, rfl⟩, reads_bind.mpr ⟨as, s', hds, reads_bind.mpr
          ⟨span, s', hspan, reads_pure.mpr ⟨rfl, rfl⟩⟩⟩⟩⟩⟩, rfl⟩

end Parser

end GraphQL
