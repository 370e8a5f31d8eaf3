import GraphQL.Proofs.Document.Printing.Executable

/-!
# The printed text of a type system

The printed text of each kind of definition spells it, with the description in front.  A body
without items is not written at all, which is also how the grammar has it.
-/

namespace GraphQL

open Token

/-! ## Parts of definitions -/

theorem spells_operationTypeDefinition {d : OperationTypeDefinition}
    (h : Readable Grammar.operationTypeDefinition d) :
    Spells (Printer.operationTypeDefinition d) Grammar.operationTypeDefinition d := by
  simp only [Grammar.operationTypeDefinition, readable_bind, readable_pure] at h
  obtain ⟨kind, -, -, -, type, htype, rfl⟩ := h
  simp only [Printer.operationTypeDefinition, List.append_assoc]
  exact spells_operationKind.bind (.mark .colon (.blank (spells_namedType htype).map)) rfl

theorem spells_inputValueDefinition {d : InputValueDefinition}
    (h : Readable Grammar.inputValueDefinition d) :
    Spells (Printer.inputValueDefinition d) Grammar.inputValueDefinition d := by
  simp only [Grammar.inputValueDefinition, readable_bind, readable_pure] at h
  obtain ⟨description, -, n, hn, -, -, type, htype, value, hvalue, ds, hds, rfl⟩ := h
  have hline : Spells (Printer.words
      [Printer.name n ++ ": ".toList ++ Printer.typeExpr type ++ Printer.defaultPart value,
        Printer.directives ds])
      (do
        let name ← Grammar.name
        Grammar.mark .colon
        let type ← Grammar.typeExpr Parser.maxDepth
        let defaultValue ← Grammar.defaultValue
        return {
          description, name, type, defaultValue,
          directives := ← Grammar.directives true Parser.maxDepth })
      ({ description, name := n, type, defaultValue := value, directives := ds } :
        InputValueDefinition) := by
    rw [words_eq (by simp [(spells_name hn).ne_nil])]
    simp only [List.append_assoc]
    exact (spells_name hn).bind (.mark .colon (.blank ((spells_typeExpr htype).bind
      ((spells_defaultValue hvalue).bind (.spaced (spells_directives hds) .pure)
        (startsApart_spaced _))
      (startsApart_append (startsApart_default value) (startsApart_spaced _))))) rfl
  -- Of an argument the description stands on the same line.
  cases description with
  | none => exact .nothing (.right .pure) hline
  | some text => exact .bind (.left (.map (.token (word_string text) rfl))) (.blank hline) rfl

theorem spells_argumentsDefinition {as : List InputValueDefinition}
    (h : Readable Grammar.argumentsDefinition as) :
    Spells (Printer.argumentsDefinition as) Grammar.argumentsDefinition as :=
  .parenthesized fun a ha => spells_inputValueDefinition (readable_parenthesized h a ha)

theorem spells_fieldDefinition {d : FieldDefinition} (h : Readable Grammar.fieldDefinition d) :
    Spells (Printer.fieldDefinition d) Grammar.fieldDefinition d := by
  simp only [Grammar.fieldDefinition, readable_bind, readable_pure] at h
  obtain ⟨description, -, n, hn, as, has, -, -, type, htype, ds, hds, rfl⟩ := h
  refine .described ?_
  rw [words_eq (by simp [(spells_name hn).ne_nil])]
  simp only [List.append_assoc]
  exact (spells_name hn).bind ((spells_argumentsDefinition has).bind (.mark .colon (.blank
    ((spells_typeExpr htype).bind (.spaced (spells_directives hds) .pure) (startsApart_spaced _))))
    rfl) (startsApart_append (startsApart_parenthesized _) rfl)

theorem spells_enumValueDefinition {d : EnumValueDefinition}
    (h : Readable Grammar.enumValueDefinition d) :
    Spells (Printer.enumValueDefinition d) Grammar.enumValueDefinition d := by
  simp only [Grammar.enumValueDefinition, readable_bind, readable_pure] at h
  obtain ⟨description, -, n, hn, ds, hds, rfl⟩ := h
  refine .described ?_
  rw [words_eq (spells_nameBut hn).ne_nil]
  exact (spells_nameBut hn).bind (.spaced (spells_directives hds) .pure) (startsApart_spaced _)

theorem spells_namedTypes {p : Punctuator} {separator : String} {types : List NamedType}
    (hseparator : separator.toList = ' ' :: (p.text.toList ++ [' ']))
    (h : Readable (Grammar.separated p Grammar.namedType) types) :
    Spells (Printer.joinWith separator (types.map Printer.namedType))
      (Grammar.separated p Grammar.namedType) types :=
  .separated hseparator (fun t ht => spells_namedType ((readable_separated h).2 t ht))
    (readable_separated h).1

theorem spells_interfaces {interfaces : List NamedType}
    (h : Readable Grammar.implementsInterfaces interfaces) :
    Spells (Printer.interfacesPart interfaces) Grammar.implementsInterfaces interfaces := by
  simp only [Grammar.implementsInterfaces, readable_orElse, readable_bind, readable_pure] at h
  rcases h with ⟨-, -, hnames⟩ | rfl
  · rw [Printer.interfacesPart, if_neg (by simpa using (readable_separated hnames).1)]
    exact .left (.keyword (word_keyword (by decide) (by decide))
      (.blank (spells_namedTypes rfl hnames)) rfl)
  · exact .right .pure

/-- A keyword and a name, with more parts behind them. -/
theorem Spells.headed {β : Type} {keyword : String} {f : Name → Grammar β} {n : Name} {b : β}
    {rest : List (List Char)} (hkeyword : Word keyword.toList (.name keyword))
    (hn : Readable Grammar.name n) (h : Spells (GraphQL.spaced rest) (f n) b) :
    Spells (Printer.words (Printer.headed keyword n :: rest))
      (Grammar.keyword keyword >>= fun _ => Grammar.name >>= f) b := by
  rw [words_eq (by simp [Printer.headed]), Printer.headed, List.append_assoc]
  exact .keyword hkeyword (.blank ((spells_name hn).bind h (startsApart_spaced _))) rfl

/-! ## Definitions -/

section

variable {description : Option String}

theorem spells_schemaDefinition {d : SchemaDefinition} (h : Readable Grammar.schemaDefinition d) :
    Spells (Printer.schemaDefinition d) Grammar.schemaDefinition d := by
  simp only [Grammar.schemaDefinition, readable_bind, readable_pure] at h
  obtain ⟨-, -, ds, hds, -, -, types, htypes, rfl⟩ := h
  obtain ⟨hne, htypes⟩ := readable_nonemptyRow htypes
  rw [Printer.schemaDefinition, words_eq (by simp)]
  have hbody : Spells (spaced [Printer.block (types.map Printer.operationTypeDefinition)])
      ((Grammar.mark .braceOpen >>= fun _ =>
        Grammar.nonemptyRow .braceClose Grammar.operationTypeDefinition) >>= fun types =>
          pure { directives := ds, operationTypes := types })
      ({ directives := ds, operationTypes := types } : SchemaDefinition) :=
    .spaced (.block (fun t ht => spells_operationTypeDefinition (htypes t ht)) hne) .pure
  rw [bind_assoc] at hbody
  exact .keyword (word_keyword (by decide) (by decide)) (.spaced (spells_directives hds) hbody)
    (startsApart_spaced _)

theorem spells_scalarTypeDefinition {d : ScalarTypeDefinition}
    (h : Readable (Grammar.scalarTypeDefinition description) d) :
    ∃ body, Printer.scalarTypeDefinition d = Printer.described description body ∧
      Spells body (Grammar.scalarTypeDefinition description) d := by
  simp only [Grammar.scalarTypeDefinition, readable_bind, readable_pure] at h
  obtain ⟨-, -, n, hn, ds, hds, rfl⟩ := h
  exact ⟨_, rfl, .headed (word_keyword (by decide) (by decide)) hn
    (.spaced (spells_directives hds) .pure)⟩

theorem spells_objectTypeDefinition {d : ObjectTypeDefinition}
    (h : Readable (Grammar.objectTypeDefinition description) d) :
    ∃ body, Printer.objectTypeDefinition d = Printer.described description body ∧
      Spells body (Grammar.objectTypeDefinition description) d := by
  simp only [Grammar.objectTypeDefinition, readable_bind, readable_pure] at h
  obtain ⟨-, -, n, hn, interfaces, hinterfaces, ds, hds, fields, hfields, rfl⟩ := h
  exact ⟨_, rfl, .headed (word_keyword (by decide) (by decide)) hn
    (.spaced (spells_interfaces hinterfaces) (.spaced (spells_directives hds) (.spaced
      (.braced fun f hf => spells_fieldDefinition (readable_braced hfields f hf)) .pure)))⟩

theorem spells_interfaceTypeDefinition {d : InterfaceTypeDefinition}
    (h : Readable (Grammar.interfaceTypeDefinition description) d) :
    ∃ body, Printer.interfaceTypeDefinition d = Printer.described description body ∧
      Spells body (Grammar.interfaceTypeDefinition description) d := by
  simp only [Grammar.interfaceTypeDefinition, readable_bind, readable_pure] at h
  obtain ⟨-, -, n, hn, ds, hds, fields, hfields, rfl⟩ := h
  exact ⟨_, rfl, .headed (word_keyword (by decide) (by decide)) hn
    (.spaced (spells_directives hds) (.spaced
      (.braced fun f hf => spells_fieldDefinition (readable_braced hfields f hf)) .pure))⟩

theorem spells_unionTypeDefinition {d : UnionTypeDefinition}
    (h : Readable (Grammar.unionTypeDefinition description) d) :
    ∃ body, Printer.unionTypeDefinition d = Printer.described description body ∧
      Spells body (Grammar.unionTypeDefinition description) d := by
  simp only [Grammar.unionTypeDefinition, readable_bind, readable_pure] at h
  obtain ⟨-, -, n, hn, ds, hds, types, htypes, rfl⟩ := h
  have hmembers : Spells (Printer.membersPart types)
      ((do
        Grammar.mark .equals
        Grammar.separated .pipe Grammar.namedType) <|> (return [])) types := by
    rcases readable_orElse.mp htypes with hnames | hnone
    · obtain ⟨-, -, hnames⟩ := readable_bind.mp hnames
      rw [Printer.membersPart, if_neg (by simpa using (readable_separated hnames).1)]
      exact .left (.mark .equals (.blank (spells_namedTypes rfl hnames)))
    · cases readable_pure.mp hnone
      exact .right .pure
  exact ⟨_, rfl, .headed (word_keyword (by decide) (by decide)) hn
    (.spaced (spells_directives hds) (.spaced hmembers .pure))⟩

theorem spells_enumTypeDefinition {d : EnumTypeDefinition}
    (h : Readable (Grammar.enumTypeDefinition description) d) :
    ∃ body, Printer.enumTypeDefinition d = Printer.described description body ∧
      Spells body (Grammar.enumTypeDefinition description) d := by
  simp only [Grammar.enumTypeDefinition, readable_bind, readable_pure] at h
  obtain ⟨-, -, n, hn, ds, hds, values, hvalues, rfl⟩ := h
  exact ⟨_, rfl, .headed (word_keyword (by decide) (by decide)) hn
    (.spaced (spells_directives hds) (.spaced
      (.braced fun v hv => spells_enumValueDefinition (readable_braced hvalues v hv)) .pure))⟩

theorem spells_inputObjectTypeDefinition {d : InputObjectTypeDefinition}
    (h : Readable (Grammar.inputObjectTypeDefinition description) d) :
    ∃ body, Printer.inputObjectTypeDefinition d = Printer.described description body ∧
      Spells body (Grammar.inputObjectTypeDefinition description) d := by
  simp only [Grammar.inputObjectTypeDefinition, readable_bind, readable_pure] at h
  obtain ⟨-, -, n, hn, ds, hds, fields, hfields, rfl⟩ := h
  exact ⟨_, rfl, .headed (word_keyword (by decide) (by decide)) hn
    (.spaced (spells_directives hds) (.spaced
      (.braced fun f hf => spells_inputValueDefinition (readable_braced hfields f hf)) .pure))⟩

theorem spells_typeExtensionDefinition {d : TypeExtensionDefinition}
    (h : Readable Grammar.typeExtensionDefinition d) :
    Spells (Printer.typeExtensionDefinition d) Grammar.typeExtensionDefinition d := by
  simp only [Grammar.typeExtensionDefinition, readable_bind, readable_pure] at h
  obtain ⟨-, -, definition, hdefinition, rfl⟩ := h
  obtain ⟨body, htext, hbody⟩ := spells_objectTypeDefinition hdefinition
  have htext : Printer.typeExtensionDefinition { definition } = "extend ".toList ++ body :=
    congrArg ("extend ".toList ++ ·) htext
  have hkeyword : "extend ".toList = "extend".toList ++ [' '] := rfl
  rw [htext, hkeyword, List.append_assoc]
  exact .keyword (word_keyword (by decide) (by decide)) (.blank hbody.map) rfl

theorem spells_directiveDefinition {d : DirectiveDefinition}
    (h : Readable (Grammar.directiveDefinition description) d) :
    ∃ body, Printer.directiveDefinition d = Printer.described description body ∧
      Spells body (Grammar.directiveDefinition description) d := by
  simp only [Grammar.directiveDefinition, readable_bind, readable_pure] at h
  obtain ⟨-, -, -, -, n, hn, as, has, -, -, locations, hlocations, rfl⟩ := h
  refine ⟨_, rfl, ?_⟩
  simp only [List.append_assoc]
  have hnames : Spells (Printer.joinWith " | " (locations.map Printer.name))
      (Grammar.separated .pipe Grammar.directiveLocation) locations :=
    .separated rfl (fun l hl => spells_nameBut ((readable_separated hlocations).2 l hl))
      (readable_separated hlocations).1
  exact .keyword (word_keyword (by decide) (by decide)) (.blank (.mark .atSign
    ((spells_name hn).bind ((spells_argumentsDefinition has).bind (.blank (.keyword word_on
      (.blank hnames.map) rfl)) rfl) (startsApart_append (startsApart_parenthesized _) rfl)))) rfl

/-- A definition whose text is its description above something else. -/
theorem Spells.made {α : Type} {word : String} {g : Grammar α} {make : α → Definition} {a : α}
    {text : List Char}
    (hword : Grammar.definitionOf description word = (g >>= fun a => Pure.pure (make a)))
    (h : ∃ body, text = Printer.described description body ∧ Spells body g a) :
    Spells text Grammar.typeSystemDefinition (make a) := by
  obtain ⟨body, rfl, kinds, hkinds, hspelled⟩ := h
  refine .described ⟨kinds, ⟨word, ?_⟩, hspelled⟩
  rw [hword]
  exact ⟨kinds, a, [], hkinds, ⟨rfl, rfl⟩, (List.append_nil _).symm⟩

end

theorem spells_typeSystemDefinition {d : Definition} (h : Readable Grammar.typeSystemDefinition d) :
    Spells (Printer.definition d) Grammar.typeSystemDefinition d := by
  obtain ⟨description, -, hwords⟩ := readable_bind.mp h
  obtain ⟨word, hd⟩ : ∃ word, Readable (Grammar.definitionOf description word) d := by
    obtain ⟨kinds, ⟨word, hkinds⟩, hgenuine⟩ := hwords
    exact ⟨word, kinds, hkinds, hgenuine⟩
  -- One case for each keyword; schemas and extensions take no description.
  unfold Grammar.definitionOf at hd
  split at hd
  case h_10 => exact absurd hd not_readable_never
  case h_1 =>
    split at hd
    · next hnone =>
        obtain ⟨e, he, hpure⟩ := readable_bind.mp hd
        cases readable_pure.mp hpure
        exact .made (rfl : Grammar.definitionOf none "schema" = _)
          ⟨_, rfl, spells_schemaDefinition he⟩
    · exact absurd hd not_readable_never
  case h_2 =>
    split at hd
    · next hnone =>
        obtain ⟨e, he, hpure⟩ := readable_bind.mp hd
        cases readable_pure.mp hpure
        exact .made (rfl : Grammar.definitionOf none "extend" = _)
          ⟨_, rfl, spells_typeExtensionDefinition he⟩
    · exact absurd hd not_readable_never
  all_goals
    obtain ⟨e, he, hpure⟩ := readable_bind.mp hd
    cases readable_pure.mp hpure
  case h_3 => exact .made (rfl : Grammar.definitionOf _ "scalar" = _) (spells_scalarTypeDefinition he)
  case h_4 => exact .made (rfl : Grammar.definitionOf _ "type" = _) (spells_objectTypeDefinition he)
  case h_5 =>
    exact .made (rfl : Grammar.definitionOf _ "interface" = _) (spells_interfaceTypeDefinition he)
  case h_6 => exact .made (rfl : Grammar.definitionOf _ "union" = _) (spells_unionTypeDefinition he)
  case h_7 => exact .made (rfl : Grammar.definitionOf _ "enum" = _) (spells_enumTypeDefinition he)
  case h_8 =>
    exact .made (rfl : Grammar.definitionOf _ "input" = _) (spells_inputObjectTypeDefinition he)
  case h_9 =>
    exact .made (rfl : Grammar.definitionOf _ "directive" = _) (spells_directiveDefinition he)

/-- The printed text of every definition spells it. -/
theorem spells_definition {d : Definition} (h : Readable Grammar.definition d) :
    Spells (Printer.definition d) Grammar.definition d := by
  rcases readable_orElse.mp h with hoperation | hother
  · obtain ⟨e, he, hpure⟩ := readable_bind.mp hoperation
    cases readable_pure.mp hpure
    exact .left (spells_operationDefinition he).map
  · rcases readable_orElse.mp hother with hfragment | htype
    · obtain ⟨e, he, hpure⟩ := readable_bind.mp hfragment
      cases readable_pure.mp hpure
      exact .right (.left (spells_fragmentDefinition he).map)
    · exact .right (.right (spells_typeSystemDefinition htype))

end GraphQL
