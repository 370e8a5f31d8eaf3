import GraphQL.Proofs.Document.Printing.Spelling

/-!
# The printed text of a document

For each part of the language: if a tree is what some tokens of the part are read as, then its
printed text spells the tree.  So nothing is lost by printing, whatever a tree was read from:
leading marks, commas and the two kinds of quotes make no difference.
-/

namespace GraphQL

open Token

/-! ## Names and types -/

theorem word_keyword {word : String} (hname : isName word.toList)
    (hkind : ofName word = .name word) : Word word.toList (.name word) := by
  have hword := word_name hname
  rwa [String.ofList_toList, hkind] at hword

/-- A name is the text of its token. -/
theorem exists_word_of_nameText? {kind : TokenKind} {text : String} (hgenuine : kind.Genuine)
    (h : Parser.nameText? kind = some text) : Word text.toList kind := by
  cases kind with
  | name other =>
      cases h
      exact hgenuine
  | boolean b =>
      cases b <;> cases h <;> exact word_name (by decide)
  | null =>
      cases h
      exact word_name (by decide)
  | _ => cases h

theorem spells_name {n : Name} (h : Readable Grammar.name n) :
    Spells (Printer.name n) Grammar.name n := by
  obtain ⟨kind, hgenuine, hread⟩ := readable_token.mp h
  obtain ⟨text, htext, rfl⟩ := Option.map_eq_some_iff.mp hread
  exact .token (exists_word_of_nameText? hgenuine htext) hread

theorem spells_nameBut {excluded : String → Prop} [DecidablePred excluded] {n : Name}
    (h : Readable (Grammar.nameBut excluded) n) :
    Spells (Printer.name n) (Grammar.nameBut excluded) n := by
  obtain ⟨kind, hgenuine, hread⟩ := readable_token.mp h
  obtain ⟨text, htext, hkept⟩ := Option.bind_eq_some_iff.mp hread
  split at hkept
  · cases hkept
  · cases hkept
    exact .token (exists_word_of_nameText? hgenuine htext) hread

theorem spells_namedType {t : NamedType} (h : Readable Grammar.namedType t) :
    Spells (Printer.namedType t) Grammar.namedType t := by
  simp only [Grammar.namedType, readable_bind, readable_pure] at h
  obtain ⟨n, hn, rfl⟩ := h
  exact (spells_name hn).map

theorem spells_typeExpr : ∀ {depth : ℕ} {t : TypeExpr}, Readable (Grammar.typeExpr depth) t →
    Spells (Printer.typeExpr t) (Grammar.typeExpr depth) t
  | 0, _, h => absurd h not_readable_never
  | depth + 1, t, h => by
    simp only [Grammar.typeExpr, readable_bind, readable_orElse, readable_pure] at h
    obtain ⟨inner, hinner, houter⟩ := h
    have hspells : Spells (Printer.typeExpr inner)
        ((do
          Grammar.mark .bracketOpen
          let item ← Grammar.typeExpr depth
          Grammar.mark .bracketClose
          return .list item none) <|>
        (return .named (← Grammar.namedType))) inner := by
      rcases hinner with ⟨-, -, item, hitem, -, -, rfl⟩ | ⟨named, hnamed, rfl⟩
      · exact .left (.mark .bracketOpen
          ((spells_typeExpr hitem).bind (.mark .bracketClose .pure) rfl))
      · exact .right (spells_namedType hnamed).map
    rcases houter with ⟨-, -, rfl⟩ | rfl
    · exact hspells.bind (.left (.mark .bang .pure)) rfl
    · exact hspells.last (.right .pure)

/-! ## Values -/

theorem spells_variableUse {v : Variable} (h : Readable Grammar.variableUse v) :
    Spells (Printer.variableUse v) Grammar.variableUse v := by
  simp only [Grammar.variableUse, readable_bind, readable_pure] at h
  obtain ⟨-, -, n, hn, rfl⟩ := h
  exact .mark .dollar (spells_name hn).map

theorem spells_literal {v : Value} (h : Readable (Grammar.token Grammar.literal?) v) :
    Spells (Printer.value v) (Grammar.token Grammar.literal?) v := by
  obtain ⟨kind, hgenuine, hread⟩ := readable_token.mp h
  cases kind with
  | name text | int text | float text =>
      cases hread
      rw [Printer.value]
      exact .token hgenuine rfl
  | string text | blockString text =>
      cases hread
      rw [Printer.value]
      exact .token (word_string text) rfl
  | boolean b =>
      cases hread
      cases b <;> rw [Printer.value] <;> exact .token (word_name (by decide)) rfl
  | null =>
      cases hread
      rw [Printer.value]
      exact .token (word_name (by decide)) rfl
  | _ => cases hread

theorem values_eq (items : List Value) : Printer.values items = items.map Printer.value := by
  induction items with
  | nil => rfl
  | cons item rest ih => rw [Printer.values, ih, List.map_cons]

/-- The text of a field of an object value. -/
def objectFieldText (f : ObjectField) : List Char :=
  Printer.name f.name ++ ": ".toList ++ Printer.value f.value

theorem objectFields_eq (fields : List ObjectField) :
    Printer.objectFields fields = fields.map objectFieldText := by
  induction fields with
  | nil => rfl
  | cons f rest ih =>
      obtain ⟨n, v, span⟩ := f
      rw [Printer.objectFields, ih, List.map_cons]
      rfl

/-- A name, a colon and something more. -/
theorem Spells.named {α β : Type} {g : Grammar α} {f : Name → α → β} {n : Name} {a : α} {text : List Char}
    (hn : Readable Grammar.name n) (hg : Spells text g a) :
    Spells (Printer.name n ++ ": ".toList ++ text)
      (Grammar.name >>= fun n => Grammar.mark .colon >>= fun _ => g >>= fun a => Pure.pure (f n a))
      (f n a) := by
  rw [List.append_assoc]
  exact (spells_name hn).bind (.mark .colon (.blank hg.map)) rfl

theorem spells_value (constant : Bool) : ∀ {depth : ℕ} {v : Value},
    Readable (Grammar.value constant depth) v →
      Spells (Printer.value v) (Grammar.value constant depth) v
  | 0, _, h => absurd h not_readable_never
  | depth + 1, v, h => by
    simp only [Grammar.value, readable_orElse] at h
    rcases h with hliteral | hvar | hlist | hobject
    · exact .left (spells_literal hliteral)
    -- A constant has no variables.
    · cases constant with
      | true => exact absurd hvar not_readable_never
      | false =>
          obtain ⟨use, huse, hpure⟩ := readable_bind.mp hvar
          cases readable_pure.mp hpure
          rw [Printer.value]
          exact .right (.left (spells_variableUse huse).map)
    · simp only [Grammar.listValue, readable_bind, readable_pure] at hlist
      obtain ⟨-, -, items, hitems, rfl⟩ := hlist
      have hspells : Spells (Printer.joinWith ", " (items.map Printer.value) ++ [']'])
          (Grammar.row .bracketClose (Grammar.value constant depth)) items :=
        (Spells.joinWith ⟨by decide, rfl⟩ fun item hitem =>
          spells_value constant (readable_row hitems item hitem)).row rfl (.mark .bracketClose .pure)
      rw [Printer.value, values_eq]
      exact .right (.right (.left (.mark .bracketOpen hspells.map)))
    · simp only [Grammar.objectValue, readable_bind, readable_pure] at hobject
      obtain ⟨-, -, fields, hfields, rfl⟩ := hobject
      have hspells : Spells (Printer.joinWith ", " (fields.map objectFieldText) ++ ['}'])
          (Grammar.row .braceClose (Grammar.objectField (Grammar.value constant depth))) fields := by
        refine (Spells.joinWith ⟨by decide, rfl⟩ fun f hf => ?_).row rfl (.mark .braceClose .pure)
        have hreadable := readable_row hfields f hf
        simp only [Grammar.objectField, readable_bind, readable_pure] at hreadable
        obtain ⟨n, hn, -, -, value, hvalue, rfl⟩ := hreadable
        exact .named hn (spells_value constant hvalue)
      rw [Printer.value, objectFields_eq]
      exact .right (.right (.right (.mark .braceOpen hspells.map)))

/-! ## Arguments and directives -/

theorem spells_arguments {constant : Bool} {depth : ℕ} {as : List Argument}
    (h : Readable (Grammar.arguments constant depth) as) :
    Spells (Printer.arguments as) (Grammar.arguments constant depth) as := by
  refine .parenthesized fun a ha => ?_
  have hargument := readable_parenthesized h a ha
  simp only [Grammar.argument, readable_bind, readable_pure] at hargument
  obtain ⟨n, hn, -, -, value, hvalue, rfl⟩ := hargument
  exact .named hn (spells_value constant hvalue)

theorem startsApart_parenthesized (items : List (List Char)) :
    startsApart (Printer.parenthesized items) := by
  unfold Printer.parenthesized
  split <;> rfl

theorem spells_directives {constant : Bool} {depth : ℕ} {ds : List Directive}
    (h : Readable (Grammar.directives constant depth) ds) :
    Spells (Printer.directives ds) (Grammar.directives constant depth) ds := by
  refine Spells.joinWith ⟨by decide, rfl⟩ fun d hd => ?_
  have hdirective := readable_rowAfter h d hd
  simp only [readable_bind, readable_pure] at hdirective
  obtain ⟨n, hn, as, has, rfl⟩ := hdirective
  exact .mark .atSign ((spells_name hn).bind (spells_arguments has).map
    (startsApart_parenthesized _))

/-! ## Selections -/

section

variable {g : Grammar SelectionSet} {depth : ℕ}

theorem spells_optionalSet (hset : ∀ s, Readable g s → Spells (Printer.selectionSet s) g s)
    {below : Option SelectionSet}
    (h : Readable ((return some (← g)) <|> (return none)) below) :
    Spells (Printer.optionalSet below) ((return some (← g)) <|> (return none)) below := by
  simp only [readable_orElse, readable_bind, readable_pure] at h
  rcases h with ⟨s, hs, rfl⟩ | rfl
  · rw [Printer.optionalSet]
    exact .left (hset s hs).map
  · rw [Printer.optionalSet]
    exact .right .pure

theorem spells_field (hset : ∀ s, Readable g s → Spells (Printer.selectionSet s) g s) {f : Field}
    (h : Readable (Grammar.field depth g) f) :
    Spells (Printer.field f) (Grammar.field depth g) f := by
  simp only [Grammar.field, readable_bind, readable_pure] at h
  obtain ⟨first, hfirst, ⟨responseName, n⟩, hname, as, has, ds, hds, below, hbelow, rfl⟩ := h
  -- what comes behind the name
  have hrest : Spells (Printer.arguments as ++
      spaced [Printer.directives ds, Printer.optionalSet below])
      (do
        let arguments ← Grammar.arguments false depth
        let directives ← Grammar.directives false depth
        let below ← (return some (← g)) <|> (return none)
        return { responseName, name := n, arguments, directives, selectionSet := below })
      ({ responseName, name := n, arguments := as, directives := ds, selectionSet := below } : Field) :=
    (spells_arguments has).bind (.spaced (spells_directives hds)
      (.spaced (spells_optionalSet hset hbelow) .pure)) (startsApart_spaced _)
  have hapart : startsApart (Printer.arguments as ++
      spaced [Printer.directives ds, Printer.optionalSet below]) :=
    startsApart_append (startsApart_parenthesized _) (startsApart_spaced _)
  rcases readable_orElse.mp hname with halias | hplain
  · simp only [readable_bind, readable_pure] at halias
    obtain ⟨-, -, m, hm, heq⟩ := halias
    cases heq
    rw [Printer.field, words_eq (by simp [(spells_name hm).ne_nil])]
    simp only [Printer.aliasPart, List.append_assoc]
    have hcolon : Spells (":".toList ++ (' ' :: Printer.name n))
        ((do
          Grammar.mark .colon
          return (some first, ← Grammar.name)) <|> (return (none, first))) (some first, n) :=
      .left (.mark .colon (.blank (spells_name hm).map))
    exact (spells_name hfirst).bind (hcolon.bind hrest hapart) rfl
  · cases readable_pure.mp hplain
    rw [Printer.field, words_eq (by simp [(spells_name hfirst).ne_nil])]
    simp only [Printer.aliasPart, List.nil_append, List.append_assoc]
    exact (spells_name hfirst).bind (.nothing (.right .pure) hrest) hapart

theorem word_on : Word "on".toList (.name "on") := word_keyword (by decide) (by decide)

theorem spells_selection (hset : ∀ s, Readable g s → Spells (Printer.selectionSet s) g s)
    {s : Selection} (h : Readable (Grammar.selection depth g) s) :
    Spells (Printer.selection s) (Grammar.selection depth g) s := by
  simp only [Grammar.selection, readable_orElse, readable_bind, readable_pure] at h
  rcases h with ⟨f, hf, rfl⟩ |
    ⟨-, -, ⟨n, hn, ds, hds, rfl⟩ | ⟨condition, hcondition, ds, hds, set, hs, rfl⟩⟩
  · rw [Printer.selection]
    exact .left (spells_field hset hf).map
  · rw [Printer.selection, Printer.fragmentSpread, words_eq (by simp), List.append_assoc]
    exact .right (.mark .ellipsis (.left ((spells_nameBut hn).bind
      (.spaced (spells_directives hds) .pure) (startsApart_spaced _))))
  · have hrest : Spells (spaced [Printer.conditionPart condition, Printer.directives ds,
          Printer.selectionSet set])
        (do
          let typeCondition ←
            (do
              Grammar.keyword "on"
              return some (← Grammar.namedType)) <|>
            (return none)
          let directives ← Grammar.directives false depth
          return Selection.inline { typeCondition, directives, selectionSet := ← g })
        (Selection.inline { typeCondition := condition, directives := ds, selectionSet := set }) := by
      refine .spaced ?_ (.spaced (spells_directives hds) (.spaced (hset set hs) .pure))
      rcases hcondition with ⟨-, -, named, hnamed, rfl⟩ | rfl
      · exact .left (.keyword word_on (.blank (spells_namedType hnamed).map) rfl)
      · exact .right .pure
    rw [Printer.selection, Printer.inlineFragment, words_eq (by simp)]
    exact .right (.mark .ellipsis (.right hrest))

end

theorem selections_eq (items : List Selection) :
    Printer.selections items = items.map Printer.selection := by
  induction items with
  | nil => rfl
  | cons item rest ih => rw [Printer.selections, ih, List.map_cons]

theorem spells_selectionSet : ∀ {depth : ℕ} (s : SelectionSet),
    Readable (Grammar.selectionSet depth) s →
      Spells (Printer.selectionSet s) (Grammar.selectionSet depth) s
  | 0, _, h => absurd h not_readable_never
  | depth + 1, s, h => by
    simp only [Grammar.selectionSet, readable_bind, readable_pure] at h
    obtain ⟨-, -, items, hitems, rfl⟩ := h
    obtain ⟨hne, hitems⟩ := readable_nonemptyRow hitems
    rw [Printer.selectionSet, selections_eq]
    have hblock := Spells.block
      (fun item hitem => spells_selection spells_selectionSet (hitems item hitem)) hne
    have hset := hblock.map (f := fun items => ({ selections := items } : SelectionSet))
    rwa [bind_assoc] at hset

/-! ## Executable definitions -/

theorem spells_operationKind {kind : OperationKind} :
    Spells kind.keyword.toList Grammar.operationKind kind := by
  cases kind <;> exact .token (word_keyword (by decide) (by decide)) rfl

theorem spells_defaultValue {v : Option Value} (h : Readable Grammar.defaultValue v) :
    Spells (Printer.defaultPart v) Grammar.defaultValue v := by
  simp only [Grammar.defaultValue, readable_orElse, readable_bind, readable_pure] at h
  rcases h with ⟨-, -, value, hvalue, rfl⟩ | rfl
  · exact .left (.blank (.mark .equals (.blank (spells_value true hvalue).map)))
  · exact .right .pure

theorem startsApart_default (v : Option Value) : startsApart (Printer.defaultPart v) := by
  cases v <;> rfl

theorem spells_variableDefinition {d : VariableDefinition}
    (h : Readable Grammar.variableDefinition d) :
    Spells (Printer.variableDefinition d) Grammar.variableDefinition d := by
  simp only [Grammar.variableDefinition, readable_bind, readable_pure] at h
  obtain ⟨var, hvar, -, -, type, htype, value, hvalue, rfl⟩ := h
  simp only [Printer.variableDefinition, List.append_assoc]
  exact (spells_variableUse hvar).bind (.mark .colon (.blank ((spells_typeExpr htype).bind
    (spells_defaultValue hvalue).map (startsApart_default value)))) rfl

theorem spells_optionalName {n : Option Name} (h : ∀ m ∈ n, Readable Grammar.name m) :
    Spells ((n.map Printer.name).getD []) ((return some (← Grammar.name)) <|> (return none)) n := by
  cases n with
  | none => exact .right .pure
  | some m => exact .left (spells_name (h m rfl)).map

theorem spells_operationDefinition {d : OperationDefinition}
    (h : Readable Grammar.operationDefinition d) :
    Spells (Printer.operationDefinition d) Grammar.operationDefinition d := by
  simp only [Grammar.operationDefinition, readable_orElse, readable_bind, readable_pure] at h
  rcases h with ⟨set, hset, rfl⟩ | ⟨kind, -, n, hn, vs, hvs, ds, hds, set, hset, rfl⟩
  · exact .left (spells_selectionSet set hset).map
  · rw [Printer.operationDefinition]
    split
    · -- What is printed without its keyword is read by the first of the two forms.
      next hshorthand =>
        simp only [Printer.isShorthand, Bool.and_eq_true, decide_eq_true_eq, Option.isNone_iff_eq_none,
          List.isEmpty_iff] at hshorthand
        obtain ⟨⟨⟨rfl, rfl⟩, rfl⟩, rfl⟩ := hshorthand
        exact .left (spells_selectionSet set hset).map
    · have hname : ∀ m ∈ n, Readable Grammar.name m := by
        rintro m hm
        rcases hn with ⟨other, hother, rfl⟩ | rfl
        · cases hm
          exact hother
        · cases hm
      have hvariables : Spells (Printer.parenthesized (vs.map Printer.variableDefinition))
          (Grammar.parenthesized Grammar.variableDefinition) vs :=
        .parenthesized fun v hv => spells_variableDefinition (readable_parenthesized hvs v hv)
      have hkeyword : kind.keyword.toList ≠ [] := by cases kind <;> decide
      rw [words_eq hkeyword]
      exact .right (spells_operationKind.bind ((spells_optionalName hname).spacedPair hvariables
        (startsApart_parenthesized _) (.spaced (spells_directives hds)
          (.spaced (spells_selectionSet set hset) .pure))) (startsApart_spaced _))

theorem spells_fragmentDefinition {d : FragmentDefinition}
    (h : Readable Grammar.fragmentDefinition d) :
    Spells (Printer.fragmentDefinition d) Grammar.fragmentDefinition d := by
  simp only [Grammar.fragmentDefinition, readable_bind, readable_pure] at h
  obtain ⟨-, -, n, hn, -, -, type, htype, ds, hds, set, hset, rfl⟩ := h
  rw [Printer.fragmentDefinition, words_eq (by simp)]
  simp only [List.append_assoc]
  exact .keyword (word_keyword (by decide) (by decide)) (.blank ((spells_nameBut hn).bind
    (.blank (.keyword word_on (.blank ((spells_namedType htype).bind (.spaced (spells_directives hds)
      (.spaced (spells_selectionSet set hset) .pure)) (startsApart_spaced _))) rfl)) rfl)) rfl

end GraphQL
