import GraphQL.Proofs.Document.Acceptance
import GraphQL.Proofs.Document.RoundTrip
import GraphQL.Proofs.Token.Numbers
import GraphQL.Schema.TypeRef

/-!
# Values and types made by hand

A tree that no text was read as can have any text for a name or a number.  If all of them are
grammatical (`Value.Grammatical`) and no more values are within one another than the reader allows
(`Value.nesting`), then the tree is readable, so its printed text spells it, and is read as it
(`literals_reparse`).  Nothing is asked of strings: any character is written in some way.
-/

namespace GraphQL

open Token

/-! ## Grammatical values -/

/-- The names and the numbers in the value are grammatical, and no enum value is written as what
is another value. -/
inductive Value.Grammatical : Value → Prop
  | var {v} : isName v.name.text.toList → Grammatical (.var v)
  | int {text span} : IsInt text.toList → Grammatical (.int text span)
  | float {text span} : IsFloat text.toList → Grammatical (.float text span)
  | string {value block span} : Grammatical (.string value block span)
  | boolean {value span} : Grammatical (.boolean value span)
  | null {span} : Grammatical (.null span)
  | enum {name span} : isName name.toList → name ∉ ["true", "false", "null"] →
      Grammatical (.enum name span)
  | list {items span} : (∀ item ∈ items, Grammatical item) → Grammatical (.list items span)
  | object {fields span} : (∀ f ∈ fields, isName f.name.text.toList) →
      (∀ f ∈ fields, Grammatical f.value) → Grammatical (.object fields span)

mutual

/-- How many values are within one another; one, if there is no value in this one. -/
def Value.nesting : Value → ℕ
  | .list items _ => nestingItems items + 1
  | .object fields _ => nestingFields fields + 1
  | _ => 1

def nestingItems : List Value → ℕ
  | [] => 0
  | item :: rest => max item.nesting (nestingItems rest)

def nestingFields : List ObjectField → ℕ
  | [] => 0
  | ⟨_, value, _⟩ :: rest => max value.nesting (nestingFields rest)

end

section

variable {item v : Value} {items : List Value} {f : ObjectField} {fields : List ObjectField}

theorem nesting_le_of_mem_items (h : item ∈ items) : item.nesting ≤ nestingItems items := by
  induction h with
  | head => exact Nat.le_max_left _ _
  | tail _ _ ih => exact ih.trans (Nat.le_max_right _ _)

theorem nestingFields_cons (f : ObjectField) (rest : List ObjectField) :
    nestingFields (f :: rest) = max f.value.nesting (nestingFields rest) := by
  obtain ⟨name, value, span⟩ := f
  rfl

theorem nesting_le_of_mem_fields (h : f ∈ fields) : f.value.nesting ≤ nestingFields fields := by
  induction h with
  | head rest =>
      rw [nestingFields_cons]
      exact Nat.le_max_left _ _
  | tail other _ ih =>
      rw [nestingFields_cons]
      exact ih.trans (Nat.le_max_right _ _)

theorem Value.nesting_pos (v : Value) : 0 < v.nesting := by
  cases v <;> simp [Value.nesting]

end

/-! ## Readable values -/

section

variable {α : Type} {item : Grammar α} {a : α} {as : List α}

theorem readable_of_mark (p : Punctuator) : Readable (Grammar.mark p) () :=
  readable_token.mpr ⟨.punctuator p, trivial, if_pos rfl⟩

theorem readable_row_of (close : Punctuator) (h : ∀ a ∈ as, Readable item a) :
    Readable (Grammar.row close item) as := by
  have hmany : Readable (Grammar.many item : Grammar (List α)) as := by
    induction as with
    | nil => exact ⟨[], .nil, nofun⟩
    | cons a as ih =>
        obtain ⟨first, hfirst, hgenuine⟩ := h a (.head _)
        obtain ⟨rest, hrest, hgenuine'⟩ := ih fun b hb => h b (.tail _ hb)
        exact ⟨first ++ rest, .cons hfirst hrest, fun kind hkind =>
          (List.mem_append.mp hkind).elim (hgenuine kind) (hgenuine' kind)⟩
  exact readable_bind.mpr ⟨as, hmany, readable_bind.mpr ⟨(), readable_of_mark close,
    readable_pure.mpr rfl⟩⟩

end

section

variable {text : String}

theorem genuine_int (h : IsInt text.toList) : (TokenKind.int text).Genuine := by
  obtain ⟨sign, whole, hnumber, htext⟩ := h
  have hgenuine := genuine_numberKind hnumber
  simp only [numberKind, List.append_nil, List.length_nil, if_true] at hgenuine
  rwa [← htext, String.ofList_toList] at hgenuine

theorem genuine_float (h : IsFloat text.toList) : (TokenKind.float text).Genuine := by
  obtain ⟨sign, whole, fraction, exponent, hnumber, hne, htext⟩ := h
  have hlength : fraction.length + exponent.length ≠ 0 := by
    rw [← List.length_append]
    exact mt List.eq_nil_of_length_eq_zero hne
  have hgenuine := genuine_numberKind hnumber
  simp only [numberKind, if_neg hlength] at hgenuine
  rwa [← htext, String.ofList_toList] at hgenuine

/-- A name that is a word of its own is the text of the token for that word. -/
theorem readable_name (h : isName text.toList) : Readable Grammar.name { text } := by
  refine readable_token.mpr ⟨ofName text, ?_, ?_⟩
  · have hgenuine := genuine_ofName h
    rwa [String.ofList_toList] at hgenuine
  · unfold ofName
    split
    · next htrue => rw [htrue]; rfl
    split
    · next hfalse => rw [hfalse]; rfl
    split
    · next hnull => rw [hnull]; rfl
    · rfl

theorem readable_literal {kind : TokenKind} {v : Value} {depth : ℕ} (hgenuine : kind.Genuine)
    (hread : Grammar.literal? kind = some v) : Readable (Grammar.value false (depth + 1)) v :=
  readable_orElse.mpr (.inl (readable_token.mpr ⟨kind, hgenuine, hread⟩))

end

/-- A grammatical value is readable, with as many levels as it takes. -/
theorem Value.Grammatical.readable {v : Value} (h : v.Grammatical) {depth : ℕ}
    (hdepth : v.nesting ≤ depth) : Readable (Grammar.value false depth) v.bare := by
  induction depth generalizing v with
  | zero => exact absurd (v.nesting_pos.trans_le hdepth) (lt_irrefl 0)
  | succ depth ih =>
      cases h with
      | @var v hname =>
          have hvar : Readable Grammar.variableUse v.bare :=
            readable_bind.mpr ⟨(), readable_of_mark .dollar, readable_bind.mpr
              ⟨_, readable_name hname, readable_pure.mpr rfl⟩⟩
          exact readable_orElse.mpr (.inr (readable_orElse.mpr (.inl
            (readable_bind.mpr ⟨v.bare, hvar, readable_pure.mpr rfl⟩))))
      | int hint => exact readable_literal (genuine_int hint) rfl
      | float hfloat => exact readable_literal (genuine_float hfloat) rfl
      | @string value =>
          exact readable_literal (show (TokenKind.string value).Genuine from trivial) rfl
      | @boolean value =>
          exact readable_literal (show (TokenKind.boolean value).Genuine from trivial) rfl
      | null => exact readable_literal (show TokenKind.null.Genuine from trivial) rfl
      | @enum name span hname hother =>
          have hkind : ofName name = .name name := by
            simp only [List.mem_cons, List.not_mem_nil, or_false, not_or] at hother
            rw [ofName, if_neg hother.1, if_neg hother.2.1, if_neg hother.2.2]
          have hgenuine : (TokenKind.name name).Genuine := word_keyword hname hkind
          exact readable_literal hgenuine rfl
      | @list items span hitems =>
          have hrow : Readable (Grammar.row .bracketClose (Grammar.value false depth))
              (items.map Value.bare) := by
            refine readable_row_of _ (List.forall_mem_map.mpr fun item hitem => ?_)
            exact ih (hitems item hitem)
              ((nesting_le_of_mem_items hitem).trans (Nat.le_of_succ_le_succ hdepth))
          rw [Value.bare, bareItems_eq]
          exact readable_orElse.mpr (.inr (readable_orElse.mpr (.inr (readable_orElse.mpr (.inl
            (readable_bind.mpr ⟨(), readable_of_mark .bracketOpen, readable_bind.mpr
              ⟨_, hrow, readable_pure.mpr rfl⟩⟩))))))
      | @object fields span hnames hvalues =>
          have hrow : Readable (Grammar.row .braceClose
              (Grammar.objectField (Grammar.value false depth))) (fields.map ObjectField.bare) := by
            refine readable_row_of _ (List.forall_mem_map.mpr fun f hf => ?_)
            have hvalue : Readable (Grammar.value false depth) f.value.bare := ih (hvalues f hf)
              ((nesting_le_of_mem_fields hf).trans (Nat.le_of_succ_le_succ hdepth))
            exact readable_bind.mpr ⟨f.name.bare, readable_name (hnames f hf), readable_bind.mpr
              ⟨(), readable_of_mark .colon, readable_bind.mpr
                ⟨f.value.bare, hvalue, readable_pure.mpr rfl⟩⟩⟩
          rw [Value.bare, bareFields_eq]
          exact readable_orElse.mpr (.inr (readable_orElse.mpr (.inr (readable_orElse.mpr (.inr
            (readable_bind.mpr ⟨(), readable_of_mark .braceOpen, readable_bind.mpr
              ⟨_, hrow, readable_pure.mpr rfl⟩⟩))))))

/-! ## Readable types -/

namespace TypeRef

/-- How many lists are within one another. -/
def layers : TypeRef → ℕ
  | named _ _ => 0
  | list item _ => item.layers + 1

variable {t : TypeRef} {depth : ℕ}

/-- A type without its outer mark is readable, so it is with the mark. -/
theorem readable_close {inner : TypeExpr} (h : Readable ((do
      Grammar.mark .bracketOpen
      let item ← Grammar.typeExpr depth
      Grammar.mark .bracketClose
      return .list item none) <|> (return .named (← Grammar.namedType))) inner)
    (nullable : Bool) : Readable (Grammar.typeExpr (depth + 1)) (toExpr.close nullable inner) := by
  refine readable_bind.mpr ⟨inner, h, readable_orElse.mpr ?_⟩
  cases nullable with
  | true => exact .inr (readable_pure.mpr rfl)
  | false => exact .inl (readable_bind.mpr ⟨(), readable_of_mark .bang, readable_pure.mpr rfl⟩)

theorem readable_toExpr (hname : isName t.innermostName.toList) (hdepth : t.layers < depth) :
    Readable (Grammar.typeExpr depth) t.toExpr := by
  obtain ⟨depth, rfl⟩ := Nat.exists_eq_succ_of_ne_zero (Nat.ne_zero_of_lt hdepth)
  induction t generalizing depth with
  | named name nullable =>
      have hnamed : Readable Grammar.namedType { name := { text := name } } :=
        readable_bind.mpr ⟨_, readable_name hname, readable_pure.mpr rfl⟩
      exact readable_close (readable_orElse.mpr (.inr (readable_bind.mpr
        ⟨_, hnamed, readable_pure.mpr rfl⟩))) nullable
  | list item nullable ih =>
      have hlt : item.layers < depth := Nat.lt_of_succ_lt_succ hdepth
      obtain ⟨depth, rfl⟩ := Nat.exists_eq_succ_of_ne_zero (Nat.ne_zero_of_lt hlt)
      have hitem : Readable (Grammar.typeExpr (depth + 1)) item.toExpr := ih hname depth hlt
      exact readable_close (readable_orElse.mpr (.inl (readable_bind.mpr
        ⟨(), readable_of_mark .bracketOpen, readable_bind.mpr ⟨item.toExpr, hitem,
          readable_bind.mpr ⟨(), readable_of_mark .bracketClose, readable_pure.mpr rfl⟩⟩⟩)))
        nullable

theorem toList_text (t : TypeRef) : t.text.toList = Printer.typeExpr t.toExpr := by
  induction t with
  | named name nullable =>
      cases nullable with
      | true => exact congrArg String.toList String.append_empty
      | false => exact String.toList_append
  | list item nullable ih =>
      have hinner : ("[" ++ item.text ++ "]").toList =
          '[' :: Printer.typeExpr item.toExpr ++ [']'] := by
        rw [String.toList_append, String.toList_append, ih]
        rfl
      cases nullable with
      | true => exact (congrArg String.toList String.append_empty).trans hinner
      | false => exact String.toList_append.trans (congrArg (· ++ ['!']) hinner)

theorem ofExpr_bare (t : TypeExpr) : ofExpr t.bare = ofExpr t := by
  induction t with
  | named t => rfl
  | list t span ih => rw [TypeExpr.bare, ofExpr, ofExpr, ih]
  | nonNull t span ih => rw [TypeExpr.bare, ofExpr, ofExpr, ih]

theorem ofExpr_close {inner : TypeExpr} {t : TypeRef} (h : ofExpr inner = .ok (t.withNullable true))
    (nullable : Bool) : ofExpr (toExpr.close nullable inner) = .ok (t.withNullable nullable) := by
  cases nullable with
  | true => exact h
  | false =>
      have hnonNull : (t.withNullable true).nonNull = .ok (t.withNullable false) := by
        cases t <;> rfl
      rw [toExpr.close, if_neg Bool.false_ne_true, ofExpr, h, ← hnonNull]
      rfl

/-- A type is the one it is written as. -/
theorem ofExpr_toExpr (t : TypeRef) : ofExpr t.toExpr = .ok t := by
  induction t with
  | named name nullable => exact ofExpr_close (t := .named name nullable) rfl nullable
  | list item nullable ih =>
      refine ofExpr_close (t := .list item nullable) ?_ nullable
      rw [ofExpr, ih]
      rfl

end TypeRef

/-! ## Reading back -/

/-- A text that spells a tree is read as the tree. -/
theorem Parser.exists_run_of_spells {α β : Type} {p : Parser α} {bare : α → β} {g : Grammar β}
    {F : β → TokenKind → Prop} {text : List Char} {b : β} (hp : Follows p bare g F)
    (hF : ∀ b, F b .eof) (h : Spells text g b) (options : ParseOptions) :
    ∃ a, run (toEnd p) (.ofList text) options = .ok a ∧ bare a = b := by
  obtain ⟨kinds, hkinds, hspelled⟩ := h
  obtain ⟨hclean, hall⟩ := starts_of_spelled options hspelled
  obtain ⟨a, s, hreads, hbare⟩ := exists_reads_toEnd hp hF hclean hall hkinds
  refine ⟨a, ?_, hbare⟩
  rw [run_eq_runTokens]
  exact runTokens_eq_ok_iff.mpr ⟨s, hreads⟩

/-- The text of a grammatical value is read as the value, but for places and block quotes; the
text of a type is read as the type.  Neither may be nested deeper than the reader goes. -/
theorem literals_reparse :
    (∀ v : Value, v.Grammatical → v.nesting ≤ Parser.maxDepth → ∀ options,
      ∃ read, Value.parse v.text options = .ok read ∧ read.bare = v.bare) ∧
    ∀ t : TypeRef, isName t.innermostName.toList → t.layers < Parser.maxDepth →
      TypeRef.parse t.text = .ok t := by
  refine ⟨fun v hv hdepth options => ?_, fun t hname hdepth => ?_⟩
  · have hspells := spells_value false (hv.readable hdepth)
    rw [Printer.value_bare] at hspells
    exact Parser.exists_run_of_spells (Parser.follows_value false Parser.maxDepth)
      (fun _ => trivial) hspells options
  · have hspells := spells_typeExpr (t.readable_toExpr hname hdepth)
    rw [← TypeRef.toList_text] at hspells
    obtain ⟨expr, hrun, hbare⟩ := Parser.exists_run_of_spells
      (Parser.follows_typeExpr Parser.maxDepth) (fun _ _ _ => nofun) hspells {}
    rw [String.ofList_toList] at hrun
    have hparse : TypeExpr.parse t.text {} = .ok expr := hrun
    rw [TypeRef.parse, hparse]
    exact (TypeRef.ofExpr_bare expr).symm.trans (hbare ▸ TypeRef.ofExpr_toExpr t)

/-- Numbers, a variable and a string of awkward characters in a list, and a name that is a word of
its own. -/
def awkwardValue : Value := .object
  [⟨⟨"xs", none⟩, .list [.int "-1" none, .float "0.5e3" none, .var ⟨⟨"x", none⟩, none⟩,
      .string "\"\\\n\x7f" true none] none, none⟩,
    ⟨⟨"null", none⟩, .enum "E" none, none⟩] none

/-- A list that cannot be null, of lists of names. -/
def awkwardType : TypeRef := .list (.list (.named "ID" false) true) false

theorem awkwardValue_grammatical : awkwardValue.Grammatical := by
  refine .object (by simpa using ⟨by decide, by decide⟩) ?_
  rintro f (_ | ⟨_, _ | ⟨_, ⟨⟩⟩⟩)
  · refine .list ?_
    rintro item (_ | ⟨_, _ | ⟨_, _ | ⟨_, _ | ⟨_, ⟨⟩⟩⟩⟩⟩)
    · exact .int (scanNumber_eq_int_iff.mp (show (scanNumber ['-', '1']).1 = .int "-1" by decide)).1
    · exact .float (scanNumber_eq_float_iff.mp
        (show (scanNumber ['0', '.', '5', 'e', '3']).1 = .float "0.5e3" by decide)).1
    · exact .var (by decide)
    · exact .string
  · exact .enum (by decide) (by decide)

theorem literals_reparse_of_awkward :
    awkwardValue.Grammatical ∧ awkwardValue.nesting ≤ Parser.maxDepth ∧
      (∃ read, Value.parse awkwardValue.text {} = .ok read ∧ read.bare = awkwardValue.bare) ∧
      isName awkwardType.innermostName.toList ∧ awkwardType.layers < Parser.maxDepth ∧
      TypeRef.parse awkwardType.text = .ok awkwardType := by
  have hvalue : awkwardValue.nesting ≤ Parser.maxDepth := by decide
  have hname : isName awkwardType.innermostName.toList := by decide
  have htype : awkwardType.layers < Parser.maxDepth := by decide
  exact ⟨awkwardValue_grammatical, hvalue,
    literals_reparse.1 awkwardValue awkwardValue_grammatical hvalue {}, hname, htype,
    literals_reparse.2 awkwardType hname htype⟩

end GraphQL
