import Mathlib
import GraphQL.Proofs.Coercion.Provided
import GraphQL.Proofs.Schema.Guarantees

/-!
# Literals that are checked and literals that have values

Validation checks a literal, and execution reads it: two recursions over the literal and its
type.  For a literal without variables they agree in one direction: what passes the check has a
value (`Literal.exists_coerce?_of_problems_eq_nil`).  The check is stricter than the reading in two
ways, both about the objects in the literal (`Literal.problems_eq_nil_iff`).  An object may give
fields that its type does not know (`Literal.NamesUnknown`), which the reading passes over.  And it
may leave a field to its default although null may not stand there (`Literal.LeavesToDefault`):
the reading fills the default in, and the check takes the field for null.  Of literals that name
no unknown field and have values, those that pass are the ones that leave no such field out
(`Literal.problems_eq_nil_iff_of_coerce?`).
-/

namespace GraphQL

variable {schema : Schema}

namespace Literal

variable {bindings : Option Json.Members} {literal : Value} {type : TypeRef}

/-! ## Parts of literals -/

/-- A part of a literal, and the type that is expected there.  Of several fields of one name only
the first counts. -/
inductive Part (schema : Schema) : Value → TypeRef → Value → TypeRef → Prop
  | self (literal : Value) (type : TypeRef) : Part schema literal type literal type
  | item {items : List Value} {span : Option Span} {item expected : TypeRef} {nullable : Bool}
      {literal part : Value} (hmem : literal ∈ items) (h : Part schema literal item part expected) :
      Part schema (.list items span) (.list item nullable) part expected
  | field {fields : List ObjectField} {span : Option Span} {type expected : TypeRef}
      {d : InputObjectDef} {f : ObjectField} {name : String} {field : InputDef} {part : Value}
      (hd : schema.inputObject? type.innermostName = some d)
      (hf : fields.find? (·.name.text = name) = some f)
      (hfield : Assoc.get? d.fields name = some field)
      (h : Part schema f.value field.type part expected) :
      Part schema (.object fields span) type part expected

/-- The object has a field that its type does not know. -/
inductive NamesUnknown (schema : Schema) : Value → TypeRef → Prop
  | intro {fields : List ObjectField} {span : Option Span} {type : TypeRef} {d : InputObjectDef}
      {f : ObjectField} (hd : schema.inputObject? type.innermostName = some d) (hf : f ∈ fields)
      (h : Assoc.contains d.fields f.name.text = false) :
      NamesUnknown schema (.object fields span) type

/-- The object leaves out a field that may not be null, and that has a default. -/
inductive LeavesToDefault (schema : Schema) : Value → TypeRef → Prop
  | intro {fields : List ObjectField} {span : Option Span} {type : TypeRef} {d : InputObjectDef}
      {name : String} {field : InputDef}
      (hd : schema.inputObject? type.innermostName = some d) (hfield : (name, field) ∈ d.fields)
      (hleft : fields.find? (·.name.text = name) = none) (hnonNull : field.type.isNonNull)
      (hdefault : field.defaultValue.isSome) : LeavesToDefault schema (.object fields span) type

/-- What the check is stricter about does not occur in the literal. -/
def Plain (schema : Schema) (literal : Value) (type : TypeRef) : Prop :=
  ∀ part expected, Part schema literal type part expected →
    ¬ NamesUnknown schema part expected ∧ ¬ LeavesToDefault schema part expected

theorem plain_list_iff {items : List Value} {span : Option Span} {item : TypeRef}
    {nullable : Bool} :
    Plain schema (.list items span) (.list item nullable) ↔
      ∀ literal ∈ items, Plain schema literal item := by
  refine ⟨fun h literal hmem part expected hpart => h part expected (.item hmem hpart),
    fun h part expected hpart => ?_⟩
  cases hpart with
  | self => exact ⟨nofun, nofun⟩
  | item hmem hpart => exact h _ hmem part expected hpart

theorem plain_object_iff {fields : List ObjectField} {span : Option Span} {d : InputObjectDef}
    (hd : schema.inputObject? type.innermostName = some d) :
    Plain schema (.object fields span) type ↔
      (∀ f ∈ fields, Assoc.contains d.fields f.name.text) ∧
      ∀ entry ∈ d.fields,
        (fields.find? (·.name.text = entry.1) = none → entry.2.type.isNonNull →
          entry.2.defaultValue = none) ∧
        ∀ f field, fields.find? (·.name.text = entry.1) = some f →
          Assoc.get? d.fields entry.1 = some field → Plain schema f.value field.type := by
  constructor
  · intro h
    obtain ⟨hknown, hgiven⟩ := h _ type (.self _ type)
    refine ⟨fun f hf => ?_, fun entry hentry => ⟨fun hleft hnonNull => ?_, fun f field hf hfield => ?_⟩⟩
    · by_contra hunknown
      exact hknown (.intro hd hf (by simpa using hunknown))
    · by_contra hdefault
      exact hgiven (.intro hd hentry hleft hnonNull (Option.isSome_iff_ne_none.mpr hdefault))
    · exact fun part expected hpart => h part expected (.field hd hf hfield hpart)
  · rintro ⟨hknown, hentries⟩ part expected hpart
    cases hpart with
    | self =>
        refine ⟨?_, ?_⟩
        · rintro ⟨hd', hf, hunknown⟩
          obtain rfl := Option.some.inj (hd.symm.trans hd')
          simp [hknown _ hf] at hunknown
        · rintro ⟨hd', hentry, hleft, hnonNull, hdefault⟩
          obtain rfl := Option.some.inj (hd.symm.trans hd')
          exact Option.isSome_iff_ne_none.mp hdefault ((hentries _ hentry).1 hleft hnonNull)
    | field hd' hf hfield hpart =>
        obtain rfl := Option.some.inj (hd.symm.trans hd')
        exact (hentries _ (Assoc.mem_of_get? hfield)).2 _ _ hf hfield part expected hpart

/-- Only lists and objects have parts other than themselves. -/
theorem plain_of_leaf (hlist : ∀ items span item nullable, literal = .list items span →
      type ≠ .list item nullable)
    (hobject : ∀ fields span, literal = .object fields span →
      schema.inputObject? type.innermostName = none) : Plain schema literal type := by
  intro part expected hpart
  cases hpart with
  | self =>
      refine ⟨?_, ?_⟩
      · rintro ⟨hd, -, -⟩
        exact absurd (hobject _ _ rfl) (by simp [hd])
      · rintro ⟨hd, -, -, -, -⟩
        exact absurd (hobject _ _ rfl) (by simp [hd])
  | item => exact absurd rfl (hlist _ _ _ _ rfl)
  | field hd => exact absurd (hobject _ _ rfl) (by simp [hd])

theorem isRegular_of_areRegular {items : List Value} (h : areRegular schema items type) :
    ∀ literal ∈ items, isRegular schema literal type := by
  induction items with
  | nil => simp
  | cons item rest ih =>
      rw [areRegular, Bool.and_eq_true] at h
      exact List.forall_mem_cons.mpr ⟨h.1, ih h.2⟩

theorem Part.regular {part : Value} {expected : TypeRef}
    (h : Part schema literal type part expected) :
    isRegular schema literal type → isRegular schema part expected := by
  induction h with
  | self => exact id
  | @item items span item expected nullable literal part hmem _ ih =>
      intro hregular
      rw [isRegular] at hregular
      exact ih (isRegular_of_areRegular hregular _ hmem)
  | @field fields span type expected d f name field part hd hf hfield _ ih =>
      intro hregular
      simp only [isRegular, hd, Bool.and_eq_true] at hregular
      obtain ⟨found, hfound, hregular⟩ :=
        exists_of_fieldsAreRegular hregular.2 f (List.mem_of_find?_eq_some hf)
      obtain rfl : f.name.text = name := by simpa using List.find?_some hf
      obtain rfl := Option.some.inj (hfield.symm.trans hfound)
      exact ih hregular

/-- The objects in a regular literal name known fields only. -/
theorem not_namesUnknown_of_isRegular {part : Value} {expected : TypeRef}
    (hregular : isRegular schema literal type) (h : Part schema literal type part expected) :
    ¬ NamesUnknown schema part expected := by
  have hpart := h.regular hregular
  rintro ⟨hd, hf, hunknown⟩
  simp only [isRegular, hd, Bool.and_eq_true] at hpart
  obtain ⟨found, hfound, -⟩ := exists_of_fieldsAreRegular hpart.2 _ hf
  simp [Assoc.contains, hfound] at hunknown

/-! ## What is read and what is checked, field by field -/

theorem get?_readFields_eq_find? {fields : List ObjectField} {table : List (String × InputDef)}
    {name : String} {field : InputDef} (hfield : Assoc.get? table name = some field) :
    Assoc.get? (readFields schema bindings fields table) name =
      (fields.find? (·.name.text = name)).map (read schema bindings ·.value field.type) := by
  induction fields with
  | nil => rfl
  | cons f rest ih =>
      obtain ⟨key, literal, span⟩ := f
      rw [readFields, Assoc.get?_cons]
      by_cases hkey : key.text = name
      · subst hkey
        simp [hfield]
      · simp [hkey, ih]

theorem get?_fieldProblems_eq_find? {fields : List ObjectField} {table : List (String × InputDef)}
    {name : String} {field : InputDef} (hfield : Assoc.get? table name = some field) :
    Assoc.get? (fieldProblems schema fields table) name =
      (fields.find? (·.name.text = name)).map (problems schema ·.value field.type) := by
  induction fields with
  | nil => rfl
  | cons f rest ih =>
      obtain ⟨key, literal, span⟩ := f
      rw [fieldProblems, Assoc.get?_cons]
      by_cases hkey : key.text = name
      · subst hkey
        simp [hfield]
      · simp [hkey, ih]

theorem unknownFieldProblems_eq_nil_iff {table : List (String × InputDef)}
    {fields : List ObjectField} :
    unknownFieldProblems table fields = [] ↔
      ∀ f ∈ fields, Assoc.contains table f.name.text := by
  simp [unknownFieldProblems, List.filterMap_eq_nil_iff]

theorem itemProblems_eq_nil_iff {index : ℕ} {items : List Value} :
    itemProblems schema index items type = [] ↔
      ∀ literal ∈ items, problems schema literal type = [] := by
  induction items generalizing index with
  | nil => simp [itemProblems]
  | cons item rest ih => simp [itemProblems, ih]

/-- An object is assembled if each of its fields has a value or needs none. -/
theorem exists_assemble?_iff {readings : List (String × Reading)}
    {table : List (String × InputDef)} :
    (∃ members, assemble? readings table = some members) ↔
      ∀ entry ∈ table,
        (fieldValue? entry.2 ((Assoc.get? readings entry.1).getD .missing)).isSome := by
  induction table with
  | nil => simp [assemble?]
  | cons entry rest ih =>
      obtain ⟨name, field⟩ := entry
      rw [List.forall_mem_cons, ← ih, assemble?]
      cases fieldValue? field ((Assoc.get? readings name).getD .missing) with
      | none => simp
      | some value? => cases assemble? readings rest <;> simp

theorem exists_coerce?_iff :
    (∃ value, coerce? schema bindings literal type = some value) ↔
      ∃ value, read schema bindings literal type = .value value :=
  exists_congr fun _ => ⟨read_of_coerce?, fun h => by rw [coerce?, h, Reading.value?]⟩

/-- A list without variables has a value if all its items have. -/
theorem exists_readItems_iff {items : List Value} (hconst : Value.areConst items) :
    (∃ values, readItems schema bindings items type = some values) ↔
      ∀ literal ∈ items, ∃ value, read schema bindings literal type = .value value := by
  induction items with
  | nil => simp [readItems]
  | cons item rest ih =>
      rw [Value.areConst, Bool.and_eq_true] at hconst
      rw [List.forall_mem_cons, ← ih hconst.2, readItems]
      cases hitem : read schema bindings item type with
      | missing => exact absurd hitem (read_ne_missing_of_isConst hconst.1)
      | invalid => simp
      | value value => cases readItems schema bindings rest type <;> simp

/-- A field of an object without variables has a value if it is given one, or a default, or may be
null. -/
theorem isSome_fieldValue?_iff {fields : List ObjectField} {table : List (String × InputDef)}
    {name : String} {field expected : InputDef} (hconst : Value.fieldsAreConst fields)
    (hexpected : Assoc.get? table name = some expected) :
    (fieldValue? field
        ((Assoc.get? (readFields schema bindings fields table) name).getD .missing)).isSome ↔
      (fields.find? (·.name.text = name) = none → field.type.isNonNull →
        field.defaultValue.isSome) ∧
      ∀ f, fields.find? (·.name.text = name) = some f →
        ∃ value, read schema bindings f.value expected.type = .value value := by
  rw [get?_readFields_eq_find? hexpected]
  cases hf : fields.find? (·.name.text = name) with
  | none =>
      simp only [Option.map_none, Option.getD_none, fieldValue?]
      cases field.defaultValue <;> cases field.type.isNonNull <;> simp
  | some f =>
      have hne : read schema bindings f.value expected.type ≠ .missing :=
        read_ne_missing_of_isConst
          (isConst_of_fieldsAreConst hconst f (List.mem_of_find?_eq_some hf))
      cases hread : read schema bindings f.value expected.type with
      | missing => exact absurd hread hne
      | invalid => simp [hread, fieldValue?]
      | value value => simp [hread, fieldValue?]

/-! ## Literals of scalars and enums -/

theorem leafProblems_eq_nil_iff {name : String} (hinput : schema.isInputRef (.ofName name)) :
    leafProblems schema literal name = [] ↔
      ∃ value, readLeaf schema literal name = .value value := by
  refine ⟨exists_of_leafProblems hinput, fun ⟨value, hvalue⟩ => ?_⟩
  unfold readLeaf at hvalue
  unfold leafProblems
  cases ht : schema.type? name with
  | none => rfl
  | some t =>
      cases hbody : t.body with
      | scalar d =>
          cases hread : d.ofLiteral t.name literal <;>
            simp_all [TypeDef.ofLiteral?]
      | enum d =>
          cases hread : d.ofLiteral t.name literal <;>
            simp_all [TypeDef.ofLiteral?]
      | inputObject d => simp [ht, hbody, TypeDef.ofLiteral?] at hvalue
      | _ => simp [hbody]

/-- The check agrees with the reading on a literal that is left to its named type. -/
theorem problems_eq_nil_iff_of_leaf (hinput : schema.isInputRef type)
    (hread : read schema bindings literal type =
      (readLeaf schema literal type.innermostName).map type.wrap)
    (hproblems : problems schema literal type = leafProblems schema literal type.innermostName)
    (hplain : Plain schema literal type) :
    problems schema literal type = [] ↔
      (∃ value, read schema bindings literal type = .value value) ∧
        Plain schema literal type := by
  rw [hproblems, leafProblems_eq_nil_iff hinput, hread, and_iff_left hplain]
  cases readLeaf schema literal type.innermostName <;> simp [Reading.map]

/-! ## All literals without variables -/

/-- The check passes the literal if it has a value and is plain, whatever type is expected. -/
def Agrees (schema : Schema) (bindings : Option Json.Members) (literal : Value) : Prop :=
  ∀ type, schema.isInputRef type →
    (problems schema literal type = [] ↔
      (∃ value, read schema bindings literal type = .value value) ∧ Plain schema literal type)

theorem agrees_list {items : List Value} {span : Option Span} (hconst : Value.areConst items)
    (h : ∀ literal ∈ items, Agrees schema bindings literal) :
    Agrees schema bindings (.list items span) := by
  intro type hinput
  cases type with
  | named name nullable =>
      exact problems_eq_nil_iff_of_leaf hinput (by rw [read] <;> simp) (by rw [problems] <;> simp)
        (plain_of_leaf nofun nofun)
  | list item nullable =>
      have hvalue : (∃ value, read schema bindings (.list items span) (.list item nullable) =
          .value value) ↔ ∃ values, readItems schema bindings items item = some values := by
        rw [read]
        cases readItems schema bindings items item <;> simp [Reading.ofOption]
      rw [problems, itemProblems_eq_nil_iff, hvalue, exists_readItems_iff hconst, plain_list_iff,
        ← forall₂_and]
      exact forall₂_congr fun literal hmem => h literal hmem item hinput

theorem agrees_object (hinputs : schema.FieldsAreInputs) {fields : List ObjectField}
    {span : Option Span} (hconst : Value.fieldsAreConst fields)
    (h : ∀ f ∈ fields, Agrees schema bindings f.value) :
    Agrees schema bindings (.object fields span) := by
  intro type hinput
  cases hd : schema.inputObject? type.innermostName with
  | none =>
      exact problems_eq_nil_iff_of_leaf hinput (by rw [read, hd]) (by rw [problems, hd])
        (plain_of_leaf nofun fun _ _ _ => hd)
  | some d =>
      have hvalue : (∃ value, read schema bindings (.object fields span) type = .value value) ↔
          ∃ members,
            assemble? (readFields schema bindings fields d.fields) d.fields = some members := by
        simp only [read, hd]
        cases assemble? (readFields schema bindings fields d.fields) d.fields <;>
          simp [Reading.ofOption]
      have hproblems : problems schema (.object fields span) type = [] ↔
          (∀ f ∈ fields, Assoc.contains d.fields f.name.text) ∧
            ∀ entry ∈ d.fields, ((Assoc.get? (fieldProblems schema fields d.fields) entry.1).getD
              (omittedProblems entry.2.type)) = [] := by
        rw [problems, hd]
        simp only [List.append_eq_nil_iff, unknownFieldProblems_eq_nil_iff,
          List.flatMap_eq_nil_iff, List.map_eq_nil_iff]
      rw [hproblems, hvalue, exists_assemble?_iff, plain_object_iff hd, and_left_comm,
        ← forall₂_and]
      -- What is left to compare is one field of the type, which is given or left out.
      refine and_congr_right fun _ => forall₂_congr fun entry hentry => ?_
      obtain ⟨expected, hexpected⟩ : ∃ expected, Assoc.get? d.fields entry.1 = some expected :=
        Option.isSome_iff_exists.mp (Assoc.get?_isSome_iff.mpr (List.mem_map_of_mem hentry))
      rw [isSome_fieldValue?_iff hconst hexpected, get?_fieldProblems_eq_find? hexpected]
      cases hf : fields.find? (·.name.text = entry.1) with
      | none =>
          simp only [Option.map_none, Option.getD_none, omittedProblems]
          cases entry.2.type.isNonNull <;> cases entry.2.defaultValue <;> simp
      | some f =>
          have hagrees := h f (List.mem_of_find?_eq_some hf) expected.type
            (hinputs _ d hd _ (Assoc.mem_of_get? hexpected))
          simp [hexpected, hagrees]

mutual

theorem agrees_of_isConst (hinputs : schema.FieldsAreInputs) :
    ∀ {literal : Value}, literal.isConst → Agrees schema bindings literal
  | .var v, h => by cases h
  | .null span, _ => by
      intro type _
      have hplain : Plain schema (.null span) type :=
        plain_of_leaf (fun _ _ _ _ h => by cases h) fun _ _ h => by cases h
      rw [problems, read, and_iff_left hplain, omittedProblems]
      cases hnullable : type.isNullable <;> simp [TypeRef.isNonNull, hnullable]
  | .list items span, h => agrees_list h (agrees_of_areConst hinputs h)
  | .object fields span, h => agrees_object hinputs h (agrees_of_fieldsAreConst hinputs h)
  | .int text span, _ => fun type hinput =>
      problems_eq_nil_iff_of_leaf hinput (by rw [read] <;> simp) (by rw [problems] <;> simp)
        (plain_of_leaf nofun nofun)
  | .float text span, _ => fun type hinput =>
      problems_eq_nil_iff_of_leaf hinput (by rw [read] <;> simp) (by rw [problems] <;> simp)
        (plain_of_leaf nofun nofun)
  | .string text block span, _ => fun type hinput =>
      problems_eq_nil_iff_of_leaf hinput (by rw [read] <;> simp) (by rw [problems] <;> simp)
        (plain_of_leaf nofun nofun)
  | .boolean b span, _ => fun type hinput =>
      problems_eq_nil_iff_of_leaf hinput (by rw [read] <;> simp) (by rw [problems] <;> simp)
        (plain_of_leaf nofun nofun)
  | .enum name span, _ => fun type hinput =>
      problems_eq_nil_iff_of_leaf hinput (by rw [read] <;> simp) (by rw [problems] <;> simp)
        (plain_of_leaf nofun nofun)

theorem agrees_of_areConst (hinputs : schema.FieldsAreInputs) :
    ∀ {items : List Value}, Value.areConst items →
      ∀ literal ∈ items, Agrees schema bindings literal
  | [], _ => by simp
  | item :: rest, h => by
      rw [Value.areConst, Bool.and_eq_true] at h
      exact List.forall_mem_cons.mpr
        ⟨agrees_of_isConst hinputs h.1, agrees_of_areConst hinputs h.2⟩

theorem agrees_of_fieldsAreConst (hinputs : schema.FieldsAreInputs) :
    ∀ {fields : List ObjectField}, Value.fieldsAreConst fields →
      ∀ f ∈ fields, Agrees schema bindings f.value
  | [], _ => by simp
  | ⟨key, literal, span⟩ :: rest, h => by
      rw [Value.fieldsAreConst, Bool.and_eq_true] at h
      exact List.forall_mem_cons.mpr
        ⟨agrees_of_isConst hinputs h.1, agrees_of_fieldsAreConst hinputs h.2⟩

end

/-- A literal without variables passes the check if it has a value, and none of the objects in it
names a field that its type does not know, or leaves a field to its default that may not be
null. -/
theorem problems_eq_nil_iff (hinputs : schema.FieldsAreInputs) (hinput : schema.isInputRef type)
    (hconst : literal.isConst) (bindings : Option Json.Members) :
    problems schema literal type = [] ↔
      (∃ value, coerce? schema bindings literal type = some value) ∧ Plain schema literal type := by
  rw [exists_coerce?_iff]
  exact agrees_of_isConst hinputs hconst type hinput

section

variable {draft : Schema.Draft} (hbuild : draft.build = .ok schema)
  (hinput : schema.isInputRef type) (hconst : literal.isConst)
include hbuild hinput hconst

/-- In a schema that is built, a literal without variables that passes the check has a value. -/
theorem exists_coerce?_of_problems_eq_nil (h : problems schema literal type = [])
    (bindings : Option Json.Members) :
    ∃ value, coerce? schema bindings literal type = some value :=
  ((problems_eq_nil_iff (Schema.fieldsAreInputs_of_build hbuild) hinput hconst bindings).mp h).1

/-- A literal without variables that has a value, and in which no object names a field that its
type does not know, passes the check unless an object in it leaves a field to its default that may
not be null. -/
theorem problems_eq_nil_iff_of_coerce? {value : Json}
    (hknown : ∀ part expected, Part schema literal type part expected →
      ¬ NamesUnknown schema part expected)
    (h : coerce? schema bindings literal type = some value) :
    problems schema literal type = [] ↔
      ∀ part expected, Part schema literal type part expected →
        ¬ LeavesToDefault schema part expected := by
  rw [problems_eq_nil_iff (Schema.fieldsAreInputs_of_build hbuild) hinput hconst bindings,
    and_iff_right ⟨value, h⟩]
  exact forall₃_congr fun part expected hpart => and_iff_right (hknown part expected hpart)

end

/-! ## An example -/

/-- Pages of a list: how many items they have, and in what order. -/
def pageDraft : Schema.Draft where
  query := {
    name := "Query"
    origin := .host 0
    body := .object { fields := FieldDef.table [{
      name := "items"
      type := .named Scalar.intName true
      arguments := InputDef.table [{ name := "page", type := .named "Page" true }] }] } }
  types := [
    { name := "Page"
      origin := .host 1
      body := .inputObject { fields := InputDef.table [
        { name := "size", type := .named Scalar.intName false, defaultValue := some (.int 20) },
        { name := "order", type := .list (.named "Order" false) false }] } },
    { name := "Order"
      origin := .host 2
      body := .enum { values := EnumValueDef.table [.named "NAME" none, .named "DATE" none] } }]

@[irreducible] def pageSchema : Schema := pageDraft.built (by decide +kernel)

theorem build_pageDraft : pageDraft.build = .ok pageSchema := by
  unfold pageSchema
  exact Schema.Draft.build_eq_ok_built _ _

/-- The literal `{size: 5, order: NAME}`. -/
def firstPage : Value :=
  .object [⟨⟨"size", none⟩, .int "5" none, none⟩, ⟨⟨"order", none⟩, .enum "NAME" none, none⟩] none

theorem exists_coerce?_firstPage :
    ∃ value, coerce? pageSchema none firstPage (.named "Page" true) = some value :=
  exists_coerce?_of_problems_eq_nil build_pageDraft (by decide +kernel) rfl (by decide +kernel) none

/-- The literal `{order: NAME}`, which leaves the size to its default. -/
def wholePage : Value := .object [⟨⟨"order", none⟩, .enum "NAME" none, none⟩] none

/-- The page has a value and is refused, because of the size. -/
theorem leavesToDefault_wholePage :
    (coerce? pageSchema none wholePage (.named "Page" true)).isSome ∧
      problems pageSchema wholePage (.named "Page" true) ≠ [] ∧
      ∃ part expected, Part pageSchema wholePage (.named "Page" true) part expected ∧
        LeavesToDefault pageSchema part expected := by
  have hvalue : (coerce? pageSchema none wholePage (.named "Page" true)).isSome := by
    decide +kernel
  have hproblems : problems pageSchema wholePage (.named "Page" true) ≠ [] := by decide +kernel
  refine ⟨hvalue, hproblems, ?_⟩
  by_contra hnone
  push Not at hnone
  obtain ⟨value, hvalue⟩ := Option.isSome_iff_exists.mp hvalue
  refine hproblems ((problems_eq_nil_iff_of_coerce? build_pageDraft (by decide +kernel) rfl
    (fun part expected => ?_) hvalue).mpr hnone)
  exact not_namesUnknown_of_isRegular (by decide +kernel)

end Literal

end GraphQL
