import Mathlib
import GraphQL.Coercion.Literal
import GraphQL.Proofs.Rows

/-!
# Literals without variables

A literal without variables is read the same whatever values variables have
(`Literal.read_of_isConst`), and it is never missing (`Literal.read_ne_missing_of_isConst`).
`Literal.isRegular` tells whether the objects in a literal have the fields of their types, each
once.

`Schema.Encloses` says what an input type is made of: a value of an input object holds values of
the types of its fields, and so on.
-/

namespace GraphQL

variable {schema : Schema}

/-! ## What input types are made of -/

theorem TypeDef.body_of_enum? {t : TypeDef} {d : EnumDef} (h : t.enum? = some d) :
    t.body = .enum d := by
  unfold enum? at h
  split at h
  · rw [← Option.some.inj h]
    assumption
  · cases h

namespace Schema

theorem inputObject?_of_scalar {name : String} {t : TypeDef} {d : ScalarDef}
    (ht : schema.type? name = some t) (hbody : t.body = .scalar d) :
    schema.inputObject? name = none := by
  simp [inputObject?, ht, TypeDef.inputObject?, hbody]

/-- A value of the first named type holds, or is, a value of the second one. -/
inductive Encloses (schema : Schema) : String → String → Prop
  | self (name : String) : Encloses schema name name
  | field {name inner : String} {d : InputObjectDef} {entry : String × InputDef}
      (hd : schema.inputObject? name = some d) (hentry : entry ∈ d.fields)
      (h : Encloses schema entry.2.type.innermostName inner) : Encloses schema name inner

/-- The named type is made of the given scalars, of enums and of input objects. -/
def IsMadeOf (schema : Schema) (scalars : List TypeDef) (name : String) : Prop :=
  ∀ inner t, schema.Encloses name inner → schema.type? inner = some t →
    t ∈ scalars ∨ t.enum?.isSome ∨ t.inputObject?.isSome

theorem IsMadeOf.field {scalars : List TypeDef} {name : String} {d : InputObjectDef}
    {entry : String × InputDef} (h : schema.IsMadeOf scalars name)
    (hd : schema.inputObject? name = some d) (hentry : entry ∈ d.fields) :
    schema.IsMadeOf scalars entry.2.type.innermostName :=
  fun inner t hinner => h inner t (.field hd hentry hinner)

/-- A set of names that is closed under fields has all that a type in it is made of. -/
theorem Encloses.mem {names : List String} {name inner : String} (h : schema.Encloses name inner)
    (hname : name ∈ names)
    (hclosed : ∀ name ∈ names, ∀ d, schema.inputObject? name = some d →
      ∀ entry ∈ d.fields, entry.2.type.innermostName ∈ names) : inner ∈ names := by
  induction h with
  | self name => exact hname
  | field hd hentry _ ih => exact ih (hclosed _ hname _ hd _ hentry)

end Schema

namespace Literal

variable {literal : Value} {type : TypeRef} {bindings other : Option Json.Members}

/-! ## Objects in literals -/

mutual

/-- Whether no object in a literal gives a field twice, or one that its type does not have. -/
def isRegular (schema : Schema) : Value → TypeRef → Bool
  | .list items _, .list item _ => areRegular schema items item
  | .object fields _, type =>
    match schema.inputObject? type.innermostName with
    | some d => (fields.map (·.name.text)).Nodup && fieldsAreRegular schema fields d.fields
    | none => true
  | _, _ => true

def areRegular (schema : Schema) : List Value → TypeRef → Bool
  | [], _ => true
  | item :: rest, type => isRegular schema item type && areRegular schema rest type

/-- Whether the fields are all in the table, and their values regular. -/
def fieldsAreRegular (schema : Schema) : List ObjectField → List (String × InputDef) → Bool
  | [], _ => true
  | ⟨name, value, _⟩ :: rest, table =>
    (match Assoc.get? table name.text with
      | some field => isRegular schema value field.type
      | none => false) && fieldsAreRegular schema rest table

end

theorem exists_of_fieldsAreRegular {fields : List ObjectField} {table : List (String × InputDef)}
    (h : fieldsAreRegular schema fields table) :
    ∀ f ∈ fields, ∃ field, Assoc.get? table f.name.text = some field ∧
      isRegular schema f.value field.type := by
  induction fields with
  | nil => exact fun _ hmem => absurd hmem List.not_mem_nil
  | cons f rest ih =>
      obtain ⟨key, literal, span⟩ := f
      rw [fieldsAreRegular, Bool.and_eq_true] at h
      refine List.forall_mem_cons.mpr ⟨?_, ih h.2⟩
      have hfirst := h.1
      split at hfirst
      · exact ⟨_, ‹_›, hfirst⟩
      · cases hfirst

/-! ## Readings of objects -/

theorem exists_of_ofOption {value? : Option Json} {value : Json}
    (h : Reading.ofOption value? = .value value) : value? = some value := by
  cases value? with
  | none => cases h
  | some found => exact congrArg some (by simpa [Reading.ofOption] using h)

theorem read_of_coerce? {value : Json} (h : coerce? schema bindings literal type = some value) :
    read schema bindings literal type = .value value := by
  unfold coerce? at h
  cases hread : read schema bindings literal type with
  | value found => simpa [hread, Reading.value?] using h
  | missing => simp [hread, Reading.value?] at h
  | invalid => simp [hread, Reading.value?] at h

theorem get?_readFields {fields : List ObjectField} {table : List (String × InputDef)}
    {f : ObjectField} {field : InputDef} (hnodup : (fields.map (·.name.text)).Nodup)
    (hmem : f ∈ fields) (hfield : Assoc.get? table f.name.text = some field) :
    Assoc.get? (readFields schema bindings fields table) f.name.text =
      some (read schema bindings f.value field.type) := by
  induction fields with
  | nil => cases hmem
  | cons first rest ih =>
      obtain ⟨key, literal, span⟩ := first
      obtain ⟨hnew, hnodup⟩ := List.nodup_cons.mp hnodup
      rw [readFields, Assoc.get?_cons]
      rcases List.mem_cons.mp hmem with rfl | hmem
      · simp [hfield]
      · rw [if_neg, ih hnodup hmem]
        intro hkey
        exact hnew (List.mem_map.mpr ⟨f, hmem, hkey.symm⟩)

/-- No field of an object that has a value is invalid. -/
theorem ne_invalid_of_assemble? {readings : List (String × Reading)}
    {table : List (String × InputDef)} {members : Json.Members} {entry : String × InputDef}
    {reading : Reading} (h : assemble? readings table = some members) (hentry : entry ∈ table)
    (hreading : Assoc.get? readings entry.1 = some reading) : reading ≠ .invalid := by
  induction table generalizing members with
  | nil => cases hentry
  | cons first rest ih =>
      obtain ⟨name, field⟩ := first
      rw [assemble?] at h
      obtain ⟨value?, hvalue, h⟩ := Option.bind_eq_some_iff.mp h
      obtain ⟨members', hmembers, h⟩ := Option.bind_eq_some_iff.mp h
      rcases List.mem_cons.mp hentry with rfl | hentry
      · rintro rfl
        simp [hreading, fieldValue?] at hvalue
      · exact ih hmembers hentry

/-! ## Literals without variables -/

theorem isConst_of_areConst {items : List Value} (h : Value.areConst items) :
    ∀ literal ∈ items, literal.isConst := by
  induction items with
  | nil => exact fun _ hmem => absurd hmem List.not_mem_nil
  | cons item rest ih =>
      rw [Value.areConst, Bool.and_eq_true] at h
      exact List.forall_mem_cons.mpr ⟨h.1, ih h.2⟩

theorem isConst_of_fieldsAreConst {fields : List ObjectField} (h : Value.fieldsAreConst fields) :
    ∀ f ∈ fields, f.value.isConst := by
  induction fields with
  | nil => exact fun _ hmem => absurd hmem List.not_mem_nil
  | cons f rest ih =>
      obtain ⟨key, literal, span⟩ := f
      rw [Value.fieldsAreConst, Bool.and_eq_true] at h
      exact List.forall_mem_cons.mpr ⟨h.1, ih h.2⟩

/-- Only a variable can be missing. -/
theorem exists_var_of_read_eq_missing (h : read schema bindings literal type = .missing) :
    ∃ v, literal = .var v := by
  have hoption (value? : Option Json) : Reading.ofOption value? ≠ .missing := by
    cases value? <;> simp [Reading.ofOption]
  have hleaf (literal : Value) (name : String) (f : Json → Json) :
      (readLeaf schema literal name).map f ≠ .missing := by
    unfold readLeaf
    split <;> simp [Reading.map]
  cases literal with
  | var v => exact ⟨v, rfl⟩
  | null span =>
      rw [read] at h
      split at h <;> cases h
  | list items span =>
      cases type with
      | list item nullable =>
          rw [read] at h
          exact absurd h (hoption _)
      | named name nullable => exact absurd (by rwa [read] at h <;> simp) (hleaf _ _ _)
  | object fields span =>
      rw [read] at h
      split at h
      · exact absurd h (hoption _)
      · exact absurd h (hleaf _ _ _)
  | _ => exact absurd (by rwa [read] at h <;> simp) (hleaf _ _ _)

theorem read_ne_missing_of_isConst (h : literal.isConst) :
    read schema bindings literal type ≠ .missing := by
  intro hmissing
  obtain ⟨v, rfl⟩ := exists_var_of_read_eq_missing hmissing
  cases h

/-- In an object that has a value, so have all its fields, if none is given twice. -/
theorem exists_read_of_assemble? {fields : List ObjectField} {table : List (String × InputDef)}
    {members : Json.Members} (hconst : Value.fieldsAreConst fields)
    (hnodup : (fields.map (·.name.text)).Nodup)
    (hregular : fieldsAreRegular schema fields table)
    (h : assemble? (readFields schema bindings fields table) table = some members) :
    ∀ f ∈ fields, ∃ field value, Assoc.get? table f.name.text = some field ∧
      read schema bindings f.value field.type = .value value := by
  intro f hmem
  obtain ⟨field, hfield, -⟩ := exists_of_fieldsAreRegular hregular f hmem
  have hvalid := ne_invalid_of_assemble? h (Assoc.mem_of_get? hfield)
    (get?_readFields hnodup hmem hfield)
  have hpresent : read schema bindings f.value field.type ≠ .missing :=
    read_ne_missing_of_isConst (isConst_of_fieldsAreConst hconst f hmem)
  cases hread : read schema bindings f.value field.type with
  | value value => exact ⟨field, value, hfield, hread⟩
  | missing => exact absurd hread hpresent
  | invalid => exact absurd hread hvalid

mutual

/-- A literal without variables has the same value whatever values variables have. -/
theorem read_of_isConst : ∀ {literal : Value} {type : TypeRef}, literal.isConst →
    read schema bindings literal type = read schema other literal type
  | .var v, type, h => by cases h
  | .null span, type, _ => by rw [read, read]
  | .list items span, .list item nullable, h => by
      rw [read, read, readItems_of_areConst h]
  | .list items span, .named name nullable, _ => by rw [read, read] <;> simp
  | .object fields span, type, h => by
      rw [read, read]
      split
      · rw [readFields_of_fieldsAreConst h]
      · rfl
  | .int text span, type, _ => by rw [read, read] <;> simp
  | .float text span, type, _ => by rw [read, read] <;> simp
  | .string text block span, type, _ => by rw [read, read] <;> simp
  | .boolean b span, type, _ => by rw [read, read] <;> simp
  | .enum name span, type, _ => by rw [read, read] <;> simp

theorem readItems_of_areConst : ∀ {items : List Value} {type : TypeRef}, Value.areConst items →
    readItems schema bindings items type = readItems schema other items type
  | [], type, _ => by rw [readItems, readItems]
  | item :: rest, type, h => by
      rw [Value.areConst, Bool.and_eq_true] at h
      rw [readItems, readItems, read_of_isConst h.1, readItems_of_areConst h.2]

theorem readFields_of_fieldsAreConst : ∀ {fields : List ObjectField}
    {table : List (String × InputDef)}, Value.fieldsAreConst fields →
    readFields schema bindings fields table = readFields schema other fields table
  | [], table, _ => by rw [readFields, readFields]
  | ⟨key, literal, span⟩ :: rest, table, h => by
      rw [Value.fieldsAreConst, Bool.and_eq_true] at h
      rw [readFields, readFields, readFields_of_fieldsAreConst h.2]
      split
      · rw [read_of_isConst h.1]
      · rfl

end

end Literal

/-! ## An example -/

/-- The two ways in which a search can be ordered. -/
def orderType : TypeDef where
  name := "Order"
  origin := .host 0
  body := .enum { values := EnumValueDef.table [
    .named "UP" none,
    { name := "DOWN", value := .object [("by", .int (-1))] }] }

/-- What to search for. -/
def filterType : TypeDef where
  name := "Filter"
  origin := .host 1
  body := .inputObject { fields := InputDef.table [
    { name := "limit", type := .named Scalar.intName false, defaultValue := some (.int 10) },
    { name := "tags", type := .list (.list (.named Scalar.stringName false) true) true },
    { name := "order", type := .named "Order" true },
    { name := "inner", type := .named "Filter" true }] }

/-- A schema in which a search can be filtered. -/
def filterSchema : Schema where
  directives := []
  queryType := { name := "Query", origin := .host 2, body := .object { fields := [] } }
  mutationType := none
  subscriptionType := none
  types := [("Order", orderType), ("Filter", filterType), (Scalar.intName, Scalar.int),
    (Scalar.stringName, Scalar.string)]
  possible := []

theorem encloses_filterType {inner : String} (h : filterSchema.Encloses "Filter" inner) :
    inner ∈ filterSchema.types.map (·.1) := by
  refine h.mem (by decide) fun name hname d hd => ?_
  fin_cases hname
  · cases hd
  · cases hd
    decide
  · cases hd
  · cases hd

theorem isMadeOf_filterType {scalars : List TypeDef} (hint : Scalar.int ∈ scalars)
    (hstring : Scalar.string ∈ scalars) : filterSchema.IsMadeOf scalars "Filter" := by
  intro inner t hinner ht
  have hname := encloses_filterType hinner
  fin_cases hname <;> cases ht
  · exact .inr (.inl rfl)
  · exact .inr (.inr rfl)
  · exact .inl hint
  · exact .inl hstring

end GraphQL
