import Mathlib
import GraphQL.Proofs.Coercion.Constants
import GraphQL.Proofs.Coercion.Literals
import GraphQL.Proofs.Coercion.Scalars
import GraphQL.Proofs.Json.Same

/-!
# Values from their literals

Introspection shows a default value by a literal.  For the types that are made of `Int`, `String`,
`Boolean`, `ID`, enums and input objects, the literal of a value reads as that value again
(`Literal.restored_of_coerce?`).  The values are those that literals can have.

Two values of an enum may be represented by values that are equal, as values are compared, but not
the same: the order of the members of an object and the sign of zero do not count.  Then the
literal names the first of them, and what it reads as is only equal to what it was made of.
-/

namespace GraphQL

variable {schema : Schema}

/-! ## Types whose values have literals -/

/-- The values of an enum have their own names, each once, and none is represented by null. -/
structure EnumDef.IsOrderly (d : EnumDef) : Prop where
  nodup : (d.values.map (·.1)).Nodup
  name : ∀ entry ∈ d.values, entry.2.name = entry.1
  isProper : ∀ entry ∈ d.values, entry.2.value.isProper
  ne_null : ∀ entry ∈ d.values, entry.2.value ≠ .null

/-- No two values of an enum are represented by values that are equal but not the same. -/
def EnumDef.IsExact (d : EnumDef) : Prop :=
  ∀ first ∈ d.values, ∀ second ∈ d.values, first.2.value.same second.2.value →
    first.2.value = second.2.value

namespace Literal

/-- The scalars whose values have literals. -/
def restoredScalars : List TypeDef := [Scalar.int, Scalar.string, Scalar.boolean, Scalar.id]

end Literal

namespace Schema

/-- The named type is made of `Int`, `String`, `Boolean`, `ID`, enums and input objects, and the
defaults of the fields of these are values that literals have. -/
structure IsRestored (schema : Schema) (name : String) : Prop where
  madeOf : schema.IsMadeOf Literal.restoredScalars name
  enums : ∀ inner t d, schema.Encloses name inner → schema.type? inner = some t →
    t.enum? = some d → d.IsOrderly
  nodup : ∀ inner d, schema.Encloses name inner → schema.inputObject? inner = some d →
    (d.fields.map (·.1)).Nodup
  defaults : ∀ inner d, schema.Encloses name inner → schema.inputObject? inner = some d →
    ∀ entry ∈ d.fields, ∀ default, entry.2.defaultValue = some default →
      ∃ literal : Value, literal.isConst ∧
        Literal.coerce? schema none literal entry.2.type = some default

/-- All enums that the named type is made of are exact. -/
def HasExactEnums (schema : Schema) (name : String) : Prop :=
  ∀ inner t d, schema.Encloses name inner → schema.type? inner = some t → t.enum? = some d →
    d.IsExact

section

variable {name : String} {d : InputObjectDef} {entry : String × InputDef}

theorem IsRestored.field (h : schema.IsRestored name) (hd : schema.inputObject? name = some d)
    (hentry : entry ∈ d.fields) : schema.IsRestored entry.2.type.innermostName where
  madeOf := h.madeOf.field hd hentry
  enums inner t d' hinner := h.enums inner t d' (.field hd hentry hinner)
  nodup inner d' hinner := h.nodup inner d' (.field hd hentry hinner)
  defaults inner d' hinner := h.defaults inner d' (.field hd hentry hinner)

theorem HasExactEnums.field (h : schema.HasExactEnums name)
    (hd : schema.inputObject? name = some d) (hentry : entry ∈ d.fields) :
    schema.HasExactEnums entry.2.type.innermostName :=
  fun inner t d' hinner => h inner t d' (.field hd hentry hinner)

end

end Schema

namespace Literal

variable {exact : Prop} {type : TypeRef} {value : Json} {name : String}

/-- The value has a literal, and that reads as an equal value, or even the same one if all that
is needed for it is `exact`. -/
def Restores (schema : Schema) (exact : Prop) (type : TypeRef) (value : Json) : Prop :=
  ∃ literal found, ofJson? schema value type = some literal ∧ literal.isConst ∧
    read schema none literal type = .value found ∧ found.same value ∧ (exact → found = value)

/-! ## Leaves -/

/-- A value that is left to its named type has the literal that this one gives it. -/
theorem ofJson?_named (hvalue : value ≠ .null) (hname : schema.inputObject? name = none)
    (nullable : Bool) : ofJson? schema value (.named name nullable) = ofLeaf? schema value name := by
  cases value with
  | null => exact absurd rfl hvalue
  | object members =>
      have hinner : schema.inputObject? (TypeRef.named name nullable).innermostName = none := hname
      rw [ofJson?, hinner]
      rfl
  | _ => rw [ofJson?, TypeRef.innermostName] <;> simp

/-- Whether a literal is neither a variable nor null, and has no parts. -/
def isAtom : Value → Bool
  | .int .. | .float .. | .string .. | .boolean .. | .enum .. => true
  | _ => false

theorem isConst_of_isAtom {literal : Value} (h : isAtom literal) : literal.isConst := by
  cases literal with
  | var | null | list | object => cases h
  | _ => rfl

theorem read_named_of_isAtom {literal : Value} (h : isAtom literal) (nullable : Bool) :
    read schema none literal (.named name nullable) = readLeaf schema literal name := by
  have hwrap (reading : Reading) : reading.map (TypeRef.named name nullable).wrap = reading := by
    cases reading <;> rfl
  have hleaf : read schema none literal (.named name nullable) =
      (readLeaf schema literal name).map (TypeRef.named name nullable).wrap := by
    cases literal with
    | var | null | list | object => cases h
    | _ => rw [read, TypeRef.innermostName] <;> simp
  rw [hleaf, hwrap]

theorem restores_of_ofLeaf? {literal : Value} {found : Json} {nullable : Bool}
    (hvalue : value ≠ .null) (hname : schema.inputObject? name = none)
    (hliteral : ofLeaf? schema value name = some literal) (hatom : isAtom literal)
    (hread : readLeaf schema literal name = .value found) (hsame : found.same value)
    (hexact : exact → found = value) : Restores schema exact (.named name nullable) value := by
  refine ⟨literal, found, ?_, isConst_of_isAtom hatom, ?_, hsame, hexact⟩
  · rw [ofJson?_named hvalue hname, hliteral]
  · rw [read_named_of_isAtom hatom, hread]

/-- An enum names the first of its values that are represented by equal values. -/
theorem exists_name_of_mem {d : EnumDef} {entry : String × EnumValueDef} (hd : d.IsOrderly)
    (hentry : entry ∈ d.values) (typeName : String) :
    ∃ first ∈ d.values, first.2.value.same entry.2.value ∧
      d.toResponse typeName entry.2.value = .ok (.string first.1) ∧
      d.ofName typeName first.1 = .ok first.2.value := by
  cases hfind : d.values.find? fun other => other.2.value.same entry.2.value with
  | none =>
      have hself := Json.same_self (hd.isProper entry hentry)
      exact absurd hself (by simpa using List.find?_eq_none.mp hfind entry hentry)
  | some first =>
      have hmem := List.mem_of_find?_eq_some hfind
      refine ⟨first, hmem, by simpa using List.find?_some hfind, ?_, ?_⟩
      · rw [EnumDef.toResponse, hfind, ← hd.name first hmem]
      · rw [EnumDef.ofName, Assoc.get?_of_mem hd.nodup hmem]

theorem restores_of_enum {t : TypeDef} {d : EnumDef} {entry : String × EnumValueDef}
    {nullable : Bool} (ht : schema.type? name = some t) (hbody : t.body = .enum d)
    (hd : d.IsOrderly) (hexact : exact → d.IsExact) (hentry : entry ∈ d.values) :
    Restores schema exact (.named name nullable) entry.2.value := by
  obtain ⟨first, hfirst, hsame, hresponse, hname⟩ := exists_name_of_mem hd hentry t.name
  have hliteral : ofLeaf? schema entry.2.value name = some (.enum first.1 none) := by
    rw [ofLeaf?, ht, Option.bind_eq_bind, Option.bind_some, hbody]
    simp only [hresponse]
  have hread : readLeaf schema (.enum first.1 none) name = .value first.2.value := by
    simp [readLeaf, ht, TypeDef.ofLiteral?, hbody, EnumDef.ofLiteral, hname]
  exact restores_of_ofLeaf? (hd.ne_null entry hentry)
    (by simp [Schema.inputObject?, ht, TypeDef.inputObject?, hbody]) hliteral rfl hread hsame fun h => hexact h first hfirst entry hentry hsame

theorem restores_of_scalar {t : TypeDef} {d : ScalarDef} {response : Json} {literal : Value}
    {nullable : Bool} (ht : schema.type? name = some t) (hbody : t.body = .scalar d)
    (hvalue : value ≠ .null) (hproper : value.isProper)
    (hresponse : d.toResponse value = .ok response)
    (hliteral : ofScalar? t.name response = some literal) (hatom : isAtom literal)
    (hread : d.ofLiteral t.name literal = .ok value) :
    Restores schema exact (.named name nullable) value := by
  have hliteral : ofLeaf? schema value name = some literal := by
    simp [ofLeaf?, ht, hbody, hresponse, Except.toOption, hliteral]
  have hread : readLeaf schema literal name = .value value := by
    simp [readLeaf, ht, TypeDef.ofLiteral?, hbody, hread]
  exact restores_of_ofLeaf? hvalue (Schema.inputObject?_of_scalar ht hbody) hliteral hatom hread
    (Json.same_self hproper) fun _ => rfl

/-- An identifier that looks like an integer is written as one. -/
theorem exists_literal_of_id (text : String) : ∃ literal,
    ofScalar? Scalar.idName (.string text) = some literal ∧
      (literal = .int text none ∨ literal = .string text false none) := by
  by_cases h : isIntegerText text
  · exact ⟨.int text none, by simp [ofScalar?, h], .inl rfl⟩
  · exact ⟨.string text false none, by simp [ofScalar?, h], .inr rfl⟩

theorem restores_of_scalar_mem {t : TypeDef} {literal : Value} {nullable : Bool}
    (ht : schema.type? name = some t) (hscalar : t ∈ restoredScalars)
    (hleaf : t.ofLiteral? literal = some (.ok value)) :
    Restores schema exact (.named name nullable) value := by
  simp only [restoredScalars, List.mem_cons, List.not_mem_nil, or_false] at hscalar
  rcases hscalar with rfl | rfl | rfl | rfl <;>
    replace hleaf := Option.some.inj ((Scalar.ofLiteral?_builtin _ _ _ _ _ literal).symm.trans hleaf)
  · obtain ⟨text, span, i, rfl, htext, h32, rfl⟩ := Scalar.exists_of_parseIntLiteral hleaf
    have hliteral : ofScalar? Scalar.int.name (.int i) = some (.int (toString i) none) := by
      have htext : (Json.int i).text = toString i := by
        rw [Json.text, Json.render, String.ofList_toList]
      simp only [ofScalar?, htext, Scalar.isIntegerText_toString, if_true]
    have hread : Scalar.parseIntLiteral (.int (toString i) none) = .ok (.int i) := by
      have h64 : isInt64 i := (Option.filter_eq_some_iff.mp htext).2
      simp only [Scalar.parseIntLiteral, readInt64?_toString h64, Option.filter_some, h32, if_true]
    exact restores_of_scalar ht rfl nofun rfl (Scalar.checkInt_ofInt? h32 (.int i)) hliteral rfl hread
  · obtain ⟨text, block, span, rfl, rfl⟩ := Scalar.exists_of_parseStringLiteral hleaf
    have hliteral : ofScalar? Scalar.string.name (.string text) = some (.string text false none) := by
      have hname : Scalar.string.name ≠ Scalar.idName := by decide
      simp [ofScalar?, hname]
    exact restores_of_scalar ht rfl nofun rfl rfl hliteral rfl rfl
  · obtain ⟨b, span, rfl, rfl⟩ := Scalar.exists_of_parseBooleanLiteral hleaf
    exact restores_of_scalar ht rfl nofun rfl rfl rfl rfl rfl
  · obtain ⟨text, rfl⟩ := Scalar.exists_of_parseIdLiteral hleaf
    obtain ⟨restored, hrestored, rfl | rfl⟩ := exists_literal_of_id text
    · exact restores_of_scalar ht rfl nofun rfl rfl hrestored rfl rfl
    · exact restores_of_scalar ht rfl nofun rfl rfl hrestored rfl rfl

/-- What a scalar or an enum makes of a literal has a literal. -/
theorem restores_of_readLeaf {literal : Value} (h : schema.IsRestored name)
    (hexact : exact → schema.HasExactEnums name)
    (hread : readLeaf schema literal name = .value value) (nullable : Bool) :
    Restores schema exact (.named name nullable) value := by
  unfold readLeaf at hread
  split at hread
  swap
  · cases hread
  rename_i found hfound
  obtain rfl : found = value := by simpa using hread
  obtain ⟨t, ht, hleaf⟩ := Option.bind_eq_some_iff.mp hfound
  rcases h.madeOf name t (.self name) ht with hscalar | henum | hobject
  · exact restores_of_scalar_mem ht hscalar hleaf
  · obtain ⟨d, hd⟩ := Option.isSome_iff_exists.mp henum
    have hbody := TypeDef.body_of_enum? hd
    replace hleaf : d.ofLiteral t.name literal = .ok found := by
      simpa [TypeDef.ofLiteral?, hbody] using hleaf
    unfold EnumDef.ofLiteral at hleaf
    split at hleaf
    swap
    · cases hleaf
    unfold EnumDef.ofName at hleaf
    split at hleaf
    swap
    · cases hleaf
    rename_i v hv
    obtain rfl := Except.ok.inj hleaf
    exact restores_of_enum ht hbody (h.enums name t d (.self name) ht hd)
      (fun h' => hexact h' name t d (.self name) ht hd) (Assoc.mem_of_get? hv)
  · unfold TypeDef.ofLiteral? at hleaf
    unfold TypeDef.inputObject? at hobject
    split at hobject <;> simp_all

/-! ## Lists -/

theorem exists_items {values : List Json} {item : TypeRef}
    (h : ∀ value ∈ values, Restores schema exact item value) :
    ∃ found, Value.areConst (ofItems schema values item) ∧
      readItems schema none (ofItems schema values item) item = some found ∧
      Json.sameItems found values ∧ (exact → found = values) := by
  induction values with
  | nil => exact ⟨[], by rw [ofItems]; rfl, by rw [ofItems, readItems], by rw [Json.sameItems],
      fun _ => rfl⟩
  | cons value rest ih =>
      obtain ⟨⟨literal, found, hliteral, hconst, hread, hsame, hexact⟩, hrest⟩ :=
        List.forall_mem_cons.mp h
      obtain ⟨founds, hconsts, hreads, hsames, hexacts⟩ := ih hrest
      have hitems : ofItems schema (value :: rest) item = literal :: ofItems schema rest item := by
        rw [ofItems, hliteral]
        rfl
      refine ⟨found :: founds, ?_, ?_, ?_, fun h => by rw [hexact h, hexacts h]⟩
      · rw [hitems, Value.areConst, hconst, hconsts, Bool.and_self]
      · rw [hitems, readItems, hread, hreads]
      · rw [Json.sameItems, hsame, hsames, Bool.and_self]

theorem restores_list {values : List Json} {item : TypeRef} (nullable : Bool)
    (h : ∀ value ∈ values, Restores schema exact item value) :
    Restores schema exact (.list item nullable) (.array values) := by
  obtain ⟨found, hconst, hread, hsame, hexact⟩ := exists_items h
  refine ⟨.list (ofItems schema values item) none, .array found, by rw [ofJson?], ?_, ?_, ?_,
    fun h => by rw [hexact h]⟩
  · rw [Value.isConst, hconst]
  · rw [read, hread]
    rfl
  · rw [Json.same, hsame]

/-- A value of the named type inside is the only item of all lists around. -/
theorem restores_wrap
    (h : ∀ nullable, Restores schema exact (.named type.innermostName nullable) value) :
    Restores schema exact type (type.wrap value) := by
  induction type with
  | named name nullable => exact h nullable
  | list item nullable ih =>
      refine restores_list nullable fun found hfound => ?_
      obtain rfl := List.mem_singleton.mp hfound
      exact ih h

/-! ## Input objects -/

/-- The members of an object, for those fields of a table that have values. -/
def membersOf {α : Type} (value? : String × InputDef → Option α)
    (table : List (String × InputDef)) : List (String × α) :=
  table.filterMap fun entry => (value? entry).map (entry.1, ·)

section

variable {α : Type} {value? : String × InputDef → Option α} {table : List (String × InputDef)}
  {entry : String × InputDef}

theorem keys_membersOf_sublist (value? : String × InputDef → Option α)
    (table : List (String × InputDef)) :
    ((membersOf value? table).map (·.1)).Sublist (table.map (·.1)) := by
  refine Assoc.keys_filterMap_sublist fun entry found h => ?_
  obtain ⟨value, -, rfl⟩ := Option.map_eq_some_iff.mp h
  rfl

theorem get?_membersOf (hnodup : (table.map (·.1)).Nodup) (hentry : entry ∈ table) :
    Assoc.get? (membersOf value? table) entry.1 = value? entry := by
  induction table with
  | nil => cases hentry
  | cons first rest ih =>
      obtain ⟨hnew, hnodup⟩ := List.nodup_cons.mp hnodup
      have hnone {key : String} (hkey : key ∉ rest.map (·.1)) :
          Assoc.get? (membersOf value? rest) key = none := by
        rw [← Option.not_isSome_iff_eq_none, Assoc.get?_isSome_iff]
        exact fun hmem => hkey ((keys_membersOf_sublist value? rest).subset hmem)
      rcases List.mem_cons.mp hentry with rfl | hentry
      · cases hvalue : value? entry with
        | none => simpa [membersOf, hvalue] using hnone hnew
        | some value => simp [membersOf, hvalue, Assoc.get?_cons]
      · have hne : first.1 ≠ entry.1 := fun heq =>
          hnew (List.mem_map.mpr ⟨entry, hentry, heq.symm⟩)
        have ih := ih hnodup hentry
        cases hvalue : value? first with
        | none => simpa [membersOf, hvalue] using ih
        | some value => simpa [membersOf, hvalue, Assoc.get?_cons, hne] using ih

/-- An input object has the members for which its fields have values. -/
theorem exists_membersOf {readings : List (String × Reading)} {members : Json.Members}
    (h : assemble? readings table = some members) : ∃ value? : String × InputDef → Option Json,
      members = membersOf value? table ∧ ∀ entry ∈ table,
        fieldValue? entry.2 ((Assoc.get? readings entry.1).getD .missing) = some (value? entry) := by
  refine ⟨fun entry => (fieldValue? entry.2
    ((Assoc.get? readings entry.1).getD .missing)).getD none, ?_⟩
  induction table generalizing members with
  | nil =>
      obtain rfl := Option.some.inj h
      exact ⟨rfl, fun _ hmem => absurd hmem List.not_mem_nil⟩
  | cons first rest ih =>
      obtain ⟨name, field⟩ := first
      rw [assemble?] at h
      obtain ⟨value?, hvalue, h⟩ := Option.bind_eq_some_iff.mp h
      obtain ⟨members', hmembers, h⟩ := Option.bind_eq_some_iff.mp h
      obtain rfl := Option.some.inj h
      obtain ⟨rfl, hrest⟩ := ih hmembers
      refine ⟨?_, List.forall_mem_cons.mpr ⟨by simp [hvalue], hrest⟩⟩
      cases value? <;> simp [membersOf, hvalue]

theorem assemble?_eq_membersOf {readings : List (String × Reading)}
    {value? : String × InputDef → Option Json}
    (h : ∀ entry ∈ table, fieldValue? entry.2 ((Assoc.get? readings entry.1).getD .missing) =
      some (value? entry)) : assemble? readings table = some (membersOf value? table) := by
  induction table with
  | nil => rfl
  | cons first rest ih =>
      obtain ⟨name, field⟩ := first
      obtain ⟨hfirst, hrest⟩ := List.forall_mem_cons.mp h
      rw [assemble?, hfirst, ih hrest]
      cases hvalue : value? (name, field) <;> simp [membersOf, hvalue]

theorem membersOf_congr {other? : String × InputDef → Option α}
    (h : ∀ entry ∈ table, value? entry = other? entry) :
    membersOf value? table = membersOf other? table :=
  List.filterMap_congr fun entry hentry => by rw [h entry hentry]

theorem exists_of_mem_membersOf {member : String × α} (h : member ∈ membersOf value? table) :
    ∃ entry ∈ table, member.1 = entry.1 ∧ value? entry = some member.2 := by
  obtain ⟨entry, hentry, hmember⟩ := List.mem_filterMap.mp h
  obtain ⟨value, hvalue, rfl⟩ := Option.map_eq_some_iff.mp hmember
  exact ⟨entry, hentry, rfl, hvalue⟩

theorem length_membersOf {β : Type} {other? : String × InputDef → Option β}
    (h : ∀ entry ∈ table, (value? entry).isSome = (other? entry).isSome) :
    (membersOf value? table).length = (membersOf other? table).length := by
  induction table with
  | nil => rfl
  | cons first rest ih =>
      obtain ⟨hfirst, hrest⟩ := List.forall_mem_cons.mp h
      have ih := ih hrest
      cases hvalue : value? first <;> cases hother : other? first <;>
        simp_all [membersOf]

/-- The fields of an object literal. -/
def objectFields (literal? : String × InputDef → Option Value)
    (table : List (String × InputDef)) : List ObjectField :=
  table.filterMap fun entry =>
    (literal? entry).map fun literal => { name := { text := entry.1 }, value := literal }

variable {fields : List (String × InputDef)}
  (hfields : ∀ entry ∈ table, Assoc.get? fields entry.1 = some entry.2)
include hfields

/-- The literals of the members of an object. -/
theorem ofMembers_membersOf (value? : String × InputDef → Option Json) :
    ofMembers schema (membersOf value? table) fields =
      membersOf (fun entry => (value? entry).bind (ofJson? schema · entry.2.type)) table := by
  induction table with
  | nil => rw [membersOf, List.filterMap_nil, ofMembers, membersOf, List.filterMap_nil]
  | cons first rest ih =>
      obtain ⟨hfirst, hrest⟩ := List.forall_mem_cons.mp hfields
      have ih := ih hrest
      cases hvalue : value? first with
      | none => simpa [membersOf, hvalue] using ih
      | some value =>
          have hcons : membersOf value? (first :: rest) = (first.1, value) :: membersOf value? rest := by
            simp [membersOf, hvalue]
          rw [hcons, ofMembers, hfirst, Option.bind_some, ih]
          cases hliteral : ofJson? schema value first.2.type <;> simp [membersOf, hvalue, hliteral]

/-- What the fields of an object literal read as. -/
theorem readFields_objectFields (literal? : String × InputDef → Option Value) :
    readFields schema none (objectFields literal? table) fields =
      membersOf (fun entry => (literal? entry).map (read schema none · entry.2.type)) table := by
  induction table with
  | nil => rw [objectFields, List.filterMap_nil, readFields, membersOf, List.filterMap_nil]
  | cons first rest ih =>
      obtain ⟨hfirst, hrest⟩ := List.forall_mem_cons.mp hfields
      have ih := ih hrest
      cases hliteral : literal? first with
      | none => simpa [objectFields, membersOf, hliteral] using ih
      | some literal =>
          have hcons : objectFields literal? (first :: rest) =
              ⟨⟨first.1, none⟩, literal, none⟩ :: objectFields literal? rest := by
            simp [objectFields, hliteral]
          rw [hcons, readFields, ih]
          simp [membersOf, hliteral, hfirst]

end

theorem fieldsAreConst_objectFields {literal? : String × InputDef → Option Value}
    {table : List (String × InputDef)}
    (h : ∀ entry ∈ table, ∀ literal, literal? entry = some literal → literal.isConst) :
    Value.fieldsAreConst (objectFields literal? table) := by
  induction table with
  | nil => rfl
  | cons first rest ih =>
      obtain ⟨hfirst, hrest⟩ := List.forall_mem_cons.mp h
      have ih := ih hrest
      cases hliteral : literal? first with
      | none => simpa [objectFields, hliteral] using ih
      | some literal =>
          have hcons : objectFields literal? (first :: rest) =
              ⟨⟨first.1, none⟩, literal, none⟩ :: objectFields literal? rest := by
            simp [objectFields, hliteral]
          rw [hcons, Value.fieldsAreConst, hfirst literal hliteral, ih, Bool.and_self]

/-- A field that has no value needs none. -/
def MayLack (entry : String × InputDef) : Prop :=
  entry.2.defaultValue = none ∧ entry.2.type.isNonNull = false

theorem restores_object {d : InputObjectDef} {value? : String × InputDef → Option Json}
    (hd : schema.inputObject? name = some d) (hnodup : (d.fields.map (·.1)).Nodup)
    (hvalues : ∀ entry ∈ d.fields, ∀ value, value? entry = some value →
      Restores schema exact entry.2.type value)
    (hnone : ∀ entry ∈ d.fields, value? entry = none → MayLack entry) (nullable : Bool) :
    Restores schema exact (.named name nullable) (.object (membersOf value? d.fields)) := by
  let literal? (entry : String × InputDef) := (value? entry).bind (ofJson? schema · entry.2.type)
  let found? (entry : String × InputDef) :=
    (literal? entry).bind fun literal => (read schema none literal entry.2.type).value?
  have hfields : ∀ entry ∈ d.fields, Assoc.get? d.fields entry.1 = some entry.2 :=
    fun _ hentry => Assoc.get?_of_mem hnodup hentry
  -- What the definitions above say of a field with a value, and of one without.
  have hsome {entry : String × InputDef} {value : Json} (hentry : entry ∈ d.fields)
      (hvalue : value? entry = some value) : ∃ literal found, literal? entry = some literal ∧
        literal.isConst ∧ read schema none literal entry.2.type = .value found ∧
        found? entry = some found ∧ found.same value ∧ (exact → found = value) := by
    obtain ⟨literal, found, hliteral, hconst, hread, hrest⟩ := hvalues entry hentry value hvalue
    have hliteral : literal? entry = some literal := by simp [literal?, hvalue, hliteral]
    exact ⟨literal, found, hliteral, hconst, hread,
      by simp [found?, hliteral, hread, Reading.value?], hrest⟩
  have hmissing {entry : String × InputDef} (hvalue : value? entry = none) :
      literal? entry = none ∧ found? entry = none := by
    simp [found?, literal?, hvalue]
  have hread : assemble? (readFields schema none (objectFields literal? d.fields) d.fields) d.fields =
      some (membersOf found? d.fields) := by
    refine assemble?_eq_membersOf fun entry hentry => ?_
    rw [readFields_objectFields hfields, get?_membersOf hnodup hentry]
    cases hvalue : value? entry with
    | some value =>
        obtain ⟨literal, found, hliteral, -, hread, hfound, -⟩ := hsome hentry hvalue
        simp [hliteral, hread, hfound, fieldValue?]
    | none =>
        obtain ⟨hdefault, hnonNull⟩ := hnone entry hentry hvalue
        obtain ⟨hliteral, hfound⟩ := hmissing hvalue
        simp [hliteral, hfound, fieldValue?, hdefault, hnonNull]
  refine ⟨.object (objectFields literal? d.fields) none, .object (membersOf found? d.fields), ?_, ?_,
    ?_, ?_, fun h => ?_⟩
  · have hinner : schema.inputObject? (TypeRef.named name nullable).innermostName = some d := hd
    rw [ofJson?]
    simp only [hinner, ofMembers_membersOf hfields]
    refine congrArg (fun fields => some (Value.object fields none)) ?_
    exact List.filterMap_congr fun entry hentry => by rw [get?_membersOf hnodup hentry]
  · refine fieldsAreConst_objectFields fun entry hentry literal hliteral => ?_
    cases hvalue : value? entry with
    | some value =>
        obtain ⟨literal', found, hliteral', hconst, -⟩ := hsome hentry hvalue
        obtain rfl := Option.some.inj (hliteral.symm.trans hliteral')
        exact hconst
    | none => simp [(hmissing hvalue).1] at hliteral
  · have hinner : schema.inputObject? (TypeRef.named name nullable).innermostName = some d := hd
    rw [read]
    simp only [hinner, hread]
    rfl
  · have hlength : (membersOf found? d.fields).length = (membersOf value? d.fields).length := by
      refine length_membersOf fun entry hentry => ?_
      cases hvalue : value? entry with
      | some value =>
          obtain ⟨literal, found, -, -, -, hfound, -⟩ := hsome hentry hvalue
          rw [hfound]
          rfl
      | none => rw [(hmissing hvalue).2]
    rw [Json.same, decide_eq_true hlength, Bool.true_and]
    refine Json.sameMembers_of_forall fun member hmember => ?_
    obtain ⟨entry, hentry, hkey, hfound⟩ := exists_of_mem_membersOf hmember
    cases hvalue : value? entry with
    | some value =>
        obtain ⟨literal, found, -, -, -, hfound', hsame, -⟩ := hsome hentry hvalue
        obtain rfl := Option.some.inj (hfound.symm.trans hfound')
        exact ⟨value, by rw [hkey, get?_membersOf hnodup hentry, hvalue], hsame⟩
    | none => simp [(hmissing hvalue).2] at hfound
  · refine congrArg Json.object (membersOf_congr fun entry hentry => ?_)
    cases hvalue : value? entry with
    | some value =>
        obtain ⟨literal, found, -, -, -, hfound, -, hexact⟩ := hsome hentry hvalue
        rw [hfound, hexact h]
    | none => rw [(hmissing hvalue).2]

/-! ## All values -/

theorem sizeOf_lt_of_mem_items {values : List Json} (h : value ∈ values) :
    sizeOf value < sizeOf (Json.array values) := by
  have := List.sizeOf_lt_of_mem h
  simp only [Json.array.sizeOf_spec]
  omega

theorem sizeOf_lt_of_mem_members {members : Json.Members} {key : String}
    (h : (key, value) ∈ members) : sizeOf value < sizeOf (Json.object members) := by
  have := List.sizeOf_lt_of_mem h
  simp only [Json.object.sizeOf_spec, Prod.mk.sizeOf_spec] at this ⊢
  omega

theorem sizeOf_le_wrap (type : TypeRef) (value : Json) : sizeOf value ≤ sizeOf (type.wrap value) := by
  induction type with
  | named name nullable => exact Nat.le_refl _
  | list item nullable ih =>
      exact ih.trans (sizeOf_lt_of_mem_items (List.mem_singleton_self _)).le

/-- The values of a list are those of its items. -/
theorem exists_item_of_mem {items : List Value} {item : TypeRef} {values : List Json}
    (hconst : Value.areConst items) (h : readItems schema none items item = some values) :
    ∀ value ∈ values, ∃ literal ∈ items, read schema none literal item = .value value := by
  induction items generalizing values with
  | nil =>
      obtain rfl : [] = values := by simpa [readItems] using h
      exact fun _ hmem => absurd hmem List.not_mem_nil
  | cons first rest ih =>
      rw [Value.areConst, Bool.and_eq_true] at hconst
      simp only [readItems] at h
      split at h
      swap
      · cases h
      rename_i found others hfirst hothers
      obtain rfl := Option.some.inj h
      refine List.forall_mem_cons.mpr ⟨?_, fun value hmem => ?_⟩
      · split at hfirst
        · rename_i value hread
          obtain rfl := Option.some.inj hfirst
          exact ⟨first, List.mem_cons_self, hread⟩
        · cases hfirst
        · exact absurd ‹_› (read_ne_missing_of_isConst hconst.1)
      · obtain ⟨literal, hliteral, hread⟩ := ih hconst.2 hothers value hmem
        exact ⟨literal, List.mem_cons_of_mem _ hliteral, hread⟩

/-- A field that has a value has that of a literal among the fields that are given. -/
theorem exists_field_of_get? {fields : List ObjectField} {table : List (String × InputDef)}
    {entry : String × InputDef} (hfield : Assoc.get? table entry.1 = some entry.2)
    (h : Assoc.get? (readFields schema none fields table) entry.1 = some (.value value)) :
    ∃ f ∈ fields, read schema none f.value entry.2.type = .value value := by
  induction fields with
  | nil => simp [readFields, Assoc.get?] at h
  | cons first rest ih =>
      obtain ⟨key, literal, span⟩ := first
      rw [readFields, Assoc.get?_cons] at h
      by_cases hkey : key.text = entry.1
      · rw [if_pos hkey, hkey, hfield] at h
        exact ⟨_, List.mem_cons_self, Option.some.inj h⟩
      · rw [if_neg hkey] at h
        obtain ⟨f, hmem, hread⟩ := ih h
        exact ⟨f, List.mem_cons_of_mem _ hmem, hread⟩

/-- A field of an input object has the value of a literal: of the one that is given, or of one that
its default stands for. -/
theorem exists_literal_of_fieldValue? {d : InputObjectDef} {fields : List ObjectField}
    {entry : String × InputDef} (hrestored : schema.IsRestored name)
    (hd : schema.inputObject? name = some d) (hconst : Value.fieldsAreConst fields)
    (hentry : entry ∈ d.fields)
    (h : fieldValue? entry.2 ((Assoc.get? (readFields schema none fields d.fields) entry.1).getD
      .missing) = some (some value)) :
    ∃ literal : Value, literal.isConst ∧ read schema none literal entry.2.type = .value value := by
  unfold fieldValue? at h
  split at h
  · rename_i found hreading
    obtain rfl : found = value := by simpa using h
    have hfield := Assoc.get?_of_mem (hrestored.nodup name d (.self name) hd) hentry
    have hget : Assoc.get? (readFields schema none fields d.fields) entry.1 = some (.value found) := by
      cases hget : Assoc.get? (readFields schema none fields d.fields) entry.1 with
      | none => simp [hget] at hreading
      | some reading => simpa [hget] using hreading
    obtain ⟨f, hmem, hread⟩ := exists_field_of_get? hfield hget
    exact ⟨f.value, isConst_of_fieldsAreConst hconst f hmem, hread⟩
  · cases h
  · split at h
    · rename_i default hdefault
      obtain rfl : default = value := by simpa using h
      obtain ⟨literal, hconst, hread⟩ :=
        hrestored.defaults name d (.self name) hd entry hentry default hdefault
      exact ⟨literal, hconst, read_of_coerce? hread⟩
    · split at h <;> simp at h

theorem mayLack_of_fieldValue? {entry : String × InputDef} {reading : Reading}
    (h : fieldValue? entry.2 reading = some none) : MayLack entry := by
  unfold fieldValue? at h
  split at h
  · simp at h
  · cases h
  · split at h
    · simp at h
    · rename_i hdefault
      split at h
      · cases h
      · rename_i hnonNull
        exact ⟨hdefault, by simpa using hnonNull⟩

/-- A literal without variables that is left to its named type. -/
theorem restores_of_leaf {literal : Value} (hrestored : schema.IsRestored type.innermostName)
    (hexact : exact → schema.HasExactEnums type.innermostName)
    (hleaf : read schema none literal type =
      (readLeaf schema literal type.innermostName).map type.wrap)
    (h : read schema none literal type = .value value) : Restores schema exact type value := by
  rw [hleaf] at h
  cases hread : readLeaf schema literal type.innermostName with
  | value found =>
      obtain rfl : type.wrap found = value := by simpa [hread, Reading.map] using h
      exact restores_wrap (restores_of_readLeaf hrestored hexact hread)
  | missing => simp [hread, Reading.map] at h
  | invalid => simp [hread, Reading.map] at h

/-- The value of a literal without variables has a literal. -/
theorem restores_of_read {literal : Value} {type : TypeRef} {value : Json}
    (hconst : literal.isConst) (hrestored : schema.IsRestored type.innermostName)
    (hexact : exact → schema.HasExactEnums type.innermostName)
    (h : read schema none literal type = .value value) : Restores schema exact type value := by
  -- The default of a field is no part of the literal, but it is of the value.
  induction hsize : sizeOf value using Nat.strongRecOn generalizing literal type value with
  | ind size ih => ?_
  match literal, type with
  | .var v, type => cases hconst
  | .null span, type =>
      rw [read] at h
      split at h
      · rename_i hnullable
        obtain rfl : .null = value := by simpa using h
        refine ⟨.null none, .null, ?_, rfl, ?_, by rw [Json.same], fun _ => rfl⟩
        · rw [ofJson?, if_pos hnullable]
        · rw [read, if_pos hnullable]
      · cases h
  | .list items span, .list item nullable =>
      rw [read] at h
      obtain ⟨values, hvalues, rfl⟩ := Option.map_eq_some_iff.mp (exists_of_ofOption h)
      refine restores_list nullable fun found hfound => ?_
      obtain ⟨literal, hliteral, hread⟩ := exists_item_of_mem hconst hvalues found hfound
      have hsmaller := sizeOf_lt_of_mem_items hfound
      exact ih _ (by omega) (isConst_of_areConst hconst literal hliteral) hrestored hexact hread rfl
  | .list items span, .named name nullable =>
      exact restores_of_leaf hrestored hexact (by rw [read] <;> simp) h
  | .object fields span, type =>
      cases hd : schema.inputObject? type.innermostName with
      | none => exact restores_of_leaf hrestored hexact (by rw [read, hd]) h
      | some d =>
          rw [read] at h
          simp only [hd] at h
          obtain ⟨members, hmembers, rfl⟩ := Option.map_eq_some_iff.mp (exists_of_ofOption h)
          obtain ⟨value?, rfl, hfieldValue⟩ := exists_membersOf hmembers
          refine restores_wrap (restores_object hd (hrestored.nodup _ d (.self _) hd)
            (fun entry hentry found hfound => ?_) fun entry hentry hnone => ?_)
          · obtain ⟨literal, hconst, hread⟩ := exists_literal_of_fieldValue? hrestored hd hconst hentry
              (by rw [hfieldValue entry hentry, hfound])
            have hmember : (entry.1, found) ∈ membersOf value? d.fields :=
              List.mem_filterMap.mpr ⟨entry, hentry, by rw [hfound, Option.map_some]⟩
            have hsmaller := sizeOf_lt_of_mem_members hmember
            have hwrap := sizeOf_le_wrap type (.object (membersOf value? d.fields))
            exact ih _ (by omega) hconst (hrestored.field hd hentry)
              (fun h => (hexact h).field hd hentry) hread rfl
          · exact mayLack_of_fieldValue? (hnone ▸ hfieldValue entry hentry)
  | .int text span, type => exact restores_of_leaf hrestored hexact (by rw [read] <;> simp) h
  | .float text span, type => exact restores_of_leaf hrestored hexact (by rw [read] <;> simp) h
  | .string text block span, type =>
      exact restores_of_leaf hrestored hexact (by rw [read] <;> simp) h
  | .boolean b span, type => exact restores_of_leaf hrestored hexact (by rw [read] <;> simp) h
  | .enum name span, type => exact restores_of_leaf hrestored hexact (by rw [read] <;> simp) h

/-- The value of a literal without variables has a literal, and that reads as a value that is equal
to it, or even the same if no enum has different values that are equal. -/
theorem restored_of_coerce? {literal : Value} {type : TypeRef} {value : Json}
    {bindings : Option Json.Members} (hrestored : schema.IsRestored type.innermostName)
    (hconst : literal.isConst) (h : coerce? schema bindings literal type = some value) :
    ∃ restored found, ofJson? schema value type = some restored ∧
      coerce? schema bindings restored type = some found ∧ found.same value ∧
      (schema.HasExactEnums type.innermostName → found = value) := by
  have hread : read schema none literal type = .value value :=
    (read_of_isConst hconst).trans (read_of_coerce? h)
  obtain ⟨restored, found, hrestores, hconst, hfound, hsame, hexact⟩ :=
    restores_of_read hconst hrestored id hread
  refine ⟨restored, found, hrestores, ?_, hsame, hexact⟩
  have hfound : read schema bindings restored type = .value found :=
    (read_of_isConst hconst).trans hfound
  rw [coerce?, hfound, Reading.value?]

theorem isRestored_filterType : filterSchema.IsRestored "Filter" where
  madeOf := isMadeOf_filterType (by simp [restoredScalars]) (by simp [restoredScalars])
  enums inner t d hinner ht hd := by
    have hname := encloses_filterType hinner
    fin_cases hname <;> cases ht <;> cases hd
    exact ⟨by decide, by decide, by decide, by simp [EnumValueDef.table, Assoc.ofList, Assoc.insert,
      EnumValueDef.named]⟩
  nodup inner d hinner hd := by
    have hname := encloses_filterType hinner
    fin_cases hname <;> cases hd
    decide
  defaults inner d hinner hd entry hentry default hdefault := by
    have hname := encloses_filterType hinner
    fin_cases hname <;> cases hd
    fin_cases hentry <;> cases hdefault
    exact ⟨.int "10" none, rfl, rfl⟩

/-- A search for what has one of two tags. -/
def taggedEither : Value :=
  .object [
    ⟨⟨"tags", none⟩, .list [.string "new" false none, .list [.string "12" false none] none] none,
      none⟩,
    ⟨⟨"order", none⟩, .enum "DOWN" none, none⟩] none

theorem restored_taggedEither :
    filterSchema.IsRestored "Filter" ∧ taggedEither.isConst ∧
      ∃ value, coerce? filterSchema none taggedEither (.named "Filter" false) = some value ∧
        ∃ restored found, ofJson? filterSchema value (.named "Filter" false) = some restored ∧
          coerce? filterSchema none restored (.named "Filter" false) = some found ∧
          found.same value ∧ (filterSchema.HasExactEnums "Filter" → found = value) := by
  have hconst : taggedEither.isConst := rfl
  exact ⟨isRestored_filterType, hconst, _, rfl,
    restored_of_coerce? isRestored_filterType hconst rfl⟩

/-! ## Enum values that are equal -/

/-- An enum with two values that are equal as objects, but not the same. -/
def twinType : TypeDef where
  name := "Twin"
  origin := .host 0
  body := .enum { values := EnumValueDef.table [
    { name := "FIRST", value := .object [("a", .int 1), ("b", .int 2)] },
    { name := "SECOND", value := .object [("b", .int 2), ("a", .int 1)] }] }

def twinSchema : Schema := { filterSchema with types := [("Twin", twinType)] }

theorem isRestored_twinType : twinSchema.IsRestored "Twin" := by
  have hself {inner : String} (h : twinSchema.Encloses "Twin" inner) : inner ∈ ["Twin"] := by
    refine h.mem List.mem_cons_self fun name hname d hd => ?_
    obtain rfl := List.mem_singleton.mp hname
    cases hd
  refine ⟨fun inner t hinner ht => ?_, fun inner t d hinner ht hd => ?_, fun inner d hinner hd => ?_,
    fun inner d hinner hd => ?_⟩ <;> obtain rfl := List.mem_singleton.mp (hself hinner)
  · cases ht
    exact .inr (.inl rfl)
  · cases ht
    cases hd
    exact ⟨by decide, by decide, by decide, by simp [EnumValueDef.table, Assoc.ofList, Assoc.insert]⟩
  · cases hd
  · cases hd

/-- The second of two values that are equal is written, and read again, as the first. -/
theorem second_reads_as_first :
    twinSchema.IsRestored "Twin" ∧
      coerce? twinSchema none (.enum "SECOND" none) (.named "Twin" true) =
        some (.object [("b", .int 2), ("a", .int 1)]) ∧
      ofJson? twinSchema (.object [("b", .int 2), ("a", .int 1)]) (.named "Twin" true) =
        some (.enum "FIRST" none) ∧
      coerce? twinSchema none (.enum "FIRST" none) (.named "Twin" true) ≠
        some (.object [("b", .int 2), ("a", .int 1)]) := by
  refine ⟨isRestored_twinType, rfl, rfl, ?_⟩
  have hfirst : coerce? twinSchema none (.enum "FIRST" none) (.named "Twin" true) =
      some (.object [("a", .int 1), ("b", .int 2)]) := rfl
  rw [hfirst]
  simp

end Literal

end GraphQL
