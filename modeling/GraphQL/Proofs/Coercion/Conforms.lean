import Mathlib
import GraphQL.Coercion.Variables
import GraphQL.Proofs.Rows
import GraphQL.Schema.Subtype

/-!
# Values that conform to their types

`Schema.Conforms` says when a value may stand where an input type is expected.  What comes
with a request is coerced to such a value (`Input.conforms_of_coerceAt`), and so is a literal,
if the variables in it have values that conform to the types that are expected of them
(`Literal.conforms_of_read`).

Null stands only where the type allows it, with one exception.  A scalar for which the host has
no function reads a literal as a plain value, and as a plain value a number that is not finite
is null (`Schema.Conforms.lost`).
-/

namespace GraphQL

/-! ## Where null comes from -/

namespace Value

/-- A number literal that stands for no finite number. -/
def Overflows (literal : Value) : Prop :=
  ∃ number, literal.numeral? = some number ∧ ∀ x, number ≠ .finite x

theorem overflows_of_toJson_eq_null {number : Numeral} {literal : Value}
    (hnumber : literal.numeral? = some number) (h : number.toJson = .null) : literal.Overflows := by
  refine ⟨number, hnumber, ?_⟩
  rintro x rfl
  cases h

/-- A literal that is null as a plain value is written so, or is a number that is not finite. -/
theorem overflows_of_toJson? {literal : Value} (h : literal.toJson? none = some .null) :
    literal.isNull = true ∨ literal.Overflows := by
  cases literal with
  | null span => exact Or.inl rfl
  | int text span =>
      right
      rw [toJson?, Json.ofIntText?] at h
      split at h
      · cases h
      · obtain ⟨number, hnumber, hnull⟩ := Option.map_eq_some_iff.mp h
        exact overflows_of_toJson_eq_null hnumber hnull
  | float text span =>
      obtain ⟨number, hnumber, hnull⟩ := Option.map_eq_some_iff.mp h
      exact Or.inr (overflows_of_toJson_eq_null hnumber hnull)
  | _ => simp [toJson?] at h

end Value

namespace ScalarDef

variable {d : ScalarDef}

/-- No function of the scalar makes null of a value or of a literal. -/
structure IsDefinite (d : ScalarDef) : Prop where
  value : ∀ parse, d.parseValue = some parse → ∀ value, parse value ≠ .ok .null
  literal : ∀ parse, d.parseLiteral = some parse → ∀ literal, parse literal ≠ .ok .null

theorem ofInput_ne_null {value : Json}
    (hd : ∀ parse, d.parseValue = some parse → ∀ value, parse value ≠ .ok .null)
    (hvalue : value ≠ .null) : d.ofInput value ≠ .ok .null := by
  intro h
  unfold ofInput at h
  split at h
  · rename_i parse hparse
    exact hd parse hparse value h
  · exact hvalue (Except.ok.inj h)

/-- Only a scalar without functions reads a literal other than null as null. -/
theorem IsDefinite.overflows_of_ofLiteral {name : String} {literal : Value} (hd : d.IsDefinite)
    (hliteral : literal.isNull = false) (h : d.ofLiteral name literal = .ok .null) :
    d.parseLiteral = none ∧ d.parseValue = none ∧ literal.Overflows := by
  unfold ofLiteral at h
  split at h
  · rename_i parse hparse
    exact absurd h (hd.literal parse hparse literal)
  rename_i hnone
  split at h
  · rename_i value hvalue
    unfold ofInput at h
    split at h
    · rename_i parse hparse
      exact absurd h (hd.value parse hparse value)
    · rename_i hnone'
      obtain rfl := Except.ok.inj h
      have hoverflows := (Value.overflows_of_toJson? hvalue).resolve_left (by simp [hliteral])
      exact ⟨hnone, hnone', hoverflows⟩
  · cases h

end ScalarDef

/-- No function of a scalar gives null, and no value of an enum is represented by null. -/
structure TypeDef.IsDefinite (t : TypeDef) : Prop where
  scalar : ∀ d, t.body = .scalar d → d.IsDefinite
  enum : ∀ d, t.enum? = some d → ∀ entry ∈ d.values, entry.2.value ≠ .null

/-- Nothing is asked of the types of other kinds. -/
theorem TypeDef.isDefinite_of_other {t : TypeDef} (hscalar : ∀ d, t.body ≠ .scalar d)
    (henum : t.enum? = none) : t.IsDefinite where
  scalar d hd := absurd hd (hscalar d)
  enum d hd := by
    rw [henum] at hd
    cases hd

/-- No function of a scalar makes null of a value, and no value of an enum is represented by
null. -/
structure TypeDef.ReadsNoNull (t : TypeDef) : Prop where
  scalar : ∀ d, t.body = .scalar d → ∀ parse, d.parseValue = some parse →
    ∀ value, parse value ≠ .ok .null
  enum : ∀ d, t.enum? = some d → ∀ entry ∈ d.values, entry.2.value ≠ .null

theorem TypeDef.IsDefinite.readsNoNull {t : TypeDef} (h : t.IsDefinite) : t.ReadsNoNull where
  scalar d hd := (h.scalar d hd).value
  enum := h.enum

/-! ## Conforming values -/

namespace Schema

variable (schema : Schema)

/-- Values of the named type have no form that is known: it is neither an enum nor an input
object. -/
def IsPlain (name : String) : Prop :=
  ∀ t, schema.type? name = some t → t.enum? = none ∧ t.inputObject? = none

/-- The named type is a scalar for which the host reads neither values nor literals. -/
def IsUnread (name : String) : Prop :=
  ∃ t d, schema.type? name = some t ∧ t.body = .scalar d ∧ d.parseLiteral = none ∧
    d.parseValue = none

/-- The value may stand where the type is expected, at every depth of it.  Null in the place of
a scalar may come of one of the `given` literals. -/
inductive Conforms (given : Value → Prop) : TypeRef → Json → Prop
  | null {type : TypeRef} (h : type.isNullable = true) : Conforms given type .null
  | list {item : TypeRef} {nullable : Bool} {values : List Json}
      (h : ∀ value ∈ values, Conforms given item value) :
      Conforms given (.list item nullable) (.array values)
  | plain {name : String} {nullable : Bool} {value : Json} (hname : schema.IsPlain name)
      (h : value ≠ .null) : Conforms given (.named name nullable) value
  | lost {name : String} {nullable : Bool} {literal : Value} (hname : schema.IsUnread name)
      (hgiven : given literal) (h : literal.Overflows) : Conforms given (.named name nullable) .null
  | enum {name : String} {nullable : Bool} {t : TypeDef} {d : EnumDef}
      {entry : String × EnumValueDef} (ht : schema.type? name = some t) (hd : t.enum? = some d)
      (hentry : entry ∈ d.values) (h : entry.2.value ≠ .null) :
      Conforms given (.named name nullable) entry.2.value
  | object {name : String} {nullable : Bool} {d : InputObjectDef} {members : Json.Members}
      (hd : schema.inputObject? name = some d)
      (hknown : ∀ key value, (key, value) ∈ members → ∃ field, (key, field) ∈ d.fields)
      (hvalues : ∀ key value field, (key, value) ∈ members → (key, field) ∈ d.fields →
        Conforms given field.type value)
      (hrequired : ∀ key field, (key, field) ∈ d.fields → field.type.isNonNull →
        ∃ value, (key, value) ∈ members) :
      Conforms given (.named name nullable) (.object members)

/-- The members are values of arguments or input fields: none but these have values, the values
conform to their types, and those that cannot be null have one. -/
structure Fills (given : Value → Prop) (inputs : List (String × InputDef))
    (members : Json.Members) : Prop where
  known : ∀ key value, (key, value) ∈ members → ∃ input, (key, input) ∈ inputs
  values : ∀ key value input, (key, value) ∈ members → (key, input) ∈ inputs →
    schema.Conforms given input.type value
  required : ∀ key input, (key, input) ∈ inputs → input.type.isNonNull →
    ∃ value, (key, value) ∈ members

/-- Names are given once in a table of arguments or input fields, and defaults conform to their
types. -/
structure SoundInputs (inputs : List (String × InputDef)) : Prop where
  nodup : (inputs.map (·.1)).Nodup
  name : ∀ entry ∈ inputs, entry.2.name = entry.1
  default : ∀ entry ∈ inputs, ∀ value, entry.2.defaultValue = some value →
    schema.Conforms (fun _ => False) entry.2.type value

/-- The fields of every input object are in order. -/
def InputsSound : Prop :=
  ∀ {name d}, schema.inputObject? name = some d → schema.SoundInputs d.fields

/-- The arguments of every field that a type declares are in order. -/
def ArgumentsSound : Prop :=
  ∀ {t name d}, schema.type? t.name = some t → t.field? name = some d →
    schema.SoundInputs d.arguments

/-- No function of a scalar of the schema gives null, and no value of an enum is represented by
null. -/
def IsDefinite : Prop := ∀ {name t}, schema.type? name = some t → t.IsDefinite

/-- No function of a scalar of the schema makes null of a value, and no value of an enum is
represented by null. -/
def ReadsNoNull : Prop := ∀ {name t}, schema.type? name = some t → t.ReadsNoNull

variable {schema} {given more : Value → Prop} {type : TypeRef} {value : Json}

theorem IsDefinite.readsNoNull (h : schema.IsDefinite) : schema.ReadsNoNull :=
  fun ht => (h ht).readsNoNull

/-- The arguments of the fields of introspection are in order, too. -/
theorem ArgumentsSound.of_fieldDef? (h : schema.ArgumentsSound) {t : TypeDef} {name : String}
    {d : FieldDef} (ht : schema.type? t.name = some t) (hd : schema.fieldDef? t name = some d) :
    schema.SoundInputs d.arguments := by
  have hnone : schema.SoundInputs [] := ⟨List.nodup_nil, by simp, by simp⟩
  simp only [fieldDef?] at hd
  split at hd
  · cases hd
    exact hnone
  split at hd
  · cases hd
    refine ⟨List.nodup_singleton _, fun entry hentry => ?_, fun entry hentry => ?_⟩ <;>
      obtain rfl := List.mem_singleton.mp hentry
    · rfl
    · exact nofun
  split at hd
  · cases hd
    exact hnone
  · exact h ht hd

theorem Fills.conforms {name : String} {nullable : Bool} {d : InputObjectDef}
    {members : Json.Members} (h : schema.Fills given d.fields members)
    (hd : schema.inputObject? name = some d) :
    schema.Conforms given (.named name nullable) (.object members) :=
  .object hd h.known h.values h.required

theorem Conforms.mono (h : schema.Conforms given type value)
    (hgiven : ∀ literal, given literal → more literal) : schema.Conforms more type value := by
  induction h with
  | null h => exact .null h
  | list _ ih => exact .list ih
  | plain hname h => exact .plain hname h
  | lost hname hliteral h => exact .lost hname (hgiven _ hliteral) h
  | enum ht hd hentry h => exact .enum ht hd hentry h
  | object hd hknown _ hrequired ih => exact .object hd hknown ih hrequired

/-- A value other than null conforms to a type whether or not that allows null. -/
theorem Conforms.of_ne_null (h : schema.Conforms given type value) (hvalue : value ≠ .null)
    (nullable : Bool) : schema.Conforms given (type.withNullable nullable) value := by
  cases h with
  | null => exact absurd rfl hvalue
  | lost => exact absurd rfl hvalue
  | list h => exact .list h
  | plain hname h => exact .plain hname h
  | enum ht hd hentry h => exact .enum ht hd hentry h
  | object hd hknown hvalues hrequired => exact .object hd hknown hvalues hrequired

/-- A value that conforms to a named type, null allowed or not, conforms to a type with that name
inside, as the only item of all lists around. -/
theorem Conforms.wrap
    (h : ∀ nullable, schema.Conforms given (.named type.innermostName nullable) value) :
    schema.Conforms given type (type.wrap value) := by
  induction type with
  | named name nullable => exact h nullable
  | list item nullable ih =>
      refine .list fun found hfound => ?_
      obtain rfl := List.mem_singleton.mp hfound
      exact ih h

/-! ## Tables that are in order -/

/-- The table of arguments or input fields is in order, and all defaults in it are of scalars. -/
def hasScalarDefaults (schema : Schema) (inputs : List (String × InputDef)) : Bool :=
  (inputs.map (·.1)).Nodup && inputs.all fun entry =>
    entry.2.name = entry.1 &&
      match entry.2.defaultValue, entry.2.type with
      | none, _ => true
      | some value, .named name _ =>
        !value.isNull && (schema.type? name).all fun t => t.enum?.isNone && t.inputObject?.isNone
      | some _, .list _ _ => false

theorem soundInputs_of_hasScalarDefaults {inputs : List (String × InputDef)}
    (h : schema.hasScalarDefaults inputs) : schema.SoundInputs inputs := by
  simp only [hasScalarDefaults, Bool.and_eq_true, decide_eq_true_eq, List.all_eq_true] at h
  refine ⟨h.1, fun entry hentry => (h.2 entry hentry).1, fun entry hentry value hvalue => ?_⟩
  have hdefault := (h.2 entry hentry).2
  rw [hvalue] at hdefault
  cases htype : entry.2.type with
  | list item nullable => simp [htype] at hdefault
  | named name nullable =>
      simp only [htype, Bool.and_eq_true, Bool.not_eq_true'] at hdefault
      refine .plain (fun t ht => ?_) fun hnull => by simp [hnull, Json.isNull] at hdefault
      have hplain := (Option.all_eq_true _ _).mp hdefault.2 t ht
      simpa using hplain

theorem inputsSound_of_all (h : schema.types.all fun entry =>
    (entry.2.inputObject?.all fun d => schema.hasScalarDefaults d.fields)) :
    schema.InputsSound := by
  intro name d hd
  obtain ⟨t, ht, hd⟩ := Option.bind_eq_some_iff.mp hd
  have hall := List.all_eq_true.mp h _ (Assoc.mem_of_get? ht)
  exact soundInputs_of_hasScalarDefaults ((Option.all_eq_true _ _).mp hall d hd)

theorem argumentsSound_of_all (h : schema.types.all fun entry => (entry.2.fields?.getD []).all
    fun field => schema.hasScalarDefaults field.2.arguments) : schema.ArgumentsSound := by
  intro t name d ht hd
  obtain ⟨fields, hfields, hget⟩ := Option.bind_eq_some_iff.mp hd
  have hall := List.all_eq_true.mp h _ (Assoc.mem_of_get? ht)
  rw [hfields] at hall
  exact soundInputs_of_hasScalarDefaults (List.all_eq_true.mp hall _ (Assoc.mem_of_get? hget))

/-! ## Types that stand for others -/

/-- Where a type can be used for another, its values conform to that one, null apart. -/
theorem Conforms.of_isSubtype {super : TypeRef} (h : schema.Conforms given type value)
    (hinput : schema.isInputRef type) (hsub : schema.isSubtype type super) :
    schema.Conforms given super value := by
  -- No object type is an input type, so both types have the same name inside.
  have hnames {sub super : String} {b b' : Bool} (hinput : schema.isInputRef (.named sub b))
      (h : schema.isSubtype (.named sub b) (.named super b')) : sub = super := by
    simp only [isSubtype, Bool.and_eq_true, Bool.or_eq_true, decide_eq_true_eq] at h
    refine h.2.resolve_right fun hpossible => ?_
    unfold isPossibleName at hpossible
    obtain ⟨t, ht, hinput⟩ := (Option.any_eq_true _ _).mp hinput
    have ht : schema.type? sub = some t := ht
    rw [ht] at hpossible
    split at hpossible
    · rename_i u v hu hv
      cases hu
      have hobject := (Bool.and_eq_true_iff.mp hpossible).1
      unfold TypeDef.isObjectType at hobject
      unfold TypeDef.isInputType at hinput
      split at hobject <;> simp_all
    · cases hpossible
  induction h generalizing super with
  | @null type hnullable =>
      refine .null ?_
      cases type <;> cases super <;> simp_all [isSubtype, TypeRef.isNullable]
  | @list item nullable values _ ih =>
      cases super with
      | named => simp [isSubtype] at hsub
      | list superItem superNullable =>
          simp only [isSubtype, Bool.and_eq_true] at hsub
          exact .list fun value hvalue => ih value hvalue hinput hsub.2
  | plain hname h =>
      cases super with
      | named => exact hnames hinput hsub ▸ .plain hname h
      | list => simp [isSubtype] at hsub
  | lost hname hgiven h =>
      cases super with
      | named => exact hnames hinput hsub ▸ .lost hname hgiven h
      | list => simp [isSubtype] at hsub
  | enum ht hd hentry h =>
      cases super with
      | named => exact hnames hinput hsub ▸ .enum ht hd hentry h
      | list => simp [isSubtype] at hsub
  | object hd hknown hvalues hrequired =>
      cases super with
      | named => exact hnames hinput hsub ▸ .object hd hknown hvalues hrequired
      | list => simp [isSubtype] at hsub

end Schema

end GraphQL
