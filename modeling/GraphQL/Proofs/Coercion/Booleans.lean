import GraphQL.Proofs.Coercion.Constants
import GraphQL.Proofs.Coercion.Provided
import GraphQL.Proofs.Coercion.Scalars

/-!
# Values of the type Boolean

Where the type Boolean is that of every schema, its values are Booleans, apart from null: those of
literals (`Literal.isBoolean_or_null_of_coerce?`), those that come with a request
(`Input.isBoolean_of_coerce`), and so those of variables (`Variables.isBoolean_or_null_of_value?`).
A literal that passes the check where a Boolean is required is one, or a variable
(`Literal.boolean_or_var_of_problems`).
-/

namespace GraphQL

namespace Json

/-- The value is true or false. -/
def IsBoolean (value : Json) : Prop := ∃ b, value = .bool b

end Json

variable {schema : Schema} (hboolean : schema.type? Scalar.booleanName = some Scalar.boolean)
  {nullable : Bool} {value found : Json}
include hboolean

theorem Schema.inputObject?_boolean : schema.inputObject? Scalar.booleanName = none :=
  inputObject?_of_scalar hboolean rfl

theorem Schema.isInputRef_boolean (nullable : Bool) :
    schema.isInputRef (.named Scalar.booleanName nullable) := by
  simp [isInputRef, namedType?, TypeRef.innermostName, hboolean, Scalar.boolean, Scalar.builtin,
    TypeDef.isInputType]

/-- Only Boolean itself can be used for Boolean. -/
theorem Schema.eq_of_isSubtype_boolean {type : TypeRef}
    (h : schema.isSubtype type (.named Scalar.booleanName false)) :
    type = .named Scalar.booleanName false := by
  cases type with
  | list item nullable => simp [isSubtype] at h
  | named name nullable =>
      simp only [isSubtype, Bool.false_or, Bool.and_eq_true, Bool.not_eq_true',
        Bool.or_eq_true, decide_eq_true_eq] at h
      obtain ⟨rfl, rfl | hpossible⟩ := h
      · rfl
      · -- No object type is one of Boolean.
        unfold isPossibleName at hpossible
        rw [hboolean] at hpossible
        split at hpossible
        · rename_i sub super _ hsuper
          obtain rfl := Option.some.inj hsuper
          cases (isAbstractType_of_isPossibleType (Bool.and_eq_true_iff.mp hpossible).2)
        · cases hpossible

/-! ## Literals -/

namespace Literal

variable {literal : Value} {bindings : Option Json.Members}

theorem readLeaf_boolean : readLeaf schema literal Scalar.booleanName =
    match Scalar.parseBooleanLiteral literal with
    | .ok value => .value value
    | .error _ => .invalid := by
  rw [readLeaf, hboolean, Option.bind_some, Scalar.boolean, Scalar.ofLiteral?_builtin]
  cases Scalar.parseBooleanLiteral literal <;> rfl

theorem isBoolean_of_readLeaf (h : readLeaf schema literal Scalar.booleanName = .value found) :
    (∃ b span, literal = .boolean b span) ∧ found.IsBoolean := by
  rw [readLeaf_boolean hboolean] at h
  split at h
  · rename_i value hvalue
    obtain ⟨b, span, rfl, rfl⟩ := Scalar.exists_of_parseBooleanLiteral hvalue
    exact ⟨⟨b, span, rfl⟩, b, by simpa using h.symm⟩
  · cases h

theorem coerce?_boolean (b : Bool) (span : Option Span) :
    coerce? schema bindings (.boolean b span) (.named Scalar.booleanName nullable) =
      some (.bool b) := by
  rw [coerce?, read]
  · rw [TypeRef.innermostName, readLeaf_boolean hboolean]
    rfl
  all_goals simp

/-- A literal that passes the check where a Boolean is required. -/
theorem boolean_or_var_of_problems
    (h : problems schema literal (.named Scalar.booleanName false) = []) :
    (∃ b span, literal = .boolean b span) ∨ ∃ v, literal = .var v := by
  have hleaf (h : leafProblems schema literal Scalar.booleanName = []) :
      (∃ b span, literal = .boolean b span) ∨ ∃ v, literal = .var v := by
    obtain ⟨value, hvalue⟩ := exists_of_leafProblems (schema.isInputRef_boolean hboolean true) h
    exact .inl (isBoolean_of_readLeaf hboolean hvalue).1
  cases literal with
  | var v => exact .inr ⟨v, rfl⟩
  | null span => simp [problems, omittedProblems, TypeRef.isNonNull, TypeRef.isNullable] at h
  | object fields span =>
      rw [problems, TypeRef.innermostName, schema.inputObject?_boolean hboolean] at h
      exact hleaf h
  | _ =>
      rw [problems] at h
      · exact hleaf h
      all_goals simp

/-- The value of a literal where a Boolean is expected, without variables that have values. -/
theorem isBoolean_or_null_of_coerce?
    (h : coerce? schema none literal (.named Scalar.booleanName nullable) = some found) :
    found = .null ∨ found.IsBoolean := by
  have hleaf (h : (readLeaf schema literal Scalar.booleanName).map
      (TypeRef.named Scalar.booleanName nullable).wrap = .value found) :
      found = .null ∨ found.IsBoolean := by
    cases hread : readLeaf schema literal Scalar.booleanName with
    | value value =>
        obtain rfl : value = found := by simpa [hread, Reading.map, TypeRef.wrap] using h
        exact .inr (isBoolean_of_readLeaf hboolean hread).2
    | missing => simp [hread, Reading.map] at h
    | invalid => simp [hread, Reading.map] at h
  have h := read_of_coerce? h
  cases literal with
  | var v => simp [read, readVariable] at h
  | null span =>
      rw [read] at h
      split at h <;> simp_all
  | object fields span =>
      simp only [read, TypeRef.innermostName, schema.inputObject?_boolean hboolean] at h
      exact hleaf h
  | _ =>
      rw [read] at h
      · exact hleaf h
      all_goals simp

end Literal

/-! ## Values of requests -/

/-- A value of a request that is taken for a Boolean is one, if it is not null. -/
theorem Input.isBoolean_of_coerce (hvalue : value ≠ .null)
    (h : coerce schema value (.named Scalar.booleanName nullable) = .ok found) :
    found.IsBoolean := by
  have hleaf (h : (coerceLeaf schema [] value Scalar.booleanName).problems = []) :
      (coerceLeaf schema [] value Scalar.booleanName).value.IsBoolean := by
    unfold coerceLeaf at h ⊢
    simp only [hboolean, Scalar.boolean, Scalar.builtin, ScalarDef.ofInput,
      Scalar.parseBooleanValue] at h ⊢
    cases value with
    | bool b => exact ⟨b, rfl⟩
    | _ => simp [Checked.fail] at h
  have hat : coerceAt schema [] value (.named Scalar.booleanName nullable) =
      coerceLeaf schema [] value Scalar.booleanName := by
    cases value with
    | null => exact absurd rfl hvalue
    | object members =>
        simp only [coerceAt, TypeRef.innermostName, schema.inputObject?_boolean hboolean]
        rfl
    | _ =>
        rw [coerceAt]
        · rfl
        all_goals simp
  unfold coerce at h
  simp only [hat] at h
  split at h
  · rename_i hnone
    exact Except.ok.inj h ▸ hleaf hnone
  · cases h

/-! ## Variables -/

namespace Variables

variable {inputs : Json.Members} {d : VariableDefinition}

/-- The value of a variable of the type Boolean. -/
theorem isBoolean_or_null_of_value?
    (htype : schema.resolve? d.type = some (.named Scalar.booleanName nullable))
    (h : value? schema inputs d = .ok (some found)) :
    found = .null ∨ found.IsBoolean := by
  simp only [value?, htype, Option.filter_some, schema.isInputRef_boolean hboolean, if_true] at h
  split at h
  · split at h
    · exact Literal.isBoolean_or_null_of_coerce? hboolean (Except.ok.inj h)
    · split at h <;> simp at h
  · split at h <;> simp_all
  · rename_i value hvalue _
    split at h
    · rename_i coerced hcoerced
      obtain rfl : coerced = found := by simpa using h
      exact .inr (Input.isBoolean_of_coerce hboolean (by rintro rfl; simp_all) hcoerced)
    · cases h

/-- A variable of the type Boolean that may not be null and has no default has a value. -/
theorem exists_isBoolean_of_value? {found? : Option Json}
    (htype : schema.resolve? d.type = some (.named Scalar.booleanName false))
    (hdefault : d.defaultValue = none) (h : value? schema inputs d = .ok found?) :
    ∃ found, found? = some found ∧ found.IsBoolean := by
  simp only [value?, htype, Option.filter_some, schema.isInputRef_boolean hboolean, if_true,
    hdefault] at h
  split at h
  · simp [TypeRef.isNonNull, TypeRef.isNullable] at h
  · simp [TypeRef.isNonNull, TypeRef.isNullable] at h
  · rename_i value hvalue _
    split at h
    · rename_i coerced hcoerced
      refine ⟨coerced, (Except.ok.inj h).symm, ?_⟩
      exact Input.isBoolean_of_coerce hboolean (by rintro rfl; simp_all) hcoerced
    · cases h

end Variables

end GraphQL
