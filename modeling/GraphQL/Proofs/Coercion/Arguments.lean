import Mathlib
import GraphQL.Proofs.Coercion.Literals

/-!
# Values of variables and arguments
-/

namespace GraphQL

variable {schema : Schema} {given : Value → Prop}

/-! ## Variables -/

namespace Variables

/-- A variable that has a value has been defined, and its value is that of a definition. -/
theorem exists_of_get? {definitions : List VariableDefinition} {inputs bindings : Json.Members}
    {name : String} {value : Json} (h : coerce schema definitions inputs = .ok bindings)
    (hget : Assoc.get? bindings name = some value) :
    ∃ d ∈ definitions, d.var.name.text = name ∧ value? schema inputs d = .ok (some value) := by
  unfold coerce at h
  simp only at h
  split at h
  · cases h
    have hmem := Assoc.ofList_subset _ (Assoc.mem_of_get? hget)
    obtain ⟨⟨name', read⟩, hread, hvalue⟩ := List.mem_filterMap.mp hmem
    obtain ⟨d, hd, heq⟩ := List.mem_map.mp hread
    cases heq
    cases hfound : value? schema inputs d with
    | error faults => simp [hfound] at hvalue
    | ok found =>
        cases found with
        | none => simp [hfound] at hvalue
        | some found =>
            obtain ⟨rfl, rfl⟩ : d.var.name.text = name ∧ found = value := by
              simpa [hfound] using hvalue
            exact ⟨d, hd, rfl, hfound⟩
  · cases h

/-- The value of a variable conforms to its type, which is an input type. -/
theorem conforms_of_value? {d : VariableDefinition} {inputs : Json.Members} {value : Json}
    (hinputs : schema.InputsSound) (hdefinite : schema.IsDefinite)
    (hparts : Literal.OfParts given) (hdefault : ∀ literal, d.defaultValue = some literal → given literal)
    (h : value? schema inputs d = .ok (some value)) :
    ∃ type, schema.resolve? d.type = some type ∧ schema.isInputRef type ∧
      schema.Conforms given type value := by
  unfold value? at h
  split at h
  · cases h
  rename_i type htype
  obtain ⟨htype, hinput⟩ := Option.filter_eq_some_iff.mp htype
  refine ⟨type, htype, hinput, ?_⟩
  split at h
  · split at h
    · rename_i literal hliteral
      have hread : Literal.coerce? schema none literal type = some value := Except.ok.inj h
      unfold Literal.coerce? at hread
      cases hreading : Literal.read schema none literal type with
      | value found =>
          obtain rfl : found = value := by simpa [hreading, Reading.value?] using hread
          refine Literal.conforms_of_read hinputs hdefinite hparts (hdefault literal hliteral) ?_
            hreading
          exact fun name expected value _ hvalue => by simp at hvalue
      | missing => simp [hreading, Reading.value?] at hread
      | invalid => simp [hreading, Reading.value?] at hread
    · split at h <;> simp at h
  · split at h
    · cases h
    · rename_i hnonNull
      obtain rfl : .null = value := by simpa using h
      exact .null (by simpa [TypeRef.isNonNull] using hnonNull)
  · split at h
    · rename_i found hcoerced
      obtain rfl : found = value := by simpa using h
      unfold Input.coerce at hcoerced
      simp only at hcoerced
      split at hcoerced
      · rename_i hproblems
        obtain rfl := Except.ok.inj hcoerced
        exact Input.conforms_of_coerceAt hinputs hdefinite.readsNoNull hproblems
      · cases hcoerced
    · cases h

end Variables

/-! ## Arguments -/

namespace Arguments

variable {bindings members : Json.Members} {arguments : List Argument}
  {inputs : List (String × InputDef)}

theorem assembled_coerce (h : coerce schema bindings arguments inputs = .ok members) :
    Assembled (fun name input found => value? schema bindings input
      (arguments.find? (·.name.text = name)) = .ok found) inputs members := by
  induction inputs generalizing members with
  | nil =>
      cases h
      exact .nil
  | cons input rest ih =>
      obtain ⟨name, input⟩ := input
      rw [coerce] at h
      split at h
      · cases h
      · rename_i found hfound
        split at h
        · cases h
        · rename_i others hothers
          cases h
          exact .cons hfound (ih hothers)

/-- The value of an argument conforms to its type. -/
theorem conforms_of_value? {input : InputDef} {argument? : Option Argument} {value : Json}
    (hinputs : schema.InputsSound) (hdefinite : schema.IsDefinite)
    (hparts : Literal.OfParts given)
    (hdefault : ∀ value, input.defaultValue = some value →
      schema.Conforms (fun _ => False) input.type value)
    (hgiven : ∀ a, argument? = some a → given a.value ∧
      Literal.Supplied schema given (some bindings) a.value input.type)
    (h : value? schema bindings input argument? = .ok (some value)) :
    schema.Conforms given input.type value := by
  have hdefault {value : Json} (h : input.defaultValue = some value) :
      schema.Conforms given input.type value := (hdefault value h).mono fun _ hnever => hnever.elim
  unfold value? at h
  simp only at h
  split at h
  · split at h
    · rename_i found hfound
      obtain rfl : found = value := by simpa using h
      exact hdefault hfound
    · split at h <;> cases h
  · rename_i a
    obtain ⟨hgiven, hsupplied⟩ := hgiven a rfl
    split at h
    · rename_i v hvar
      split at h
      · rename_i found hfound
        split at h
        · cases h
        · rename_i hnull
          obtain rfl : found = value := by simpa using h
          by_cases hvalue : found = .null
          · subst hvalue
            exact .null (by simpa [Json.isNull, TypeRef.isNonNull] using hnull)
          · exact hsupplied _ _ found (hvar ▸ .var v input.type) hfound hvalue
      · rename_i found _ hfound
        obtain rfl : found = value := by simpa using h
        exact hdefault hfound
      · split at h <;> cases h
    · split at h
      · rename_i found hread
        obtain rfl : found = value := by simpa using h
        unfold Literal.coerce? at hread
        cases hreading : Literal.read schema (some bindings) a.value input.type with
        | value result =>
            obtain rfl : result = found := by simpa [hreading, Reading.value?] using hread
            exact Literal.conforms_of_read hinputs hdefinite hparts hgiven hsupplied hreading
        | missing => simp [hreading, Reading.value?] at hread
        | invalid => simp [hreading, Reading.value?] at hread
      · cases h

/-- An argument without a value may be null. -/
theorem isNonNull_eq_false_of_value? {input : InputDef} {argument? : Option Argument}
    (h : value? schema bindings input argument? = .ok none) : input.type.isNonNull = false := by
  unfold value? at h
  simp only at h
  split at h
  · split at h
    · simp at h
    · split at h
      · cases h
      · rename_i hnonNull
        simpa using hnonNull
  · split at h
    · split at h
      · split at h <;> simp at h
      · simp at h
      · split at h
        · cases h
        · rename_i hnonNull
          simpa using hnonNull
    · split at h <;> simp at h

/-- The values of arguments conform to their types, if the variables in the given ones have values
that do. -/
theorem fills_of_coerce (hinputs : schema.InputsSound) (hdefinite : schema.IsDefinite)
    (hparts : Literal.OfParts given) (hsound : schema.SoundInputs inputs)
    (hgiven : ∀ name input a, (name, input) ∈ inputs → a ∈ arguments → a.name.text = name →
      given a.value ∧ Literal.Supplied schema given (some bindings) a.value input.type)
    (h : coerce schema bindings arguments inputs = .ok members) :
    schema.Fills given inputs members := by
  refine (assembled_coerce h).fills hsound.nodup (fun name input value hmem hvalue => ?_)
    fun name input hmem hvalue => isNonNull_eq_false_of_value? hvalue
  refine conforms_of_value? hinputs hdefinite hparts (hsound.default _ hmem) (fun a ha => ?_) hvalue
  have hname : a.name.text = name := by simpa using List.find?_some ha
  exact hgiven name input a hmem (List.mem_of_find?_eq_some ha) hname

end Arguments

end GraphQL
