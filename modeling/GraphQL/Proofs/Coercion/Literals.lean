import Mathlib
import GraphQL.Coercion.LiteralFaults
import GraphQL.Proofs.Coercion.Constants
import GraphQL.Proofs.Coercion.Reading

/-!
# Values of literals
-/

namespace GraphQL

variable {schema : Schema} {given : Value → Prop}

namespace Literal

/-! ## Variables in literals -/

/-- Somewhere in a literal a variable is used, where a value of some type is expected. -/
inductive Uses (schema : Schema) : Value → TypeRef → String → TypeRef → Prop
  | var (v : Variable) (type : TypeRef) : Uses schema (.var v) type v.name.text type
  | item {items : List Value} {span : Option Span} {item expected : TypeRef} {nullable : Bool}
      {literal : Value} {name : String} (hmem : literal ∈ items)
      (h : Uses schema literal item name expected) :
      Uses schema (.list items span) (.list item nullable) name expected
  | field {fields : List ObjectField} {span : Option Span} {type expected : TypeRef}
      {d : InputObjectDef} {f : ObjectField} {field : InputDef} {name : String}
      (hd : schema.inputObject? type.innermostName = some d) (hmem : f ∈ fields)
      (hfield : Assoc.get? d.fields f.name.text = some field)
      (h : Uses schema f.value field.type name expected) :
      Uses schema (.object fields span) type name expected

/-- The variables that are used in a literal have values that conform to the types that are
expected there, null apart. -/
def Supplied (schema : Schema) (given : Value → Prop) (bindings : Option Json.Members)
    (literal : Value) (type : TypeRef) : Prop :=
  ∀ name expected value, Uses schema literal type name expected →
    bindings.bind (Assoc.get? · name) = some value → value ≠ .null →
    schema.Conforms given expected value

/-- What holds of a literal holds of its parts. -/
structure OfParts (given : Value → Prop) : Prop where
  items : ∀ items span, given (.list items span) → ∀ literal ∈ items, given literal
  fields : ∀ fields span, given (.object fields span) → ∀ f ∈ fields, given f.value

/-! ## What is read conforms -/

theorem assembled_assemble? {readings : List (String × Reading)}
    {fields : List (String × InputDef)} {members : Json.Members}
    (h : assemble? readings fields = some members) :
    Assembled (fun name field value? =>
      fieldValue? field ((Assoc.get? readings name).getD .missing) = some value?) fields
      members := by
  induction fields generalizing members with
  | nil =>
      obtain rfl := Option.some.inj h
      exact .nil
  | cons field rest ih =>
      obtain ⟨name, field⟩ := field
      rw [assemble?] at h
      obtain ⟨value?, hvalue, h⟩ := Option.bind_eq_some_iff.mp h
      obtain ⟨members', hmembers, h⟩ := Option.bind_eq_some_iff.mp h
      obtain rfl := Option.some.inj h
      exact .cons hvalue (ih hmembers)

/-- Literals that are neither variables, nor null, nor items of a list type, nor fields of an
input object are left to the named type. -/
theorem conforms_of_leaf {bindings : Option Json.Members} {literal : Value} {type : TypeRef}
    {value : Json} (hdefinite : schema.IsDefinite) (hliteral : literal.isNull = false)
    (hgiven : given literal)
    (hleaf : read schema bindings literal type =
      (readLeaf schema literal type.innermostName).map type.wrap)
    (h : read schema bindings literal type = .value value) : schema.Conforms given type value := by
  rw [hleaf] at h
  cases hread : readLeaf schema literal type.innermostName with
  | value found =>
      obtain rfl : type.wrap found = value := by simpa [hread, Reading.map] using h
      exact Schema.Conforms.wrap fun nullable =>
        Schema.conforms_of_readLeaf hdefinite hliteral hgiven hread
  | missing => simp [hread, Reading.map] at h
  | invalid => simp [hread, Reading.map] at h

theorem conforms_of_readVariable {bindings : Option Json.Members} {name : String}
    {type : TypeRef} {value : Json} (h : readVariable bindings name type = .value value)
    (hsupplied : ∀ value, bindings.bind (Assoc.get? · name) = some value → value ≠ .null →
      schema.Conforms given type value) : schema.Conforms given type value := by
  unfold readVariable at h
  split at h
  · rename_i found hfound
    split at h
    · cases h
    · rename_i hnull
      obtain rfl : found = value := by simpa using h
      by_cases hvalue : found = .null
      · subst hvalue
        exact .null (by simpa [Json.isNull, TypeRef.isNonNull] using hnull)
      · exact hsupplied found hfound hvalue
  · cases h

mutual

/-- The value of a literal conforms to the type that is expected. -/
theorem conforms_of_read (hinputs : schema.InputsSound) (hdefinite : schema.IsDefinite)
    (hparts : OfParts given) {bindings : Option Json.Members} :
    ∀ {literal : Value} {type : TypeRef} {value : Json}, given literal →
      Supplied schema given bindings literal type →
      read schema bindings literal type = .value value → schema.Conforms given type value
  | .var v, type, value, _, hsupplied, h => by
      rw [read] at h
      exact conforms_of_readVariable h fun found => hsupplied _ type found (.var v type)
  | .null span, type, value, _, _, h => by
      rw [read] at h
      split at h
      · rename_i hnullable
        obtain rfl : .null = value := by simpa using h
        exact .null hnullable
      · cases h
  | .list items span, .list item nullable, value, hgiven, hsupplied, h => by
      rw [read] at h
      obtain ⟨values, hvalues, rfl⟩ := Option.map_eq_some_iff.mp (exists_of_ofOption h)
      refine .list (conforms_of_readItems hinputs hdefinite hparts (hparts.items items span hgiven)
        (fun literal hmem name expected found huses => ?_) hvalues)
      exact hsupplied name expected found (.item hmem huses)
  | .list items span, .named name nullable, value, hgiven, _, h =>
      conforms_of_leaf hdefinite rfl hgiven (by rw [read] <;> simp) h
  | .object fields span, type, value, hgiven, hsupplied, h => by
      cases hd : schema.inputObject? type.innermostName with
      | none => exact conforms_of_leaf hdefinite rfl hgiven (by rw [read, hd]) h
      | some d =>
          rw [read] at h
          simp only [hd] at h
          obtain ⟨members, hmembers, rfl⟩ := Option.map_eq_some_iff.mp (exists_of_ofOption h)
          have hsound := hinputs hd
          refine Schema.Conforms.wrap fun nullable => Schema.Fills.conforms ?_ hd
          refine (assembled_assemble? hmembers).fills hsound.nodup
            (fun name field value hfield hgives => ?_) (fun name field hfield hgives => ?_)
          · unfold fieldValue? at hgives
            split at hgives
            · rename_i found hreading
              obtain rfl : found = value := by simpa using hgives
              have hreading : Assoc.get? (readFields schema bindings fields d.fields) name =
                  some (.value found) := by
                cases hget : Assoc.get? (readFields schema bindings fields d.fields) name with
                | none => simp [hget] at hreading
                | some reading => simpa [hget] using hreading
              refine conforms_of_readFields hinputs hdefinite hparts
                (hparts.fields fields span hgiven)
                (fun f hmem field hget name expected found huses => ?_)
                (Assoc.get?_of_mem hsound.nodup hfield) hreading
              exact hsupplied name expected found (.field hd hmem hget huses)
            · cases hgives
            · split at hgives
              · rename_i default hdefault
                obtain rfl : default = value := by simpa using hgives
                exact (hsound.default _ hfield default hdefault).mono nofun
              · split at hgives <;> simp at hgives
          · unfold fieldValue? at hgives
            split at hgives
            · simp at hgives
            · cases hgives
            · split at hgives
              · simp at hgives
              · split at hgives
                · cases hgives
                · rename_i hnonNull
                  simpa using hnonNull
  | .int text span, type, value, hgiven, _, h =>
      conforms_of_leaf hdefinite rfl hgiven (by rw [read] <;> simp) h
  | .float text span, type, value, hgiven, _, h =>
      conforms_of_leaf hdefinite rfl hgiven (by rw [read] <;> simp) h
  | .string text block span, type, value, hgiven, _, h =>
      conforms_of_leaf hdefinite rfl hgiven (by rw [read] <;> simp) h
  | .boolean b span, type, value, hgiven, _, h =>
      conforms_of_leaf hdefinite rfl hgiven (by rw [read] <;> simp) h
  | .enum name span, type, value, hgiven, _, h =>
      conforms_of_leaf hdefinite rfl hgiven (by rw [read] <;> simp) h

theorem conforms_of_readItems (hinputs : schema.InputsSound) (hdefinite : schema.IsDefinite)
    (hparts : OfParts given) {bindings : Option Json.Members} :
    ∀ {items : List Value} {type : TypeRef} {values : List Json},
      (∀ literal ∈ items, given literal) →
      (∀ literal ∈ items, Supplied schema given bindings literal type) →
      readItems schema bindings items type = some values →
        ∀ value ∈ values, schema.Conforms given type value
  | [], type, values, _, _, h => by
      obtain rfl : [] = values := by simpa [readItems] using h
      simp
  | item :: rest, type, values, hgiven, hsupplied, h => by
      obtain ⟨hgiven, hgivenRest⟩ := List.forall_mem_cons.mp hgiven
      obtain ⟨hsupplied, hsuppliedRest⟩ := List.forall_mem_cons.mp hsupplied
      simp only [readItems] at h
      split at h
      · rename_i first others hfirst hothers
        obtain rfl := Option.some.inj h
        refine List.forall_mem_cons.mpr ⟨?_, conforms_of_readItems hinputs hdefinite hparts
          hgivenRest hsuppliedRest hothers⟩
        split at hfirst
        · rename_i found hread
          obtain rfl := Option.some.inj hfirst
          exact conforms_of_read hinputs hdefinite hparts hgiven hsupplied hread
        · cases hfirst
        · split at hfirst
          · cases hfirst
          · rename_i hnonNull
            obtain rfl := Option.some.inj hfirst
            exact .null (by simpa [TypeRef.isNonNull] using hnonNull)
      · cases h

theorem conforms_of_readFields (hinputs : schema.InputsSound) (hdefinite : schema.IsDefinite)
    (hparts : OfParts given) {bindings : Option Json.Members} :
    ∀ {fields : List ObjectField} {table : List (String × InputDef)} {name : String}
      {field : InputDef} {value : Json}, (∀ f ∈ fields, given f.value) →
      (∀ f ∈ fields, ∀ field, Assoc.get? table f.name.text = some field →
        Supplied schema given bindings f.value field.type) →
      Assoc.get? table name = some field →
      Assoc.get? (readFields schema bindings fields table) name = some (.value value) →
        schema.Conforms given field.type value
  | [], table, name, field, value, _, _, _, h => by
      simp [readFields, Assoc.get?] at h
  | ⟨key, literal, span⟩ :: rest, table, name, field, value, hgiven, hsupplied, hfield, h => by
      obtain ⟨hgiven, hgivenRest⟩ := List.forall_mem_cons.mp hgiven
      obtain ⟨hsupplied, hsuppliedRest⟩ := List.forall_mem_cons.mp hsupplied
      rw [readFields, Assoc.get?_cons] at h
      by_cases hkey : key.text = name
      · subst hkey
        simp only [if_true, hfield] at h
        exact conforms_of_read hinputs hdefinite hparts hgiven (hsupplied field hfield)
          (Option.some.inj h)
      · rw [if_neg hkey] at h
        exact conforms_of_readFields hinputs hdefinite hparts hgivenRest hsuppliedRest hfield h

end

end Literal

end GraphQL
