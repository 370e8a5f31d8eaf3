import Mathlib
import GraphQL.Proofs.Coercion.Arguments
import GraphQL.Proofs.Coercion.Constants
import GraphQL.Proofs.Schema.Roles

/-!
# Literals and arguments that have values

A literal in which validation finds no problem has a value, if every variable in it has one that is
not null wherever null may not stand (`Literal.Provided`, `Literal.answers_of_problems`).  A
variable without a value does no harm elsewhere: as an item of a list it counts as null, and as a
field of an input object it gives way to the default.  So an argument that fails was left out
although it is required, or uses a variable where null may not stand
(`Arguments.fails_of_error`).
-/

namespace GraphQL

variable {schema : Schema}

namespace Literal

variable {bindings : Option Json.Members} {literal : Value} {type : TypeRef}

/-! ## Variables that have values -/

/-- Where null may not stand, the variables in a literal have values other than null. -/
def Provided (schema : Schema) (bindings : Option Json.Members) (literal : Value)
    (type : TypeRef) : Prop :=
  ∀ name expected, Uses schema literal type name expected → expected.isNonNull →
    ∃ value, bindings.bind (Assoc.get? · name) = some value ∧ value ≠ .null

/-- No variable is used in a constant. -/
theorem Uses.not_isConst {name : String} {expected : TypeRef}
    (h : Uses schema literal type name expected) : literal.isConst = false := by
  induction h with
  | var v type => rfl
  | @item items span _ _ _ literal _ hmem _ ih =>
      rw [Value.isConst, Bool.eq_false_iff]
      intro hconst
      simp [isConst_of_areConst hconst literal hmem] at ih
  | @field fields span _ _ _ f _ _ _ hmem _ _ ih =>
      rw [Value.isConst, Bool.eq_false_iff]
      intro hconst
      simp [isConst_of_fieldsAreConst hconst f hmem] at ih

theorem provided_of_isConst (h : literal.isConst) : Provided schema bindings literal type :=
  fun _ _ huses => absurd h (by simp [huses.not_isConst])

/-! ## Readings that answer -/

/-- The reading is a value, or that of a missing variable where null may stand. -/
def Answers (type : TypeRef) (reading : Reading) : Prop :=
  (∃ value, reading = .value value) ∨ reading = .missing ∧ type.isNonNull = false

/-- A literal of a scalar or an enum without problems has a value. -/
theorem exists_of_leafProblems {name : String} (hinput : schema.isInputRef (.ofName name))
    (h : leafProblems schema literal name = []) :
    ∃ value, readLeaf schema literal name = .value value := by
  obtain ⟨t, ht, htinput⟩ := (Option.any_eq_true _ _).mp hinput
  have ht : schema.type? name = some t := ht
  unfold leafProblems at h
  unfold readLeaf
  simp only [ht] at h
  cases hbody : t.body with
  | scalar d =>
      cases hread : d.ofLiteral t.name literal with
      | ok value => exact ⟨value, by simp [ht, TypeDef.ofLiteral?, hbody, hread]⟩
      | error reason => simp [hbody, hread] at h
  | enum d =>
      cases hread : d.ofLiteral t.name literal with
      | ok value => exact ⟨value, by simp [ht, TypeDef.ofLiteral?, hbody, hread]⟩
      | error reason => simp [hbody, hread] at h
  | inputObject d => simp [hbody] at h
  | _ => simp [TypeDef.isInputType, hbody] at htinput

/-- A literal that is left to its named type, like one of a scalar or an enum. -/
theorem answers_of_leaf (hinput : schema.isInputRef type)
    (hread : read schema bindings literal type =
      (readLeaf schema literal type.innermostName).map type.wrap)
    (hproblems : problems schema literal type = leafProblems schema literal type.innermostName)
    (h : problems schema literal type = []) : Answers type (read schema bindings literal type) := by
  rw [hproblems] at h
  obtain ⟨value, hvalue⟩ := exists_of_leafProblems hinput h
  exact Or.inl ⟨_, by rw [hread, hvalue, Reading.map]⟩

/-- A variable that has a value where null may not stand. -/
theorem answers_of_readVariable {name : String}
    (h : type.isNonNull → ∃ value, bindings.bind (Assoc.get? · name) = some value ∧
      value ≠ .null) : Answers type (readVariable bindings name type) := by
  unfold readVariable
  split
  · rename_i value hvalue
    split
    · rename_i hnull
      obtain ⟨hnull, hnonNull⟩ := Bool.and_eq_true_iff.mp hnull
      obtain ⟨value', hvalue', hne⟩ := h hnonNull
      obtain rfl := Option.some.inj (hvalue.symm.trans hvalue')
      cases value <;> simp_all [Json.isNull]
    · exact Or.inl ⟨value, rfl⟩
  · rename_i hnone
    refine Or.inr ⟨rfl, ?_⟩
    by_contra hnonNull
    obtain ⟨value, hvalue, -⟩ := h (by simpa using hnonNull)
    rw [hnone] at hvalue
    cases hvalue

/-- The fields of an input object answer, so it has a value. -/
theorem exists_assemble? {readings : List (String × Reading)} {fields : List (String × InputDef)}
    (h : ∀ name field, (name, field) ∈ fields →
      (∀ reading, Assoc.get? readings name = some reading → Answers field.type reading) ∧
      (Assoc.get? readings name = none → field.type.isNonNull = true →
        field.defaultValue.isSome)) :
    ∃ members, assemble? readings fields = some members := by
  induction fields with
  | nil => exact ⟨[], rfl⟩
  | cons entry rest ih =>
      obtain ⟨name, field⟩ := entry
      obtain ⟨members, hmembers⟩ := ih fun name field hmem => h name field (List.mem_cons_of_mem _ hmem)
      have hfield : ∃ value?, fieldValue? field ((Assoc.get? readings name).getD .missing) =
          some value? := by
        obtain ⟨hanswers, hdefault⟩ := h name field List.mem_cons_self
        cases hget : Assoc.get? readings name with
        | some reading =>
            rcases hanswers reading hget with ⟨value, rfl⟩ | ⟨rfl, hnullable⟩
            · exact ⟨some value, rfl⟩
            · simp only [Option.getD_some, fieldValue?, hnullable]
              split <;> exact ⟨_, rfl⟩
        | none =>
            simp only [Option.getD_none, fieldValue?]
            split
            · exact ⟨_, rfl⟩
            · rename_i hnone
              cases hnonNull : field.type.isNonNull with
              | false => exact ⟨none, rfl⟩
              | true => simpa [hnone] using hdefault hget hnonNull
      obtain ⟨value?, hvalue⟩ := hfield
      exact ⟨_, by rw [assemble?, hvalue, hmembers]; rfl⟩

/-- The fields that are read are those that are checked. -/
theorem get?_readFields_eq_none_iff {fields : List ObjectField}
    {table : List (String × InputDef)} {name : String} :
    Assoc.get? (readFields schema bindings fields table) name = none ↔
      Assoc.get? (fieldProblems schema fields table) name = none := by
  induction fields with
  | nil => simp [readFields, fieldProblems, Assoc.get?]
  | cons f rest ih =>
      obtain ⟨key, literal, span⟩ := f
      rw [readFields, fieldProblems, Assoc.get?_cons, Assoc.get?_cons]
      by_cases hkey : key.text = name
      · simp [hkey]
      · simpa [hkey] using ih

/-! ## Literals that answer -/

mutual

/-- A literal without problems has a value, if its variables have values where null may not
stand.  Only a variable may have none elsewhere. -/
theorem answers_of_problems (hinputs : schema.InputsSound) (hfields : schema.FieldsAreInputs) :
    ∀ {literal : Value} {type : TypeRef}, schema.isInputRef type →
      problems schema literal type = [] → Provided schema bindings literal type →
      Answers type (read schema bindings literal type)
  | .var v, type, _, _, hprovided => by
      rw [read]
      exact answers_of_readVariable (hprovided _ type (.var v type))
  | .null span, type, _, h, _ => by
      simp only [problems, omittedProblems] at h
      rw [read]
      split
      · exact Or.inl ⟨.null, rfl⟩
      · simp_all [TypeRef.isNonNull]
  | .list items span, .list item nullable, hinput, h, hprovided => by
      rw [problems] at h
      have hitem : schema.isInputRef item := hinput
      obtain ⟨values, hvalues⟩ := exists_of_itemProblems hinputs hfields hitem h
        fun literal hmem name expected huses => hprovided name expected (.item hmem huses)
      exact Or.inl ⟨.array values, by rw [read, hvalues]; rfl⟩
  | .list items span, .named name nullable, hinput, h, _ =>
      answers_of_leaf hinput (by rw [read] <;> simp) (by rw [problems] <;> simp) h
  | .object fields span, type, hinput, h, hprovided => by
      cases hd : schema.inputObject? type.innermostName with
      | none => exact answers_of_leaf hinput (by rw [read, hd]) (by rw [problems, hd]) h
      | some d =>
          rw [problems] at h
          simp only [hd, List.append_eq_nil_iff, List.flatMap_eq_nil_iff, List.map_eq_nil_iff] at h
          obtain ⟨members, hmembers⟩ : ∃ members,
              assemble? (readFields schema bindings fields d.fields) d.fields = some members := by
            refine exists_assemble? fun name field hmem => ?_
            have hnone := h.2 (name, field) hmem
            have hfield := Assoc.get?_of_mem (hinputs hd).nodup hmem
            refine ⟨fun reading hreading => ?_, fun hreading hnonNull => ?_⟩
            · refine answers_of_fieldProblems hinputs hfields hfield (hfields _ d hd _ hmem)
                (fun f hf hname name expected huses => ?_) (fun found hfound => ?_) hreading
              · exact hprovided name expected
                  (.field hd hf (hname.symm ▸ hfield) huses)
              · simpa [hfound] using hnone
            · rw [get?_readFields_eq_none_iff.mp hreading, Option.getD_none, omittedProblems,
                if_pos hnonNull] at hnone
              cases hnone
          exact Or.inl ⟨type.wrap (.object members), by rw [read]; simp [hd, hmembers, Reading.ofOption]⟩
  | .int text span, type, hinput, h, _ =>
      answers_of_leaf hinput (by rw [read] <;> simp) (by rw [problems] <;> simp) h
  | .float text span, type, hinput, h, _ =>
      answers_of_leaf hinput (by rw [read] <;> simp) (by rw [problems] <;> simp) h
  | .string text block span, type, hinput, h, _ =>
      answers_of_leaf hinput (by rw [read] <;> simp) (by rw [problems] <;> simp) h
  | .boolean b span, type, hinput, h, _ =>
      answers_of_leaf hinput (by rw [read] <;> simp) (by rw [problems] <;> simp) h
  | .enum name span, type, hinput, h, _ =>
      answers_of_leaf hinput (by rw [read] <;> simp) (by rw [problems] <;> simp) h

theorem exists_of_itemProblems (hinputs : schema.InputsSound) (hfields : schema.FieldsAreInputs) :
    ∀ {items : List Value} {index : ℕ} {type : TypeRef}, schema.isInputRef type →
      itemProblems schema index items type = [] →
      (∀ literal ∈ items, Provided schema bindings literal type) →
      ∃ values, readItems schema bindings items type = some values
  | [], index, type, _, _, _ => ⟨[], rfl⟩
  | item :: rest, index, type, hinput, h, hprovided => by
      simp only [itemProblems, List.append_eq_nil_iff, List.map_eq_nil_iff] at h
      obtain ⟨hprovided, hprovidedRest⟩ := List.forall_mem_cons.mp hprovided
      obtain ⟨values, hvalues⟩ := exists_of_itemProblems hinputs hfields hinput h.2 hprovidedRest
      have hanswers := answers_of_problems hinputs hfields hinput h.1 hprovided
      rcases hanswers with ⟨value, hvalue⟩ | ⟨hmissing, hnullable⟩
      · exact ⟨value :: values, by simp [readItems, hvalue, hvalues]⟩
      · exact ⟨.null :: values, by simp [readItems, hmissing, hnullable, hvalues]⟩

theorem answers_of_fieldProblems (hinputs : schema.InputsSound) (hfields : schema.FieldsAreInputs) :
    ∀ {fields : List ObjectField} {table : List (String × InputDef)} {name : String}
      {field : InputDef} {reading : Reading},
      Assoc.get? table name = some field → schema.isInputRef field.type →
      (∀ f ∈ fields, f.name.text = name → Provided schema bindings f.value field.type) →
      (∀ found, Assoc.get? (fieldProblems schema fields table) name = some found → found = []) →
      Assoc.get? (readFields schema bindings fields table) name = some reading →
        Answers field.type reading
  | [], table, name, field, reading, _, _, _, _, h => by simp [readFields, Assoc.get?] at h
  | ⟨key, literal, span⟩ :: rest, table, name, field, reading, hfield, hinput, hprovided, hnone, h => by
      obtain ⟨hprovided, hprovidedRest⟩ := List.forall_mem_cons.mp hprovided
      rw [readFields, Assoc.get?_cons] at h
      rw [fieldProblems, Assoc.get?_cons] at hnone
      by_cases hkey : key.text = name
      · subst hkey
        simp only [if_true, hfield] at h hnone
        obtain rfl := Option.some.inj h
        exact answers_of_problems hinputs hfields hinput (hnone _ rfl) (hprovided rfl)
      · rw [if_neg hkey] at h hnone
        exact answers_of_fieldProblems hinputs hfields hfield hinput hprovidedRest hnone h

end

/-- A literal without problems, other than a variable, has a value, if its variables have values
where null may not stand. -/
theorem exists_coerce? (hinputs : schema.InputsSound) (hfields : schema.FieldsAreInputs)
    (hinput : schema.isInputRef type) (hvar : ∀ v, literal ≠ .var v)
    (h : problems schema literal type = []) (hprovided : Provided schema bindings literal type) :
    ∃ value, coerce? schema bindings literal type = some value := by
  unfold coerce?
  rcases answers_of_problems hinputs hfields hinput h hprovided with ⟨value, hvalue⟩ | ⟨hmissing, -⟩
  · exact ⟨value, by rw [hvalue, Reading.value?]⟩
  · exfalso
    have hleaf (name : String) : (readLeaf schema literal name).map type.wrap ≠ .missing := by
      unfold readLeaf
      split <;> simp [Reading.map]
    have hoption (found : Option Json) : Reading.ofOption found ≠ .missing := by
      cases found <;> simp [Reading.ofOption]
    unfold read at hmissing
    split at hmissing
    · exact hvar _ rfl
    · split at hmissing <;> cases hmissing
    · exact hoption _ hmissing
    · split at hmissing
      · exact hoption _ hmissing
      · exact hleaf _ hmissing
    · exact hleaf _ hmissing

end Literal

/-! ## Variables -/

namespace Variables

variable {definitions : List VariableDefinition} {inputs bindings : Json.Members}
  {d : VariableDefinition}

/-- A variable that cannot be read has a fault. -/
theorem value?_ne_error_nil : value? schema inputs d ≠ .error [] := by
  intro h
  unfold value? at h
  split at h
  · cases h
  split at h
  · split at h
    · cases h
    · split at h <;> cases h
  · split at h <;> cases h
  · split at h
    · cases h
    · rename_i problems hproblems
      obtain rfl : problems = [] := by simpa using h
      unfold Input.coerce at hproblems
      simp only at hproblems
      split at hproblems
      · cases hproblems
      · rename_i hne
        exact hne (Except.error.inj hproblems)

/-- If the variables of an operation are read, each of them is. -/
theorem exists_value?_of_coerce (h : coerce schema definitions inputs = .ok bindings)
    (hd : d ∈ definitions) : ∃ found, value? schema inputs d = .ok found := by
  unfold coerce at h
  simp only at h
  split at h
  · rename_i hnone
    have hfaults := List.flatMap_eq_nil_iff.mp hnone _
      (List.mem_map_of_mem (f := fun d => (d.var.name.text, value? schema inputs d)) hd)
    cases hvalue : value? schema inputs d with
    | error faults =>
        obtain rfl : faults = [] := by simpa [hvalue] using hfaults
        exact absurd hvalue value?_ne_error_nil
    | ok found => exact ⟨found, rfl⟩
  · cases h

/-- The value of a variable is bound to its name. -/
theorem get?_of_coerce {value : Json} (h : coerce schema definitions inputs = .ok bindings)
    (hnodup : (definitions.map (·.var.name.text)).Nodup) (hd : d ∈ definitions)
    (hvalue : value? schema inputs d = .ok (some value)) :
    Assoc.get? bindings d.var.name.text = some value := by
  unfold coerce at h
  simp only at h
  split at h
  · cases h
    refine Assoc.get?_ofList_of_mem ?_ ?_
    · have hkeys : (definitions.map fun d => (d.var.name.text, value? schema inputs d)).map (·.1) =
          definitions.map (·.var.name.text) := by
        rw [List.map_map]
        rfl
      refine (hkeys ▸ hnodup).sublist (Assoc.keys_filterMap_sublist fun entry found hfound => ?_)
      split at hfound <;> cases hfound
      rfl
    · exact List.mem_filterMap.mpr ⟨_, List.mem_map_of_mem hd, by simp [hvalue]⟩
  · cases h

/-- A variable that is bound has been read. -/
theorem exists_value?_of_get? {name : String} {value : Json}
    (h : coerce schema definitions inputs = .ok bindings)
    (hget : Assoc.get? bindings name = some value) :
    ∃ d ∈ definitions, d.var.name.text = name ∧ value? schema inputs d = .ok (some value) := by
  unfold coerce at h
  simp only at h
  split at h
  · cases h
    have hmem := Assoc.ofList_subset _ (Assoc.mem_of_get? hget)
    obtain ⟨⟨key, read⟩, hread, hentry⟩ := List.mem_filterMap.mp hmem
    obtain ⟨d, hd, heq⟩ := List.mem_map.mp hread
    obtain ⟨rfl, rfl⟩ := Prod.mk.inj heq
    split at hentry
    · rename_i found hfound
      obtain ⟨rfl, rfl⟩ : d.var.name.text = name ∧ found = value := by simpa using hentry
      exact ⟨d, hd, rfl, hfound⟩
    · cases hentry
  · cases h

/-- The type of a variable that is read is known. -/
theorem exists_type_of_value? {found? : Option Json} (h : value? schema inputs d = .ok found?) :
    ∃ type, schema.resolve? d.type = some type := by
  unfold value? at h
  split at h
  · cases h
  · rename_i type htype
    exact ⟨type, (Option.filter_eq_some_iff.mp htype).1⟩

/-- A variable that has a default or cannot be null has a value. -/
theorem exists_get?_of_coerce {type : TypeRef} (hinputs : schema.InputsSound)
    (hfields : schema.FieldsAreInputs) (h : coerce schema definitions inputs = .ok bindings)
    (hnodup : (definitions.map (·.var.name.text)).Nodup) (hd : d ∈ definitions)
    (htype : schema.resolve? d.type = some type)
    (hdefault : ∀ literal, d.defaultValue = some literal →
      literal.isConst ∧ Literal.problems schema literal type = [])
    (hvalue : d.defaultValue.isSome ∨ type.isNonNull) :
    ∃ value, Assoc.get? bindings d.var.name.text = some value := by
  obtain ⟨found, hfound⟩ := exists_value?_of_coerce h hd
  obtain ⟨value, rfl⟩ : ∃ value, found = some value := by
    unfold value? at hfound
    split at hfound
    · cases hfound
    rename_i type' htype'
    obtain ⟨htype', hinput⟩ := Option.filter_eq_some_iff.mp htype'
    obtain rfl := Option.some.inj (htype'.symm.trans htype)
    split at hfound
    · split at hfound
      · rename_i literal hliteral
        obtain ⟨hconst, hproblems⟩ := hdefault literal hliteral
        have hvar (v : Variable) : literal ≠ .var v := by
          rintro rfl
          simp [Value.isConst] at hconst
        obtain ⟨value, hvalue⟩ := Literal.exists_coerce? hinputs hfields hinput hvar hproblems
          (Literal.provided_of_isConst hconst)
        exact ⟨value, (Except.ok.inj hfound).symm.trans hvalue⟩
      · rename_i hnone
        rcases hvalue with hsome | hnonNull
        · simp [hnone] at hsome
        · simp [hnonNull] at hfound
    · split at hfound
      · cases hfound
      · exact ⟨.null, by simpa using hfound.symm⟩
    · split at hfound
      · exact ⟨_, by simpa using hfound.symm⟩
      · cases hfound
  exact ⟨value, get?_of_coerce h hnodup hd hfound⟩

end Variables

/-! ## Arguments -/

namespace Arguments

variable {bindings : Json.Members} {input : InputDef}

/-- Why an argument has no value: it was left out although it is required, or it uses a variable
where null may not stand, and that has no value or is null. -/
inductive Fails (schema : Schema) (bindings : Json.Members) (input : InputDef) :
    Option Argument → Prop
  | leftOut (h : input.isRequired) : Fails schema bindings input none
  | unsupplied {a : Argument} {name : String} {expected : TypeRef}
      (huses : Literal.Uses schema a.value input.type name expected) (hexpected : expected.isNonNull)
      (h : ∀ value, Assoc.get? bindings name = some value → value = .null) :
      Fails schema bindings input (some a)

theorem fails_of_error {given : Option Argument} {fault : ArgumentFault}
    (hinputs : schema.InputsSound) (hfields : schema.FieldsAreInputs)
    (hinput : schema.isInputRef input.type)
    (hgiven : ∀ a, given = some a → Literal.problems schema a.value input.type = [])
    (h : value? schema bindings input given = .error fault) : Fails schema bindings input given := by
  unfold value? at h
  simp only at h
  split at h
  · split at h
    · cases h
    · rename_i hnone
      split at h
      · rename_i hnonNull
        exact .leftOut (by simp [InputDef.isRequired, hnone, hnonNull])
      · cases h
  · rename_i a
    split at h
    · rename_i v hvar
      have huses : Literal.Uses schema a.value input.type v.name.text input.type :=
        hvar ▸ .var v input.type
      split at h
      · rename_i value hvalue
        split at h
        · rename_i hnull
          obtain ⟨hnull, hnonNull⟩ := Bool.and_eq_true_iff.mp hnull
          refine .unsupplied huses hnonNull fun value' hvalue' => ?_
          obtain rfl := Option.some.inj (hvalue.symm.trans hvalue')
          cases value <;> simp_all [Json.isNull]
        · cases h
      · cases h
      · rename_i hmissing _
        split at h
        · rename_i hnonNull
          exact .unsupplied huses hnonNull fun value hvalue => by simp [hmissing] at hvalue
        · cases h
    · rename_i hvar
      split at h
      · cases h
      · rename_i hnone
        by_contra hfails
        have hprovided : Literal.Provided schema (some bindings) a.value input.type := by
          intro name expected huses hnonNull
          by_contra hall
          push Not at hall
          exact hfails (.unsupplied huses hnonNull hall)
        obtain ⟨value, hvalue⟩ :=
          Literal.exists_coerce? hinputs hfields hinput hvar (hgiven a rfl) hprovided
        exact absurd (hnone.symm.trans hvalue) (Option.some_ne_none value).symm

/-- One of the arguments fails, if not all of them are read. -/
theorem exists_error_of_coerce {arguments : List Argument} {inputs : List (String × InputDef)}
    {e : ArgumentError} (h : coerce schema bindings arguments inputs = .error e) :
    ∃ input, (e.argument, input) ∈ inputs ∧ value? schema bindings input
      (arguments.find? (·.name.text = e.argument)) = .error e.fault := by
  induction inputs with
  | nil => cases h
  | cons entry rest ih =>
      obtain ⟨name, input⟩ := entry
      rw [coerce] at h
      split at h
      · rename_i fault hfault
        cases h
        exact ⟨input, List.mem_cons_self, hfault⟩
      · split at h
        · rename_i e' he'
          obtain rfl : e' = e := Except.error.inj h
          obtain ⟨input, hmem, hinput⟩ := ih he'
          exact ⟨input, List.mem_cons_of_mem _ hmem, hinput⟩
        · cases h

end Arguments

end GraphQL
