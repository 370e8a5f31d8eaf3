import Mathlib
import GraphQL.Proofs.Coercion.Provided
import GraphQL.Proofs.Execution.ArgumentValues
import GraphQL.Proofs.Introspection.Descriptions

/-!
# Arguments of introspection fields

Introspection has few arguments: the name that `__type` requires, and flags that may be left out.
Where no declared field has a name that is kept for introspection, validation has looked at the
same fields as execution, and so these arguments are read if the operation has no variables
(`Setting.Examines.exists_arguments`).
-/

namespace GraphQL

open Introspection

/-! ## Fields that are selected -/

namespace Schema

variable {schema : Schema} {t : TypeDef} {name : String} {d : FieldDef}

/-- The fields that lead to introspection are introspection fields, and have resolvers. -/
theorem mem_fields_of_leading
    (h : (name, d) ∈ [(schemaFieldName, schemaField), (typeFieldName, typeField),
      (typenameFieldName, typenameField)]) :
    (name, d) ∈ Introspection.fields ∧ d.resolver ≠ none := by
  simp only [List.mem_cons, List.not_mem_nil, or_false, Prod.mk.injEq] at h
  rcases h with ⟨rfl, rfl⟩ | ⟨rfl, rfl⟩ | ⟨rfl, rfl⟩
  · exact ⟨by simp [Introspection.fields], Option.some_ne_none _⟩
  · exact ⟨by simp [Introspection.fields], Option.some_ne_none _⟩
  · exact ⟨by simp [Introspection.fields], Option.some_ne_none _⟩

/-- A field that is found for a type is one of the three that lead to introspection, or is
declared. -/
theorem mem_fields_or_of_fieldDef? (hd : schema.fieldDef? t name = some d) :
    (name, d) ∈ Introspection.fields ∧ d.resolver ≠ none ∨ t.field? name = some d := by
  simp only [fieldDef?] at hd
  split at hd
  · rename_i h
    exact .inl (mem_fields_of_leading (by simp [h.1, Option.some.inj hd]))
  split at hd
  · rename_i h
    exact .inl (mem_fields_of_leading (by simp [h.1, Option.some.inj hd]))
  split at hd
  · rename_i h
    exact .inl (mem_fields_of_leading (by simp [h.1, Option.some.inj hd]))
  · exact .inr hd

/-- On the root of queries the three names lead to introspection, whatever is declared. -/
theorem mem_fields_of_root (hroot : t.name = schema.queryType.name) (hcomposite : t.isCompositeType)
    (hname : name ∈ [schemaFieldName, typeFieldName, typenameFieldName])
    (hd : schema.fieldDef? t name = some d) :
    (name, d) ∈ Introspection.fields ∧ d.resolver ≠ none := by
  apply mem_fields_of_leading
  simp only [List.mem_cons, List.not_mem_nil, or_false] at hname
  rcases hname with rfl | rfl | rfl
  · obtain rfl : schemaField = d := by simpa [fieldDef?, hroot] using hd
    simp
  · obtain rfl : typeField = d := by
      simpa [fieldDef?, hroot, schemaFieldName, typeFieldName] using hd
    simp
  · obtain rfl : typenameField = d := by
      simpa [fieldDef?, hcomposite, schemaFieldName, typeFieldName, typenameFieldName] using hd
    simp

/-- Where no field has a name that is kept, `__type` is the field of introspection. -/
theorem eq_typeField_of_fieldDef? (hreserves : schema.ReservesNames) {typeName : String}
    (ht : schema.type? typeName = some t) (hd : schema.fieldDef? t typeFieldName = some d) :
    d = typeField := by
  by_cases hroot : t.name = schema.queryType.name
  · have hfound : schema.fieldDef? t typeFieldName = some typeField := by
      simp [fieldDef?, hroot, schemaFieldName, typeFieldName]
    exact Option.some.inj (hd.symm.trans hfound)
  · have hdeclared : t.field? typeFieldName = some d := by
      simpa [fieldDef?, hroot, schemaFieldName, typeFieldName, typenameFieldName] using hd
    obtain ⟨fields, hfields, hget⟩ := Option.bind_eq_some_iff.mp hdeclared
    have hreserved := hreserves _ (Assoc.mem_of_get? ht) (typeFieldName, d) (by
      rw [hfields]
      exact Assoc.mem_of_get? hget)
    have hkept : Schema.isReservedName typeFieldName = true := by decide
    exact Bool.noConfusion (hkept.symm.trans hreserved)

end Schema

/-! ## Arguments -/

namespace Literal

/-- A literal of a scalar or an enum that is no variable has a value if nothing is wrong with
it. -/
theorem exists_coerce?_of_isLeafType {schema : Schema} {bindings : Option Json.Members}
    {literal : Value} {name : String} {nullable : Bool} {t : TypeDef}
    (ht : schema.type? name = some t) (hleaf : t.isLeafType) (hvar : ∀ v, literal ≠ .var v)
    (h : problems schema literal (.named name nullable) = []) :
    ∃ value, coerce? schema bindings literal (.named name nullable) = some value := by
  have hinput : schema.isInputRef (.ofName name) := by
    have hinput : t.isInputType := by
      unfold TypeDef.isLeafType at hleaf
      unfold TypeDef.isInputType
      split at hleaf <;> simp_all
    exact (Option.any_eq_true _ _).mpr ⟨t, ht, hinput⟩
  have hobject : schema.inputObject? name = none := by
    unfold TypeDef.isLeafType at hleaf
    rw [Schema.inputObject?, ht, Option.bind_some, TypeDef.inputObject?]
    split at hleaf <;> simp_all
  -- All forms of a literal but `null` and variables are read as the leaf type reads them.
  have hread (hproblems : leafProblems schema literal name = [])
      (hread : read schema bindings literal (.named name nullable) =
        (readLeaf schema literal name).map (TypeRef.named name nullable).wrap) :
      ∃ value, coerce? schema bindings literal (.named name nullable) = some value := by
    obtain ⟨value, hvalue⟩ := exists_of_leafProblems hinput hproblems
    exact ⟨value, by rw [coerce?, hread, hvalue]; rfl⟩
  cases literal with
  | var v => exact absurd rfl (hvar v)
  | null span =>
      cases nullable with
      | true => exact ⟨.null, rfl⟩
      | false => cases h
  | object fields span =>
      refine hread ?_ ?_
      · simpa [problems, TypeRef.innermostName, hobject] using h
      · simp [read, TypeRef.innermostName, hobject]
  | _ =>
      refine hread ?_ ?_
      · simpa [problems, TypeRef.innermostName] using h
      · simp [read, TypeRef.innermostName]

end Literal

namespace Arguments

variable {schema : Schema} {bindings : Json.Members} {input : InputDef} {fault : ArgumentFault}

theorem isRequired_of_value?_none (h : value? schema bindings input none = .error fault) :
    input.isRequired := by
  unfold value? at h
  simp only at h
  split at h
  · cases h
  rename_i hnone
  split at h
  · rename_i hnonNull
    simp [InputDef.isRequired, hnone, hnonNull]
  · cases h

/-- An argument of a scalar or an enum that is no variable has a value if nothing is wrong with
its literal. -/
theorem exists_value?_of_isLeafType {a : Argument} {t : TypeDef}
    (ht : schema.type? input.type.innermostName = some t) (hleaf : t.isLeafType)
    (hlist : input.type.isList = false) (hvar : ∀ v, a.value ≠ .var v)
    (h : Literal.problems schema a.value input.type = []) :
    ∃ value, value? schema bindings input (some a) = .ok value := by
  obtain ⟨value, hvalue⟩ : ∃ value,
      Literal.coerce? schema (some bindings) a.value input.type = some value := by
    cases htype : input.type with
    | list item nullable => simp [htype, TypeRef.isList] at hlist
    | named name nullable =>
        rw [htype] at ht h
        exact Literal.exists_coerce?_of_isLeafType ht hleaf hvar h
  refine ⟨some value, ?_⟩
  unfold value?
  simp only [hvalue]

end Arguments

namespace Introspection

variable {entry : String × FieldDef} {argument : String × InputDef}

/-- Only `__type` cannot do without its argument. -/
theorem eq_typeFieldName_of_isRequired (h : entry ∈ fields) (ha : argument ∈ entry.2.arguments)
    (hrequired : argument.2.isRequired) : entry.1 = typeFieldName := by
  have hall : ∀ entry ∈ fields, ∀ argument ∈ entry.2.arguments, argument.2.isRequired →
      entry.1 = typeFieldName := by
    decide +kernel
  exact hall entry h argument ha hrequired

theorem nodup_arguments (h : entry ∈ fields) :
    (entry.2.arguments.map (·.1)).Nodup ∧
      ∀ argument ∈ entry.2.arguments, argument.1 = argument.2.name := by
  have hall : ∀ entry ∈ fields, (entry.2.arguments.map (·.1)).Nodup ∧
      ∀ argument ∈ entry.2.arguments, argument.1 = argument.2.name := by
    decide +kernel
  exact hall entry h

end Introspection

/-- The arguments of introspection fields are texts and flags. -/
theorem Schema.SelfDescribing.exists_leaf_of_mem_arguments {schema : Schema}
    (hschema : schema.SelfDescribing) {entry : String × FieldDef} {argument : String × InputDef}
    (h : entry ∈ Introspection.fields) (ha : argument ∈ entry.2.arguments) :
    ∃ t, schema.type? argument.2.type.innermostName = some t ∧ t.isLeafType ∧
      argument.2.type.isList = false := by
  have hall : ∀ entry ∈ Introspection.fields, ∀ argument ∈ entry.2.arguments,
      (argument.2.type.innermostName = Scalar.stringName ∨
        argument.2.type.innermostName = Scalar.booleanName) ∧
      argument.2.type.isList = false := by
    decide +kernel
  obtain ⟨hname | hname, hlist⟩ := hall entry h argument ha
  · exact ⟨Scalar.string, hname ▸ hschema.string, rfl, hlist⟩
  · exact ⟨Scalar.boolean, hname ▸ hschema.boolean, rfl, hlist⟩

namespace Setting

variable {setting : Setting} {document : Document} {draft : Schema.Draft}

/-- The operation that is executed has no variables, and validation has looked at its document; the
schema describes itself, and keeps the names of introspection. -/
structure Examines (setting : Setting) (document : Document) (draft : Schema.Draft) : Prop where
  build : draft.build = .ok setting.schema
  reserves : setting.schema.ReservesNames
  describing : setting.schema.SelfDescribing
  valid : document.IsValid setting.schema
  executes : setting.Executes document
  noVariables : setting.operation.variableDefinitions = []

/-- A literal of an argument is no variable where the operation has none. -/
theorem Examines.ne_var (hexamines : setting.Examines document draft) {object : String}
    {node : Field} {definition : Definition} {c : TypeContext} {parent : TypeDef} {field : FieldDef}
    {a : Argument} {expected : InputDef}
    (hsite : FieldSite setting.schema document setting.operation node object definition c parent
      field) (ha : a ∈ node.arguments)
    (hexpected : Assoc.get? field.arguments a.name.text = some expected) (v : Variable) :
    a.value ≠ .var v := by
  intro hvalue
  have huses : Literal.Uses setting.schema a.value expected.type v.name.text expected.type :=
    hvalue ▸ .var v expected.type
  obtain ⟨usage, husage, -⟩ := hsite.exists_usage (Schema.fieldsAreInputs_of_build hexamines.build)
    (Schema.argumentsAreInputs_of_build hexamines.build) ha hexpected huses
  obtain ⟨d, hd, -⟩ :=
    Document.exists_definition_of_usage hexamines.valid hexamines.executes.operation husage
  rw [hexamines.noVariables] at hd
  cases hd

/-- The arguments of introspection fields are read. -/
theorem Examines.exists_arguments (hexamines : setting.Examines document draft) {t : TypeDef}
    {d : FieldDef} {node : Field} {rest : List Field} (h : setting.Groups t (node :: rest) d)
    (hd : (node.name.text, d) ∈ Introspection.fields) :
    ∃ args, setting.arguments d (node :: rest) = .ok args := by
  obtain ⟨node', rest', u, definition, c, parent, field, hnodes, hu, hfound, hsite, hprovides⟩ :=
    h.exists_site hexamines.executes hexamines.build hexamines.reserves hexamines.valid
  obtain ⟨rfl, rfl⟩ := List.cons.inj hnodes
  obtain ⟨hnodup, hnames⟩ := Introspection.nodup_arguments hd
  cases hargs : setting.arguments d (node :: rest) with
  | ok args => exact ⟨args, rfl⟩
  | error e =>
      -- The first argument that is not read is left out, or given by a literal that does not fit.
      exfalso
      obtain ⟨input, hinput, hfault⟩ := Arguments.exists_error_of_coerce hargs
      have hfault : Arguments.value? setting.schema setting.bindings input
          (node.arguments.find? (·.name.text = e.argument)) = .error e.fault := hfault
      cases hgiven : node.arguments.find? (·.name.text = e.argument) with
      | none =>
          rw [hgiven] at hfault
          have hrequired := Arguments.isRequired_of_value?_none hfault
          have hname := Introspection.eq_typeFieldName_of_isRequired hd hinput hrequired
          -- What requires an argument is `__type`, which validation knows as the same field.
          obtain rfl : field = d :=
            (Schema.eq_typeField_of_fieldDef? hexamines.reserves hsite.covers.known
              (hname ▸ hsite.fieldDef)).trans
              (Schema.eq_typeField_of_fieldDef? hexamines.reserves hu (hname ▸ hfound)).symm
          obtain ⟨a, ha, hsame⟩ := hsite.exists_given hexamines.valid
            (List.mem_map_of_mem (f := (·.2)) hinput) hrequired
          have hleft : a.name.text ≠ e.argument := by
            simpa using List.find?_eq_none.mp hgiven a ha
          exact hleft (hsame.trans (hnames _ hinput).symm)
      | some a =>
          rw [hgiven] at hfault
          have ha := List.mem_of_find?_eq_some hgiven
          have hname : a.name.text = e.argument := by simpa using List.find?_some hgiven
          obtain ⟨expected, hexpected, hproblems⟩ := hsite.exists_input hexamines.valid ha
          obtain ⟨given, hget, hsame⟩ := hprovides.exists_argument hexpected
          rw [hname, Assoc.get?_of_mem hnodup hinput] at hget
          obtain rfl := Option.some.inj hget
          rw [← hsame] at hproblems
          obtain ⟨leaf, hleaf, hisLeaf, hlist⟩ :=
            hexamines.describing.exists_leaf_of_mem_arguments hd hinput
          obtain ⟨value, hvalue⟩ := Arguments.exists_value?_of_isLeafType hleaf hisLeaf hlist
            (hexamines.ne_var hsite ha hexpected) hproblems
          cases hvalue.symm.trans hfault

end Setting

end GraphQL
