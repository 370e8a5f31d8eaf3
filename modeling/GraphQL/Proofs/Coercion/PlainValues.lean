import Mathlib
import GraphQL.Coercion.Input
import GraphQL.Proofs.Coercion.Constants
import GraphQL.Proofs.Coercion.Scalars

/-!
# Literals as values of requests

A request can give a value by a literal in its document, or as a plain value for a variable.
Where a type is made of `Int`, `String`, `Boolean`, enums and input objects, the two ways come to
the same: a literal that has a value there has it, too, when it is read as a plain value and that
is coerced (`Literal.coerce_of_coerce?`).

`Float` and `ID` are left out because they read plain values in another way than literals: the
plain value of `12345678901234567890` is no longer an integer, so an `ID` has other digits.
-/

namespace GraphQL

variable {schema : Schema}

/-! ## Leaves -/

namespace Input

variable {path : List PathSegment} {name : String} {value result : Json}

theorem coerceLeaf_of_scalar {t : TypeDef} {d : ScalarDef} (ht : schema.type? name = some t)
    (hbody : t.body = .scalar d) (h : d.ofInput value = .ok result) :
    coerceLeaf schema path value name = .ok result := by
  simp [coerceLeaf, ht, hbody, h]

theorem coerceLeaf_of_enum {t : TypeDef} {d : EnumDef} (ht : schema.type? name = some t)
    (hbody : t.body = .enum d) (h : d.ofInput t.name value = .ok result) :
    coerceLeaf schema path value name = .ok result := by
  simp [coerceLeaf, ht, hbody, h]

/-- A number, a text or a truth value is left to the named type. -/
theorem coerceAt_of_coerceLeaf {type : TypeRef}
    (hvalue : (∃ i, value = .int i) ∨ (∃ s, value = .string s) ∨ ∃ b, value = .bool b)
    (h : coerceLeaf schema path value type.innermostName = .ok result) :
    coerceAt schema path value type = .ok (type.wrap result) := by
  have hleaf : coerceAt schema path value type =
      (coerceLeaf schema path value type.innermostName).map type.wrap := by
    rcases hvalue with ⟨i, rfl⟩ | ⟨s, rfl⟩ | ⟨b, rfl⟩ <;> rw [coerceAt] <;> simp
  rw [hleaf, h]
  rfl

end Input

namespace Literal

/-- The scalars whose literals are read like plain values. -/
def alikeScalars : List TypeDef := [Scalar.int, Scalar.string, Scalar.boolean]

variable {literal : Value} {type : TypeRef} {value : Json} {bindings other : Option Json.Members}

/-- A literal of a scalar or an enum is a plain value that the type takes for the same. -/
theorem coerceAt_of_readLeaf {name : String} (hmade : schema.IsMadeOf alikeScalars name)
    (h : readLeaf schema literal name = .value value) :
    ∃ plain, literal.toJson? other = some plain ∧ ∀ path type, type.innermostName = name →
      Input.coerceAt schema path plain type = .ok (type.wrap value) := by
  unfold readLeaf at h
  split at h
  swap
  · cases h
  rename_i found hfound
  obtain rfl : found = value := by simpa using h
  obtain ⟨t, ht, hread⟩ := Option.bind_eq_some_iff.mp hfound
  rcases hmade name t (.self name) ht with hscalar | henum | hobject
  · simp only [alikeScalars, List.mem_cons, List.not_mem_nil, or_false] at hscalar
    rcases hscalar with rfl | rfl | rfl <;>
      replace hread := Option.some.inj ((Scalar.ofLiteral?_builtin _ _ _ _ _ literal).symm.trans hread)
    · obtain ⟨text, span, i, rfl, htext, h32, rfl⟩ := Scalar.exists_of_parseIntLiteral hread
      refine ⟨.int i, by simp [Value.toJson?, Json.ofIntText?, htext], fun path type hname => ?_⟩
      refine Input.coerceAt_of_coerceLeaf (.inl ⟨i, rfl⟩) ?_
      refine Input.coerceLeaf_of_scalar (hname ▸ ht) rfl ?_
      exact Scalar.checkInt_ofInt? h32 _
    · obtain ⟨text, block, span, rfl, rfl⟩ := Scalar.exists_of_parseStringLiteral hread
      refine ⟨.string text, by simp [Value.toJson?], fun path type hname => ?_⟩
      refine Input.coerceAt_of_coerceLeaf (.inr (.inl ⟨text, rfl⟩)) ?_
      exact Input.coerceLeaf_of_scalar (hname ▸ ht) rfl rfl
    · obtain ⟨b, span, rfl, rfl⟩ := Scalar.exists_of_parseBooleanLiteral hread
      refine ⟨.bool b, by simp [Value.toJson?], fun path type hname => ?_⟩
      refine Input.coerceAt_of_coerceLeaf (.inr (.inr ⟨b, rfl⟩)) ?_
      exact Input.coerceLeaf_of_scalar (hname ▸ ht) rfl rfl
  · obtain ⟨d, hd⟩ := Option.isSome_iff_exists.mp henum
    have hbody := TypeDef.body_of_enum? hd
    replace hread : d.ofLiteral t.name literal = .ok found := by
      simpa [TypeDef.ofLiteral?, hbody] using hread
    unfold EnumDef.ofLiteral at hread
    split at hread
    swap
    · cases hread
    rename_i text span
    refine ⟨.string text, by simp [Value.toJson?], fun path type hname => ?_⟩
    refine Input.coerceAt_of_coerceLeaf (.inr (.inl ⟨text, rfl⟩)) ?_
    exact Input.coerceLeaf_of_enum (hname ▸ ht) hbody hread
  · unfold TypeDef.ofLiteral? at hread
    unfold TypeDef.inputObject? at hobject
    split at hobject <;> simp_all

/-! ## Input objects -/

/-- Fields that all have values make the same object, whether they were read from a literal or
coerced. -/
theorem assemble_of_assemble? {path : List PathSegment} {given members : Json.Members}
    {fields : List (String × InputDef)}
    (h : assemble? (given.map fun entry => (entry.1, .value entry.2)) fields = some members) :
    Input.assemble path (given.map fun entry => (entry.1, .ok entry.2)) fields = .ok members := by
  induction fields generalizing members with
  | nil =>
      obtain rfl := Option.some.inj h
      rfl
  | cons entry rest ih =>
      obtain ⟨name, field⟩ := entry
      rw [assemble?, Assoc.get?_map] at h
      obtain ⟨value?, hvalue, h⟩ := Option.bind_eq_some_iff.mp h
      obtain ⟨members', hmembers, h⟩ := Option.bind_eq_some_iff.mp h
      obtain rfl := Option.some.inj h
      rw [Input.assemble, Assoc.get?_map, ih hmembers]
      cases hget : Assoc.get? given name with
      | some value =>
          obtain rfl : some value = value? := by simpa [hget, fieldValue?] using hvalue
          rfl
      | none =>
          simp only [hget, Option.map_none, Option.getD_none, fieldValue?] at hvalue ⊢
          cases hdefault : field.defaultValue with
          | some value =>
              obtain rfl : some value = value? := by simpa [hdefault] using hvalue
              rfl
          | none =>
              cases hnonNull : field.type.isNonNull with
              | true => simp [hdefault, hnonNull] at hvalue
              | false =>
                  obtain rfl : none = value? := by simpa [hdefault, hnonNull] using hvalue
                  simp

/-! ## All literals -/

/-- The plain value of a literal that its type reads as a leaf. -/
theorem coerceAt_of_leaf (hmade : schema.IsMadeOf alikeScalars type.innermostName)
    (hleaf : read schema bindings literal type =
      (readLeaf schema literal type.innermostName).map type.wrap)
    (h : read schema bindings literal type = .value value) :
    ∃ plain, literal.toJson? other = some plain ∧
      ∀ path, Input.coerceAt schema path plain type = .ok value := by
  rw [hleaf] at h
  cases hread : readLeaf schema literal type.innermostName with
  | value found =>
      obtain rfl : type.wrap found = value := by simpa [hread, Reading.map] using h
      obtain ⟨plain, hplain, hcoerce⟩ := coerceAt_of_readLeaf hmade hread
      exact ⟨plain, hplain, fun path => hcoerce path type rfl⟩
  | missing => simp [hread, Reading.map] at h
  | invalid => simp [hread, Reading.map] at h

mutual

/-- A literal without variables that has a value is a plain value that coerces to the same. -/
theorem coerceAt_of_read : ∀ {literal : Value} {type : TypeRef} {value : Json},
    literal.isConst → isRegular schema literal type →
    schema.IsMadeOf alikeScalars type.innermostName →
    read schema bindings literal type = .value value →
    ∃ plain, literal.toJson? other = some plain ∧
      ∀ path, Input.coerceAt schema path plain type = .ok value
  | .var v, type, value, hconst, _, _, _ => by cases hconst
  | .null span, type, value, _, _, _, h => by
      rw [read] at h
      split at h
      · rename_i hnullable
        obtain rfl : .null = value := by simpa using h
        exact ⟨.null, rfl, fun path => by rw [Input.coerceAt, if_pos hnullable]⟩
      · cases h
  | .list items span, .list item nullable, value, hconst, hregular, hmade, h => by
      rw [read] at h
      obtain ⟨values, hvalues, rfl⟩ := Option.map_eq_some_iff.mp (exists_of_ofOption h)
      refine ⟨.array (Value.itemsToJson other items), by rw [Value.toJson?], fun path => ?_⟩
      rw [Input.coerceAt, coerceItems_of_readItems hconst hregular hmade hvalues]
      rfl
  | .list items span, .named name nullable, value, _, _, hmade, h =>
      coerceAt_of_leaf hmade (by rw [read] <;> simp) h
  | .object fields span, type, value, hconst, hregular, hmade, h => by
      cases hd : schema.inputObject? type.innermostName with
      | none => exact coerceAt_of_leaf hmade (by rw [read, hd]) h
      | some d =>
          rw [read] at h
          simp only [hd] at h
          obtain ⟨members, hmembers, rfl⟩ := Option.map_eq_some_iff.mp (exists_of_ofOption h)
          simp only [isRegular, hd, Bool.and_eq_true, decide_eq_true_eq] at hregular
          obtain ⟨hnodup, hregular⟩ := hregular
          obtain ⟨hkeys, given, hgiven, hcoerced⟩ := exists_given_of_readFields hconst hregular
            (exists_read_of_assemble? hconst hnodup hregular hmembers)
            fun f _ field hfield => hmade.field hd (Assoc.mem_of_get? hfield)
          rw [hgiven] at hmembers
          refine ⟨.object (Value.fieldsToJson other fields), ?_, fun path => ?_⟩
          · rw [Value.toJson?, Assoc.ofList_of_nodup (hkeys ▸ hnodup)]
          · have hunknown : Input.unknownFields path type.innermostName d.fields
                (Value.fieldsToJson other fields) = [] := by
              refine List.filterMap_eq_nil_iff.mpr fun entry hentry => ?_
              obtain ⟨f, hmem, hname⟩ : ∃ f ∈ fields, f.name.text = entry.1 :=
                List.mem_map.mp (hkeys ▸ List.mem_map_of_mem hentry)
              obtain ⟨field, hfield, -⟩ := exists_of_fieldsAreRegular hregular f hmem
              exact if_pos (by rw [Assoc.contains, ← hname, hfield]; rfl)
            rw [Input.coerceAt]
            simp only [hd, hcoerced, assemble_of_assemble? hmembers, hunknown]
            rfl
  | .int text span, type, value, _, _, hmade, h =>
      coerceAt_of_leaf hmade (by rw [read] <;> simp) h
  | .float text span, type, value, _, _, hmade, h =>
      coerceAt_of_leaf hmade (by rw [read] <;> simp) h
  | .string text block span, type, value, _, _, hmade, h =>
      coerceAt_of_leaf hmade (by rw [read] <;> simp) h
  | .boolean b span, type, value, _, _, hmade, h =>
      coerceAt_of_leaf hmade (by rw [read] <;> simp) h
  | .enum name span, type, value, _, _, hmade, h =>
      coerceAt_of_leaf hmade (by rw [read] <;> simp) h

theorem coerceItems_of_readItems : ∀ {items : List Value} {type : TypeRef} {values : List Json}
    {path : List PathSegment} {index : ℕ}, Value.areConst items →
    areRegular schema items type →
    schema.IsMadeOf alikeScalars type.innermostName →
    readItems schema bindings items type = some values →
    Input.coerceItems schema path index (Value.itemsToJson other items) type = .ok values
  | [], type, values, path, index, _, _, _, h => by
      obtain rfl : [] = values := by simpa [readItems] using h
      rw [Value.itemsToJson, Input.coerceItems]
  | item :: rest, type, values, path, index, hconst, hregular, hmade, h => by
      rw [Value.areConst, Bool.and_eq_true] at hconst
      rw [areRegular, Bool.and_eq_true] at hregular
      simp only [readItems] at h
      split at h
      swap
      · cases h
      rename_i first others hfirst hothers
      obtain rfl := Option.some.inj h
      split at hfirst
      · rename_i value hread
        obtain rfl := Option.some.inj hfirst
        obtain ⟨plain, hplain, hcoerce⟩ := coerceAt_of_read hconst.1 hregular.1 hmade hread
        rw [Value.itemsToJson, Input.coerceItems, hplain, Option.getD_some, hcoerce,
          coerceItems_of_readItems hconst.2 hregular.2 hmade hothers]
        rfl
      · cases hfirst
      · exact absurd ‹_› (read_ne_missing_of_isConst hconst.1)

/-- Fields that all have values, from the literal and from its plain value. -/
theorem exists_given_of_readFields : ∀ {fields : List ObjectField}
    {table : List (String × InputDef)}, Value.fieldsAreConst fields →
    fieldsAreRegular schema fields table →
    (∀ f ∈ fields, ∃ field value, Assoc.get? table f.name.text = some field ∧
      read schema bindings f.value field.type = .value value) →
    (∀ f ∈ fields, ∀ field, Assoc.get? table f.name.text = some field →
      schema.IsMadeOf alikeScalars field.type.innermostName) →
    (Value.fieldsToJson other fields).map (·.1) = fields.map (·.name.text) ∧
    ∃ given : Json.Members,
      readFields schema bindings fields table = given.map (fun entry => (entry.1, .value entry.2)) ∧
      ∀ path, Input.coerceMembers schema path (Value.fieldsToJson other fields) table =
        given.map fun entry => (entry.1, .ok entry.2)
  | [], table, _, _, _, _ => by
      refine ⟨by rw [Value.fieldsToJson]; rfl, [], by rw [readFields]; rfl, fun path => ?_⟩
      rw [Value.fieldsToJson, Input.coerceMembers]
      rfl
  | ⟨key, literal, span⟩ :: rest, table, hconst, hregular, hread, hmade => by
      rw [Value.fieldsAreConst, Bool.and_eq_true] at hconst
      obtain ⟨⟨field, value, hfield, hread⟩, hreadRest⟩ := List.forall_mem_cons.mp hread
      obtain ⟨hmade, hmadeRest⟩ := List.forall_mem_cons.mp hmade
      simp only at hfield hread
      simp only [fieldsAreRegular, hfield, Bool.and_eq_true] at hregular
      obtain ⟨hkeys, given, hgiven, hmembers⟩ :=
        exists_given_of_readFields hconst.2 hregular.2 hreadRest hmadeRest
      obtain ⟨plain, hplain, hcoerce⟩ :=
        coerceAt_of_read hconst.1 hregular.1 (hmade field hfield) hread
      have hplain : Value.fieldsToJson other (⟨key, literal, span⟩ :: rest) =
          (key.text, plain) :: Value.fieldsToJson other rest := by
        rw [Value.fieldsToJson, hplain]
      refine ⟨by rw [hplain, List.map_cons, List.map_cons, hkeys], (key.text, value) :: given, ?_,
        fun path => ?_⟩
      · simp only [readFields, hfield, hread, hgiven, List.map_cons]
      · simp only [hplain, Input.coerceMembers, hfield, hcoerce, hmembers, List.map_cons]

end

/-- Where a type is made of `Int`, `String`, `Boolean`, enums and input objects, a literal without
variables that has a value has it, too, as a plain value in a request. -/
theorem coerce_of_coerce? (hmade : schema.IsMadeOf alikeScalars type.innermostName)
    (hconst : literal.isConst) (hregular : isRegular schema literal type)
    (h : coerce? schema bindings literal type = some value) :
    ∃ plain, literal.toJson? other = some plain ∧ Input.coerce schema plain type = .ok value := by
  obtain ⟨plain, hplain, hcoerce⟩ := coerceAt_of_read hconst hregular hmade (read_of_coerce? h)
  refine ⟨plain, hplain, ?_⟩
  rw [Input.coerce, hcoerce]
  rfl

/-- A search for what has a tag, from the last on. -/
def lastTagged : Value :=
  .object [
    ⟨⟨"order", none⟩, .enum "DOWN" none, none⟩,
    ⟨⟨"tags", none⟩, .string "new" true none, none⟩,
    ⟨⟨"inner", none⟩, .object [⟨⟨"limit", none⟩, .int "-0" none, none⟩] none, none⟩] none

/-- The value of `lastTagged` in a list. -/
def lastTaggedValue : Json :=
  .array [.object [
    ("limit", .int 10),
    ("tags", .array [.array [.string "new"]]),
    ("order", .object [("by", .int (-1))]),
    ("inner", .object [("limit", .int 0)])]]

theorem coerce_lastTagged :
    filterSchema.IsMadeOf alikeScalars "Filter" ∧ lastTagged.isConst ∧
      isRegular filterSchema lastTagged (.list (.named "Filter" false) false) ∧
      coerce? filterSchema none lastTagged (.list (.named "Filter" false) false) =
        some lastTaggedValue ∧
      ∃ plain, lastTagged.toJson? none = some plain ∧
        Input.coerce filterSchema plain (.list (.named "Filter" false) false) =
          .ok lastTaggedValue := by
  have hmade : filterSchema.IsMadeOf alikeScalars "Filter" :=
    isMadeOf_filterType (by simp [alikeScalars]) (by simp [alikeScalars])
  have hvalue : coerce? filterSchema none lastTagged (.list (.named "Filter" false) false) =
      some lastTaggedValue := rfl
  exact ⟨hmade, rfl, by decide, hvalue, coerce_of_coerce? hmade rfl (by decide) hvalue⟩

end Literal

end GraphQL
