import Mathlib
import GraphQL.Coercion.Arguments
import GraphQL.Proofs.Coercion.Conforms

/-!
# Values that are read
-/

namespace GraphQL

variable {schema : Schema} {given : Value → Prop}

/-! ## Leaves -/

namespace Schema

variable {t : TypeDef} {name : String} {nullable : Bool} {value : Json}

theorem conforms_of_scalar {d : ScalarDef} (ht : schema.type? name = some t)
    (hbody : t.body = .scalar d) (hvalue : value ≠ .null) :
    schema.Conforms given (.named name nullable) value := by
  refine .plain (fun u hu => ?_) hvalue
  obtain rfl := Option.some.inj (ht.symm.trans hu)
  simp [TypeDef.enum?, TypeDef.inputObject?, hbody]

theorem conforms_of_ofName {d : EnumDef} {text : String} (hreads : schema.ReadsNoNull)
    (ht : schema.type? name = some t) (hbody : t.body = .enum d)
    (h : d.ofName t.name text = .ok value) :
    schema.Conforms given (.named name nullable) value := by
  have hd : t.enum? = some d := by simp [TypeDef.enum?, hbody]
  unfold EnumDef.ofName at h
  split at h
  · rename_i v hv
    obtain rfl := Except.ok.inj h
    have hentry := Assoc.mem_of_get? hv
    exact .enum ht hd hentry ((hreads ht).enum d hd _ hentry)
  · cases h

/-- What a scalar or an enum makes of a value of a request conforms to it. -/
theorem conforms_of_coerceLeaf {path : List PathSegment} (hreads : schema.ReadsNoNull)
    (hvalue : value ≠ .null) (h : (Input.coerceLeaf schema path value name).problems = []) :
    schema.Conforms given (.named name nullable)
      (Input.coerceLeaf schema path value name).value := by
  unfold Input.coerceLeaf at h ⊢
  cases ht : schema.type? name with
  | none => simp [ht, Input.Checked.fail] at h
  | some t =>
      cases hbody : t.body with
      | scalar d =>
          simp only [ht, hbody] at h ⊢
          cases hread : d.ofInput value with
          | error message => simp [hread, Input.Checked.fail] at h
          | ok result =>
              refine conforms_of_scalar ht hbody ?_
              rintro rfl
              exact ScalarDef.ofInput_ne_null ((hreads ht).scalar d hbody) hvalue hread
      | enum d =>
          simp only [ht, hbody] at h ⊢
          cases hread : d.ofInput t.name value with
          | error message => simp [hread, Input.Checked.fail] at h
          | ok result =>
              unfold EnumDef.ofInput at hread
              split at hread
              · exact conforms_of_ofName hreads ht hbody hread
              · cases hread
      | _ => simp [ht, hbody, Input.Checked.fail] at h

/-- What a scalar or an enum makes of a literal conforms to it, if null for a number that is not
finite counts as lost. -/
theorem conforms_of_readLeaf {literal : Value} (hdefinite : schema.IsDefinite)
    (hliteral : literal.isNull = false) (hgiven : given literal)
    (h : Literal.readLeaf schema literal name = .value value) :
    schema.Conforms given (.named name nullable) value := by
  unfold Literal.readLeaf at h
  split at h
  · rename_i found hfound
    obtain rfl : found = value := by simpa using h
    obtain ⟨t, ht, hread⟩ := Option.bind_eq_some_iff.mp hfound
    cases hbody : t.body with
    | scalar d =>
        have hread : d.ofLiteral t.name literal = .ok found := by
          simpa [TypeDef.ofLiteral?, hbody] using hread
        by_cases hnull : found = .null
        · subst hnull
          obtain ⟨hliterals, hvalues, hoverflows⟩ :=
            ((hdefinite ht).scalar d hbody).overflows_of_ofLiteral hliteral hread
          exact .lost ⟨t, d, ht, hbody, hliterals, hvalues⟩ hgiven hoverflows
        · exact conforms_of_scalar ht hbody hnull
    | enum d =>
        have hread : d.ofLiteral t.name literal = .ok found := by
          simpa [TypeDef.ofLiteral?, hbody] using hread
        unfold EnumDef.ofLiteral at hread
        split at hread
        · exact conforms_of_ofName hdefinite.readsNoNull ht hbody hread
        · cases hread
    | _ => simp [TypeDef.ofLiteral?, hbody] at hread
  · cases h

end Schema

/-! ## Values for a table of definitions -/

/-- The members are the values of some arguments or input fields in turn, as far as these have
one; `gives` says which. -/
inductive Assembled (gives : String → InputDef → Option Json → Prop) :
    List (String × InputDef) → Json.Members → Prop
  | nil : Assembled gives [] []
  | cons {name : String} {input : InputDef} {value? : Option Json}
      {rest : List (String × InputDef)} {members : Json.Members} (h : gives name input value?)
      (hrest : Assembled gives rest members) :
      Assembled gives ((name, input) :: rest) (value?.toList.map (name, ·) ++ members)

theorem Assembled.fills {gives : String → InputDef → Option Json → Prop}
    {inputs : List (String × InputDef)} {members : Json.Members}
    (hnodup : (inputs.map (·.1)).Nodup) (h : Assembled gives inputs members)
    (hvalue : ∀ name input value, (name, input) ∈ inputs → gives name input (some value) →
      schema.Conforms given input.type value)
    (hnone : ∀ name input, (name, input) ∈ inputs → gives name input none →
      input.type.isNonNull = false) :
    schema.Fills given inputs members := by
  induction h with
  | nil => exact ⟨by simp, by simp, by simp⟩
  | @cons name input value? rest members hgives _ ih =>
      obtain ⟨hnew, hnodup⟩ := List.nodup_cons.mp hnodup
      have ih := ih hnodup
        (fun name input value hmem => hvalue name input value (List.mem_cons_of_mem _ hmem))
        (fun name input hmem => hnone name input (List.mem_cons_of_mem _ hmem))
      have hhead {key : String} {value : Json}
          (h : (key, value) ∈ value?.toList.map (name, ·)) : key = name ∧ value? = some value := by
        obtain ⟨value', hvalue', heq⟩ := List.mem_map.mp h
        cases heq
        exact ⟨rfl, Option.mem_toList.mp hvalue'⟩
      refine ⟨fun key value hmem => ?_, fun key value field hmem hfield => ?_,
        fun key field hfield hrequired => ?_⟩
      · rcases List.mem_append.mp hmem with hmem | hmem
        · exact ⟨input, by rw [(hhead hmem).1]; exact List.mem_cons_self⟩
        · obtain ⟨field, hfield⟩ := ih.known key value hmem
          exact ⟨field, List.mem_cons_of_mem _ hfield⟩
      · rcases List.mem_append.mp hmem with hmem | hmem
        · obtain ⟨rfl, rfl⟩ := hhead hmem
          rcases List.mem_cons.mp hfield with heq | hfield
          · cases heq
            exact hvalue key input value List.mem_cons_self hgives
          · exact absurd (List.mem_map_of_mem (f := (·.1)) hfield) hnew
        · rcases List.mem_cons.mp hfield with heq | hfield
          · obtain ⟨other, hother⟩ := ih.known key value hmem
            cases heq
            exact absurd (List.mem_map_of_mem (f := (·.1)) hother) hnew
          · exact ih.values key value field hmem hfield
      · rcases List.mem_cons.mp hfield with heq | hfield
        · cases heq
          cases value? with
          | none =>
              exact absurd hrequired (Bool.eq_false_iff.mp (hnone _ _ List.mem_cons_self hgives))
          | some value => exact ⟨value, List.mem_append_left _ (by simp)⟩
        · obtain ⟨value, hmem⟩ := ih.required key field hfield hrequired
          exact ⟨value, List.mem_append_right _ hmem⟩

/-! ## Values of requests -/

namespace Input

/-- Why a member of a coerced input object has a value, or has none. -/
def Gives (coerced : List (String × Checked Json)) (name : String) (field : InputDef)
    (value? : Option Json) : Prop :=
  match Assoc.get? coerced name with
  | some checked => checked.problems = [] ∧ value? = some checked.value
  | none => value? = field.defaultValue ∧ (value? = none → field.type.isNonNull = false)

theorem assembled_assemble {path : List PathSegment} {coerced : List (String × Checked Json)}
    {fields : List (String × InputDef)} (h : (assemble path coerced fields).problems = []) :
    Assembled (Gives coerced) fields (assemble path coerced fields).value := by
  induction fields with
  | nil => exact .nil
  | cons field rest ih =>
      obtain ⟨name, field⟩ := field
      unfold assemble at h ⊢
      cases hgiven : Assoc.get? coerced name with
      | some checked =>
          simp only [hgiven, List.append_eq_nil_iff] at h ⊢
          have hgives : Gives coerced name field (some checked.value) := by simp [Gives, hgiven, h.1]
          exact .cons hgives (ih h.2)
      | none =>
          cases hdefault : field.defaultValue with
          | some value =>
              simp only [hgiven, hdefault] at h ⊢
              have hgives : Gives coerced name field (some value) := by
                simp [Gives, hgiven, hdefault]
              exact .cons hgives (ih h)
          | none =>
              cases hnonNull : field.type.isNonNull with
              | true => simp [hgiven, hdefault, hnonNull] at h
              | false =>
                  simp only [hgiven, hdefault, hnonNull, Bool.false_eq_true, if_false] at h ⊢
                  have hgives : Gives coerced name field none := by
                    simp [Gives, hgiven, hdefault, hnonNull]
                  exact .cons hgives (ih h)

/-- Values that are neither null, nor items of a list type, nor fields of an input object are
left to the named type. -/
theorem conforms_of_leaf {path : List PathSegment} {value : Json} {type : TypeRef}
    (hreads : schema.ReadsNoNull) (hvalue : value ≠ .null)
    (hleaf : coerceAt schema path value type =
      (coerceLeaf schema path value type.innermostName).map type.wrap)
    (h : (coerceAt schema path value type).problems = []) :
    schema.Conforms given type (coerceAt schema path value type).value := by
  rw [hleaf] at h ⊢
  exact Schema.Conforms.wrap fun nullable => Schema.conforms_of_coerceLeaf hreads hvalue h

mutual

/-- A value of a request that is coerced without problems conforms to its type. -/
theorem conforms_of_coerceAt (hinputs : schema.InputsSound) (hreads : schema.ReadsNoNull) :
    ∀ {path : List PathSegment} {value : Json} {type : TypeRef},
    (coerceAt schema path value type).problems = [] →
      schema.Conforms given type (coerceAt schema path value type).value
  | path, .null, type, h => by
      rw [coerceAt] at h ⊢
      split at h <;> rename_i hnullable
      · rw [if_pos hnullable]
        exact .null hnullable
      · simp [Checked.fail] at h
  | path, .array items, .list item nullable, h => by
      rw [coerceAt] at h ⊢
      exact .list (conforms_of_coerceItems hinputs hreads h)
  | path, .array items, .named name nullable, h =>
      conforms_of_leaf hreads (by simp) (by rw [coerceAt] <;> simp) h
  | path, .object members, type, h => by
      cases hd : schema.inputObject? type.innermostName with
      | none => exact conforms_of_leaf hreads (by simp) (by rw [coerceAt, hd]) h
      | some d =>
          rw [coerceAt] at h ⊢
          simp only [hd, List.append_eq_nil_iff] at h ⊢
          have hsound := hinputs hd
          refine Schema.Conforms.wrap fun nullable => Schema.Fills.conforms ?_ hd
          refine (assembled_assemble h.1).fills hsound.nodup (fun name field value hfield hgives => ?_)
            (fun name field hfield hgives => ?_)
          · unfold Gives at hgives
            split at hgives
            · rename_i checked hchecked
              obtain ⟨hproblems, heq⟩ := hgives
              obtain rfl := Option.some.inj heq
              exact conforms_of_coerceMembers hinputs hreads hchecked
                (Assoc.get?_of_mem hsound.nodup hfield) hproblems
            · exact (hsound.default _ hfield value hgives.1.symm).mono nofun
          · unfold Gives at hgives
            split at hgives
            · cases hgives.2
            · exact hgives.2 rfl
  | path, .bool b, type, h => conforms_of_leaf hreads (by simp) (by rw [coerceAt] <;> simp) h
  | path, .int i, type, h => conforms_of_leaf hreads (by simp) (by rw [coerceAt] <;> simp) h
  | path, .float x, type, h => conforms_of_leaf hreads (by simp) (by rw [coerceAt] <;> simp) h
  | path, .string s, type, h => conforms_of_leaf hreads (by simp) (by rw [coerceAt] <;> simp) h

theorem conforms_of_coerceItems (hinputs : schema.InputsSound) (hreads : schema.ReadsNoNull) :
    ∀ {path : List PathSegment} {index : ℕ} {items : List Json} {type : TypeRef},
      (coerceItems schema path index items type).problems = [] →
      ∀ value ∈ (coerceItems schema path index items type).value,
        schema.Conforms given type value
  | path, index, [], type, h => by simp [coerceItems, Checked.ok]
  | path, index, item :: rest, type, h => by
      rw [coerceItems] at h ⊢
      obtain ⟨hfirst, hrest⟩ := List.append_eq_nil_iff.mp h
      exact List.forall_mem_cons.mpr ⟨conforms_of_coerceAt hinputs hreads hfirst,
        conforms_of_coerceItems hinputs hreads hrest⟩

theorem conforms_of_coerceMembers (hinputs : schema.InputsSound)
    (hreads : schema.ReadsNoNull) :
    ∀ {path : List PathSegment} {members : List (String × Json)}
      {fields : List (String × InputDef)} {name : String} {field : InputDef}
      {checked : Checked Json},
      Assoc.get? (coerceMembers schema path members fields) name = some checked →
      Assoc.get? fields name = some field → checked.problems = [] →
        schema.Conforms given field.type checked.value
  | path, [], fields, name, field, checked, h, hfield, hproblems => by
      simp [coerceMembers, Assoc.get?] at h
  | path, (key, value) :: rest, fields, name, field, checked, h, hfield, hproblems => by
      rw [coerceMembers] at h
      split at h
      · rename_i found hfound
        rw [Assoc.get?_cons] at h
        split at h
        · rename_i hkey
          obtain rfl : key = name := hkey
          obtain rfl := Option.some.inj (hfound.symm.trans hfield)
          obtain rfl := Option.some.inj h
          exact conforms_of_coerceAt hinputs hreads hproblems
        · exact conforms_of_coerceMembers hinputs hreads h hfield hproblems
      · exact conforms_of_coerceMembers hinputs hreads h hfield hproblems

end

end Input

end GraphQL
