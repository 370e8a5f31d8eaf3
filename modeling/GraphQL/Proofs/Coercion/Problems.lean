import Mathlib
import GraphQL.Proofs.Coercion.Definite
import GraphQL.Proofs.Coercion.Reading
import GraphQL.Proofs.Json.Same
import GraphQL.Proofs.Schema.Roles

/-!
# All that is wrong with a value

`Input.coerce` goes on when something is wrong with a value, so that all of it can be reported.
What can be wrong, and where, is said without the coercion: `Input.Offends` relates a value and its
type to the positions in the value at which something is wrong, and `Input.Precedes` says in which
order a walk over the value comes to them.

The problems that are reported are these (`Input.Reports`): one for each position at which
something is wrong, in the order of the walk.  For each shape of a value this is shown from the
problems of its parts (`reports_items`, `reports_object`), and then for all values by recursion
(`reported`).
-/

namespace GraphQL

variable {schema : Schema}

namespace InputProblem

/-- The position that a problem is about.  A member that an input object does not know is reported
under the path of the object, by its key. -/
def position (problem : InputProblem) : List PathSegment :=
  match problem.fault with
  | .unknownField key _ _ => problem.path ++ [.key key]
  | _ => problem.path

/-- The message names the path, unless that is empty, and the key of a member that is not known. -/
structure NamesPosition (problem : InputProblem) : Prop where
  path : problem.path ≠ [] →
    ∃ before after, problem.message = before ++ pathText problem.path ++ after
  key : ∀ key type suggestions, problem.fault = .unknownField key type suggestions →
    ∃ before after, problem.message = before ++ key ++ after

theorem position_cons (segment : PathSegment) (path : List PathSegment) (fault : InputFault) :
    (InputProblem.mk (segment :: path) fault).position =
      segment :: (InputProblem.mk path fault).position := by
  cases fault <;> rfl

theorem exists_located {message : String} {path : List PathSegment} {detail : Option String}
    (h : path ≠ []) :
    ∃ before after, located message path detail = before ++ pathText path ++ after := by
  have hplace : path.isEmpty = false := by simpa using h
  cases detail with
  | none => exact ⟨message ++ " at ", ".", by simp [located, hplace, String.append_assoc]⟩
  | some detail =>
      exact ⟨message ++ " at ", "; " ++ detail, by simp [located, hplace, String.append_assoc]⟩

theorem exists_located_of_message {before key after : String} {path : List PathSegment}
    {detail : Option String} :
    ∃ first last, located (before ++ key ++ after) path detail = first ++ key ++ last := by
  cases detail with
  | none => exact ⟨before, _, by simp only [located, String.append_assoc]; rfl⟩
  | some detail => exact ⟨before, _, by simp only [located, String.append_assoc]; rfl⟩

theorem namesPosition (problem : InputProblem) : problem.NamesPosition := by
  obtain ⟨path, fault⟩ := problem
  refine ⟨fun hpath => ?_, fun key type suggestions hfault => ?_⟩
  · cases fault with
    | missingField type =>
        exact ⟨"Field ", " of required type " ++ type.text ++ " was not provided.",
          by simp [message, String.append_assoc]⟩
    | _ =>
        simp only [message]
        exact exists_located hpath
  · obtain rfl : fault = _ := hfault
    simp only [message]
    have htext : "Field \"" ++ key ++ "\" is not defined by type " ++ type =
        "Field \"" ++ key ++ ("\" is not defined by type " ++ type) := String.append_assoc ..
    rw [htext]
    exact exists_located_of_message

end InputProblem

namespace Input

/-! ## What is wrong where -/

/-- Something is wrong with a value, for a type, at a position in it.  A value that is no list
stands for a list of it, without a position of its own. -/
inductive Offends (schema : Schema) : TypeRef → Json → List PathSegment → InputFault → Prop
  | null {type : TypeRef} (h : type.isNonNull) : Offends schema type .null [] (.nullNotAllowed type)
  | scalar {name message : String} {nullable : Bool} {t : TypeDef} {d : ScalarDef} {value : Json}
      (ht : schema.type? name = some t) (hbody : t.body = .scalar d) (hvalue : value ≠ .null)
      (h : d.ofInput value = .error message) :
      Offends schema (.named name nullable) value [] (.refused t.name message)
  | enum {name message : String} {nullable : Bool} {t : TypeDef} {d : EnumDef} {value : Json}
      (ht : schema.type? name = some t) (hbody : t.body = .enum d) (hvalue : value ≠ .null)
      (h : d.ofInput t.name value = .error message) :
      Offends schema (.named name nullable) value []
        (.refused t.name (enumDetail d value message))
  | notAnObject {name : String} {nullable : Bool} {t : TypeDef} {d : InputObjectDef} {value : Json}
      (ht : schema.type? name = some t) (hbody : t.body = .inputObject d) (hvalue : value ≠ .null)
      (hobject : ∀ members, value ≠ .object members) :
      Offends schema (.named name nullable) value [] (.notAnObject t.name)
  | single {item : TypeRef} {nullable : Bool} {value : Json} {position : List PathSegment}
      {fault : InputFault} (hvalue : value ≠ .null) (harray : ∀ items, value ≠ .array items)
      (h : Offends schema item value position fault) :
      Offends schema (.list item nullable) value position fault
  | item {item : TypeRef} {nullable : Bool} {items : List Json} {index : ℕ} {value : Json}
      {position : List PathSegment} {fault : InputFault} (hitem : items[index]? = some value)
      (h : Offends schema item value position fault) :
      Offends schema (.list item nullable) (.array items) (.index index :: position) fault
  | field {name key : String} {nullable : Bool} {d : InputObjectDef} {field : InputDef}
      {members : Json.Members} {value : Json} {position : List PathSegment} {fault : InputFault}
      (hd : schema.inputObject? name = some d) (hfield : (key, field) ∈ d.fields)
      (hvalue : Assoc.get? members key = some value)
      (h : Offends schema field.type value position fault) :
      Offends schema (.named name nullable) (.object members) (.key key :: position) fault
  | missing {name key : String} {nullable : Bool} {d : InputObjectDef} {field : InputDef}
      {members : Json.Members} (hd : schema.inputObject? name = some d)
      (hfield : (key, field) ∈ d.fields) (hnone : Assoc.get? members key = none)
      (hdefault : field.defaultValue = none) (h : field.type.isNonNull) :
      Offends schema (.named name nullable) (.object members) [.key key] (.missingField field.type)
  | unknown {name key : String} {nullable : Bool} {d : InputObjectDef} {members : Json.Members}
      {value : Json} (hd : schema.inputObject? name = some d) (hmember : (key, value) ∈ members)
      (h : Assoc.contains d.fields key = false) :
      Offends schema (.named name nullable) (.object members) [.key key]
        (.unknownField key name (Suggestion.close key (d.fields.map (·.1))))

/-- A walk comes to one position before it comes to another: to the items of a list in turn, and to
the fields of an input object in the order of their definitions, and then to the members that it
does not know. -/
inductive Precedes (schema : Schema) :
    TypeRef → Json → List PathSegment → List PathSegment → Prop
  | single {item : TypeRef} {nullable : Bool} {value : Json} {p q : List PathSegment}
      (harray : ∀ items, value ≠ .array items) (h : Precedes schema item value p q) :
      Precedes schema (.list item nullable) value p q
  | items {item : TypeRef} {nullable : Bool} {items : List Json} {i j : ℕ}
      {p q : List PathSegment} (h : i < j) :
      Precedes schema (.list item nullable) (.array items) (.index i :: p) (.index j :: q)
  | item {item : TypeRef} {nullable : Bool} {items : List Json} {i : ℕ} {value : Json}
      {p q : List PathSegment} (hitem : items[i]? = some value)
      (h : Precedes schema item value p q) :
      Precedes schema (.list item nullable) (.array items) (.index i :: p) (.index i :: q)
  | fields {name key key' : String} {nullable : Bool} {d : InputObjectDef} {field field' : InputDef}
      {members : Json.Members} {p q : List PathSegment} (hd : schema.inputObject? name = some d)
      (h : [(key, field), (key', field')].Sublist d.fields) :
      Precedes schema (.named name nullable) (.object members) (.key key :: p) (.key key' :: q)
  | field {name key : String} {nullable : Bool} {d : InputObjectDef} {field : InputDef}
      {members : Json.Members} {value : Json} {p q : List PathSegment}
      (hd : schema.inputObject? name = some d) (hfield : (key, field) ∈ d.fields)
      (hvalue : Assoc.get? members key = some value) (h : Precedes schema field.type value p q) :
      Precedes schema (.named name nullable) (.object members) (.key key :: p) (.key key :: q)
  | known {name key key' : String} {nullable : Bool} {d : InputObjectDef} {field : InputDef}
      {members : Json.Members} {p q : List PathSegment} (hd : schema.inputObject? name = some d)
      (hfield : (key, field) ∈ d.fields) (h : Assoc.contains d.fields key' = false) :
      Precedes schema (.named name nullable) (.object members) (.key key :: p) (.key key' :: q)
  | unknown {name key key' : String} {nullable : Bool} {d : InputObjectDef}
      {members : Json.Members} {value value' : Json} {p q : List PathSegment}
      (hd : schema.inputObject? name = some d)
      (h : [(key, value), (key', value')].Sublist members)
      (hkey : Assoc.contains d.fields key = false) (hkey' : Assoc.contains d.fields key' = false) :
      Precedes schema (.named name nullable) (.object members) (.key key :: p) (.key key' :: q)

/-- The problems are all that is wrong with a value that stands at a path, in the order of the
walk. -/
structure Reports (schema : Schema) (path : List PathSegment) (type : TypeRef) (value : Json)
    (problems : List InputProblem) : Prop where
  mem_iff : ∀ problem, problem ∈ problems ↔
    ∃ position, problem.position = path ++ position ∧
      Offends schema type value position problem.fault
  ordered : problems.Pairwise fun first second =>
    ∃ p q, first.position = path ++ p ∧ second.position = path ++ q ∧
      Precedes schema type value p q

/-! ## Values that are wrong themselves, or not at all -/

section

variable {path position : List PathSegment} {type item : TypeRef} {value : Json}
  {fault : InputFault} {name : String} {nullable : Bool}

theorem reports_nil (h : ∀ position fault, ¬ Offends schema type value position fault) :
    Reports schema path type value [] where
  mem_iff problem := by
    refine iff_of_false List.not_mem_nil ?_
    rintro ⟨position, -, hoffends⟩
    exact h position problem.fault hoffends
  ordered := .nil

/-- One problem, with the value itself. -/
theorem reports_singleton (hpath : ∀ path, (InputProblem.mk path fault).position = path)
    (h : ∀ position fault', Offends schema type value position fault' ↔
      position = [] ∧ fault' = fault) :
    Reports schema path type value [⟨path, fault⟩] where
  mem_iff problem := by
    rw [List.mem_singleton]
    constructor
    · rintro rfl
      exact ⟨[], by rw [hpath, List.append_nil], (h _ _).mpr ⟨rfl, rfl⟩⟩
    · rintro ⟨position, hposition, hoffends⟩
      obtain ⟨rfl, hfault⟩ := (h _ _).mp hoffends
      obtain ⟨path', fault'⟩ := problem
      obtain rfl : fault' = fault := hfault
      rw [hpath, List.append_nil] at hposition
      rw [hposition]
  ordered := List.pairwise_singleton _ _

theorem offends_null_iff : Offends schema type .null position fault ↔
    type.isNonNull ∧ position = [] ∧ fault = .nullNotAllowed type := by
  constructor
  · intro h
    cases h with
    | null h => exact ⟨h, rfl, rfl⟩
    | scalar _ _ hvalue => exact absurd rfl hvalue
    | enum _ _ hvalue => exact absurd rfl hvalue
    | notAnObject _ _ hvalue => exact absurd rfl hvalue
    | single hvalue => exact absurd rfl hvalue
  · rintro ⟨h, rfl, rfl⟩
    exact .null h

theorem reports_null (path : List PathSegment) (type : TypeRef) :
    Reports schema path type .null (coerceAt schema path .null type).problems := by
  rw [coerceAt]
  by_cases hnullable : type.isNullable
  · rw [if_pos hnullable]
    apply reports_nil
    intro position fault hoffends
    simp [offends_null_iff, TypeRef.isNonNull, hnullable] at hoffends
  · rw [if_neg hnullable]
    apply reports_singleton (fun _ => rfl)
    intro position fault
    simp [offends_null_iff, TypeRef.isNonNull, hnullable]

/-- The value is not taken apart: it is neither null nor an input object with members. -/
structure IsLeaf (schema : Schema) (name : String) (value : Json) : Prop where
  ne_null : value ≠ .null
  plain : ∀ members, value = .object members → schema.inputObject? name = none

/-- What is wrong with a value that is left to its named type. -/
theorem offends_leaf_iff {t : TypeDef} (ht : schema.type? name = some t)
    (hleaf : IsLeaf schema name value) :
    Offends schema (.named name nullable) value position fault ↔ position = [] ∧
      ((∃ d message, t.body = .scalar d ∧ d.ofInput value = .error message ∧
          fault = .refused t.name message) ∨
        (∃ d message, t.body = .enum d ∧ d.ofInput t.name value = .error message ∧
          fault = .refused t.name (enumDetail d value message)) ∨
        ∃ d, t.body = .inputObject d ∧ fault = .notAnObject t.name) := by
  constructor
  · intro h
    cases h with
    | null => exact absurd rfl hleaf.ne_null
    | scalar hu hbody _ h =>
        obtain rfl := Option.some.inj (ht.symm.trans hu)
        exact ⟨rfl, .inl ⟨_, _, hbody, h, rfl⟩⟩
    | enum hu hbody _ h =>
        obtain rfl := Option.some.inj (ht.symm.trans hu)
        exact ⟨rfl, .inr (.inl ⟨_, _, hbody, h, rfl⟩)⟩
    | notAnObject hu hbody =>
        obtain rfl := Option.some.inj (ht.symm.trans hu)
        exact ⟨rfl, .inr (.inr ⟨_, hbody, rfl⟩)⟩
    | field hd => simp [hleaf.plain _ rfl] at hd
    | missing hd => simp [hleaf.plain _ rfl] at hd
    | unknown hd => simp [hleaf.plain _ rfl] at hd
  · rintro ⟨rfl, ⟨d, message, hbody, h, rfl⟩ | ⟨d, message, hbody, h, rfl⟩ | ⟨d, hbody, rfl⟩⟩
    · exact .scalar ht hbody hleaf.ne_null h
    · exact .enum ht hbody hleaf.ne_null h
    · refine .notAnObject ht hbody hleaf.ne_null fun members hmembers => ?_
      have hnone := hleaf.plain members hmembers
      simp [Schema.inputObject?, ht, TypeDef.inputObject?, hbody] at hnone

theorem reports_leaf (hinput : schema.isInputRef (.named name nullable))
    (hleaf : IsLeaf schema name value) :
    Reports schema path (.named name nullable) value
      (coerceLeaf schema path value name).problems := by
  obtain ⟨t, ht, hinput⟩ := (Option.any_eq_true _ _).mp hinput
  have ht : schema.type? name = some t := ht
  simp only [coerceLeaf, ht]
  cases hbody : t.body with
  | scalar d =>
      cases hread : d.ofInput value with
      | ok result =>
          simp only [hread]
          exact reports_nil fun _ _ => by simp [offends_leaf_iff ht hleaf, hbody, hread]
      | error message =>
          simp only [hread]
          exact reports_singleton (fun _ => rfl) fun _ _ => by
            simp [offends_leaf_iff ht hleaf, hbody, hread]
  | enum d =>
      cases hread : d.ofInput t.name value with
      | ok result =>
          simp only [hread]
          exact reports_nil fun _ _ => by simp [offends_leaf_iff ht hleaf, hbody, hread]
      | error message =>
          simp only [hread]
          exact reports_singleton (fun _ => rfl) fun _ _ => by
            simp [offends_leaf_iff ht hleaf, hbody, hread]
  | inputObject d =>
      exact reports_singleton (fun _ => rfl) fun _ _ => by simp [offends_leaf_iff ht hleaf, hbody]
  | _ => simp [TypeDef.isInputType, hbody] at hinput

end

/-! ## Lists -/

section

variable {path : List PathSegment} {item : TypeRef} {nullable : Bool}

theorem offends_single_iff {value : Json} {position : List PathSegment} {fault : InputFault}
    (hvalue : value ≠ .null) (harray : ∀ items, value ≠ .array items) :
    Offends schema (.list item nullable) value position fault ↔
      Offends schema item value position fault := by
  constructor
  · intro h
    cases h with
    | null => exact absurd rfl hvalue
    | single _ _ h => exact h
    | item => exact absurd rfl (harray _)
  · exact .single hvalue harray

/-- What is wrong with a value that stands for a list is wrong with it as the only item. -/
theorem Reports.single {value : Json} {problems : List InputProblem} (hvalue : value ≠ .null)
    (harray : ∀ items, value ≠ .array items) (h : Reports schema path item value problems) :
    Reports schema path (.list item nullable) value problems where
  mem_iff problem := by
    simp only [offends_single_iff hvalue harray]
    exact h.mem_iff problem
  ordered := by
    refine h.ordered.imp ?_
    rintro first second ⟨p, q, hfirst, hsecond, hprecedes⟩
    exact ⟨p, q, hfirst, hsecond, .single harray hprecedes⟩

theorem problems_coerceItems (path : List PathSegment) (index : ℕ) (items : List Json)
    (item : TypeRef) :
    (coerceItems schema path index items item).problems = (items.zipIdx index).flatMap
      fun (value, i) => (coerceAt schema (path ++ [.index i]) value item).problems := by
  induction items generalizing index with
  | nil => rw [coerceItems, List.zipIdx_nil, List.flatMap_nil]; rfl
  | cons value rest ih => rw [coerceItems, ih, List.zipIdx_cons, List.flatMap_cons]

theorem offends_array_iff {items : List Json} {position : List PathSegment} {fault : InputFault} :
    Offends schema (.list item nullable) (.array items) position fault ↔
      ∃ i value below, items[i]? = some value ∧ position = .index i :: below ∧
        Offends schema item value below fault := by
  constructor
  · intro h
    cases h with
    | single _ harray => exact absurd rfl (harray _)
    | item hitem h => exact ⟨_, _, _, hitem, rfl, h⟩
  · rintro ⟨i, value, below, hitem, rfl, h⟩
    exact .item hitem h

theorem reports_items {items : List Json}
    (h : ∀ i value, items[i]? = some value → Reports schema (path ++ [.index i]) item value
      (coerceAt schema (path ++ [.index i]) value item).problems) :
    Reports schema path (.list item nullable) (.array items)
      (coerceItems schema path 0 items item).problems where
  mem_iff problem := by
    rw [problems_coerceItems, List.mem_flatMap, Prod.exists]
    constructor
    · rintro ⟨value, i, hmem, hproblem⟩
      have hitem : items[i]? = some value := List.mem_zipIdx_iff_getElem?.mp hmem
      obtain ⟨below, hposition, hoffends⟩ := ((h i value hitem).mem_iff problem).mp hproblem
      rw [← List.append_cons] at hposition
      exact ⟨_, hposition, .item hitem hoffends⟩
    · rintro ⟨position, hposition, hoffends⟩
      obtain ⟨i, value, below, hitem, rfl, hbelow⟩ := offends_array_iff.mp hoffends
      rw [List.append_cons] at hposition
      exact ⟨value, i, List.mem_zipIdx_iff_getElem?.mpr hitem,
        ((h i value hitem).mem_iff problem).mpr ⟨below, hposition, hbelow⟩⟩
  ordered := by
    rw [problems_coerceItems, List.pairwise_flatMap]
    constructor
    · rintro ⟨value, i⟩ hmem
      have hitem : items[i]? = some value := List.mem_zipIdx_iff_getElem?.mp hmem
      refine (h i value hitem).ordered.imp ?_
      rintro first second ⟨p, q, hfirst, hsecond, hprecedes⟩
      rw [← List.append_cons] at hfirst hsecond
      exact ⟨_, _, hfirst, hsecond, .item hitem hprecedes⟩
    · have hlt : items.zipIdx.Pairwise fun first second => first.2 < second.2 := by
        rw [← List.pairwise_map (f := Prod.snd) (R := (· < ·)), List.zipIdx_map_snd]
        exact List.pairwise_lt_range'
      refine hlt.imp_of_mem ?_
      rintro ⟨value, i⟩ ⟨value', j⟩ hmem hmem' hij first hfirst second hsecond
      have hitem : items[i]? = some value := List.mem_zipIdx_iff_getElem?.mp hmem
      have hitem' : items[j]? = some value' := List.mem_zipIdx_iff_getElem?.mp hmem'
      obtain ⟨p, hp, -⟩ := ((h i value hitem).mem_iff first).mp hfirst
      obtain ⟨q, hq, -⟩ := ((h j value' hitem').mem_iff second).mp hsecond
      rw [← List.append_cons] at hp hq
      exact ⟨_, _, hp, hq, .items hij⟩

end

/-! ## Input objects -/

/-- The problems with a field of an input object. -/
def fieldProblems (schema : Schema) (path : List PathSegment) (members : Json.Members)
    (entry : String × InputDef) : List InputProblem :=
  match Assoc.get? members entry.1 with
  | some value => (coerceAt schema (path ++ [.key entry.1]) value entry.2.type).problems
  | none =>
    if entry.2.defaultValue = none ∧ entry.2.type.isNonNull then
      [⟨path ++ [.key entry.1], .missingField entry.2.type⟩]
    else []

theorem get?_coerceMembers (path : List PathSegment) (members : Json.Members)
    (fields : List (String × InputDef)) (key : String) :
    Assoc.get? (coerceMembers schema path members fields) key =
      (Assoc.get? fields key).bind fun field => (Assoc.get? members key).map fun value =>
        coerceAt schema (path ++ [.key key]) value field.type := by
  induction members with
  | nil => cases Assoc.get? fields key <;> rfl
  | cons member rest ih =>
      obtain ⟨name, value⟩ := member
      rw [coerceMembers, Assoc.get?_cons]
      by_cases hname : name = key
      · subst hname
        cases hfield : Assoc.get? fields name with
        | none => simp [ih, hfield]
        | some field => simp [Assoc.get?_cons]
      · cases hother : Assoc.get? fields name with
        | none => simp [ih, hname]
        | some field => simp [Assoc.get?_cons, hname, ih]

theorem problems_assemble (path : List PathSegment) (members : Json.Members)
    {fields table : List (String × InputDef)} (hnodup : (table.map (·.1)).Nodup)
    (hfields : fields ⊆ table) :
    (assemble path (coerceMembers schema path members table) fields).problems =
      fields.flatMap (fieldProblems schema path members) := by
  induction fields with
  | nil => rw [assemble, List.flatMap_nil]; rfl
  | cons entry rest ih =>
      obtain ⟨key, field⟩ := entry
      obtain ⟨hentry, hrest⟩ := List.cons_subset.mp hfields
      have hfield : Assoc.get? table key = some field := Assoc.get?_of_mem hnodup hentry
      rw [List.flatMap_cons, ← ih hrest, assemble, get?_coerceMembers, hfield, Option.bind_some,
        fieldProblems]
      cases hvalue : Assoc.get? members key with
      | some value => simp
      | none =>
          cases hdefault : field.defaultValue with
          | some value => simp
          | none => cases hnonNull : field.type.isNonNull <;> simp

section

variable {path position below : List PathSegment} {name key : String} {nullable : Bool}
  {d : InputObjectDef} {field : InputDef} {members : Json.Members} {fault : InputFault}
  {problem : InputProblem} (hd : schema.inputObject? name = some d)
include hd

/-- What is wrong with an input object is wrong with one of its fields or members. -/
theorem exists_key_of_offends
    (h : Offends schema (.named name nullable) (.object members) position fault) :
    ∃ key below, position = .key key :: below ∧
      (key ∈ d.fields.map (·.1) ∨ Assoc.contains d.fields key = false) := by
  obtain ⟨t, ht, hbody⟩ := Option.bind_eq_some_iff.mp hd
  unfold TypeDef.inputObject? at hbody
  cases h with
  | scalar hu hscalar =>
      obtain rfl := Option.some.inj (ht.symm.trans hu)
      simp [hscalar] at hbody
  | enum hu henum =>
      obtain rfl := Option.some.inj (ht.symm.trans hu)
      simp [henum] at hbody
  | notAnObject _ _ _ hobject => exact absurd rfl (hobject _)
  | field hd' hfield =>
      obtain rfl := Option.some.inj (hd.symm.trans hd')
      exact ⟨_, _, rfl, .inl (List.mem_map_of_mem hfield)⟩
  | missing hd' hfield =>
      obtain rfl := Option.some.inj (hd.symm.trans hd')
      exact ⟨_, _, rfl, .inl (List.mem_map_of_mem hfield)⟩
  | unknown hd' _ h =>
      obtain rfl := Option.some.inj (hd.symm.trans hd')
      exact ⟨_, _, rfl, .inr h⟩

theorem offends_field_iff (hnodup : (d.fields.map (·.1)).Nodup) (hfield : (key, field) ∈ d.fields) :
    Offends schema (.named name nullable) (.object members) (.key key :: below) fault ↔
      (∃ value, Assoc.get? members key = some value ∧ Offends schema field.type value below fault) ∨
      Assoc.get? members key = none ∧ field.defaultValue = none ∧ field.type.isNonNull ∧
        below = [] ∧ fault = .missingField field.type := by
  -- A key has one definition, so what is wrong below the key is wrong with this field.
  have hget {field' : InputDef} (hfield' : (key, field') ∈ d.fields) : field' = field :=
    Option.some.inj
      ((Assoc.get?_of_mem hnodup hfield').symm.trans (Assoc.get?_of_mem hnodup hfield))
  constructor
  · intro h
    cases h with
    | field hd' hfield' hvalue h =>
        obtain rfl := Option.some.inj (hd.symm.trans hd')
        exact .inl ⟨_, hvalue, hget hfield' ▸ h⟩
    | missing hd' hfield' hnone hdefault h =>
        obtain rfl := Option.some.inj (hd.symm.trans hd')
        obtain rfl := hget hfield'
        exact .inr ⟨hnone, hdefault, h, rfl, rfl⟩
    | unknown hd' _ h =>
        obtain rfl := Option.some.inj (hd.symm.trans hd')
        simp [Assoc.contains, Assoc.get?_of_mem hnodup hfield] at h
  · rintro (⟨value, hvalue, h⟩ | ⟨hnone, hdefault, h, rfl, rfl⟩)
    · exact .field hd hfield hvalue h
    · exact .missing hd hfield hnone hdefault h

theorem offends_unknown_iff (hunknown : Assoc.contains d.fields key = false) :
    Offends schema (.named name nullable) (.object members) (.key key :: below) fault ↔
      key ∈ members.map (·.1) ∧ below = [] ∧
        fault = .unknownField key name (Suggestion.close key (d.fields.map (·.1))) := by
  have hnot {field : InputDef} (hfield : (key, field) ∈ d.fields) : False := by
    have hsome := Assoc.get?_isSome_iff.mpr (List.mem_map_of_mem (f := (·.1)) hfield)
    rw [Assoc.contains] at hunknown
    exact Bool.false_ne_true (hunknown.symm.trans hsome)
  constructor
  · intro h
    cases h with
    | field hd' hfield =>
        obtain rfl := Option.some.inj (hd.symm.trans hd')
        exact (hnot hfield).elim
    | missing hd' hfield =>
        obtain rfl := Option.some.inj (hd.symm.trans hd')
        exact (hnot hfield).elim
    | unknown hd' hmember =>
        obtain rfl := Option.some.inj (hd.symm.trans hd')
        exact ⟨List.mem_map_of_mem hmember, rfl, rfl⟩
  · rintro ⟨hkey, rfl, rfl⟩
    obtain ⟨⟨_, value⟩, hmember, rfl⟩ := List.mem_map.mp hkey
    exact .unknown hd hmember hunknown

/-- The problems with a field, if those with its value are as they should be. -/
theorem mem_fieldProblems_iff (nullable : Bool) (hnodup : (d.fields.map (·.1)).Nodup)
    (hfield : (key, field) ∈ d.fields)
    (h : ∀ value, Assoc.get? members key = some value → Reports schema (path ++ [.key key])
      field.type value (coerceAt schema (path ++ [.key key]) value field.type).problems) :
    problem ∈ fieldProblems schema path members (key, field) ↔
      ∃ below, problem.position = path ++ .key key :: below ∧
        Offends schema (.named name nullable) (.object members) (.key key :: below)
          problem.fault := by
  simp only [offends_field_iff hd hnodup hfield, fieldProblems]
  cases hvalue : Assoc.get? members key with
  | some value =>
      simp only [(h value hvalue).mem_iff, ← List.append_cons]
      simp
  | none =>
      by_cases hmissing : field.defaultValue = none ∧ field.type.isNonNull
      · simp only [if_pos hmissing, List.mem_singleton]
        constructor
        · rintro rfl
          exact ⟨[], rfl, .inr ⟨trivial, hmissing.1, hmissing.2, rfl, rfl⟩⟩
        · rintro ⟨below, hposition, ⟨_, hsome, -⟩ | ⟨-, -, -, rfl, hfault⟩⟩
          · cases hsome
          · obtain ⟨path', fault⟩ := problem
            obtain rfl : fault = _ := hfault
            obtain rfl : path' = _ := hposition
            rfl
      · simp only [if_neg hmissing, List.not_mem_nil, false_iff]
        rintro ⟨below, -, ⟨_, hsome, -⟩ | ⟨-, hdefault, hnonNull, -⟩⟩
        · cases hsome
        · exact hmissing ⟨hdefault, hnonNull⟩

/-- The problems with the members that the input object does not know. -/
theorem mem_unknownFields_iff (nullable : Bool) :
    problem ∈ unknownFields path name d.fields members ↔
      ∃ key below, Assoc.contains d.fields key = false ∧
        problem.position = path ++ .key key :: below ∧
        Offends schema (.named name nullable) (.object members) (.key key :: below)
          problem.fault := by
  rw [unknownFields, List.mem_filterMap]
  constructor
  · rintro ⟨⟨key, value⟩, hmember, hproblem⟩
    cases hunknown : Assoc.contains d.fields key with
    | true => simp [hunknown] at hproblem
    | false =>
        obtain rfl : _ = problem := by simpa [hunknown] using hproblem
        exact ⟨key, [], hunknown, rfl, .unknown hd hmember hunknown⟩
  · rintro ⟨key, below, hunknown, hposition, hoffends⟩
    obtain ⟨hkey, rfl, hfault⟩ := (offends_unknown_iff hd hunknown).mp hoffends
    obtain ⟨path', fault⟩ := problem
    obtain rfl : fault = _ := hfault
    obtain ⟨⟨_, value⟩, hmember, rfl⟩ := List.mem_map.mp hkey
    have hpath : path' ++ [.key _] = path ++ [.key _] := hposition
    refine ⟨_, hmember, ?_⟩
    simp [hunknown, List.append_cancel_right hpath]

theorem ordered_fieldProblems (hfield : (key, field) ∈ d.fields)
    (h : ∀ value, Assoc.get? members key = some value → Reports schema (path ++ [.key key])
      field.type value (coerceAt schema (path ++ [.key key]) value field.type).problems) :
    (fieldProblems schema path members (key, field)).Pairwise fun first second =>
      ∃ p q, first.position = path ++ p ∧ second.position = path ++ q ∧
        Precedes schema (.named name nullable) (.object members) p q := by
  unfold fieldProblems
  cases hvalue : Assoc.get? members key with
  | some value =>
      refine (h value hvalue).ordered.imp ?_
      rintro first second ⟨p, q, hfirst, hsecond, hprecedes⟩
      rw [← List.append_cons] at hfirst hsecond
      exact ⟨_, _, hfirst, hsecond, .field hd hfield hvalue hprecedes⟩
  | none =>
      dsimp only
      split
      · exact List.pairwise_singleton _ _
      · exact .nil

theorem ordered_unknownFields :
    (unknownFields path name d.fields members).Pairwise fun first second =>
      ∃ p q, first.position = path ++ p ∧ second.position = path ++ q ∧
        Precedes schema (.named name nullable) (.object members) p q := by
  rw [unknownFields, List.pairwise_filterMap, List.pairwise_iff_forall_sublist]
  rintro ⟨key, value⟩ ⟨key', value'⟩ hsublist first hfirst second hsecond
  cases hkey : Assoc.contains d.fields key with
  | true => simp [hkey] at hfirst
  | false =>
      cases hkey' : Assoc.contains d.fields key' with
      | true => simp [hkey'] at hsecond
      | false =>
          obtain rfl : _ = first := by simpa [hkey] using hfirst
          obtain rfl : _ = second := by simpa [hkey'] using hsecond
          exact ⟨[.key key], [.key key'], rfl, rfl, .unknown hd hsublist hkey hkey'⟩

theorem problems_coerceAt_object (hnodup : (d.fields.map (·.1)).Nodup) :
    (coerceAt schema path (.object members) (.named name nullable)).problems =
      d.fields.flatMap (fieldProblems schema path members) ++
        unknownFields path name d.fields members := by
  rw [coerceAt]
  simp only [TypeRef.innermostName, hd]
  rw [problems_assemble path members hnodup (List.Subset.refl _)]

theorem reports_object (hnodup : (d.fields.map (·.1)).Nodup)
    (h : ∀ key field value, (key, field) ∈ d.fields → Assoc.get? members key = some value →
      Reports schema (path ++ [.key key]) field.type value
        (coerceAt schema (path ++ [.key key]) value field.type).problems) :
    Reports schema path (.named name nullable) (.object members)
      (coerceAt schema path (.object members) (.named name nullable)).problems where
  mem_iff problem := by
    rw [problems_coerceAt_object hd hnodup, List.mem_append, List.mem_flatMap,
      mem_unknownFields_iff hd nullable]
    constructor
    · rintro (⟨⟨key, field⟩, hfield, hproblem⟩ | ⟨key, below, -, hposition, hoffends⟩)
      · obtain ⟨below, hposition, hoffends⟩ := (mem_fieldProblems_iff hd nullable hnodup hfield
          fun value => h key field value hfield).mp hproblem
        exact ⟨_, hposition, hoffends⟩
      · exact ⟨_, hposition, hoffends⟩
    · rintro ⟨position, hposition, hoffends⟩
      obtain ⟨key, below, rfl, hkey | hunknown⟩ := exists_key_of_offends hd hoffends
      · obtain ⟨⟨_, field⟩, hfield, rfl⟩ := List.mem_map.mp hkey
        exact .inl ⟨_, hfield, (mem_fieldProblems_iff hd nullable hnodup hfield
          fun value => h _ field value hfield).mpr ⟨below, hposition, hoffends⟩⟩
      · exact .inr ⟨key, below, hunknown, hposition, hoffends⟩
  ordered := by
    have hposition {key : String} {field : InputDef} {problem : InputProblem}
        (hfield : (key, field) ∈ d.fields)
        (hproblem : problem ∈ fieldProblems schema path members (key, field)) :
        ∃ below, problem.position = path ++ .key key :: below := by
      obtain ⟨below, hposition, -⟩ := (mem_fieldProblems_iff hd nullable hnodup hfield
        fun value => h key field value hfield).mp hproblem
      exact ⟨below, hposition⟩
    rw [problems_coerceAt_object hd hnodup, List.pairwise_append, List.pairwise_flatMap]
    -- Two problems are with one field, with two fields, or with a field and a member that is not
    -- known.
    refine ⟨⟨?_, ?_⟩, ordered_unknownFields hd, ?_⟩
    · rintro ⟨key, field⟩ hfield
      exact ordered_fieldProblems hd hfield fun value => h key field value hfield
    · rw [List.pairwise_iff_forall_sublist]
      rintro ⟨key, field⟩ ⟨key', field'⟩ hsublist first hfirst second hsecond
      obtain ⟨p, hp⟩ := hposition (hsublist.subset List.mem_cons_self) hfirst
      obtain ⟨q, hq⟩ :=
        hposition (hsublist.subset (List.mem_cons_of_mem _ List.mem_cons_self)) hsecond
      exact ⟨_, _, hp, hq, .fields hd hsublist⟩
    · intro first hfirst second hsecond
      obtain ⟨⟨key, field⟩, hfield, hfirst⟩ := List.mem_flatMap.mp hfirst
      obtain ⟨p, hp⟩ := hposition hfield hfirst
      obtain ⟨key', q, hunknown, hq, -⟩ := (mem_unknownFields_iff hd nullable).mp hsecond
      exact ⟨_, _, hp, hq, .known hd hfield hunknown⟩

end

/-! ## All values -/

/-- What is wrong with the value is reported, wherever it stands and whatever type is expected. -/
def Reported (schema : Schema) (value : Json) : Prop :=
  ∀ path type, schema.isInputRef type →
    Reports schema path type value (coerceAt schema path value type).problems

section

variable {path : List PathSegment} {item : TypeRef} {nullable : Bool} {name : String} {value : Json}

theorem problems_coerceAt_list (hvalue : value ≠ .null) (harray : ∀ items, value ≠ .array items) :
    (coerceAt schema path value (.list item nullable)).problems =
      (coerceAt schema path value item).problems := by
  cases value with
  | null => exact absurd rfl hvalue
  | array items => exact absurd rfl (harray items)
  | object members =>
      rw [coerceAt, coerceAt, TypeRef.innermostName]
      cases schema.inputObject? item.innermostName <;> rfl
  | _ =>
      rw [coerceAt, coerceAt, TypeRef.innermostName]
      · rfl
      all_goals simp

theorem problems_coerceAt_leaf (hleaf : IsLeaf schema name value) :
    (coerceAt schema path value (.named name nullable)).problems =
      (coerceLeaf schema path value name).problems := by
  cases value with
  | null => exact absurd rfl hleaf.ne_null
  | object members =>
      rw [coerceAt]
      simp only [TypeRef.innermostName, hleaf.plain members rfl]
      rfl
  | _ =>
      rw [coerceAt]
      · rfl
      all_goals simp

/-- A value that is no list may stand for a list, which changes nothing. -/
theorem reported_of_named (hvalue : value ≠ .null) (harray : ∀ items, value ≠ .array items)
    (h : ∀ path name nullable, schema.isInputRef (.named name nullable) →
      Reports schema path (.named name nullable) value
        (coerceAt schema path value (.named name nullable)).problems) :
    Reported schema value := by
  intro path type
  -- By induction on the lists that the value stands for.
  induction type with
  | named name nullable => exact h path name nullable
  | list item nullable ih =>
      intro hinput
      rw [problems_coerceAt_list hvalue harray]
      exact (ih hinput).single hvalue harray

theorem reported_of_leaf (hvalue : value ≠ .null) (harray : ∀ items, value ≠ .array items)
    (hobject : ∀ members, value ≠ .object members) : Reported schema value := by
  apply reported_of_named hvalue harray
  intro path name nullable hinput
  have hleaf : IsLeaf schema name value :=
    ⟨hvalue, fun members hmembers => absurd hmembers (hobject members)⟩
  rw [problems_coerceAt_leaf hleaf]
  exact reports_leaf hinput hleaf

theorem reported_array {items : List Json} (h : ∀ value ∈ items, Reported schema value) :
    Reported schema (.array items) := by
  intro path type hinput
  cases type with
  | named name nullable =>
      have hleaf : IsLeaf schema name (.array items) := ⟨nofun, nofun⟩
      rw [problems_coerceAt_leaf hleaf]
      exact reports_leaf hinput hleaf
  | list item nullable =>
      rw [coerceAt]
      apply reports_items
      intro i value hitem
      exact h value (List.mem_of_getElem? hitem) _ item hinput

theorem reported_object (hrefs : schema.FieldsAreInputs) (hinputs : schema.InputsSound)
    {members : Json.Members} (h : ∀ member ∈ members, Reported schema member.2) :
    Reported schema (.object members) := by
  refine reported_of_named (by simp) (by simp) fun path name nullable hinput => ?_
  cases hd : schema.inputObject? name with
  | none =>
      have hleaf : IsLeaf schema name (.object members) := ⟨nofun, fun _ _ => hd⟩
      rw [problems_coerceAt_leaf hleaf]
      exact reports_leaf hinput hleaf
  | some d =>
      apply reports_object hd (hinputs hd).nodup
      intro key field value hfield hvalue
      exact h (key, value) (Assoc.mem_of_get? hvalue) _ field.type (hrefs name d hd _ hfield)

end

mutual

/-- What is wrong with a value is what is wrong with its parts and with the value itself. -/
theorem reported (hrefs : schema.FieldsAreInputs) (hinputs : schema.InputsSound) :
    ∀ value, Reported schema value
  | .null => fun path type _ => reports_null path type
  | .array items => reported_array (reported_items hrefs hinputs items)
  | .object members => reported_object hrefs hinputs (reported_members hrefs hinputs members)
  | .bool _ => reported_of_leaf nofun nofun nofun
  | .int _ => reported_of_leaf nofun nofun nofun
  | .float _ => reported_of_leaf nofun nofun nofun
  | .string _ => reported_of_leaf nofun nofun nofun

theorem reported_items (hrefs : schema.FieldsAreInputs) (hinputs : schema.InputsSound) :
    ∀ items : List Json, ∀ value ∈ items, Reported schema value
  | [] => fun _ hmem => absurd hmem List.not_mem_nil
  | item :: rest =>
      List.forall_mem_cons.mpr ⟨reported hrefs hinputs item, reported_items hrefs hinputs rest⟩

theorem reported_members (hrefs : schema.FieldsAreInputs) (hinputs : schema.InputsSound) :
    ∀ members : Json.Members, ∀ member ∈ members, Reported schema member.2
  | [] => fun _ hmem => absurd hmem List.not_mem_nil
  | (_, value) :: rest =>
      List.forall_mem_cons.mpr ⟨reported hrefs hinputs value, reported_members hrefs hinputs rest⟩

end

/-! ## One problem for each position -/

/-- Two entries of a list without a key in common have different keys. -/
theorem ne_of_pair_sublist {α : Type} {entries : List (String × α)} {key key' : String} {a b : α}
    (hnodup : (entries.map (·.1)).Nodup) (h : [(key, a), (key', b)].Sublist entries) :
    key ≠ key' := by
  have hpair : ([(key, a), (key', b)].map (·.1)).Nodup := hnodup.sublist (h.map (·.1))
  simpa using hpair

/-- A walk comes to a position once, if no object has two members under one key. -/
theorem Precedes.ne {type : TypeRef} {value : Json} {p q : List PathSegment}
    (hinputs : schema.InputsSound) (h : Precedes schema type value p q) :
    value.isProper → p ≠ q := by
  induction h with
  | single _ _ ih => exact ih
  | items hlt =>
      intro _ heq
      cases heq
      exact absurd hlt (lt_irrefl _)
  | item hitem _ ih =>
      intro hproper heq
      rw [Json.isProper] at hproper
      cases heq
      exact ih (Json.isProper_of_mem_items hproper (List.mem_of_getElem? hitem)) rfl
  | fields hd hsublist =>
      intro _ heq
      cases heq
      exact ne_of_pair_sublist (hinputs hd).nodup hsublist rfl
  | field hd hfield hvalue _ ih =>
      intro hproper heq
      rw [Json.isProper, Bool.and_eq_true] at hproper
      cases heq
      exact ih (Json.isProper_of_mem_members hproper.2 (Assoc.mem_of_get? hvalue)) rfl
  | known hd hfield hunknown =>
      intro _ heq
      cases heq
      simp [Assoc.contains, Assoc.get?_of_mem (hinputs hd).nodup hfield] at hunknown
  | unknown hd hsublist =>
      -- Members that are not known are reported one by one, so a key given twice would be repeated.
      intro hproper heq
      rw [Json.isProper, Bool.and_eq_true] at hproper
      cases heq
      exact ne_of_pair_sublist (of_decide_eq_true hproper.1) hsublist rfl

/-- For all that is wrong with a value there is a problem that says so. -/
theorem exists_problem_of_offends {type : TypeRef} {value : Json} {position : List PathSegment}
    {fault : InputFault} (h : Offends schema type value position fault) :
    ∃ problem : InputProblem, problem.position = position ∧ problem.fault = fault := by
  induction h with
  | single _ _ _ ih => exact ih
  | item _ _ ih =>
      obtain ⟨problem, rfl, rfl⟩ := ih
      exact ⟨⟨_ :: problem.path, problem.fault⟩, InputProblem.position_cons .., rfl⟩
  | field _ _ _ _ ih =>
      obtain ⟨problem, rfl, rfl⟩ := ih
      exact ⟨⟨_ :: problem.path, problem.fault⟩, InputProblem.position_cons .., rfl⟩
  | null => exact ⟨⟨[], _⟩, rfl, rfl⟩
  | scalar => exact ⟨⟨[], _⟩, rfl, rfl⟩
  | enum => exact ⟨⟨[], _⟩, rfl, rfl⟩
  | notAnObject => exact ⟨⟨[], _⟩, rfl, rfl⟩
  | missing => exact ⟨⟨[_], _⟩, rfl, rfl⟩
  | unknown => exact ⟨⟨[], _⟩, rfl, rfl⟩

theorem mem_problems_iff {type : TypeRef} {value : Json} {problems : List InputProblem}
    (h : Reports schema [] type value problems) (problem : InputProblem) :
    problem ∈ problems ↔ Offends schema type value problem.position problem.fault := by
  simp [h.mem_iff problem]

theorem precedes_problems {type : TypeRef} {value : Json} {problems : List InputProblem}
    (h : Reports schema [] type value problems) :
    (problems.map (·.position)).Pairwise (Precedes schema type value) := by
  refine List.pairwise_map.mpr (h.ordered.imp ?_)
  rintro first second ⟨p, q, hfirst, hsecond, hprecedes⟩
  rwa [hfirst, hsecond]

/-- Coercion fails if something is wrong with a value, and then it reports all of that: each
position once, in the order of a walk over the value, by a message that names it.  If nothing is
wrong, it comes to a value that conforms to the type. -/
theorem coerce_reports {draft : Schema.Draft} {type : TypeRef} (hbuild : draft.build = .ok schema)
    (hinputs : schema.InputsSound) (hreads : schema.ReadsNoNull) (hinput : schema.isInputRef type)
    (value : Json) :
    match coerce schema value type with
    | .ok result => (∀ position fault, ¬ Offends schema type value position fault) ∧
        schema.Conforms (fun _ => False) type result
    | .error problems => problems ≠ [] ∧
        (∀ problem, problem ∈ problems ↔
          Offends schema type value problem.position problem.fault) ∧
        (problems.map (·.position)).Pairwise (Precedes schema type value) ∧
        (value.isProper → (problems.map (·.position)).Nodup) ∧
        ∀ problem ∈ problems, problem.NamesPosition := by
  have hreports : Reports schema [] type value (coerceAt schema [] value type).problems :=
    reported (Schema.fieldsAreInputs_of_build hbuild) hinputs value [] type hinput
  cases hproblems : (coerceAt schema [] value type).problems with
  | nil =>
      have hcoerce : coerce schema value type = .ok (coerceAt schema [] value type).value := by
        simp only [coerce, hproblems]
      rw [hproblems] at hreports
      rw [hcoerce]
      refine ⟨fun position fault hoffends => ?_, conforms_of_coerceAt hinputs hreads hproblems⟩
      obtain ⟨problem, rfl, rfl⟩ := exists_problem_of_offends hoffends
      exact absurd ((mem_problems_iff hreports problem).mpr hoffends) List.not_mem_nil
  | cons first rest =>
      have hcoerce : coerce schema value type = .error (first :: rest) := by
        simp only [coerce, hproblems]
      rw [hproblems] at hreports
      rw [hcoerce]
      have hordered := precedes_problems hreports
      refine ⟨List.cons_ne_nil first rest, mem_problems_iff hreports, hordered,
        fun hproper => ?_, fun problem _ => problem.namesPosition⟩
      exact hordered.imp fun hprecedes => hprecedes.ne hinputs hproper

/-! ### A value with which much is wrong -/

/-- Tables are booked for a number of guests. -/
def bookingDraft : Schema.Draft where
  query := {
    name := "Query"
    origin := .host 0
    body := .object { fields := FieldDef.table [{
      name := "book"
      type := .named Scalar.booleanName true
      arguments := InputDef.table [{ name := "booking", type := .named "Booking" false }] }] } }
  types := [{
    name := "Booking"
    origin := .host 1
    body := .inputObject { fields := InputDef.table [
      { name := "guests", type := .named Scalar.intName false },
      { name := "tables", type := .list (.named Scalar.intName false) true },
      { name := "name", type := .named Scalar.stringName false },
      { name := "hours", type := .named Scalar.intName false, defaultValue := some (.int 2) }] } }]

@[irreducible] def bookingSchema : Schema := bookingDraft.built (by decide +kernel)

theorem build_bookingDraft : bookingDraft.build = .ok bookingSchema := by
  unfold bookingSchema
  exact Schema.Draft.build_eq_ok_built _ _

theorem readsNoNull_bookingSchema : bookingSchema.ReadsNoNull := by
  -- The host defines an object and an input object, of which nothing is asked.
  have hhost : ∀ t ∈ bookingDraft.allTypes, t.IsDefinite := by
    simp only [Schema.Draft.allTypes, bookingDraft, Option.toList, List.cons_append,
      List.nil_append, List.forall_mem_cons, List.not_mem_nil, false_imp_iff, implies_true,
      and_true]
    exact ⟨TypeDef.isDefinite_of_other (by simp) rfl, TypeDef.isDefinite_of_other (by simp) rfl⟩
  intro name t ht
  exact (Schema.isDefinite_of_build build_bookingDraft hhost ht).readsNoNull

/-- A booking for no number of guests, at two tables of which one is null, without a name. -/
def badBooking : Json :=
  .object [("dogs", .int 1), ("tables", .array [.int 3, .null]), ("guests", .string "many")]

/-- The fields are reported in the order of their definitions, and then the dogs. -/
theorem coerce_reports_badBooking : ∃ problems,
    coerce bookingSchema badBooking (.named "Booking" false) = .error problems ∧
    problems.map (·.position) =
      [[.key "guests"], [.key "tables", .index 1], [.key "name"], [.key "dogs"]] ∧
    (∀ problem, problem ∈ problems ↔ Offends bookingSchema (.named "Booking" false) badBooking
      problem.position problem.fault) ∧
    (problems.map (·.position)).Nodup := by
  have hpositions : (match coerce bookingSchema badBooking (.named "Booking" false) with
      | .ok _ => false
      | .error problems => problems.map (·.position) =
        [[.key "guests"], [.key "tables", .index 1], [.key "name"], [.key "dogs"]]) = true := by
    decide +kernel
  have hinputs : bookingSchema.InputsSound := Schema.inputsSound_of_all (by decide +kernel)
  have hreports := coerce_reports build_bookingDraft hinputs readsNoNull_bookingSchema
    (by decide +kernel : bookingSchema.isInputRef (.named "Booking" false)) badBooking
  cases hcoerce : coerce bookingSchema badBooking (.named "Booking" false) with
  | ok result => simp [hcoerce] at hpositions
  | error problems =>
      rw [hcoerce] at hreports
      obtain ⟨-, hmem, -, hnodup, -⟩ := hreports
      exact ⟨problems, rfl, by simpa [hcoerce] using hpositions, hmem, hnodup (by decide)⟩

end Input

end GraphQL
