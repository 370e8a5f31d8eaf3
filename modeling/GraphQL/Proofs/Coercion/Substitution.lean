import Mathlib
import GraphQL.Proofs.Coercion.Constants

/-!
# Variables in place of literals

A variable can be replaced by a literal that has its value: what contains it keeps its own value
(`Literal.coerce?_of_substituted`).  This holds at every depth of lists and input objects, and at
each place the literal only has to be right for the type that is expected there.

It does not hold within a list or an object that stands for a scalar without a function for
literals.  Such a literal is read as a plain value, and that is done without the values of
variables: in a list null takes their place, and a field of an object is left out
(`Value.cleared`).
-/

namespace GraphQL

variable {schema : Schema} {bindings : Json.Members} {other : Option Json.Members}

/-! ## Literals without their variables -/

namespace Value

mutual

/-- The literal without the variables in its lists and objects: an item is null instead, and a
field is left out. -/
def cleared : Value → Value
  | list items span => .list (clearedItems items) span
  | object fields span => .object (clearedFields fields) span
  | literal => literal

def clearedItems : List Value → List Value
  | [] => []
  | .var _ :: rest => .null none :: clearedItems rest
  | item :: rest => item.cleared :: clearedItems rest

def clearedFields : List ObjectField → List ObjectField
  | [] => []
  | ⟨_, .var _, _⟩ :: rest => clearedFields rest
  | ⟨name, literal, span⟩ :: rest => ⟨name, literal.cleared, span⟩ :: clearedFields rest

end

mutual

/-- When no variable has a value, the literal is the same plain value without them. -/
theorem toJson?_cleared : ∀ literal : Value, literal.cleared.toJson? none = literal.toJson? none
  | list items span => by rw [cleared, toJson?, toJson?, itemsToJson_clearedItems items]
  | object fields span => by rw [cleared, toJson?, toJson?, fieldsToJson_clearedFields fields]
  | .var v => by rw [cleared] <;> simp
  | .null span => by rw [cleared] <;> simp
  | .int text span => by rw [cleared] <;> simp
  | .float text span => by rw [cleared] <;> simp
  | .string text block span => by rw [cleared] <;> simp
  | .boolean b span => by rw [cleared] <;> simp
  | .enum name span => by rw [cleared] <;> simp

theorem itemsToJson_clearedItems :
    ∀ items : List Value, itemsToJson none (clearedItems items) = itemsToJson none items
  | [] => by rw [clearedItems]
  | item :: rest => by
      have hrest := itemsToJson_clearedItems rest
      cases item with
      | var v =>
          rw [clearedItems, itemsToJson, itemsToJson, hrest]
          rfl
      | _ =>
          rw [clearedItems, itemsToJson, itemsToJson, hrest, toJson?_cleared]
          simp

theorem fieldsToJson_clearedFields :
    ∀ fields : List ObjectField, fieldsToJson none (clearedFields fields) = fieldsToJson none fields
  | [] => by rw [clearedFields]
  | ⟨name, literal, span⟩ :: rest => by
      have hrest := fieldsToJson_clearedFields rest
      cases literal with
      | var v =>
          rw [clearedFields, fieldsToJson, hrest]
          rfl
      | _ =>
          rw [clearedFields, fieldsToJson, fieldsToJson, hrest, toJson?_cleared]
          simp

end

end Value

/-! ## Substitution -/

namespace Literal

/-- A literal without variables that has the value of a variable where a type is expected.  The
value is null only if null may stand there. -/
structure StandsFor (schema : Schema) (bindings : Json.Members) (v : Variable) (type : TypeRef)
    (literal : Value) : Prop where
  isConst : literal.isConst
  value : ∃ value, Assoc.get? bindings v.name.text = some value ∧
    coerce? schema none literal type = some value ∧ (value = .null → type.isNullable)

mutual

/-- The second literal is the first one, where a type is expected, with a literal that stands for
it in the place of each variable.  Only within a scalar that reads plain values the variables are
taken out. -/
inductive Substituted (schema : Schema) (bindings : Json.Members) :
    Value → TypeRef → Value → Prop
  | var {v : Variable} {type : TypeRef} {literal : Value}
      (h : StandsFor schema bindings v type literal) :
      Substituted schema bindings (.var v) type literal
  | const {literal : Value} {type : TypeRef} (h : literal.isConst) :
      Substituted schema bindings literal type literal
  | list {items items' : List Value} {span : Option Span} {item : TypeRef} {nullable : Bool}
      (h : SubstitutedItems schema bindings items item items') :
      Substituted schema bindings (.list items span) (.list item nullable) (.list items' span)
  | object {fields fields' : List ObjectField} {span : Option Span} {type : TypeRef}
      {d : InputObjectDef} (hd : schema.inputObject? type.innermostName = some d)
      (h : SubstitutedFields schema bindings fields d.fields fields') :
      Substituted schema bindings (.object fields span) type (.object fields' span)
  | scalarList {items : List Value} {span : Option Span} {name : String} {nullable : Bool}
      {t : TypeDef} {d : ScalarDef} (ht : schema.type? name = some t) (hbody : t.body = .scalar d)
      (hparse : d.parseLiteral = none) :
      Substituted schema bindings (.list items span) (.named name nullable)
        (Value.list items span).cleared
  | scalarObject {fields : List ObjectField} {span : Option Span} {type : TypeRef}
      {t : TypeDef} {d : ScalarDef} (ht : schema.type? type.innermostName = some t)
      (hbody : t.body = .scalar d) (hparse : d.parseLiteral = none) :
      Substituted schema bindings (.object fields span) type (Value.object fields span).cleared

inductive SubstitutedItems (schema : Schema) (bindings : Json.Members) :
    List Value → TypeRef → List Value → Prop
  | nil {type : TypeRef} : SubstitutedItems schema bindings [] type []
  | cons {item item' : Value} {rest rest' : List Value} {type : TypeRef}
      (h : Substituted schema bindings item type item')
      (hrest : SubstitutedItems schema bindings rest type rest') :
      SubstitutedItems schema bindings (item :: rest) type (item' :: rest')

/-- The fields have the same names.  What a field is that the type does not have does not
matter. -/
inductive SubstitutedFields (schema : Schema) (bindings : Json.Members) :
    List ObjectField → List (String × InputDef) → List ObjectField → Prop
  | nil {table : List (String × InputDef)} : SubstitutedFields schema bindings [] table []
  | cons {name : Name} {literal literal' : Value} {span span' : Option Span}
      {rest rest' : List ObjectField} {table : List (String × InputDef)} {field : InputDef}
      (hfield : Assoc.get? table name.text = some field)
      (h : Substituted schema bindings literal field.type literal')
      (hrest : SubstitutedFields schema bindings rest table rest') :
      SubstitutedFields schema bindings (⟨name, literal, span⟩ :: rest) table
        (⟨name, literal', span'⟩ :: rest')
  | unknown {name : Name} {literal literal' : Value} {span span' : Option Span}
      {rest rest' : List ObjectField} {table : List (String × InputDef)}
      (hfield : Assoc.get? table name.text = none)
      (hrest : SubstitutedFields schema bindings rest table rest') :
      SubstitutedFields schema bindings (⟨name, literal, span⟩ :: rest) table
        (⟨name, literal', span'⟩ :: rest')

end

theorem StandsFor.read_eq {v : Variable} {type : TypeRef} {literal : Value}
    (h : StandsFor schema bindings v type literal) :
    read schema (some bindings) (.var v) type = read schema other literal type := by
  obtain ⟨value, hvalue, hread, hnull⟩ := h.value
  have hvariable : readVariable (some bindings) v.name.text type = .value value := by
    have hallowed : ¬ (value.isNull && type.isNonNull) := by
      cases value <;> simp_all [Json.isNull, TypeRef.isNonNull]
    simp only [readVariable, Option.bind_some, hvalue, if_neg hallowed]
  calc read schema (some bindings) (.var v) type
      = .value value := by rw [read, hvariable]
    _ = read schema none literal type := (read_of_coerce? hread).symm
    _ = read schema other literal type := read_of_isConst h.isConst

/-- A scalar that reads plain values does not see the variables. -/
theorem readLeaf_cleared {name : String} {t : TypeDef} {d : ScalarDef}
    (ht : schema.type? name = some t) (hbody : t.body = .scalar d) (hparse : d.parseLiteral = none)
    (literal : Value) : readLeaf schema literal.cleared name = readLeaf schema literal name := by
  simp only [readLeaf, ht, Option.bind_some, TypeDef.ofLiteral?, hbody, ScalarDef.ofLiteral, hparse,
    Value.toJson?_cleared]

mutual

theorem read_of_substituted {literal literal' : Value} {type : TypeRef} :
    Substituted schema bindings literal type literal' →
    read schema (some bindings) literal type = read schema other literal' type
  | .var h => h.read_eq
  | .const h => read_of_isConst h
  | .list h => by rw [read, read, readItems_of_substituted h]
  | .object hd h => by
      rw [read, read]
      simp only [hd, readFields_of_substituted h]
  | .scalarList ht hbody hparse => by
      have hleaf := readLeaf_cleared ht hbody hparse
      rw [Value.cleared, read, read, ← Value.cleared, TypeRef.innermostName, hleaf] <;> simp
  | .scalarObject ht hbody hparse => by
      have hleaf := readLeaf_cleared ht hbody hparse
      rw [Value.cleared, read, read]
      simp only [Schema.inputObject?_of_scalar ht hbody]
      rw [← Value.cleared, hleaf]

theorem readItems_of_substituted {items items' : List Value} {type : TypeRef} :
    SubstitutedItems schema bindings items type items' →
    readItems schema (some bindings) items type = readItems schema other items' type
  | .nil => by rw [readItems, readItems]
  | .cons h hrest => by
      rw [readItems, readItems, read_of_substituted h, readItems_of_substituted hrest]

theorem readFields_of_substituted {fields fields' : List ObjectField}
    {table : List (String × InputDef)} :
    SubstitutedFields schema bindings fields table fields' →
    readFields schema (some bindings) fields table = readFields schema other fields' table
  | .nil => by rw [readFields, readFields]
  | .cons hfield h hrest => by
      rw [readFields, readFields]
      simp only [hfield, read_of_substituted h, readFields_of_substituted hrest]
  | .unknown hfield hrest => by
      rw [readFields, readFields]
      simp only [hfield, readFields_of_substituted hrest]

end

/-- A literal keeps its value when its variables are replaced by literals that stand for them. -/
theorem coerce?_of_substituted {literal literal' : Value} {type : TypeRef}
    (h : Substituted schema bindings literal type literal') :
    coerce? schema (some bindings) literal type = coerce? schema other literal' type := by
  rw [coerce?, coerce?, read_of_substituted h]

/-- A scalar that takes every value as it is. -/
def anyType : TypeDef where
  name := "Any"
  origin := .host 3
  body := .scalar {}

/-- The variable of a name. -/
def variableOf (name : String) : Value := .var ⟨⟨name, none⟩, none⟩

-- The scalar gets null for the variable in the list, although that has a value.
example : coerce? { filterSchema with types := [("Any", anyType)] } (some [("v", .int 5)])
    (.list [variableOf "v"] none) (.named "Any" true) = some (.array [.null]) := rfl

/-- A search that is filled in by variables. -/
def searchForm : Value :=
  .object [
    ⟨⟨"limit", none⟩, variableOf "n", none⟩,
    ⟨⟨"tags", none⟩, .list [variableOf "tags", .null none] none, none⟩,
    ⟨⟨"inner", none⟩, .object [⟨⟨"order", none⟩, variableOf "order", none⟩] none, none⟩] none

/-- The search with literals in the place of its variables. -/
def searchFilled : Value :=
  .object [
    ⟨⟨"limit", none⟩, .int "5" none, none⟩,
    ⟨⟨"tags", none⟩, .list [.string "new" false none, .null none] none, none⟩,
    ⟨⟨"inner", none⟩, .object [⟨⟨"order", none⟩, .enum "DOWN" none, none⟩] none, none⟩] none

/-- The values of the variables in `searchForm`. -/
def searchBindings : Json.Members :=
  [("n", .int 5), ("tags", .array [.string "new"]), ("order", .object [("by", .int (-1))])]

theorem substituted_searchForm :
    Substituted filterSchema searchBindings searchForm (.named "Filter" true) searchFilled := by
  have hn : StandsFor filterSchema searchBindings ⟨⟨"n", none⟩, none⟩
      (.named Scalar.intName false) (.int "5" none) := ⟨rfl, .int 5, rfl, rfl, nofun⟩
  have htags : StandsFor filterSchema searchBindings ⟨⟨"tags", none⟩, none⟩
      (.list (.named Scalar.stringName false) true) (.string "new" false none) :=
    ⟨rfl, .array [.string "new"], rfl, rfl, nofun⟩
  have horder : StandsFor filterSchema searchBindings ⟨⟨"order", none⟩, none⟩
      (.named "Order" true) (.enum "DOWN" none) :=
    ⟨rfl, .object [("by", .int (-1))], rfl, rfl, nofun⟩
  refine .object rfl (.cons rfl (.var hn) (.cons rfl ?_ (.cons rfl ?_ .nil)))
  · exact .list (.cons (.var htags) (.cons (.const rfl) .nil))
  · exact .object rfl (.cons rfl (.var horder) .nil)

theorem coerce?_searchForm :
    Substituted filterSchema searchBindings searchForm (.named "Filter" true) searchFilled ∧
      coerce? filterSchema (some searchBindings) searchForm (.named "Filter" true) =
        coerce? filterSchema none searchFilled (.named "Filter" true) :=
  ⟨substituted_searchForm, coerce?_of_substituted substituted_searchForm⟩

end Literal

end GraphQL
