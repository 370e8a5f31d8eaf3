import GraphQL.Document.Parser

/-!
# References to types

How a schema refers to a type: by name, with any number of list layers, each layer
either nullable or not.  A type that is written in a document is the same thing with
its places in the text; `TypeRef.ofExpr` and `TypeRef.toExpr` go between the two.
-/

namespace GraphQL

/-- A named type within any number of lists.  Each layer says whether null may stand
in its place, so no layer can be marked non-null twice. -/
inductive TypeRef where
  | named (name : String) (nullable : Bool)
  | list (item : TypeRef) (nullable : Bool)
  deriving DecidableEq, Repr

/-- Why a text is no reference to a type. -/
inductive TypeRefError where
  | doubleNonNull
  | malformed (error : SyntaxError)
  deriving DecidableEq, Repr

namespace TypeRefError

def message : TypeRefError → String
  | doubleNonNull => "a non-null type cannot wrap another non-null type"
  | malformed error => "invalid type reference: " ++ error.message

end TypeRefError

namespace TypeRef

/-- Whether null may stand in the place of a value of this type. -/
def isNullable : TypeRef → Bool
  | named _ nullable | list _ nullable => nullable

def isNonNull (t : TypeRef) : Bool := !t.isNullable

def isList : TypeRef → Bool
  | list _ _ => true
  | named _ _ => false

/-- The same type with the outer layer nullable or not. -/
def withNullable (nullable : Bool) : TypeRef → TypeRef
  | named name _ => named name nullable
  | list item _ => list item nullable

/-- The same type with null allowed in its place. -/
def nullableType (t : TypeRef) : TypeRef := t.withNullable true

/-- The same type without null, if null was allowed. -/
def nonNull (t : TypeRef) : Except TypeRefError TypeRef :=
  if t.isNullable then .ok (t.withNullable false) else .error .doubleNonNull

/-- The type of the items of a list type. -/
def item? : TypeRef → Option TypeRef
  | list item _ => some item
  | named _ _ => none

/-- The name within all layers. -/
def innermostName : TypeRef → String
  | named name _ => name
  | list item _ => item.innermostName

/-- The mark of a layer without null. -/
private def mark (nullable : Bool) : String := if nullable then "" else "!"

/-- The reference as it is written. -/
def text : TypeRef → String
  | named name nullable => name ++ mark nullable
  | list item nullable => "[" ++ item.text ++ "]" ++ mark nullable

/-- The reference that is written as `expr`. -/
def ofExpr : TypeExpr → Except TypeRefError TypeRef
  | .named t => .ok (named t.name.text true)
  | .list t _ => (ofExpr t).map (list · true)
  | .nonNull t _ => (ofExpr t).bind nonNull

/-- A type as it is written in a document, by hand. -/
def toExpr : TypeRef → TypeExpr
  | named name nullable => close nullable (.named { name := { text := name } })
  | list item nullable => close nullable (.list item.toExpr none)
where
  close (nullable : Bool) (t : TypeExpr) : TypeExpr := if nullable then t else .nonNull t none

/-- Reads a text as a reference to a type. -/
def parse (text : String) : Except TypeRefError TypeRef :=
  match TypeExpr.parse text {} with
  | .ok expr => ofExpr expr
  | .error error => .error (.malformed error)

@[simp] theorem isNullable_withNullable (nullable : Bool) (t : TypeRef) :
    (t.withNullable nullable).isNullable = nullable := by
  cases t <;> rfl

@[simp] theorem innermostName_withNullable (nullable : Bool) (t : TypeRef) :
    (t.withNullable nullable).innermostName = t.innermostName := by
  cases t <;> rfl

end TypeRef

end GraphQL
