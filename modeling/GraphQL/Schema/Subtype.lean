import GraphQL.Schema.Basic

/-!
# Types that stand for others

When a value of one type can be used where another type is expected, and when some
value could be of both types.
-/

namespace GraphQL

namespace Schema

variable (schema : Schema)

/-- Whether the name `sub` is that of an object type which is one of those of the
abstract type named `super`. -/
def isPossibleName (sub super : String) : Bool :=
  match schema.type? sub, schema.type? super with
  | some sub, some super => sub.isObjectType && schema.isPossibleType super sub.name
  | _, _ => false

/-- Whether values of the first type can always be used where the second is expected.
Layer by layer, null is allowed on the left only if it is on the right; the named
types are the same, or the left one is an object type of the right one. -/
def isSubtype : TypeRef → TypeRef → Bool
  | .named sub subNullable, .named super superNullable =>
    (superNullable || !subNullable) && (sub = super || schema.isPossibleName sub super)
  | .list sub subNullable, .list super superNullable =>
    (superNullable || !subNullable) && isSubtype sub super
  | _, _ => false

/-- Whether the two types are the same or have an object type in common. -/
def overlap (a b : TypeDef) : Bool :=
  a.name = b.name ||
    match a.isAbstractType, b.isAbstractType with
    | true, true => (schema.possibleTypes a).any fun t => schema.isPossibleType b t.name
    | true, false => schema.isPossibleType a b.name
    | false, true => schema.isPossibleType b a.name
    | false, false => false

theorem isSubtype_refl (t : TypeRef) : schema.isSubtype t t := by
  induction t with
  | named name nullable => cases nullable <;> simp [isSubtype]
  | list item nullable ih => cases nullable <;> simp [isSubtype, ih]

end Schema

end GraphQL
