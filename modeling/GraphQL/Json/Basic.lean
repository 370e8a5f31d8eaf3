import GraphQL.Number.Binary64

/-!
# JSON values

The values that variables, defaults, resolvers and responses are made of.  An
integer and a floating-point number are different values even if they are equal
as numbers.  The members of an object are kept in order, each key once.
-/

namespace GraphQL

/-- A JSON value. -/
inductive Json where
  | null
  | bool (b : Bool)
  | int (i : Int)
  | float (x : Binary64)
  | string (s : String)
  | array (items : List Json)
  | object (members : List (String × Json))
  deriving Repr, Inhabited

/-- The members of an object, in order. -/
abbrev Json.Members := List (String × Json)

/-! ## Ordered associations -/

namespace Assoc

variable {α : Type}

/-- The first value stored under `key`. -/
def get? (entries : List (String × α)) (key : String) : Option α :=
  (entries.find? (·.1 = key)).map (·.2)

/-- Stores a value under `key`: in its place if the key is there, else at the end. -/
def insert (entries : List (String × α)) (key : String) (value : α) : List (String × α) :=
  match entries with
  | [] => [(key, value)]
  | (k, v) :: rest => if k = key then (k, value) :: rest else (k, v) :: insert rest key value

/-- Stores the values in turn. -/
def ofList (entries : List (String × α)) : List (String × α) :=
  entries.foldl (fun done (key, value) => insert done key value) []

/-- Appends a value to the row that is stored under `key`. -/
def push (entries : List (String × List α)) (key : String) (value : α) :
    List (String × List α) :=
  match entries with
  | [] => [(key, [value])]
  | (k, values) :: rest =>
    if k = key then (k, values ++ [value]) :: rest else (k, values) :: push rest key value

/-- Whether a value is stored under `key`. -/
def contains (entries : List (String × α)) (key : String) : Bool := (get? entries key).isSome

theorem get?_insert_self (entries : List (String × α)) (key : String) (value : α) :
    get? (insert entries key value) key = some value := by
  induction entries with
  | nil => simp [insert, get?]
  | cons entry rest ih =>
    obtain ⟨k, v⟩ := entry
    by_cases h : k = key
    · simp [insert, h, get?]
    · simpa [insert, h, get?] using ih

theorem get?_insert_of_ne (entries : List (String × α)) {key other : String} (value : α)
    (hne : other ≠ key) : get? (insert entries key value) other = get? entries other := by
  induction entries with
  | nil => simp [insert, get?, hne.symm]
  | cons entry rest ih =>
    obtain ⟨k, v⟩ := entry
    by_cases h : k = key
    · subst h
      simp [insert, get?, hne.symm]
    · by_cases ho : k = other
      · subst ho
        simp [insert, get?, hne]
      · simpa [insert, h, get?, ho] using ih

end Assoc

namespace Json

def isNull : Json → Bool
  | null => true
  | _ => false

/-- The value stored under `key` in an object. -/
def get? (value : Json) (key : String) : Option Json :=
  match value with
  | object members => Assoc.get? members key
  | _ => none

/-- The text of a string value. -/
def asString? : Json → Option String
  | string s => some s
  | _ => none

/-! ## Equality -/

mutual

/-- Equality of values: the order of members does not count, and floating-point
numbers are compared as numbers. -/
def same : Json → Json → Bool
  | null, null => true
  | bool a, bool b => a = b
  | int a, int b => a = b
  | float a, float b => a.equals b
  | string a, string b => a = b
  | array a, array b => sameItems a b
  | object a, object b => a.length = b.length && sameMembers a b
  | _, _ => false

/-- Equality of lists of values. -/
def sameItems : List Json → List Json → Bool
  | [], [] => true
  | a :: as, b :: bs => same a b && sameItems as bs
  | _, _ => false

/-- Whether each member has an equal counterpart in the object `other`. -/
def sameMembers : List (String × Json) → List (String × Json) → Bool
  | [], _ => true
  | (key, a) :: rest, other =>
    (match Assoc.get? other key with
      | some b => same a b
      | none => false) && sameMembers rest other

end

end Json

end GraphQL
