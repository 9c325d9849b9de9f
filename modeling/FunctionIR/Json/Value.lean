import FunctionIR.Decimal.Binary64

/-!
# JSON values

A JSON value is kept as its document has it: the members of an object are a
list in document order.  Integers and other numbers are told apart, because
a tree field that holds the one is not a field that holds the other: an
integer lies between `-2 ^ 63` and `2 ^ 64 - 1` and is written without a
point or exponent, everything else is a double.

`Members.set` is how objects grow: a new name goes to the end, and a name
that is there keeps its place and takes the new value.
-/

namespace FunctionIR

/-- A number of a document. -/
inductive Json.Number where
  | integer (value : Int)
  | real (value : Binary64)
deriving DecidableEq

/-- A JSON document. -/
inductive Json where
  | null
  | bool (value : Bool)
  | number (value : Json.Number)
  | string (value : String)
  | array (items : List Json)
  | object (members : List (String × Json))
deriving Inhabited

namespace Members

/-- The value under a name. -/
def get? {α : Type} (name : String) : List (String × α) → Option α
  | [] => none
  | (key, value) :: rest => if key = name then some value else get? name rest

/-- Put a value under a name: in the place of the value that is there, or
else at the end. -/
def set {α : Type} (name : String) (value : α) :
    List (String × α) → List (String × α)
  | [] => [(name, value)]
  | (key, old) :: rest =>
    if key = name then (key, value) :: rest
    else (key, old) :: set name value rest

/-- The value that was put is found. -/
theorem get?_set_self {α : Type} (name : String) (value : α)
    (members : List (String × α)) :
    get? name (set name value members) = some value := by
  induction members with
  | nil => simp [set, get?]
  | cons member rest ih =>
    obtain ⟨key, old⟩ := member
    by_cases h : key = name <;> simp [set, get?, h, ih]

/-- Other values are untouched. -/
theorem get?_set_of_ne {α : Type} {name other : String} (h : name ≠ other)
    (value : α) (members : List (String × α)) :
    get? other (set name value members) = get? other members := by
  induction members with
  | nil => simp [set, get?, h]
  | cons member rest ih =>
    obtain ⟨key, old⟩ := member
    by_cases hk : key = name
    · subst hk
      simp [set, get?, h]
    · by_cases ho : key = other <;> simp_all [set, get?]

end Members

namespace Json

/-- The number is the same, a double being equal to a double only as a
number. -/
def Number.agrees : Number → Number → Bool
  | .integer a, .integer b => a == b
  | .real a, .real b => a.numEq b
  | _, _ => false

mutual

/-- The same document up to the order of members. -/
def agrees : Json → Json → Bool
  | .null, .null => true
  | .bool a, .bool b => a == b
  | .number a, .number b => a.agrees b
  | .string a, .string b => a == b
  | .array a, .array b => itemsAgree a b
  | .object a, .object b => a.length == b.length && membersAgree a b
  | _, _ => false

/-- The same documents one by one. -/
def itemsAgree : List Json → List Json → Bool
  | [], [] => true
  | a :: as, b :: bs => agrees a b && itemsAgree as bs
  | _, _ => false

/-- Every member has its like, by name, in the other object. -/
def membersAgree : List (String × Json) → List (String × Json) → Bool
  | [], _ => true
  | (name, a) :: rest, others =>
    (match Members.get? name others with
     | some b => agrees a b
     | none => false) && membersAgree rest others

end

end Json

end FunctionIR
