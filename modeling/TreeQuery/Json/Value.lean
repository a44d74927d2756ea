import TreeQuery.Decimal.Double

/-!
# JSON values

A number is an integer where it was written as one and fits into 64 bits, and
a double otherwise. The members of an object are kept in increasing order of
their keys, which are compared by code points; a key occurs once.
-/

namespace TreeQuery.Json

/-- A number: an integer, or a double with its sign. -/
inductive Number
  | integer (value : Int)
  | double (negative : Bool) (magnitude : Double)
  deriving DecidableEq, Repr, Inhabited

/-- A JSON value. -/
inductive Value
  | null
  | bool (value : Bool)
  | number (value : Number)
  | string (value : String)
  | array (items : List Value)
  | object (members : List (String × Value))
  deriving Repr, Inhabited

/-- Set a member among members in increasing order of their keys. A member
with the same key gives way. -/
def setMember (key : String) (value : Value) :
    List (String × Value) → List (String × Value)
  | [] => [(key, value)]
  | (k, v) :: rest =>
    if key < k then (key, value) :: (k, v) :: rest
    else if key = k then (key, value) :: rest
    else (k, v) :: setMember key value rest

/-- The object with the given members; of two with one key the later counts. -/
def Value.ofMembers (members : List (String × Value)) : Value :=
  .object (members.foldl (fun acc m => setMember m.1 m.2 acc) [])

end TreeQuery.Json
