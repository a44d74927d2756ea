/-!
# TOML documents as trees

A document is a table of keys. Its tables differ in where they come from, for
that decides who may still add to them: a table with a header of its own and a
table written inline are closed to dotted keys; a table that only lies on the
way of a header may get that header later; a table made by dotted keys may get
more of them, but no header.

Numbers and dates are kept as their text where nothing depends on their value.
-/

namespace TreeQuery.Toml

/-- Where a table comes from. -/
inductive Origin
  /-- The top of the document, or a header of its own. -/
  | header
  /-- It lies on the way to a header. -/
  | way
  /-- It lies on the way of a dotted key. -/
  | dotted
  /-- It was written in braces. -/
  | inline
  deriving DecidableEq, Repr, Inhabited

/-- A value of a document. -/
inductive Node
  | string (text : String)
  | integer (value : Int)
  | float (text : String)
  | boolean (value : Bool)
  | datetime (text : String)
  | array (items : List Node)
  | table (origin : Origin) (fields : List (String × Node))
  /-- The tables of one `[[…]]` header, in order. -/
  | tables (elements : List (List (String × Node)))
  deriving Repr, Inhabited

/-- The keys of a table with their values. -/
abbrev Fields := List (String × Node)

namespace Fields

/-- The value of a key. -/
def get? (fields : Fields) (key : String) : Option Node :=
  fields.lookup key

/-- Give a key a value, in place of the one that it has. -/
def put (fields : Fields) (key : String) (value : Node) : Fields :=
  match fields with
  | [] => [(key, value)]
  | (k, v) :: rest => if k = key then (key, value) :: rest else (k, v) :: put rest key value

end Fields

/-- Change the table that a path leads to. Tables that are missing on the way
are created; an array of tables stands for the last of its tables. On the way
of a dotted key a table with a header of its own is closed, and an inline table
is closed to all. -/
def within (dotted : Bool) (change : Origin → Fields → Option (Origin × Fields)) :
    List String → Origin → Fields → Option (Origin × Fields)
  | [], origin, fields => change origin fields
  | key :: path, origin, fields =>
    match fields.get? key with
    | none => do
      let (o, sub) ← within dotted change path (if dotted then .dotted else .way) []
      some (origin, fields.put key (.table o sub))
    | some (.table o sub) =>
      if o = .inline ∨ (dotted ∧ o = .header) then none
      else do
        let (o, sub) ← within dotted change path o sub
        some (origin, fields.put key (.table o sub))
    | some (.tables elements) =>
      match elements.getLast? with
      | none => none
      | some last => do
        let (_, last) ← within dotted change path .header last
        some (origin, fields.put key (.tables (elements.dropLast ++ [last])))
    | some _ => none

/-- Set a key of a table. A key is set once, and a dotted key ends in a table
that dotted keys have made. -/
def setKey (path : List String) (key : String) (value : Node) (origin : Origin)
    (fields : Fields) : Option (Origin × Fields) :=
  within true (fun o fs =>
    if path ≠ [] ∧ o ≠ .dotted then none
    else if (fs.get? key).isSome then none
    else some (o, fs ++ [(key, value)])) path origin fields

/-- Open the table of a header. -/
def openTable (key : String) (origin : Origin) (fields : Fields) : Option (Origin × Fields) :=
  match fields.get? key with
  | none => some (origin, fields ++ [(key, .table .header [])])
  | some (.table .way sub) => some (origin, fields.put key (.table .header sub))
  | some _ => none

/-- Open one more table of an array of tables. -/
def openElement (key : String) (origin : Origin) (fields : Fields) : Option (Origin × Fields) :=
  match fields.get? key with
  | none => some (origin, fields ++ [(key, .tables [[]])])
  | some (.tables elements) => some (origin, fields.put key (.tables (elements ++ [[]])))
  | some _ => none

end TreeQuery.Toml
