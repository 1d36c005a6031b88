import TableTotals.Entry

/-!
Changes to the entries of tables, and batches of them.
-/

namespace TableTotals

inductive Action where
  | put
  | delete
  | update
  /-- Something that is not followed here, such as the deletion of a range. -/
  | other (name : String)
  deriving DecidableEq, Repr

def Action.label : Action → String
  | put => "PUT"
  | delete => "DELETE"
  | update => "UPDATE"
  | other name => "UNSUPPORTED(" ++ name ++ ")"

/-- One change: the value is the new one of a put or an update and the removed one of a
deletion, and the old value is the one that an update replaced. -/
structure Change where
  table : String
  action : Action
  key : List UInt8
  value : Option Entry
  old : Option Entry
  deriving DecidableEq, Repr

/-- Changes that are handed over together, with the number of changes handed over so far. -/
structure Batch where
  changes : List Change
  sequence : Nat := 0
  deriving DecidableEq, Repr

end TableTotals
