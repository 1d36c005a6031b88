import TableTotals.Metadata
import TableTotals.Change

/-!
The feed of a metadata store: every write that goes through it is recorded as a change.

A write is recorded when the store has answered it. A put over an entry is an update that
carries the entry it replaced, any other put is a put, and a deletion carries what was
removed, which may be nothing.

The number of changes recorded is that of a machine word for as long as it is less than
`2 ^ 64`, and so is the one that a batch carries. Nothing is decided by either.
-/

namespace TableTotals

/-- Changes that were recorded and not yet handed over, and how many were recorded in all. -/
structure Feed where
  pending : List Change := []
  sequence : Nat := 0
  deriving DecidableEq

namespace Feed

def record (f : Feed) (c : Change) : Feed :=
  ⟨f.pending ++ [c], f.sequence + 1⟩

def putChange (table : String) (key : List UInt8) (entry : Entry) : Option Entry → Change
  | none => ⟨table, .put, key, some entry, none⟩
  | some old => ⟨table, .update, key, some entry, some old⟩

def put (f : Feed) (s : Metadata) (table : String) (key : List UInt8) (entry : Entry) :
    (Feed × Metadata) × Except Failure Unit :=
  match s.put table key entry with
  | (s, .error e) => ((f, s), .error e)
  | (s, .ok old) => ((f.record (putChange table key entry old), s), .ok ())

def delete (f : Feed) (s : Metadata) (table : String) (key : List UInt8) :
    (Feed × Metadata) × Except Failure Unit :=
  match s.delete table key with
  | (s, .error e) => ((f, s), .error e)
  | (s, .ok gone) => ((f.record ⟨table, .delete, key, gone, none⟩, s), .ok ())

/-- Hands over what was recorded since the last time, as one batch. -/
def take (f : Feed) : Feed × Batch :=
  ({ f with pending := [] }, { changes := f.pending, sequence := f.sequence })

end Feed

end TableTotals
