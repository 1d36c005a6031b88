import TableTotals.Cursor
import TableTotals.Totals

/-!
Where the engine reads tables from: a metadata store, seen through outages.

An outage makes the list of table names unreadable, or makes the walks over one table break
off after a number of steps. Which outage a walk meets is settled when its table is opened.
A walk that `scan` opens is closed again however it ends.
-/

namespace TableTotals

/-- What cannot be read at present. -/
structure Outages where
  /-- The list of table names cannot be read. -/
  names : Bool := false
  /-- The tables whose walks break off, and after how many steps. -/
  scans : SortedMap String Nat := ∅
  deriving DecidableEq

/-- A metadata store seen through outages. -/
structure Source where
  store : Metadata
  outages : Outages := {}
  deriving DecidableEq

/-- A table that was opened, with the number of steps after which walks over it break off. -/
structure Handle where
  table : String
  budget : Option Nat
  deriving DecidableEq, Repr

namespace Metadata

/-- Opens a cursor on a table, which may have gone since the table was opened. -/
def openCursor (s : Metadata) (h : Handle) : Metadata × Except Failure Cursor :=
  match s.table h.table with
  | .error e => (s, .error e)
  | .ok t => ({ s with openCursors := s.openCursors + 1 }, .ok (.start h.table t h.budget))

def closeCursor (s : Metadata) : Metadata := { s with openCursors := s.openCursors - 1 }

end Metadata

/-- The size that an entry has for a watch; none is looked for where entries are counted. -/
def Watch.extent (w : Watch) (table : String) (e : Entry) : Except Failure Extent :=
  match w with
  | .counted => .ok .zero
  | .sized s => s.size table e

/-- Counts and sizes every entry of a walk, from its start. -/
def Cursor.summarize (c : Cursor) (w : Watch) (table : String) : Cursor × Except Failure Summary :=
  c.rewind.fold (fun s e => s.addEntry <$> w.extent table e) .zero

namespace Source

def names (s : Source) : Except Failure (List String) :=
  if s.outages.names then .error (.internal .namesRefused) else .ok s.store.names

def openTable (s : Source) (name : String) : Except Failure Handle :=
  match s.store.table name with
  | .error e => .error e
  | .ok _ => .ok ⟨name, s.outages.scans.get? name⟩

/-- Counts and sizes every entry of a table. -/
def scan (s : Source) (w : Watch) (name : String) : Metadata × Except Failure Summary :=
  match s.openTable name with
  | .error e => (s.store, .error e)
  | .ok h =>
    match s.store.openCursor h with
    | (store, .error e) => (store, .error e)
    | (store, .ok c) => (store.closeCursor, (c.summarize w name).2)

/-- However a scan ends, it leaves the store as it was, with no cursor of its own left open. -/
theorem scan_store (s : Source) (w : Watch) (name : String) : (s.scan w name).1 = s.store := by
  unfold scan
  split
  · rfl
  unfold Metadata.openCursor
  split
  next heq =>
    split at heq
    · cases heq; rfl
    · cases heq
  next heq =>
    split at heq
    · cases heq
    · cases heq; rfl

end Source

end TableTotals
