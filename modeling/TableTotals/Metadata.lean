import TableTotals.SortedMap
import TableTotals.Wire.Entry

/-!
The metadata store: tables of coded entries, by name.

A table keeps every entry in the bytes of its layout, and bytes that are no entry may be put
there as well, so reading can fail where writing did not. The store also knows how many
cursors are open on its tables.
-/

namespace TableTotals

/-- A table: the layout of its entries, and their bytes by key. -/
structure Table where
  layout : Shape
  cells : SortedMap (List UInt8) (List UInt8) := ∅
  deriving DecidableEq

namespace Table

def read (t : Table) (bytes : List UInt8) : Except Failure Entry :=
  (Wire.decode t.layout bytes).mapError .coding

def lookup (t : Table) (key : List UInt8) : Except Failure (Option Entry) :=
  match t.cells.get? key with
  | none => .ok none
  | some bytes => some <$> t.read bytes

end Table

/-- The tables by name, and how many cursors are open on them. -/
structure Metadata where
  tables : SortedMap String Table := ∅
  openCursors : Nat := 0
  deriving DecidableEq

namespace Metadata

def empty : Metadata := {}

instance : EmptyCollection Metadata := ⟨empty⟩

def standardTables : List (String × Shape) :=
  [("volumeTable", .raw), ("bucketTable", .raw), ("directoryTable", .raw),
    ("deletedDirectoryTable", .raw), ("keyTable", .key), ("fileTable", .key),
    ("openKeyTable", .key), ("openFileTable", .key), ("deletedTable", .deleted)]

/-- Makes an empty table, unless one of that name is there. -/
def create (s : Metadata) (name : String) (layout : Shape) : Metadata :=
  if s.tables.contains name then s
  else { s with tables := s.tables.insert name { layout } }

def standard : Metadata := standardTables.foldl (fun s t => s.create t.1 t.2) ∅

def drop (s : Metadata) (name : String) : Metadata := { s with tables := s.tables.erase name }

def names (s : Metadata) : List String := s.tables.keys

def table (s : Metadata) (name : String) : Except Failure Table :=
  match s.tables.get? name with
  | some t => .ok t
  | none => .error (.missingTable name)

def withCells (s : Metadata) (name : String) (t : Table)
    (cells : SortedMap (List UInt8) (List UInt8)) : Metadata :=
  { s with tables := s.tables.insert name { t with cells } }

/-- Writes an entry and answers the one it replaced. The entry is written even if the bytes it
replaces are no entry, and the answer is then that failure. -/
def put (s : Metadata) (name : String) (key : List UInt8) (entry : Entry) :
    Metadata × Except Failure (Option Entry) :=
  match s.table name with
  | .error e => (s, .error e)
  | .ok t =>
    match Wire.encode t.layout entry with
    | .error cause => (s, .error (.coding cause))
    | .ok bytes => (s.withCells name t (t.cells.insert key bytes), t.lookup key)

/-- Writes bytes as they are, whatever the layout of the table. -/
def putBytes (s : Metadata) (name : String) (key bytes : List UInt8) :
    Metadata × Except Failure Unit :=
  match s.table name with
  | .error e => (s, .error e)
  | .ok t => (s.withCells name t (t.cells.insert key bytes), .ok ())

/-- Removes an entry and answers it. It is gone even if its bytes were no entry, and the answer
is then that failure. -/
def delete (s : Metadata) (name : String) (key : List UInt8) :
    Metadata × Except Failure (Option Entry) :=
  match s.table name with
  | .error e => (s, .error e)
  | .ok t => (s.withCells name t (t.cells.erase key), t.lookup key)

def get (s : Metadata) (name : String) (key : List UInt8) : Except Failure (Option Entry) :=
  s.table name >>= (·.lookup key)

def count (s : Metadata) (name : String) : Except Failure Nat :=
  (·.cells.size) <$> s.table name

def layout? (s : Metadata) (name : String) : Option Shape :=
  (s.tables.get? name).map (·.layout)

end Metadata

end TableTotals
