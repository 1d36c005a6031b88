import TableTotals.SortedMap
import TableTotals.Sizing

/-!
Settings of the engine: its name, and what each table is watched for.
-/

namespace TableTotals

/-- The name of an engine, and the tables that are watched for something of their own. -/
structure Settings where
  name : String
  watches : SortedMap String Watch
  deriving DecidableEq

namespace Settings

def defaultName : String := "TableInsightTask"

def countersOnly : Settings := ⟨defaultName, ∅⟩

/-- Sizes of the keys that are being written and of the deleted keys. -/
def standard : Settings :=
  ⟨defaultName, .ofList
    [("openKeyTable", .sized .openKeys), ("openFileTable", .sized .openKeys),
      ("deletedTable", .sized .deletedKeys)]⟩

def named (s : Settings) (name : String) : Settings := { s with name }

def watching (s : Settings) (table : String) (w : Watch) : Settings :=
  { s with watches := s.watches.insert table w }

def withoutWatch (s : Settings) (table : String) : Settings :=
  { s with watches := s.watches.erase table }

/-- What a table is watched for: its count, where nothing else is asked. -/
def watchOf (s : Settings) (table : String) : Watch := s.watches.getD table .counted

def assign (s : Settings) (names : List String) : SortedMap String Watch :=
  .ofList (names.map fun n => (n, s.watchOf n))

/-- The tables whose sizes are asked for, whether or not there are such tables. -/
def sizedTables (s : Settings) : List String :=
  (s.watches.entries.filter (·.2.tracksSize)).map (·.1)

end Settings

end TableTotals
