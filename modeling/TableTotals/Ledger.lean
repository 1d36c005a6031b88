import TableTotals.SortedMap
import TableTotals.Statistic
import TableTotals.Failure

/-!
The ledger: the readings that are kept, one for each key.

Records are inserted and updated in bulk. A ledger in memory looks over all the keys of a call
before it writes; a ledger in a database writes record after record inside a transaction, which
is rolled back over a record that cannot be written. So a key that an insertion holds twice is
refused there and overwritten in memory. Updates are refused alike.

A database is kept in a file. How it lays out its rows there is left out: `Ledger.ofFile` knows
a file without contents, which is a new database, and takes any other for no database, even one
that was kept before.
-/

namespace TableTotals

inductive Backend where
  | memory
  | database
  deriving DecidableEq, Repr

structure Ledger where
  backend : Backend
  readings : SortedMap String Reading := ∅
  deriving DecidableEq

namespace Ledger

def write (readings : SortedMap String Reading) (r : Record) : SortedMap String Reading :=
  readings.insert r.key r.toReading

/-- Inserts record after record, up to one whose key is there already. -/
def insertEach : List Record → SortedMap String Reading →
    SortedMap String Reading × Except Failure Unit
  | [], readings => (readings, .ok ())
  | r :: rest, readings =>
    if readings.contains r.key then (readings, .error (.writing (.duplicate r.key)))
    else insertEach rest (write readings r)

def updateEach : List Record → SortedMap String Reading →
    SortedMap String Reading × Except Failure Unit
  | [], readings => (readings, .ok ())
  | r :: rest, readings =>
    if readings.contains r.key then updateEach rest (write readings r)
    else (readings, .error (.writing (.absent r.key)))

/-- Inserts all records, unless one of their keys was there before. -/
def insertAfterCheck (records : List Record) (readings : SortedMap String Reading) :
    SortedMap String Reading × Except Failure Unit :=
  match records.find? fun r => readings.contains r.key with
  | some r => (readings, .error (.writing (.present r.key)))
  | none => (records.foldl write readings, .ok ())

def updateAfterCheck (records : List Record) (readings : SortedMap String Reading) :
    SortedMap String Reading × Except Failure Unit :=
  match records.find? fun r => !readings.contains r.key with
  | some r => (readings, .error (.writing (.absent r.key)))
  | none => (records.foldl write readings, .ok ())

/-- Commits what a row of statements has made of the readings, or rolls it back over one that
failed. -/
def commit (before : SortedMap String Reading) :
    SortedMap String Reading × Except Failure Unit → SortedMap String Reading × Except Failure Unit
  | (_, .error failure) => (before, .error failure)
  | (after, .ok ()) => (after, .ok ())

def insert (l : Ledger) (records : List Record) : Ledger × Except Failure Unit :=
  let (readings, result) :=
    match l.backend with
    | .memory => insertAfterCheck records l.readings
    | .database => commit l.readings (insertEach records l.readings)
  ({ l with readings }, result)

def update (l : Ledger) (records : List Record) : Ledger × Except Failure Unit :=
  let (readings, result) :=
    match l.backend with
    | .memory => updateAfterCheck records l.readings
    | .database => commit l.readings (updateEach records l.readings)
  ({ l with readings }, result)

def record? (l : Ledger) (key : String) : Option Record :=
  (l.readings.get? key).map fun r => { r with key }

def records (l : Ledger) : List Record :=
  l.readings.entries.map fun p => { p.2 with key := p.1 }

/-- Opens a file as a new database. -/
def ofFile (contents : List UInt8) : Except Failure Ledger :=
  if contents.isEmpty then .ok { backend := .database } else .error (.internal .notDatabase)

end Ledger

end TableTotals
