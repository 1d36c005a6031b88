import TableTotals.Ledger
import TableTotals.Totals

/-!
The vault: a ledger behind a clock, with refusals that can be switched on and counts of what
was written.

A refused call does nothing, not even look at its records. Totals are persisted measure by
measure: the records of a measure whose keys are new are inserted in one call, and then those
whose keys were there are updated in another, all with the moment at which persisting began. A
call without records is not made, and what was written before a failure stays.

Refusals may be switched while totals are being persisted. The clock, the records that a measure
reads, its insertion and its update are each met by switches of their own, whether or not there
turns out to be anything to insert or to update.

The numbers of records written are those of a machine word for as long as they are less than
`2 ^ 64`, and decide nothing.
-/

namespace TableTotals

/-- What a vault refuses at one time. -/
structure Switches where
  inserts : Bool := false
  updates : Bool := false
  /-- The keys whose records are not read out. -/
  records : List String := []
  clock : Bool := false
  deriving DecidableEq, Repr

/-- What a vault refuses at present, and from the next switching to the last. -/
structure Refusals extends Switches where
  later : List Switches := []
  deriving DecidableEq, Repr

/-- The refusals behind the next switching; the last switches stay. -/
def Refusals.next (r : Refusals) : Refusals :=
  match r.later with
  | [] => r
  | s :: rest => { toSwitches := s, later := rest }

structure Vault where
  ledger : Ledger
  clock : Moment
  refusals : Refusals := {}
  /-- How many records were inserted so far. -/
  inserted : Nat := 0
  updated : Nat := 0
  deriving DecidableEq

namespace Vault

def switched (v : Vault) : Vault := { v with refusals := v.refusals.next }

theorem switched_of_calm {v : Vault} (h : v.refusals = {}) : v.switched = v := by
  rw [switched, h]
  cases v
  cases h
  rfl

def now (v : Vault) : Except Failure Moment :=
  if v.refusals.clock then .error (.reading .clockRefused) else .ok v.clock

def fetch (v : Vault) (key : String) : Except Failure (Option Record) :=
  if key ∈ v.refusals.records then .error (.reading .recordRefused)
  else .ok (v.ledger.record? key)

/-- The recorded value of a measure of a table, zero where there is none. -/
def value (v : Vault) (m : Measure) (table : String) : Except Failure Int64 :=
  (fun r => (r.map (·.value)).getD 0) <$> v.fetch (m.key table)

/-- Inserts records in the ledger, unless inserts are refused, and counts those inserted. -/
def insert (v : Vault) (records : List Record) : Vault × Except Failure Unit :=
  if v.refusals.inserts then (v.switched, .error (.writing .insertsRefused))
  else
    match v.ledger.insert records with
    | (ledger, .error failure) => ({ v.switched with ledger }, .error failure)
    | (ledger, .ok ()) =>
      ({ v.switched with ledger, inserted := v.inserted + records.length }, .ok ())

def update (v : Vault) (records : List Record) : Vault × Except Failure Unit :=
  if v.refusals.updates then (v.switched, .error (.writing .updatesRefused))
  else
    match v.ledger.update records with
    | (ledger, .error failure) => ({ v.switched with ledger }, .error failure)
    | (ledger, .ok ()) =>
      ({ v.switched with ledger, updated := v.updated + records.length }, .ok ())

/-- Writes a reading whether or not its key has one, past refusals and counts. -/
def seed (v : Vault) (key : String) (value : Int64) : Vault :=
  let record : Record := { key, value, updatedAt := v.clock }
  { v with ledger := { v.ledger with readings := Ledger.write v.ledger.readings record } }

/-- Tells the records whose keys are new from those whose keys have a record. -/
def sort (v : Vault) : List Record → Except Failure (List Record × List Record)
  | [] => .ok ([], [])
  | r :: rest => do
    let old ← v.fetch r.key
    let (fresh, known) ← v.sort rest
    return if old.isNone then (r :: fresh, known) else (fresh, r :: known)

/-- One write after another, where the first one did not fail. -/
def andThen (first : Vault × Except Failure Unit) (second : Vault → Vault × Except Failure Unit) :
    Vault × Except Failure Unit :=
  match first with
  | (v, .error e) => (v, .error e)
  | (v, .ok ()) => second v

def unlessEmpty (write : Vault → List Record → Vault × Except Failure Unit)
    (records : List Record) (v : Vault) : Vault × Except Failure Unit :=
  if records.isEmpty then (v.switched, .ok ()) else write v records

def upsert (v : Vault) (records : List Record) : Vault × Except Failure Unit :=
  match v.sort records with
  | .error e => (v.switched, .error e)
  | .ok (fresh, known) =>
    andThen (unlessEmpty insert fresh v.switched) (unlessEmpty update known)

def upsertAll : List (List Record) → Vault → Vault × Except Failure Unit
  | [], v => (v, .ok ())
  | records :: rest, v => andThen (v.upsert records) (upsertAll rest)

def persist (v : Vault) (t : Totals) : Vault × Except Failure Unit :=
  match v.now with
  | .error e => (v.switched, .error e)
  | .ok now => upsertAll (Measure.all.map fun m => t.records m now) v.switched

end Vault

end TableTotals
