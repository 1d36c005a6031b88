import TableTotals.Settings
import TableTotals.Source
import TableTotals.Vault

/-!
The engine that keeps the totals of a store's tables.

An engine takes up its tables and the recorded totals by `load`. From then on it follows the
changes that it is handed, or scans every table anew, and persists the totals either way.
What an operation did before it failed stays: a load changes nothing unless it succeeds,
changes are applied up to the first one that cannot be, and tables are scanned up to the first
one that cannot be.
-/

namespace TableTotals

/-- What an engine works on: the store it watches, and the vault it records in. -/
structure Site where
  source : Source
  vault : Vault
  deriving DecidableEq

/-- Whether an operation of the engine of that name succeeded. -/
structure Verdict where
  engine : String
  success : Bool
  deriving DecidableEq, Repr

structure Engine where
  settings : Settings
  tables : SortedMap String Watch := ∅
  totals : Totals := ∅
  /-- Whether it has taken up its tables. -/
  ready : Bool := false
  deriving DecidableEq

/-- Applies changes in order, passing over those of tables that are not watched; a change that
fails ends it. -/
def Totals.applyAll (tables : SortedMap String Watch) :
    List Change → Totals → Totals × Except Failure Unit
  | [], t => (t, .ok ())
  | c :: rest, t =>
    match tables.get? c.table with
    | none => applyAll tables rest t
    | some w =>
      match t.apply w c with
      | (t, .error failure) => (t, .error failure)
      | (t, .ok ()) => applyAll tables rest t

/-- Scans table after table and takes over what is found; a table that fails ends it. -/
def Totals.scanAll (outages : Outages) :
    List (String × Watch) → Totals → Metadata → (Totals × Metadata) × Except Failure Unit
  | [], t, store => ((t, store), .ok ())
  | (name, w) :: rest, t, store =>
    match Source.scan ⟨store, outages⟩ w name with
    | (store, .error e) => ((t, store), .error e)
    | (store, .ok summary) => scanAll outages rest (t.takeOver name w summary) store

def Vault.recallCounts (v : Vault) : List String → Totals → Except Failure Totals
  | [], t => .ok t
  | name :: rest, t => do
    let n ← v.value .count name
    v.recallCounts rest (t.set .count name n)

def Vault.recallExtents (v : Vault) : List String → Totals → Except Failure Totals
  | [], t => .ok t
  | name :: rest, t => do
    let u ← v.value .unreplicated name
    let r ← v.value .replicated name
    v.recallExtents rest (t.setExtent name ⟨u, r⟩)

namespace Engine

def new (settings : Settings) : Engine := { settings }

/-- The tables and totals that a load takes up: counts of the tables that there are, and sizes
of the tables whose sizes are asked for. -/
def recorded (settings : Settings) (source : Source) (v : Vault) :
    Except Failure (SortedMap String Watch × Totals) := do
  let tables := settings.assign (← source.names)
  let counts ← v.recallCounts tables.keys ∅
  let totals ← v.recallExtents settings.sizedTables counts
  return (tables, totals)

/-- Takes up the tables of a source and the totals that are recorded of them. -/
def load (e : Engine) (source : Source) (v : Vault) : Engine × Except Failure Unit :=
  match recorded e.settings source v with
  | .error failure => (e, .error failure)
  | .ok (tables, totals) => ({ e with tables, totals, ready := true }, .ok ())

def persist (e : Engine) (v : Vault) : Vault × Except Failure Unit := v.persist e.totals

def follow (e : Engine) (v : Vault) (b : Batch) : (Engine × Vault) × Except Failure Unit :=
  if !e.ready then ((e, v), .error .notReady)
  else
    match e.totals.applyAll e.tables b.changes with
    | (totals, .error failure) => (({ e with totals }, v), .error failure)
    | (totals, .ok ()) =>
      let (v, result) := v.persist totals
      (({ e with totals }, v), result)

/-- Loads anew, scans every table in a snapshot, and persists the totals. -/
def rescan (e : Engine) (source snapshot : Source) (v : Vault) :
    (Engine × Metadata × Vault) × Except Failure Unit :=
  match e.load source v with
  | (e, .error failure) => ((e, snapshot.store, v), .error failure)
  | (e, .ok ()) =>
    match e.totals.scanAll snapshot.outages e.tables.entries snapshot.store with
    | ((totals, store), .error failure) => (({ e with totals }, store, v), .error failure)
    | ((totals, store), .ok ()) =>
      let (v, result) := v.persist totals
      (({ e with totals }, store, v), result)

def verdict (e : Engine) (result : Except Failure Unit) : Verdict :=
  ⟨e.settings.name, result.isOk⟩

def followAt (e : Engine) (site : Site) (b : Batch) : (Engine × Site) × Except Failure Unit :=
  let ((e, vault), result) := e.follow site.vault b
  ((e, { site with vault }), result)

def rescanAt (e : Engine) (site : Site) : (Engine × Site) × Except Failure Unit :=
  let ((e, store, vault), result) := e.rescan site.source site.source site.vault
  ((e, { source := { site.source with store }, vault }), result)

end Engine

end TableTotals
