import TableTotals.Feed
import TableTotals.Workbench.Command

/-!
A workbench holds one of everything and is worked by commands.

There are two metadata stores, the main one with a feed and with outages that can be put in
its way, and a spare one; a vault; an engine, which may be lent to an executor; and tables and
cursors that were opened by hand and are known by names. `Workbench.step` carries out a
command and answers it. A command that fails leaves what it did before it failed, and there is
no step for a command that asks for what is not on the bench.
-/

namespace TableTotals

/-- One of everything. -/
structure Workbench where
  main : Metadata
  spare : Metadata := ∅
  feed : Feed := {}
  outages : Outages := {}
  vault : Vault
  engine : Option Engine
  executor : Option Executor := none
  /-- Whether the executor's thread is kept from its next turn. -/
  held : Bool := false
  handles : SortedMap String (Shelf × Handle) := ∅
  cursors : SortedMap String (Shelf × Cursor) := ∅
  deriving DecidableEq

namespace Workbench

def new (main : Metadata) (ledger : Ledger) (clock : Moment) (settings : Settings) : Workbench :=
  { main, vault := { ledger, clock }, engine := some (.new settings) }

def store (b : Workbench) : Shelf → Metadata
  | .main => b.main
  | .spare => b.spare

def withStore (b : Workbench) : Shelf → Metadata → Workbench
  | .main, s => { b with main := s }
  | .spare, s => { b with spare := s }

def source (b : Workbench) : View → Source
  | .plain shelf => ⟨b.store shelf, {}⟩
  | .guarded => ⟨b.main, b.outages⟩

def site (b : Workbench) : Site := ⟨b.source .guarded, b.vault⟩

def withSite (b : Workbench) (s : Site) : Workbench :=
  { b with main := s.source.store, vault := s.vault }

def dropCursor (b : Workbench) (name : String) : Workbench :=
  match b.cursors.get? name with
  | none => b
  | some (shelf, _) =>
    { b.withStore shelf (b.store shelf).closeCursor with cursors := b.cursors.erase name }

def perform (b : Workbench) (e : Engine) : Duty → (Workbench × Engine) × Except Failure Unit
  | .load =>
    let (e, result) := e.load (b.source .guarded) b.vault
    ((b, e), result)
  | .follow batch =>
    let ((e, vault), result) := e.follow b.vault batch
    (({ b with vault }, e), result)
  | .rescan view =>
    let ((e, store, vault), result) := e.rescan (b.source .guarded) (b.source view) b.vault
    (({ b.withStore view.shelf store with vault }, e), result)
  | .persist =>
    let (vault, result) := e.persist b.vault
    (({ b with vault }, e), result)

/-- Has the executor do all it can and takes what it reports. -/
def settle (b : Workbench) (x : Executor) : Workbench × List Verdict :=
  if b.held then ({ b with executor := some x }, [])
  else
    let (x, site) := x.drain b.site
    let (x, verdicts) := x.collect
    ({ b.withSite site with executor := some x }, verdicts)

def send (b : Workbench) (x : Executor) (job : Job) : Workbench × Except Failure Answer :=
  match x.send job with
  | (x, .error e) => ({ b with executor := some x }, .error e)
  | (x, .ok ()) =>
    let (b, verdicts) := b.settle x
    (b, .ok (.verdicts verdicts))

/-- Stops the executor, and answers with the engine if it still had it. -/
def halt (b : Workbench) (x : Executor) : Workbench × Option Engine × List Verdict :=
  let (x, site, engine) := x.stop b.site
  let (x, verdicts) := x.collect
  ({ b.withSite site with executor := some x, held := false }, engine, verdicts)

def step (b : Workbench) : Command → Option (Workbench × Except Failure Answer)
  | .create shelf table layout =>
    some (b.withStore shelf ((b.store shelf).create table layout), .ok .done)
  | .drop shelf table =>
    some (b.withStore shelf ((b.store shelf).drop table),
      .ok (.flag ((b.store shelf).tables.contains table)))
  | .put shelf table key entry =>
    let (s, result) := (b.store shelf).put table key entry
    some (b.withStore shelf s, .entry <$> result)
  | .putBytes shelf table key bytes =>
    let (s, result) := (b.store shelf).putBytes table key bytes
    some (b.withStore shelf s, (fun _ => .done) <$> result)
  | .delete shelf table key =>
    let (s, result) := (b.store shelf).delete table key
    some (b.withStore shelf s, .entry <$> result)
  | .get shelf table key => some (b, .entry <$> (b.store shelf).get table key)
  | .count shelf table => some (b, .number <$> (b.store shelf).count table)
  | .layout shelf table => some (b, .ok (.layout ((b.store shelf).layout? table)))
  | .names view => some (b, .names <$> (b.source view).names)
  | .openCursors shelf => some (b, .ok (.number (b.store shelf).openCursors))
  | .openTable view table handle =>
    match (b.source view).openTable table with
    | .error e => some (b, .error e)
    | .ok h =>
      some ({ b with handles := b.handles.insert handle (view.shelf, h) }, .ok (.opened h.table))
  | .openCursor handle cursor => do
    let (shelf, h) ← b.handles.get? handle
    match (b.store shelf).openCursor h with
    | (s, .error e) => return (b.withStore shelf s, .error e)
    | (s, .ok c) =>
      let b := (b.withStore shelf s).dropCursor cursor
      return ({ b with cursors := b.cursors.insert cursor (shelf, c) }, .ok .done)
  | .next cursor => do
    let (shelf, c) ← b.cursors.get? cursor
    let (c, result) := c.next
    return ({ b with cursors := b.cursors.insert cursor (shelf, c) }, .cell <$> result)
  | .rewind cursor => do
    let (shelf, c) ← b.cursors.get? cursor
    return ({ b with cursors := b.cursors.insert cursor (shelf, c.rewind) }, .ok .done)
  | .closeCursor cursor =>
    some (b.dropCursor cursor, .ok (.flag (b.cursors.contains cursor)))
  | .summarize cursor sizer label => do
    let (shelf, c) ← b.cursors.get? cursor
    let (c, result) := c.summarize (.sized sizer) label
    return ({ b with cursors := b.cursors.insert cursor (shelf, c) }, .summary <$> result)
  | .feedPut table key entry =>
    let ((feed, main), result) := b.feed.put b.main table key entry
    some ({ b with feed, main }, result >>= fun _ => .number <$> main.count table)
  | .feedDelete table key =>
    let ((feed, main), result) := b.feed.delete b.main table key
    some ({ b with feed, main }, result >>= fun _ => .number <$> main.count table)
  | .takeBatch =>
    let (feed, batch) := b.feed.take
    some ({ b with feed }, .ok (.batch batch))
  | .followFeed => do
    let e ← b.engine
    let (feed, batch) := b.feed.take
    let ((b, e), result) := perform { b with feed } e (.follow batch)
    return ({ b with engine := some e }, .ok (.followed batch (e.verdict result)))
  | .breakScans table after =>
    some ({ b with outages.scans := b.outages.scans.insert table after }, .ok .done)
  | .heal => some ({ b with outages.scans := ∅ }, .ok .done)
  | .refuseNames on => some ({ b with outages.names := on }, .ok .done)
  | .refuseInserts on => some ({ b with vault.refusals.inserts := on }, .ok .done)
  | .refuseUpdates on => some ({ b with vault.refusals.updates := on }, .ok .done)
  | .refuseRecord key => some ({ b with vault.refusals.records := key.toList }, .ok .done)
  | .refuseClock on => some ({ b with vault.refusals.clock := on }, .ok .done)
  | .resetCounts => some ({ b with vault.inserted := 0, vault.updated := 0 }, .ok .done)
  | .seed key value => some ({ b with vault := b.vault.seed key value }, .ok .done)
  | .insert records =>
    let (vault, result) := b.vault.insert records
    some ({ b with vault }, (fun _ => .done) <$> result)
  | .update records =>
    let (vault, result) := b.vault.update records
    some ({ b with vault }, (fun _ => .done) <$> result)
  | .fetch key => some (b, .record <$> b.vault.fetch key)
  | .lookUp key =>
    some (b, .ok (.holding ((b.vault.ledger.record? key).map (·.value))
      b.vault.ledger.readings.size))
  | .now => some (b, .statistic <$> b.vault.now)
  | .setClock moment =>
    some ({ b with vault.clock := moment }, .ok (.statistic moment))
  | .advanceClock millis =>
    let moment := b.vault.clock + millis
    some ({ b with vault.clock := moment }, .ok (.statistic moment))
  | .readCount table => some (b, .statistic <$> b.vault.countOf table)
  | .readExtent table => some (b, .extent <$> b.vault.extentOf table)
  | .readReport table => some (b, .report <$> b.vault.reportOf table)
  | .attempt duty => do
    let e ← b.engine
    let ((b, e), result) := b.perform e duty
    return ({ b with engine := some e }, (fun _ => .done) <$> result)
  | .run duty => do
    let e ← b.engine
    let ((b, e), result) := b.perform e duty
    return ({ b with engine := some e }, .ok (.verdict (e.verdict result)))
  | .look => some (b, .ok .done)
  | .engineTables => do
    let e ← b.engine
    return (b, .ok (.tables e.settings.name e.tables.entries))
  | .engineTable table => do
    let e ← b.engine
    return (b, do
      let names ← (b.source .guarded).names
      let record ← b.vault.fetch (Measure.count.key table)
      return .table (e.settings.watchOf table) (e.totals.count? table) (e.totals.extent? table)
        (names.contains table) record.isSome)
  | .newEngine settings => some ({ b with engine := some (.new settings) }, .ok .done)
  | .reopen settings =>
    let vault := { ledger := b.vault.ledger, clock := b.vault.clock }
    some ({ b with vault, engine := some (.new settings) }, .ok .done)
  | .dismantle => do
    let _ ← b.engine
    return ({ b with engine := none }, do
      let names ← (b.source .guarded).names
      return .parts names.length b.vault.ledger.readings.size)
  | .spawn plan hold => do
    let e ← b.engine
    let x := Executor.start plan e
    let (x, site) := if plan.onStart then x.turn b.site else (x, b.site)
    let (x, verdicts) := x.collect
    return ({ b.withSite site with engine := none, executor := some x, held := hold },
      .ok (.verdicts verdicts))
  | .offer batch => do
    let x ← b.executor
    match x.offer (!b.held) batch with
    | (x, false) => return ({ b with executor := some x }, .ok (.rejected batch))
    | (x, true) =>
      let (b, verdicts) := b.settle x
      return (b, .ok (.accepted verdicts))
  | .send job => do
    let x ← b.executor
    return b.send x job
  | .sendFeed => do
    let x ← b.executor
    let (feed, batch) := b.feed.take
    return send { b with feed } x (.follow batch)
  | .release => do
    let x ← b.executor
    let (b, verdicts) := settle { b with held := false } x
    return (b, .ok (.verdicts verdicts))
  | .isRunning => do
    let x ← b.executor
    return (b, .ok (.flag x.running))
  | .stop => do
    let x ← b.executor
    let (b, engine, verdicts) := b.halt x
    return ({ b with engine := engine <|> b.engine }, .ok (.stopped engine.isSome verdicts))
  | .discard => do
    let x ← b.executor
    let (b, _, verdicts) := b.halt x
    return ({ b with executor := none }, .ok (.verdicts verdicts))

end Workbench

end TableTotals
