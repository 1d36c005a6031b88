import TableTotals.Engine

/-!
An executor owns an engine and does jobs for it one at a time, in the order in which it took
them.

Jobs wait in a queue of bounded length. `turn` is one step of the executor's own thread: it
makes the scan that is due, if one is, and otherwise does the job at the head of the queue. A
scan is due first of all where the plan begins with one, and again after a batch that failed
where the plan repairs the totals then. Callers queue jobs between any two turns. `serve` is
what the turns amount to: the jobs done one after another, with nobody else at work.
-/

namespace TableTotals

structure Plan where
  /-- How many jobs may wait. -/
  capacity : Nat := 1024
  /-- Whether it begins with a scan. -/
  onStart : Bool := true
  /-- Whether a scan follows a batch that failed. -/
  onFailure : Bool := true
  deriving DecidableEq, Repr

inductive Job where
  | follow (batch : Batch)
  | rescan
  deriving DecidableEq, Repr

/-- Whether a scan is due after a job that ended so. -/
def Plan.owesScan (p : Plan) : Job → Except Failure Unit → Bool
  | .follow _, result => p.onFailure && !result.isOk
  | .rescan, _ => false

namespace Engine

/-- Does one job, without the scan that may have to follow it. -/
def attempt (e : Engine) (site : Site) : Job → (Engine × Site) × Except Failure Unit
  | .follow batch => e.followAt site batch
  | .rescan => e.rescanAt site

def repair (e : Engine) (site : Site) : (Engine × Site) × List Verdict :=
  let (after, result) := e.rescanAt site
  (after, [e.verdict result])

/-- Does one job, with the scan that may have to follow it. -/
def perform (e : Engine) (plan : Plan) (site : Site) : Job → (Engine × Site) × List Verdict
  | .rescan => e.repair site
  | .follow batch =>
    let ((e', site), result) := e.followAt site batch
    if !result.isOk && plan.onFailure then
      let (after, verdicts) := e'.repair site
      (after, e.verdict result :: verdicts)
    else ((e', site), [e.verdict result])

def serve (plan : Plan) : List Job → Engine → Site → (Engine × Site) × List Verdict
  | [], e, site => ((e, site), [])
  | job :: rest, e, site =>
    let ((e, site), first) := e.perform plan site job
    let (after, others) := serve plan rest e site
    (after, first ++ others)

end Engine

/-- An executor, between two turns of its thread. -/
structure Executor where
  plan : Plan
  /-- The engine, for as long as the executor runs. -/
  engine : Option Engine
  /-- Whether a scan is due before the next job. -/
  scanDue : Bool
  /-- The jobs that wait, the next one first. -/
  queue : List Job := []
  /-- What was reported and not yet collected, the oldest first. -/
  verdicts : List Verdict := []
  deriving DecidableEq

namespace Executor

def start (plan : Plan) (e : Engine) : Executor :=
  { plan, engine := some e, scanDue := plan.onStart }

def running (x : Executor) : Bool := x.engine.isSome

def next? (x : Executor) : Option Job := if x.scanDue then some .rescan else x.queue.head?

def idle (x : Executor) : Bool := x.next?.isNone

/-- One step of the executor's thread; without anything to do it waits. -/
def turn (x : Executor) (site : Site) : Executor × Site :=
  match x.engine, x.next? with
  | some e, some job =>
    let ((after, site), result) := e.attempt site job
    ({ x with
        engine := some after
        scanDue := x.plan.owesScan job result
        queue := if x.scanDue then x.queue else x.queue.tail
        verdicts := x.verdicts ++ [e.verdict result] }, site)
  | _, _ => (x, site)

/-- Turns until nothing is left to do: a scan that is due, and at most two turns for each job
that waits. -/
def drain (x : Executor) (site : Site) : Executor × Site :=
  turns (2 * x.queue.length + 1) (x, site)
where
  turns : Nat → Executor × Site → Executor × Site
    | 0, s => s
    | n + 1, (x, site) => turns n (x.turn site)

/-- Whether another job may wait. A queue of no length passes a job on only to a thread that is
waiting for one. -/
def hasRoom (x : Executor) (waiting : Bool) : Bool :=
  x.queue.length < x.plan.capacity || (x.plan.capacity == 0 && waiting && x.queue.isEmpty)

/-- Queues a batch if there is room and the executor runs, and answers whether it did. -/
def offer (x : Executor) (waiting : Bool) (b : Batch) : Executor × Bool :=
  if x.running && x.hasRoom waiting then ({ x with queue := x.queue ++ [.follow b] }, true)
  else (x, false)

/-- Queues a job, having waited for room. -/
def send (x : Executor) (job : Job) : Executor × Except Failure Unit :=
  if x.running then ({ x with queue := x.queue ++ [job] }, .ok ())
  else (x, .error (.internal .stopped))

/-- Does what is left to do, stops for good, and gives the engine back if it was not given back
before. -/
def stop (x : Executor) (site : Site) : Executor × Site × Option Engine :=
  let (x, site) := x.drain site
  ({ x with engine := none }, site, x.engine)

def collect (x : Executor) : Executor × List Verdict := ({ x with verdicts := [] }, x.verdicts)

end Executor

end TableTotals
