import TableTotals.Proofs.Course
import TableTotals.Proofs.Standing

/-!
An executor that serves a depot, with writers that wait for it.

A `Service` is a depot and the executor of its engine. Writers put and delete only while the
executor has nothing to do; what they wrote is then submitted as one batch, and a rescan is asked
for only when nothing is left to submit. Outages and refusals come and go between any two turns,
so a batch may fail, and the rescan that follows it may fail as well.

`Service.Sound` is what every move keeps: nothing is outstanding when a table is scanned, and
the totals follow the store from a scan of every table on until they are lost. They are lost to a
batch that stops amid its changes, and to a rescan that breaks off when what is recorded is out
of date. Whatever success is reported while they are not lost is the truth
(`Service.success_mirrors`).
-/

namespace TableTotals

/-- What is recorded of a table is what a scan without outages finds: as many entries as there
are, and their sizes where sizes are watched. -/
def Vault.Mirrors (v : Vault) (store : Metadata) (name : String) (w : Watch) : Prop :=
  ∃ tbl s, store.tables.get? name = some tbl ∧ (Source.scan ⟨store, {}⟩ w name).2 = .ok s ∧
    s.count.toInt = tbl.cells.size ∧
    ∀ m, w.Keeps m → ∃ r, v.ledger.record? (m.key name) = some r ∧ r.value = s.value m

def Happening.writes : Happening → Bool
  | put .. | delete .. => true
  | switch .. | tick _ => false

structure Service where
  depot : Depot
  executor : Executor
  deriving DecidableEq

namespace Service

inductive Move where
  | outside (happening : Happening)
  /-- What was recorded is taken as a batch and queued. -/
  | submit
  /-- A rescan is asked for. -/
  | request
  | turn

def start (plan : Plan) (e : Engine) (depot : Depot) : Service :=
  { depot, executor := .start plan e }

/-- The changes that were recorded and not yet given to the engine, the oldest first. -/
def outstanding (s : Service) : List Change :=
  s.executor.queue.flatMap Job.changes ++ s.depot.feed.pending

def call? (s : Service) : Option Call :=
  match s.executor.engine, s.executor.next? with
  | some e, some job => some (e.call s.depot.site job)
  | _, _ => none

/-- The service after a move, and the call that the move made. A writer waits until the executor
has nothing to do, and a batch for which there is no room is not taken. -/
def step (s : Service) : Move → Service × Option Call
  | .outside happening =>
    if happening.writes && !s.executor.idle then (s, none)
    else ({ s with depot := s.depot.after happening }, none)
  | .submit =>
    let (feed, batch) := s.depot.feed.take
    match s.executor.offer s.executor.idle batch with
    | (executor, true) => ({ depot := { s.depot with feed }, executor }, none)
    | (_, false) => (s, none)
  | .request =>
    if s.depot.feed.pending.isEmpty then
      ({ s with executor := (s.executor.send .rescan).1 }, none)
    else (s, none)
  | .turn =>
    let (executor, site) := s.executor.turn s.depot.site
    ({ depot := { s.depot with site }, executor }, s.call?)

def run (s : Service) (moves : List Move) : Service := Course.run step s moves

def calls (s : Service) (moves : List Move) : List Call := Course.calls step s moves

/-- No tally is past the largest word, at the start of a run and after each of its moves. -/
def Bounded (settings : Settings) (s : Service) (moves : List Move) : Prop :=
  s.depot.Bounded settings ∧
    Course.Along step (fun s m => (s.step m).1.depot.Bounded settings) s moves

instance (settings : Settings) (s : Service) (moves : List Move) :
    Decidable (s.Bounded settings moves) :=
  inferInstanceAs (Decidable (_ ∧ Course.Along _ _ _ _))

/-! ### One move -/

/-- What every move keeps. Only the job at the head of the queue brings changes, and none does
while a scan is due or a write is not yet submitted. The totals are worth what the standing
says. -/
structure Sound (settings : Settings) (s : Service) (standing : Standing) : Prop where
  quiet : s.depot.feed.pending ≠ [] → s.executor.next? = none
  behind : ∀ job ∈ s.executor.queue.tail, job.changes = []
  due : s.executor.scanDue = true → ∀ job ∈ s.executor.queue, job.changes = []
  engine : ∃ e, s.executor.engine = some e ∧ e.settings = settings ∧
    e.Stands standing s.outstanding s.depot

variable {settings : Settings} {s : Service} {standing : Standing}

lemma next?_eq_none {x : Executor} : x.next? = none ↔ x.scanDue = false ∧ x.queue = [] := by
  unfold Executor.next?
  cases x.scanDue <;> simp

lemma flatMap_queue {x : Executor} {job : Job} (h : x.next? = some job) :
    x.queue.flatMap Job.changes = job.changes ++
      (if x.scanDue then x.queue else x.queue.tail).flatMap Job.changes := by
  unfold Executor.next? at h
  cases hdue : x.scanDue with
  | true =>
    simp only [hdue, if_true, Option.some.injEq] at h
    subst h
    rfl
  | false =>
    simp only [hdue, Bool.false_eq_true, if_false] at h
    cases hq : x.queue with
    | nil => simp [hq] at h
    | cons first rest =>
      obtain rfl : first = job := by simpa [hq] using h
      simp

lemma offer_eq_true {x x' : Executor} {idle : Bool} {batch : Batch}
    (h : x.offer idle batch = (x', true)) :
    x' = { x with queue := x.queue ++ [.follow batch] } := by
  unfold Executor.offer at h
  split at h
  · exact (Prod.ext_iff.1 h).1.symm
  · simp at h

lemma step_turn {e e' : Engine} {job : Job} {site : Site} {r : Except Failure Unit}
    (he : s.executor.engine = some e) (hnext : s.executor.next? = some job)
    (hattempt : e.attempt s.depot.site job = ((e', site), r)) :
    s.step .turn =
      ({ depot := { s.depot with site }
         executor := { s.executor with
            engine := some e'
            scanDue := s.executor.plan.owesScan job r
            queue := if s.executor.scanDue then s.executor.queue else s.executor.queue.tail
            verdicts := s.executor.verdicts ++ [e.verdict r] } },
        some (e.call s.depot.site job)) := by
  simp [step, Executor.turn, call?, he, hnext, hattempt]

lemma step_turn_of_idle (hnext : s.executor.next? = none) : s.step .turn = (s, none) := by
  cases he : s.executor.engine <;> simp [step, Executor.turn, call?, he, hnext]

namespace Sound

lemma pending_eq_nil (h : s.Sound settings standing) {job : Job}
    (hnext : s.executor.next? = some job) : s.depot.feed.pending = [] := by
  by_contra hpending
  rw [h.quiet hpending] at hnext
  cases hnext

lemma rest_eq_nil (h : s.Sound settings standing) :
    (if s.executor.scanDue then s.executor.queue else s.executor.queue.tail).flatMap
      Job.changes = [] := by
  rw [List.flatMap_eq_nil_iff]
  split
  next hdue => exact h.due hdue
  next => exact h.behind

/-- More jobs may be queued, if they bring changes only where there was nothing to do. -/
lemma queued (h : s.Sound settings standing) {job : Job} {feed : Feed}
    (hchanges : s.depot.feed.pending = job.changes) (hfeed : feed.pending = []) :
    ({ depot := { s.depot with feed }
       executor := { s.executor with queue := s.executor.queue ++ [job] } } : Service).Sound
      settings standing := by
  have hquiet : s.executor.next? ≠ none → job.changes = [] := by
    intro hnext
    by_contra hne
    rw [← hchanges] at hne
    exact hnext (h.quiet hne)
  obtain ⟨e, he, hsettings, hstands⟩ := h.engine
  constructor
  case quiet => exact fun hpending => absurd hfeed hpending
  case behind =>
    intro j hj
    rcases hq : s.executor.queue with _ | ⟨first, rest⟩
    · simp [hq] at hj
    · simp only [hq, List.cons_append, List.tail_cons, List.mem_append,
        List.mem_singleton] at hj
      rcases hj with hj | rfl
      · exact h.behind j (by simpa [hq] using hj)
      · refine hquiet fun hnone => ?_
        simp [(next?_eq_none.1 hnone).2] at hq
  case due =>
    intro hdue j hj
    rcases List.mem_append.1 hj with hj | hj
    · exact h.due hdue j hj
    · obtain rfl := List.mem_singleton.1 hj
      refine hquiet fun hnone => ?_
      simp [(next?_eq_none.1 hnone).1] at hdue
  case engine =>
    have hsame : s.outstanding = (s.executor.queue ++ [job]).flatMap Job.changes ++
        feed.pending := by
      simp [outstanding, hchanges, hfeed]
    rw [hsame] at hstands
    exact ⟨e, he, hsettings, hstands.follows, hstands.recorded⟩

/-- What happens from outside keeps all of it, as writers wait for the executor. -/
lemma outside (h : s.Sound settings standing) (x : Happening)
    (hwrites : x.writes = true → s.executor.next? = none)
    (hb : (s.depot.after x).Bounded settings) :
    ({ s with depot := s.depot.after x } : Service).Sound settings standing := by
  obtain ⟨e, he, hsettings, hstands⟩ := h.engine
  refine ⟨fun hpending => ?_, h.behind, h.due, e, he, hsettings, hstands.after x ?_⟩
  · cases x with
    | put table key entry fits => exact hwrites rfl
    | delete table key => exact hwrites rfl
    | switch outages refusals => exact h.quiet hpending
    | tick now => exact h.quiet hpending
  · rwa [hsettings]

lemma outstanding_turn (h : s.Sound settings standing) {job : Job}
    (hnext : s.executor.next? = some job) : (s.step .turn).1.outstanding = [] := by
  obtain ⟨e, he, -⟩ := h.engine
  rcases hattempt : e.attempt s.depot.site job with ⟨⟨e', site⟩, r⟩
  rw [step_turn he hnext hattempt, outstanding, h.rest_eq_nil]
  exact h.pending_eq_nil hnext

/-- A turn keeps all of it, and the totals are worth what its call leaves. -/
lemma turn (h : s.Sound settings standing) (hb : s.depot.Bounded settings)
    (hclash : settings.Unshadowed) :
    (s.step .turn).1.Sound settings ((s.step .turn).2.toList.foldl Standing.after standing) := by
  obtain ⟨e, he, hsettings, hstands⟩ := h.engine
  cases hnext : s.executor.next? with
  | none =>
    rw [step_turn_of_idle hnext]
    exact h
  | some job =>
    have hnone := h.outstanding_turn hnext
    rcases hattempt : e.attempt s.depot.site job with ⟨⟨e', site⟩, r⟩
    have hturn := step_turn he hnext hattempt
    have hlate : s.outstanding = job.changes ++ (s.step .turn).1.outstanding := by
      rw [hturn, outstanding, flatMap_queue hnext, List.append_assoc]
      rfl
    rw [hlate, hnone] at hstands
    rw [hturn] at hnone ⊢
    constructor
    case quiet => exact fun hpending => absurd (h.pending_eq_nil hnext) hpending
    case behind =>
      intro j hj
      exact List.flatMap_eq_nil_iff.1 h.rest_eq_nil j (List.mem_of_mem_tail hj)
    case due => exact fun _ => List.flatMap_eq_nil_iff.1 h.rest_eq_nil
    case engine =>
      refine ⟨e', rfl, (Engine.attempt_source hattempt).2.trans hsettings, ?_⟩
      rw [hnone]
      exact hstands.attempt hattempt (by rwa [hsettings]) (by rwa [hsettings]) fun _ => rfl

lemma succeeded (h : s.Sound settings standing) {verdict : Verdict}
    (hverdict : (s.step .turn).1.executor.verdicts = s.executor.verdicts ++ [verdict])
    (hsuccess : verdict.success = true) :
    ∃ job c, s.executor.next? = some job ∧ (s.step .turn).2 = some c ∧ c.result = .ok () ∧
      (c.job = .rescan → c.loaded = true) := by
  obtain ⟨e, he, -⟩ := h.engine
  cases hnext : s.executor.next? with
  | none =>
    -- an idle executor reports nothing
    simp [step_turn_of_idle hnext] at hverdict
  | some job =>
    rcases hattempt : e.attempt s.depot.site job with ⟨⟨e', site⟩, r⟩
    rw [step_turn he hnext hattempt] at hverdict ⊢
    have hv : e.verdict r = verdict := by simpa using hverdict
    rw [← hv] at hsuccess
    rcases r with failure | _
    · cases hsuccess
    · have hresult : (e.call s.depot.site job).result = .ok () := by
        simp only [Engine.call, hattempt]
      refine ⟨job, _, rfl, rfl, hresult, fun hjob => ?_⟩
      obtain rfl : job = .rescan := hjob
      exact Engine.loaded_of_ok hattempt

lemma mirrors (h : s.Sound settings .recorded) (hnone : s.outstanding = [])
    (hb : s.depot.Bounded settings) {name : String} (hname : name ∈ s.depot.store.names) :
    s.depot.site.vault.Mirrors s.depot.store name (settings.watchOf name) := by
  obtain ⟨e, -, rfl, hstands⟩ := h.engine
  rw [hnone] at hstands
  have hfollows := hstands.follows (by decide)
  have hrecorded := hstands.recorded rfl
  obtain ⟨tbl, found, htbl, hscan, hcount, hvalue⟩ := (hfollows.pursues name hname).found hb
  exact ⟨tbl, found, htbl, hscan, hcount, fun m hm => hrecorded m name _ (hvalue m hm)⟩

end Sound

/-- **One move keeps the invariant.** -/
lemma sound_step (h : s.Sound settings standing) (m : Move) (hclash : settings.Unshadowed)
    (hb : s.depot.Bounded settings) (hb' : (s.step m).1.depot.Bounded settings) :
    (s.step m).1.Sound settings ((s.step m).2.toList.foldl Standing.after standing) := by
  obtain ⟨e, he, -⟩ := h.engine
  cases m with
  | outside x =>
    simp only [step] at hb' ⊢
    split at hb'
    next hwait =>
      rw [if_pos hwait]
      exact h
    next hgo =>
      rw [if_neg hgo]
      refine h.outside x (fun hwrites => ?_) hb'
      simpa [hwrites, Executor.idle] using hgo
  | submit =>
    simp only [step, Feed.take]
    split
    next executor hoffer =>
      rw [offer_eq_true hoffer]
      exact h.queued rfl rfl
    next => exact h
  | request =>
    simp only [step]
    split
    next hempty =>
      have hrunning : s.executor.running = true := by rw [Executor.running, he]; rfl
      simp only [Executor.send, hrunning, if_true]
      exact h.queued (List.isEmpty_iff.1 hempty) (List.isEmpty_iff.1 hempty)
    next => exact h
  | turn => exact h.turn hb hclash

/-! ### Runs -/

lemma bounded_run {moves : List Move} (hb : s.Bounded settings moves) :
    (s.run moves).depot.Bounded settings :=
  Course.Along.keeps (I := fun s : Service => s.depot.Bounded settings)
    (fun _ _ hm _ => hm) hb.2 hb.1

lemma sound_run {moves : List Move} (h : s.Sound settings standing)
    (hclash : settings.Unshadowed) (hb : s.Bounded settings moves) :
    (s.run moves).Sound settings ((s.calls moves).foldl Standing.after standing) := by
  have hrun : (s.run moves).Sound settings (([] ++ s.calls moves).foldl Standing.after standing) ∧
      (s.run moves).depot.Bounded settings := by
    refine Course.Along.keeps_calls (I := fun s calls =>
      s.Sound settings (calls.foldl Standing.after standing) ∧ s.depot.Bounded settings)
      [] ?_ hb.2 ⟨h, hb.1⟩
    rintro s m done hm ⟨hs, hbounded⟩
    rw [List.foldl_append]
    exact ⟨sound_step hs m hclash hbounded hm, hm⟩
  exact hrun.1

lemma run_concat (s : Service) (moves : List Move) (m : Move) :
    s.run (moves ++ [m]) = ((s.run moves).step m).1 := Course.run_append

lemma calls_concat (s : Service) (moves : List Move) (m : Move) :
    s.calls (moves ++ [m]) = s.calls moves ++ ((s.run moves).step m).2.toList := by
  rw [calls, Course.calls_append, Course.calls, Course.calls, List.append_nil]
  rfl
/-- A service is sound when it starts, if everything that was recorded has been submitted. -/
lemma sound_start (plan : Plan) (e : Engine) {depot : Depot} (hpending : depot.feed.pending = []) :
    (start plan e depot).Sound e.settings .lost where
  quiet h := absurd hpending h
  behind job hjob := by simp [start, Executor.start] at hjob
  due _ job hjob := by simp [start, Executor.start] at hjob
  engine := ⟨e, rfl, rfl, .of_lost⟩

/-- **A success that is reported is the truth, unless the totals are lost.** Whenever an executor
reports that it succeeded, what is recorded of every table is what a scan finds; of a batch only
if the totals were not lost before it. -/
theorem success_mirrors {plan : Plan} {e : Engine} {depot : Depot} {moves : List Move}
    {verdict : Verdict} (hpending : depot.feed.pending = []) (hclash : e.settings.Unshadowed)
    (hb : (start plan e depot).Bounded e.settings (moves ++ [.turn]))
    (hverdict : ((start plan e depot).run (moves ++ [.turn])).executor.verdicts =
      ((start plan e depot).run moves).executor.verdicts ++ [verdict])
    (hsuccess : verdict.success = true)
    (hlost : Standing.afterAll ((start plan e depot).calls (moves ++ [.turn])) ≠ .lost) :
    ∀ name ∈ ((start plan e depot).run (moves ++ [.turn])).depot.store.names,
      ((start plan e depot).run (moves ++ [.turn])).depot.site.vault.Mirrors
        ((start plan e depot).run (moves ++ [.turn])).depot.store name
        (e.settings.watchOf name) := by
  have hbefore : (start plan e depot).Bounded e.settings moves := ⟨hb.1, hb.2.append.1⟩
  have hsound := sound_run (sound_start plan e hpending) hclash hbefore
  have hsound' := sound_run (sound_start plan e hpending) hclash hb
  rw [← Standing.afterAll] at hsound'
  rw [run_concat] at hverdict
  obtain ⟨job, c, hnext, hcall, hok, hloaded⟩ := hsound.succeeded hverdict hsuccess
  have hnone := hsound.outstanding_turn hnext
  rw [← run_concat] at hnone
  have hrec : Standing.afterAll ((start plan e depot).calls (moves ++ [.turn])) = .recorded := by
    rw [Standing.afterAll, calls_concat, hcall, List.foldl_append] at hlost ⊢
    exact Standing.after_ok hok hloaded hlost
  rw [hrec] at hsound'
  intro name hname
  exact hsound'.mirrors hnone (bounded_run hb) hname

def onTables (tables : List (String × Shape)) : Service :=
  start {} (.new .sizingKeys) (.ofTables tables)

/-- Neither a batch nor the rescan behind it can be recorded, and later a rescan that was asked
for breaks off. -/
def weathered : List Move :=
  [.turn, .outside (.faults true false []), .outside (.putBlank "v" 1), .submit, .turn, .turn,
    .outside (.faults false false []), .outside (.putBlank "v" 2), .submit, .turn,
    .outside (.faults false false [("v", 1)]), .request, .turn,
    .outside (.faults false false []), .outside (.putBlank "v" 3), .submit]

theorem success_mirrors_weathered :
    let s := (onTables [("v", .raw)]).run (weathered ++ [.turn])
    s.executor.verdicts.map (·.success) = [true, false, false, true, false, true] ∧
      ∀ name ∈ s.depot.store.names,
        s.depot.site.vault.Mirrors s.depot.store name (Settings.sizingKeys.watchOf name) := by
  have hverdict : ((onTables [("v", .raw)]).run (weathered ++ [.turn])).executor.verdicts =
      ((onTables [("v", .raw)]).run weathered).executor.verdicts ++
        [⟨Settings.defaultName, true⟩] := by decide +kernel
  refine ⟨by decide +kernel, success_mirrors ?_ ?_ ?_ hverdict rfl ?_⟩
  · rfl
  · decide +kernel
  · decide +kernel
  · decide +kernel

/-- An executor reports a success, but what is recorded of a table is not what a scan finds. -/
def CoversUp (s : Service) (moves : List Move) (name : String) : Prop :=
  s.depot.feed.pending = [] ∧ s.executor = .start {} (.new .sizingKeys) ∧
    s.Bounded .sizingKeys (moves ++ [.turn]) ∧
    (s.run (moves ++ [.turn])).executor.verdicts =
      (s.run moves).executor.verdicts ++ [⟨Settings.defaultName, true⟩] ∧
    name ∈ (s.run (moves ++ [.turn])).depot.store.names ∧
    ¬(s.run (moves ++ [.turn])).depot.site.vault.Mirrors (s.run (moves ++ [.turn])).depot.store
      name (Settings.sizingKeys.watchOf name)

lemma coversUp_of_count {moves : List Move} {name : String} (found : Summary)
    (h : s.depot.feed.pending = [] ∧ s.executor = .start {} (.new .sizingKeys) ∧
      s.Bounded .sizingKeys (moves ++ [.turn]) ∧
      (s.run (moves ++ [.turn])).executor.verdicts =
        (s.run moves).executor.verdicts ++ [⟨Settings.defaultName, true⟩] ∧
      name ∈ (s.run (moves ++ [.turn])).depot.store.names ∧
      (Source.scan ⟨(s.run (moves ++ [.turn])).depot.store, {}⟩
        (Settings.sizingKeys.watchOf name) name).2 = .ok found ∧
      ((s.run (moves ++ [.turn])).depot.site.vault.ledger.record? (Measure.count.key name)).map
        (·.value) ≠ some found.count) : s.CoversUp moves name := by
  obtain ⟨hpending, hstart, hb, hverdict, hname, hscan, hcount⟩ := h
  refine ⟨hpending, hstart, hb, hverdict, hname, ?_⟩
  rintro ⟨tbl, found', -, hscan', -, hrecords⟩
  rw [hscan] at hscan'
  cases hscan'
  obtain ⟨r, hr, hvalue⟩ := hrecords .count (Watch.keeps_count _)
  rw [hr] at hcount
  exact hcount (congrArg some hvalue)

/-- A batch cannot be recorded, the rescan behind it breaks off, and the next batch succeeds. -/
def brokenOff : List Move :=
  [.turn, .outside (.faults true false [("v", 0)]), .outside (.putBlank "v" 1), .submit, .turn,
    .turn, .outside (.faults false false []), .outside (.putBlank "v" 2), .submit]

/-- A batch stops amid its changes, the rescan behind it takes nothing up, and the next batch
succeeds. -/
def stopped : List Move :=
  [.turn, .outside (.putBlank "k" 1), .outside (.putBlank "v" 1), .submit, .turn,
    .outside (.faults false true []), .turn, .outside (.faults false false []),
    .outside (.putBlank "v" 2), .submit]

/-- A table with an entry that was there before the service started. -/
def onEntry : Service :=
  let depot := (Depot.ofTables [("v", .raw)]).after (.putBlank "v" 1)
  start {} (.new .sizingKeys) { depot with feed := {} }

/-- The first rescan breaks off, and the next batch succeeds. -/
def begunBadly : List Move :=
  [.outside (.faults false false [("v", 0)]), .turn, .outside (.faults false false []),
    .outside (.putBlank "v" 2), .submit]

/-- Successes of batches that follow a rescan which failed cover it up. -/
theorem successes_cover_up :
    (onTables [("v", .raw)]).CoversUp brokenOff "v" ∧
      (onTables [("k", .raw), ("v", .raw)]).CoversUp stopped "v" ∧
      onEntry.CoversUp begunBadly "v" := by
  refine ⟨coversUp_of_count ⟨2, .zero⟩ ?_, coversUp_of_count ⟨2, .zero⟩ ?_,
    coversUp_of_count ⟨2, .zero⟩ ?_⟩
  · decide +kernel
  · decide +kernel
  · decide +kernel

end Service

end TableTotals
