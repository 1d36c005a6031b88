import Mathlib.Data.List.Forall2
import TableTotals.Proofs.Depot

/-!
What the turns of an executor amount to.

A run interleaves calls with turns of the executor's thread in any order. A job leaves the queue
when its turn begins, and nobody else works on the engine or its site, so a call that arrives
amid a turn finds what it would find after it.

`Amid` is what every move but the last keeps: to do what is left is to do the rest of all jobs
that were taken, one after another, whatever may still be taken (`Amid.step`). A turn does the
first thing that is left and puts the scan that it owes before the others, as `Engine.serve` does
(`Engine.serve_cons`). Stopping does all that is left, so it ends where `Engine.serve` ends
(`stop_serves`).
-/

namespace TableTotals

def Plan.opening (p : Plan) : List Job := if p.onStart then [.rescan] else []

namespace Engine

variable {plan : Plan} {e e' : Engine} {site site' : Site} {job : Job} {r : Except Failure Unit}

lemma perform_eq (ha : e.attempt site job = ((e', site'), r)) (plan : Plan) :
    e.perform plan site job =
      if plan.owesScan job r then ((e'.repair site').1, e.verdict r :: (e'.repair site').2)
      else ((e', site'), [e.verdict r]) := by
  cases job with
  | rescan =>
    have hscan : e.rescanAt site = ((e', site'), r) := ha
    simp [perform, repair, hscan, Plan.owesScan]
  | follow batch =>
    have hfollow : e.followAt site batch = ((e', site'), r) := ha
    have howes : (!r.isOk && plan.onFailure) = plan.owesScan (.follow batch) r := Bool.and_comm ..
    rw [← howes]
    simp only [perform, hfollow]

/-- Jobs are done one after another by doing the first one, and then the scan that it owes before
the rest. -/
lemma serve_cons (ha : e.attempt site job = ((e', site'), r)) (rest : List Job) :
    serve plan (job :: rest) e site =
      ((serve plan ((if plan.owesScan job r then [.rescan] else []) ++ rest) e' site').1,
        e.verdict r ::
          (serve plan ((if plan.owesScan job r then [.rescan] else []) ++ rest) e' site').2) := by
  rw [serve, perform_eq ha plan]
  cases plan.owesScan job r <;> rfl

end Engine

namespace Executor

variable {x x' : Executor} {site site' : Site}

/-- Everything that is left to do, in its order. -/
def agenda (x : Executor) : List Job := (if x.scanDue then [.rescan] else []) ++ x.queue

/-- The job that the next turn takes from the queue, if it takes one. -/
def receives? (x : Executor) : Option Job :=
  if x.running && !x.scanDue then x.queue.head? else none

def receipts : Nat → Executor × Site → List Job
  | 0, _ => []
  | n + 1, (x, site) => x.receives?.toList ++ receipts n (x.turn site)

lemma next?_eq_head? (x : Executor) : x.next? = x.agenda.head? := by
  unfold next? agenda
  cases x.scanDue <;> rfl

/-! ### One turn -/

lemma turn_of_stopped (h : x.engine = none) (site : Site) : x.turn site = (x, site) := by
  rw [turn, h]

lemma turn_of_idle (h : x.agenda = []) (site : Site) : x.turn site = (x, site) := by
  unfold turn
  rw [next?_eq_head?, h]
  cases x.engine <;> rfl

lemma turn_eq {e e' : Engine} {job : Job} {rest : List Job} {r : Except Failure Unit}
    (he : x.engine = some e) (hagenda : x.agenda = job :: rest)
    (ha : e.attempt site job = ((e', site'), r)) :
    ∃ x', x.turn site = (x', site') ∧ x'.plan = x.plan ∧ x'.engine = some e' ∧
      x'.agenda = (if x.plan.owesScan job r then [.rescan] else []) ++ rest ∧
      x'.verdicts = x.verdicts ++ [e.verdict r] := by
  have hnext : x.next? = some job := by rw [next?_eq_head?, hagenda, List.head?_cons]
  have hrest : (if x.scanDue then x.queue else x.queue.tail) = rest := by
    unfold agenda at hagenda
    cases hdue : x.scanDue with
    | true =>
      rw [hdue] at hagenda
      exact (List.cons.inj hagenda).2
    | false =>
      have hqueue : x.queue = job :: rest := by simpa [hdue] using hagenda
      rw [hqueue]
      rfl
  refine ⟨{ x with
    engine := some e'
    scanDue := x.plan.owesScan job r
    queue := rest
    verdicts := x.verdicts ++ [e.verdict r] }, ?_, rfl, rfl, rfl, rfl⟩
  simp only [turn, he, hnext, ha, hrest]

lemma receives?_append_queue (x : Executor) (site : Site) :
    x.receives?.toList ++ (x.turn site).1.queue = x.queue := by
  unfold receives? turn running
  cases he : x.engine with
  | none => rfl
  | some e =>
    cases hdue : x.scanDue with
    | true => simp [next?, hdue]
    | false => cases hq : x.queue <;> simp [next?, hdue, hq]

/-! ### What is left -/

/-- How many turns a job takes at most. -/
def turnsFor : Job → Nat
  | .follow _ => 2
  | .rescan => 1

/-- How many turns it takes at most to do what is left. -/
def left (x : Executor) : Nat := (x.agenda.map turnsFor).sum

lemma sum_turnsFor_le (jobs : List Job) : (jobs.map turnsFor).sum ≤ 2 * jobs.length := by
  induction jobs with
  | nil => exact Nat.le_refl 0
  | cons job rest ih =>
    have hjob : turnsFor job ≤ 2 := by cases job <;> simp [turnsFor]
    rw [List.map_cons, List.sum_cons, List.length_cons]
    omega

lemma left_le (x : Executor) : x.left ≤ 2 * x.queue.length + 1 := by
  have hqueue := sum_turnsFor_le x.queue
  unfold left agenda
  cases x.scanDue with
  | false => simpa using Nat.le_succ_of_le hqueue
  | true =>
    rw [if_pos rfl, List.singleton_append, List.map_cons, List.sum_cons, turnsFor]
    omega

/-- A turn leaves less to do, as a scan is owed by batches only. -/
lemma left_turn_lt (hrunning : x.running = true) (h : x.agenda ≠ []) (site : Site) :
    (x.turn site).1.left < x.left := by
  obtain ⟨e, he⟩ := Option.isSome_iff_exists.1 hrunning
  rcases hagenda : x.agenda with _ | ⟨job, rest⟩
  · exact absurd hagenda h
  · rcases ha : e.attempt site job with ⟨⟨e', site'⟩, r⟩
    obtain ⟨x', hturn, -, -, hagenda', -⟩ := turn_eq he hagenda ha
    rw [hturn, left, hagenda', left, hagenda, List.map_append, List.sum_append]
    cases job with
    | rescan => simp [Plan.owesScan, turnsFor]
    | follow batch => split <;> simp [turnsFor]

lemma running_turn (h : x.running = true) (site : Site) : (x.turn site).1.running = true := by
  unfold turn
  split
  · rfl
  · exact h

lemma agenda_turns {s : Executor × Site} (hrunning : s.1.running = true) {n : Nat}
    (hn : s.1.left ≤ n) : (drain.turns n s).1.agenda = [] := by
  induction n generalizing s with
  | zero =>
    by_contra hagenda
    have hlt := left_turn_lt hrunning hagenda s.2
    omega
  | succ n ih =>
    refine ih (running_turn hrunning s.2) ?_
    by_cases hagenda : s.1.agenda = []
    · rw [turn_of_idle hagenda, left, hagenda]
      exact Nat.zero_le n
    · have hlt := left_turn_lt hrunning hagenda s.2
      omega

/-! ### Moves -/

inductive Move where
  | offer (batch : Batch)
  | send (job : Job)
  | stop
  | turn
  deriving DecidableEq

inductive Outcome where
  | taken (job : Job)
  | handedBack (batch : Batch)
  /-- There is no room, and the caller goes on waiting. -/
  | waits
  | refused (failure : Failure)
  /-- A turn, and the job that it took from the queue. -/
  | turned (job? : Option Job)
  /-- The engine that stopping gives back, and the jobs that were taken from the queue before. -/
  | returned (engine : Option Engine) (jobs : List Job)
  deriving DecidableEq

namespace Outcome

def accepted : Outcome → List Job
  | taken job => [job]
  | _ => []

def received : Outcome → List Job
  | turned job? => job?.toList
  | returned _ jobs => jobs
  | _ => []

end Outcome

/-- One move. Who sends a job for which there is no room waits, and may try again. -/
def step : Executor × Site → Move → (Executor × Site) × Outcome
  | (x, site), .offer batch =>
    let (x', taken) := x.offer x.idle batch
    ((x', site), if taken then .taken (.follow batch) else .handedBack batch)
  | (x, site), .send job =>
    if x.running && !x.hasRoom x.idle then ((x, site), .waits)
    else
      match x.send job with
      | (x', .ok ()) => ((x', site), .taken job)
      | (x', .error failure) => ((x', site), .refused failure)
  | (x, site), .stop =>
    let (x', site', engine) := x.stop site
    ((x', site'), .returned engine (receipts (2 * x.queue.length + 1) (x, site)))
  | (x, site), .turn => (x.turn site, .turned x.receives?)

def run : Executor × Site → List Move → (Executor × Site) × List Outcome
  | s, [] => (s, [])
  | s, m :: rest =>
    let (s', outcome) := step s m
    let (last, outcomes) := run s' rest
    (last, outcome :: outcomes)

/-- What a call may be answered while the executor runs: nobody is refused, and a batch is handed
back as it was offered. -/
def Move.Answered : Move → Outcome → Prop
  | .offer batch, o => o = .taken (.follow batch) ∨ o = .handedBack batch
  | .send job, o => o = .taken job ∨ o = .waits
  | .stop, o => ∃ e jobs, o = .returned (some e) jobs
  | .turn, o => ∃ job?, o = .turned job?

/-- What every move comes to once the executor has stopped. -/
def Move.afterStop : Move → Outcome
  | .offer batch => .handedBack batch
  | .send _ => .refused (.internal .stopped)
  | .stop => .returned none []
  | .turn => .turned none

/-! ### What a run keeps -/

/-- An executor that took some jobs and received the first of them: to do what is left is to do
the rest of all jobs, whatever more may be taken. -/
structure Amid (plan : Plan) (e₀ : Engine) (site₀ : Site) (accepted received : List Job)
    (s : Executor × Site) : Prop where
  plan_eq : s.1.plan = plan
  queue : received ++ s.1.queue = accepted
  engine : ∃ e, s.1.engine = some e ∧ ∀ more,
    Engine.serve plan (plan.opening ++ accepted ++ more) e₀ site₀ =
      ((Engine.serve plan (s.1.agenda ++ more) e s.2).1,
        s.1.verdicts ++ (Engine.serve plan (s.1.agenda ++ more) e s.2).2)

namespace Amid

variable {plan : Plan} {e₀ : Engine} {site₀ : Site} {accepted received : List Job}
  {s : Executor × Site}

lemma start (plan : Plan) (e : Engine) (site : Site) :
    Amid plan e site [] [] (start plan e, site) where
  plan_eq := rfl
  queue := rfl
  engine := by
    refine ⟨e, rfl, fun more => ?_⟩
    have hagenda : (Executor.start plan e).agenda = plan.opening := List.append_nil _
    rw [List.append_nil, hagenda]
    rfl

lemma running (h : Amid plan e₀ site₀ accepted received s) : s.1.running = true := by
  obtain ⟨e, he, -⟩ := h.engine
  rw [Executor.running, he]
  rfl

lemma queued (h : Amid plan e₀ site₀ accepted received s) (job : Job) :
    Amid plan e₀ site₀ (accepted ++ [job]) received
      ({ s.1 with queue := s.1.queue ++ [job] }, s.2) := by
  obtain ⟨e, he, hserve⟩ := h.engine
  refine ⟨h.plan_eq, ?_, e, he, fun more => ?_⟩
  · rw [← h.queue, List.append_assoc]
  · have hagenda : agenda { s.1 with queue := s.1.queue ++ [job] } = s.1.agenda ++ [job] :=
      (List.append_assoc ..).symm
    have hmore := hserve ([job] ++ more)
    rw [← List.append_assoc, ← List.append_assoc] at hmore
    rw [hagenda, ← List.append_assoc]
    exact hmore

lemma turn (h : Amid plan e₀ site₀ accepted received s) :
    Amid plan e₀ site₀ accepted (received ++ s.1.receives?.toList) (s.1.turn s.2) := by
  obtain ⟨e, he, hserve⟩ := h.engine
  have hqueue : (received ++ s.1.receives?.toList) ++ (s.1.turn s.2).1.queue = accepted := by
    rw [List.append_assoc, receives?_append_queue, h.queue]
  rcases hagenda : s.1.agenda with _ | ⟨job, rest⟩
  · rw [turn_of_idle hagenda] at hqueue ⊢
    exact ⟨h.plan_eq, hqueue, e, he, hserve⟩
  · rcases ha : e.attempt s.2 job with ⟨⟨e', site'⟩, r⟩
    obtain ⟨x', hturn, hplan, he', hagenda', hverdicts⟩ := turn_eq he hagenda ha
    rw [hturn] at hqueue ⊢
    refine ⟨hplan.trans h.plan_eq, hqueue, e', he', fun more => ?_⟩
    have hmore := hserve more
    rw [hagenda, List.cons_append, Engine.serve_cons ha] at hmore
    rw [hmore, hagenda', hverdicts, h.plan_eq]
    simp only [List.append_assoc, List.singleton_append]

/-- **Every move keeps it** as long as the executor is not stopped. -/
lemma step (h : Amid plan e₀ site₀ accepted received s) {m : Move} (hm : m ≠ .stop) :
    Amid plan e₀ site₀ (accepted ++ (step s m).2.accepted) (received ++ (step s m).2.received)
        (step s m).1 ∧ m.Answered (step s m).2 := by
  have hrunning := h.running
  have hsame : Amid plan e₀ site₀ (accepted ++ []) (received ++ []) s := by
    rwa [List.append_nil, List.append_nil]
  have hqueued : ∀ job, Amid plan e₀ site₀ (accepted ++ [job]) (received ++ [])
      ({ s.1 with queue := s.1.queue ++ [job] }, s.2) := by
    intro job
    rw [List.append_nil]
    exact h.queued job
  cases m with
  | offer batch =>
    simp only [Executor.step, Executor.offer, hrunning, Bool.true_and]
    split
    · exact ⟨hqueued _, .inl rfl⟩
    · exact ⟨hsame, .inr rfl⟩
  | send job =>
    simp only [Executor.step, Executor.send, hrunning, Bool.true_and, if_true]
    split
    · exact ⟨hsame, .inr rfl⟩
    · exact ⟨hqueued _, .inl rfl⟩
  | stop => exact absurd rfl hm
  | turn =>
    refine ⟨?_, _, rfl⟩
    show Amid plan e₀ site₀ (accepted ++ []) (received ++ s.1.receives?.toList) _
    rw [List.append_nil]
    exact h.turn

lemma run {moves : List Move} (h : Amid plan e₀ site₀ accepted received s)
    (hmoves : .stop ∉ moves) :
    Amid plan e₀ site₀ (accepted ++ (run s moves).2.flatMap Outcome.accepted)
        (received ++ (run s moves).2.flatMap Outcome.received) (run s moves).1 ∧
      List.Forall₂ Move.Answered moves (run s moves).2 := by
  induction moves generalizing s accepted received with
  | nil =>
    refine ⟨?_, .nil⟩
    show Amid plan e₀ site₀ (accepted ++ []) (received ++ []) s
    rwa [List.append_nil, List.append_nil]
  | cons m rest ih =>
    rw [List.mem_cons, not_or] at hmoves
    obtain ⟨hstep, hanswer⟩ := h.step (Ne.symm hmoves.1)
    obtain ⟨hrest, hanswers⟩ := ih hstep hmoves.2
    rw [List.append_assoc, List.append_assoc] at hrest
    exact ⟨hrest, .cons hanswer hanswers⟩

lemma turns (h : Amid plan e₀ site₀ accepted received s) (n : Nat) :
    Amid plan e₀ site₀ accepted (received ++ receipts n s) (drain.turns n s) := by
  induction n generalizing s received with
  | zero =>
    show Amid plan e₀ site₀ accepted (received ++ []) s
    rwa [List.append_nil]
  | succ n ih =>
    have hturn := ih h.turn
    rw [List.append_assoc] at hturn
    exact hturn

/-- Where nothing is left, every job that was taken was received, and all of them are done. -/
lemma eq_serve (h : Amid plan e₀ site₀ accepted received s) (hagenda : s.1.agenda = []) :
    received = accepted ∧ ∃ e, s.1.engine = some e ∧
      Engine.serve plan (plan.opening ++ accepted) e₀ site₀ = ((e, s.2), s.1.verdicts) := by
  obtain ⟨e, he, hserve⟩ := h.engine
  have hqueue := h.queue
  have hempty : s.1.queue = [] := (List.append_eq_nil_iff.1 hagenda).2
  have hdone := hserve []
  rw [hempty, List.append_nil] at hqueue
  rw [hagenda, List.append_nil] at hdone
  refine ⟨hqueue, e, he, ?_⟩
  rw [hdone, List.append_nil, Engine.serve, List.append_nil]

/-- What was reported is the beginning of what doing the jobs one after another reports. -/
lemma verdicts_prefix (h : Amid plan e₀ site₀ accepted received s) {after : Engine × Site}
    {verdicts : List Verdict}
    (hserve : Engine.serve plan (plan.opening ++ accepted) e₀ site₀ = (after, verdicts)) :
    s.1.verdicts <+: verdicts := by
  obtain ⟨e, -, hdone⟩ := h.engine
  have hmore := hdone []
  rw [List.append_nil, hserve] at hmore
  have hverdicts : verdicts = s.1.verdicts ++ _ := (Prod.ext_iff.1 hmore).2
  rw [hverdicts]
  exact List.prefix_append ..

lemma handedBack_iff (h : Amid plan e₀ site₀ accepted received s) (hcap : 0 < plan.capacity)
    (batch : Batch) :
    (Executor.step s (.offer batch)).2 = .handedBack batch ↔
      plan.capacity ≤ s.1.queue.length := by
  have hplan := h.plan_eq
  have hne : plan.capacity ≠ 0 := Nat.pos_iff_ne_zero.1 hcap
  have hroom : s.1.hasRoom s.1.idle = decide (s.1.queue.length < plan.capacity) := by
    simp [hasRoom, hplan, hne]
  simp only [Executor.step, Executor.offer, h.running, hroom, Bool.true_and, decide_eq_true_eq]
  split
  next hlt => simp [hlt]
  next hge => simpa using hge

end Amid

/-! ### Stopping -/

lemma turns_of_stopped (h : x.engine = none) (site : Site) (n : Nat) :
    drain.turns n (x, site) = (x, site) := by
  induction n with
  | zero => rfl
  | succ n ih =>
    rw [drain.turns, turn_of_stopped h]
    exact ih

lemma receipts_of_stopped (h : x.engine = none) (site : Site) (n : Nat) :
    receipts n (x, site) = [] := by
  induction n with
  | zero => rfl
  | succ n ih =>
    have hnone : x.receives? = none := by rw [receives?, running, h]; rfl
    rw [receipts, turn_of_stopped h, hnone]
    exact ih

/-- Nothing is done or taken by an executor that has stopped. -/
lemma step_of_stopped (h : x.engine = none) (site : Site) (m : Move) :
    step (x, site) m = ((x, site), m.afterStop) := by
  have hrunning : x.running = false := by rw [running, h]; rfl
  cases m with
  | offer batch => simp [step, offer, hrunning, Move.afterStop]
  | send job => simp [step, send, hrunning, Move.afterStop]
  | stop =>
    have hsame : { x with engine := none } = x := by rw [← h]
    simp only [step, stop, drain, turns_of_stopped h, receipts_of_stopped h, hsame, h,
      Move.afterStop]
  | turn =>
    simp only [step, turn_of_stopped h, receives?, hrunning, Bool.false_and, Move.afterStop]
    rfl

lemma run_of_stopped (h : x.engine = none) (site : Site) (moves : List Move) :
    run (x, site) moves = ((x, site), moves.map Move.afterStop) := by
  induction moves with
  | nil => rfl
  | cons m rest ih =>
    simp only [run, step_of_stopped h, ih]
    rfl

/-- **An executor amounts to its jobs done one after another.** Take any calls that were made
before it was stopped and any turns of its thread between them. Once it has stopped, it has
reported what `Engine.serve` reports of the jobs that it had taken, in the order in which it took
them and behind the scan that it begins with, and it gives back the engine with which that ends.
It received each of these jobs once, and no other: a batch that it handed back, as it does where
its queue is full, is not among them. From then on it takes and does nothing, and gives back no
engine. -/
theorem stop_serves {plan : Plan} (hcap : 0 < plan.capacity) (e : Engine) (site : Site)
    {moves : List Move} (hmoves : .stop ∉ moves) (later : List Move) :
    ∃ s s' e' outcomes last, run (start plan e, site) moves = (s, outcomes) ∧
      List.Forall₂ Move.Answered moves outcomes ∧
      (∀ batch, (step s (.offer batch)).2 = .handedBack batch ↔
        plan.capacity ≤ s.1.queue.length) ∧
      step s .stop = (s', .returned (some e') last) ∧
      Engine.serve plan (plan.opening ++ outcomes.flatMap Outcome.accepted) e site =
        ((e', s'.2), s'.1.verdicts) ∧
      s.1.verdicts <+: s'.1.verdicts ∧
      outcomes.flatMap Outcome.received ++ last = outcomes.flatMap Outcome.accepted ∧
      run s' later = (s', later.map Move.afterStop) := by
  obtain ⟨hamid, hanswers⟩ := (Amid.start plan e site).run hmoves
  rcases hrun : run (start plan e, site) moves with ⟨s, outcomes⟩
  rw [hrun, List.nil_append, List.nil_append] at hamid
  rw [hrun] at hanswers
  have hdrained := hamid.turns (2 * s.1.queue.length + 1)
  have hagenda := agenda_turns hamid.running s.1.left_le
  rcases hdrain : drain.turns (2 * s.1.queue.length + 1) s with ⟨x, site'⟩
  rw [hdrain] at hdrained hagenda
  obtain ⟨hreceived, e', he', hserve⟩ := hdrained.eq_serve hagenda
  have he : x.engine = some e' := he'
  refine ⟨s, ({ x with engine := none }, site'), e', outcomes, _, rfl, hanswers,
    hamid.handedBack_iff hcap, ?_, hserve, hamid.verdicts_prefix hserve, hreceived,
    run_of_stopped rfl site' later⟩
  simp only [step, stop, drain, hdrain, he]

def blankBatch (table : String) (key : UInt8) : Batch :=
  { changes := [Feed.putChange table [key] (.raw []) none] }

/-- Calls that come too fast for a queue of one job, and a batch that cannot be applied. -/
def hurried : List Move :=
  [.offer (blankBatch "v" 1), .offer (blankBatch "v" 2), .send .rescan, .turn, .turn,
    .offer (blankBatch "k" 1), .turn, .offer (blankBatch "v" 2)]

theorem stop_serves_hurried :
    let site := (Depot.ofTables [("k", .raw), ("v", .raw)]).site
    Move.stop ∉ hurried ∧
    ∃ s s' e' last, run (start { capacity := 1 } (.new .sizingKeys), site) hurried =
        (s, [.taken (.follow (blankBatch "v" 1)), .handedBack (blankBatch "v" 2), .waits,
          .turned none, .turned (some (.follow (blankBatch "v" 1))),
          .taken (.follow (blankBatch "k" 1)), .turned (some (.follow (blankBatch "k" 1))),
          .taken (.follow (blankBatch "v" 2))]) ∧
      step s .stop = (s', .returned (some e') last) ∧ last = [.follow (blankBatch "v" 2)] ∧
      Engine.serve { capacity := 1 }
          [.rescan, .follow (blankBatch "v" 1), .follow (blankBatch "k" 1),
            .follow (blankBatch "v" 2)] (.new .sizingKeys) site =
        ((e', s'.2), s'.1.verdicts) ∧
      s'.1.verdicts.map (·.success) = [true, true, false, true, true] ∧
      run s' [.stop] = (s', [.returned none []]) := by
  intro site
  have hcap : 0 < ({ capacity := 1 } : Plan).capacity := by decide
  have hmoves : Move.stop ∉ hurried := by decide
  obtain ⟨s, s', e', outcomes, last, hrun, -, -, hstop, hserve, -, -, hlater⟩ :=
    stop_serves hcap (.new .sizingKeys) site hmoves [.stop]
  have houtcomes : (run (start { capacity := 1 } (.new .sizingKeys), site) hurried).2 =
      [.taken (.follow (blankBatch "v" 1)), .handedBack (blankBatch "v" 2), .waits,
        .turned none, .turned (some (.follow (blankBatch "v" 1))),
        .taken (.follow (blankBatch "k" 1)), .turned (some (.follow (blankBatch "k" 1))),
        .taken (.follow (blankBatch "v" 2))] := by decide +kernel
  have hended : ((step (run (start { capacity := 1 } (.new .sizingKeys), site) hurried).1
        .stop).1.1.verdicts.map (·.success),
      (step (run (start { capacity := 1 } (.new .sizingKeys), site) hurried).1
        .stop).2.received) =
      ([true, true, false, true, true], [.follow (blankBatch "v" 2)]) := by decide +kernel
  rw [hrun] at houtcomes hended
  rw [hstop] at hended
  obtain rfl := houtcomes
  exact ⟨hmoves, s, s', e', last, hrun, hstop, (Prod.ext_iff.1 hended).2, hserve,
    (Prod.ext_iff.1 hended).1, hlater⟩

end Executor

end TableTotals
