import TableTotals.Proofs.Course
import TableTotals.Proofs.Depot
import TableTotals.Proofs.Misfit

/-!
An engine that is given batch after batch of what the feed recorded, and may be made to rescan
at any time.

Between the feed and the engine batches wait in the order in which they were taken. A run is a
list of moves: something happens to the depot, what was recorded is taken as a batch, the engine
is given the batch that has waited longest, or it rescans.

`Pipeline.Pursues` is the invariant, of one table. Whatever happens from outside keeps it; a batch
keeps it unless it stops before all is applied that bears on the table, and so does a rescan that
does not scan the table and finds its totals recorded (`Pipeline.pursues_step`). The main results
say when totals are what a fresh scan finds, once nothing is outstanding: always, if the engine
began on the store as it was (`Pipeline.replay_mirrors`), and after a rescan at any other time of
a table of which nothing was outstanding then (`Pipeline.rescan_mirrors`).
-/

namespace TableTotals

/-- A depot, its engine, and the batches that were taken and not yet given to it. -/
structure Pipeline where
  depot : Depot
  engine : Engine
  waiting : List Batch := []
  deriving DecidableEq

namespace Pipeline

inductive Move where
  | outside (happening : Happening)
  | take
  | follow
  | rescan

/-- The changes that were recorded and not yet given to the engine, the oldest first. -/
def outstanding (p : Pipeline) : List Change :=
  p.waiting.flatMap (·.changes) ++ p.depot.feed.pending

def attempt (p : Pipeline) (job : Job) : Pipeline :=
  let ((engine, site), _) := p.engine.attempt p.depot.site job
  { p with engine, depot := { p.depot with site } }

def call (p : Pipeline) (job : Job) : Call := p.engine.call p.depot.site job

/-- The pipeline after a move, and the call that the move made. -/
def step (p : Pipeline) : Move → Pipeline × Option Call
  | .outside happening => ({ p with depot := p.depot.after happening }, none)
  | .take =>
    let (feed, batch) := p.depot.feed.take
    ({ p with depot := { p.depot with feed }, waiting := p.waiting ++ [batch] }, none)
  | .follow =>
    match p.waiting with
    | [] => (p, none)
    | batch :: waiting =>
      ({ p.attempt (.follow batch) with waiting }, some (p.call (.follow batch)))
  | .rescan => (p.attempt .rescan, some (p.call .rescan))

def run (p : Pipeline) (moves : List Move) : Pipeline := Course.run step p moves

def calls (p : Pipeline) (moves : List Move) : List Call := Course.calls step p moves

/-- No tally is past the largest word, at the start of a run and after each of its moves. -/
def Bounded (p : Pipeline) (moves : List Move) : Prop :=
  p.depot.Bounded p.engine.settings ∧
    Course.Along step (fun p m => (p.step m).1.depot.Bounded p.engine.settings) p moves

instance (p : Pipeline) (moves : List Move) : Decidable (p.Bounded moves) :=
  inferInstanceAs (Decidable (_ ∧ _))

/-- A rescan would come as far as past a table, whether or not it breaks off behind it. -/
def Reaches (p : Pipeline) (name : String) : Prop :=
  Engine.Reaches p.engine.settings p.depot.store.names p.depot.site.source name

instance (p : Pipeline) (name : String) : Decidable (p.Reaches name) :=
  inferInstanceAs (Decidable (Engine.Reaches _ _ _ _))

/-- A move does no harm to the totals of a table. What a batch leaves over, if it stops, must not
bear on them. A rescan that takes up anything must break off before it has scanned the table, and
find its totals recorded. -/
def Spares (name : String) (p : Pipeline) : Move → Prop
  | .outside _ | .take => True
  | .follow => ∀ b ∈ p.waiting.head?, ∀ c ∈ b.leftOver p.engine.tables, c.table = name →
      ¬c.Effective (p.engine.settings.watchOf name)
  | .rescan => (p.call .rescan).loaded = true →
      ¬p.Reaches name ∧ p.engine.Recalls p.depot.site.vault name

instance (name : String) (p : Pipeline) (m : Move) : Decidable (p.Spares name m) := by
  cases m <;> unfold Spares <;> infer_instance

/-! ### Moves -/

variable {p : Pipeline} {name : String} {moves : List Move}

lemma attempt_eq (p : Pipeline) (job : Job) :
    p.engine.attempt p.depot.site job =
      (((p.attempt job).engine, (p.attempt job).depot.site), (p.call job).result) := rfl

lemma store_attempt (p : Pipeline) (job : Job) : (p.attempt job).depot.store = p.depot.store := by
  have hsource := (Engine.attempt_source (p.attempt_eq job)).1
  rw [Depot.store, Depot.store, hsource]

lemma settings_attempt (p : Pipeline) (job : Job) :
    (p.attempt job).engine.settings = p.engine.settings :=
  (Engine.attempt_source (p.attempt_eq job)).2

lemma settings_step (p : Pipeline) (m : Move) :
    (p.step m).1.engine.settings = p.engine.settings := by
  cases m with
  | outside x => rfl
  | take => rfl
  | rescan => exact p.settings_attempt .rescan
  | follow =>
    cases hw : p.waiting with
    | nil => simp only [step, hw]
    | cons batch waiting =>
      simp only [step, hw]
      exact p.settings_attempt (.follow batch)

lemma watches_attempt (h : p.engine.Watches p.depot.store) (job : Job) :
    (p.attempt job).engine.Watches p.depot.store := by
  have hsettings := p.settings_attempt job
  cases job with
  | follow b =>
    obtain ⟨hready, htables, -⟩ := Engine.follow_call h.ready (p.attempt_eq (.follow b))
    exact ⟨hready, by rw [htables, h.tables, hsettings]⟩
  | rescan =>
    rcases Engine.rescan_taken (p.attempt_eq .rescan) with ⟨-, he⟩ | ⟨-, hmixed⟩
    · rw [he]
      exact h
    · exact ⟨hmixed.ready, hmixed.tables⟩

lemma mem_names_step (p : Pipeline) (m : Move) (name : String) :
    name ∈ (p.step m).1.depot.store.names ↔ name ∈ p.depot.store.names := by
  cases m with
  | outside x => exact p.depot.mem_names_after x name
  | take => rfl
  | rescan => rw [← p.store_attempt .rescan]; rfl
  | follow =>
    cases hw : p.waiting with
    | nil => simp only [step, hw]
    | cons batch waiting =>
      rw [← p.store_attempt (.follow batch)]
      simp only [step, hw]

lemma watches_step (h : p.engine.Watches p.depot.store) (m : Move) :
    (p.step m).1.engine.Watches (p.step m).1.depot.store := by
  cases m with
  | outside x => exact h.after x
  | take => exact h
  | rescan =>
    have hstep := watches_attempt h .rescan
    rwa [← p.store_attempt .rescan] at hstep
  | follow =>
    cases hw : p.waiting with
    | nil =>
      simp only [step, hw]
      exact h
    | cons batch waiting =>
      have hstep := watches_attempt h (.follow batch)
      rw [← p.store_attempt (.follow batch)] at hstep
      simp only [step, hw]
      exact hstep

/-- **The invariant of one table.** Past all changes that are outstanding, its totals are its
tallies. -/
def Pursues (p : Pipeline) (name : String) : Prop :=
  p.engine.Pursues name p.outstanding p.depot.store

/-- A batch takes those of its changes from what is still to come that bear on the table. -/
lemma pursues_follow {b : Batch} {late : List Change}
    (h : p.engine.Pursues name (b.changes ++ late) p.depot.store)
    (hleft : ∀ c ∈ b.leftOver p.engine.tables, c.table = name →
      ¬c.Effective (p.engine.settings.watchOf name)) :
    (p.attempt (.follow b)).engine.Pursues name late p.depot.store := by
  obtain ⟨totals, happly, hengine⟩ := Engine.follow_processed h.ready p.depot.site.vault b
  have hattempt : (p.attempt (.follow b)).engine = { p.engine with totals } := hengine
  rw [← b.processed_append_leftOver p.engine.tables, List.append_assoc] at h
  rw [hattempt]
  exact h.moved ⟨h.ready, h.tables⟩ rfl happly hleft

/-- A rescan that took up again what the table had changes nothing for it. -/
lemma pursues_rescan {late : List Change} (h : p.engine.Pursues name late p.depot.store)
    (hspares : p.Spares name .rescan) :
    (p.attempt .rescan).engine.Pursues name late p.depot.store := by
  have hwatches := p.watches_attempt h.toWatches .rescan
  have hsettings := p.settings_attempt .rescan
  obtain ⟨tbl, htbl, hpursues⟩ := h.pursued
  refine ⟨hwatches, tbl, htbl, ?_⟩
  rw [hsettings]
  refine hpursues.congr fun m hm => ?_
  rcases Engine.rescan_taken (p.attempt_eq .rescan) with ⟨-, he⟩ | ⟨hloaded, hmixed⟩
  · rw [he]
  · obtain ⟨hreaches, hrecalls⟩ := hspares hloaded
    have hname : name ∈ p.depot.store.names := Metadata.mem_names.2 (by rw [htbl]; rfl)
    have hcovers : p.engine.settings.Covers p.depot.store.names m name := ⟨hm, fun _ => hname⟩
    have hvalue := hmixed.recalled m name
    rw [hsettings] at hvalue
    rw [hrecalls m m.mem_all hm, hvalue fun hyes => absurd hyes hreaches]
    exact if_pos hcovers

/-- **One move keeps the invariant**, if it spares the table. -/
theorem pursues_step (h : p.Pursues name) {m : Move} (hspares : p.Spares name m)
    (hb : (p.step m).1.depot.Bounded p.engine.settings) : (p.step m).1.Pursues name := by
  cases m with
  | outside x => exact h.after x hb
  | take =>
    have hlate : (p.step .take).1.outstanding = p.outstanding := by
      simp [step, outstanding, Feed.take]
    rw [Pursues, hlate]
    exact h
  | rescan =>
    have hstep := pursues_rescan h hspares
    rw [← p.store_attempt .rescan] at hstep
    exact hstep
  | follow =>
    cases hw : p.waiting with
    | nil =>
      have hstay : p.step .follow = (p, none) := by simp only [step, hw]
      rw [hstay]
      exact h
    | cons batch waiting =>
      have hlate : p.outstanding =
          batch.changes ++ (waiting.flatMap (·.changes) ++ p.depot.feed.pending) := by
        rw [outstanding, hw, List.flatMap_cons, List.append_assoc]
      rw [Pursues, hlate] at h
      have hstep := pursues_follow h (hspares batch (by rw [hw]; rfl))
      rw [← p.store_attempt (.follow batch)] at hstep
      simp only [Pursues, step, hw]
      exact hstep

/-! ### Runs -/

lemma settings_run (p : Pipeline) (moves : List Move) :
    (p.run moves).engine.settings = p.engine.settings :=
  Course.Along.run_keeps (I := fun q : Pipeline => q.engine.settings = p.engine.settings)
    (fun q m hq => (q.settings_step m).trans hq) rfl

lemma bounded_run (hb : p.Bounded moves) :
    (p.run moves).depot.Bounded (p.run moves).engine.settings :=
  Course.Along.keeps (I := fun q : Pipeline => q.depot.Bounded q.engine.settings)
    (fun q m hq _ => by
      rw [q.settings_step m]
      exact hq) hb.2 hb.1

lemma pursues_run (h : p.Pursues name) (hb : p.Bounded moves)
    (hspares : Course.Along step (Spares name) p moves) : (p.run moves).Pursues name :=
  Course.Along.keeps (I := fun q : Pipeline => q.Pursues name)
    (fun _ _ hq hpursues => pursues_step hpursues hq.1 hq.2) (hspares.and hb.2) h

lemma Pursues.mirrors (h : p.Pursues name) (hnone : p.outstanding = [])
    (hb : p.depot.Bounded p.engine.settings) :
    p.engine.totals.Mirrors p.depot.store name (p.engine.settings.watchOf name) := by
  rw [Pursues, hnone] at h
  exact Engine.Pursues.mirrors h hb

/-! ### Following from the start -/

end Pipeline

/-- An engine that has just begun on a store: it has rescanned it, or it was loaded from a vault
without records while the tables were empty. -/
inductive Engine.Begun (e : Engine) (s : Metadata) : Prop
  | rescanned {before : Engine} {source snapshot : Source} {v v' : Vault} {store : Metadata}
      (hsource : source.store = s) (hsnapshot : snapshot.store = s)
      (h : before.rescan source snapshot v = ((e, store, v'), .ok ()))
  | loaded {before : Engine} {source : Source} {v : Vault} (hsource : source.store = s)
      (hempty : ∀ name t, s.tables.get? name = some t → t.cells = ∅)
      (hblank : v.ledger.readings = ∅) (h : before.load source v = (e, .ok ()))

lemma Table.agrees_of_empty {w : Watch} {tbl : Table} {value : Measure → Option Int64}
    (hempty : tbl.cells = ∅) (h : ∀ m, w.Keeps m → value m = some 0) : tbl.Agrees w value := by
  constructor
  case sound =>
    intro p hp
    simp [hempty] at hp
  case exact =>
    intro m hm
    refine ⟨0, h m hm, ?_⟩
    rw [Table.tally, hempty, SortedMap.sum_empty]
    rfl

lemma Engine.Begun.pursues {e : Engine} {s : Metadata} (h : e.Begun s)
    (hb : s.Bounded (e.settings.assign s.names)) :
    e.Watches s ∧ ∀ name ∈ s.names, e.Pursues name [] s := by
  cases h with
  | rescanned hsource hsnapshot h =>
    obtain ⟨-, hseeded, -⟩ := rescan_eq_ok h
    subst hsnapshot
    rw [hsource] at hseeded
    have hfollows := hseeded.follows hb
    exact ⟨hfollows.toWatches, hfollows.pursues⟩
  | loaded hsource hempty hblank h =>
    obtain ⟨-, hr | hr⟩ | ⟨-, -, hloaded, -⟩ := load_cases h
    · cases hr
    · cases hr
    rw [hsource] at hloaded
    have hwatches : e.Watches s := ⟨hloaded.ready, hloaded.tables⟩
    refine ⟨hwatches, fun name hname => ?_⟩
    obtain ⟨tbl, htbl⟩ := Option.isSome_iff_exists.1 (Metadata.mem_names.1 hname)
    refine ⟨hwatches, tbl, htbl, Totals.pursues_of_agrees ?_ (by simp)⟩
    refine Table.agrees_of_empty (hempty name tbl htbl) fun m hm => ?_
    rw [hloaded.recalled, if_pos ⟨hm, fun _ => hname⟩, Vault.recorded, hblank]
    rfl

namespace Pipeline

variable {p : Pipeline} {name : String} {moves : List Move}

/-- A move that is no rescan, and whose call succeeds if it makes one, spares every table. -/
lemma spares_of_ok (h : p.engine.Watches p.depot.store) {m : Move} (hm : m ≠ .rescan)
    (hok : ∀ c ∈ (p.step m).2, c.result = .ok ()) (name : String) : p.Spares name m := by
  cases m with
  | outside x => trivial
  | take => trivial
  | rescan => exact absurd rfl hm
  | follow =>
    intro b hb
    obtain ⟨waiting, hw⟩ := List.head?_eq_some_iff.1 hb
    have hresult : (p.engine.follow p.depot.site.vault b).2 = .ok () :=
      hok (p.call (.follow b)) (by simp [step, hw])
    rw [Engine.leftOver_eq_nil h.ready hresult]
    exact nofun

/-- **Replay agrees with scan.** An engine that began on a store as it was, and was then given
every batch of what the feed recorded, in order and each with success, watches all tables and
has the totals that a scan finds as soon as nothing is outstanding, whatever was put and deleted
and wherever the batches were cut. -/
theorem replay_mirrors (hbegun : p.engine.Begun p.depot.store) (hnone : p.outstanding = [])
    (hmoves : Move.rescan ∉ moves) (hcalls : ∀ c ∈ p.calls moves, c.result = .ok ())
    (hb : p.Bounded moves) (hend : (p.run moves).outstanding = []) :
    (p.run moves).engine.tables =
        p.engine.settings.assign (p.run moves).depot.store.names ∧
      ∀ name ∈ (p.run moves).depot.store.names, (p.run moves).engine.totals.Mirrors
        (p.run moves).depot.store name (p.engine.settings.watchOf name) := by
  obtain ⟨hwatches, hpursues⟩ := hbegun.pursues hb.1
  have hmoves' : ∀ m ∈ moves, m ≠ .rescan := fun m hm hrescan => hmoves (hrescan ▸ hm)
  have hnever : Course.Along step (fun _ m => m ≠ .rescan) p moves := .of_moves hmoves'
  have hboth := hnever.and ((Course.Along.of_calls hcalls).and hb.2)
  have hrun : (p.run moves).engine.Watches (p.run moves).depot.store ∧
      ∀ name ∈ (p.run moves).depot.store.names, (p.run moves).Pursues name := by
    refine Course.Along.keeps (I := fun q : Pipeline => q.engine.Watches q.depot.store ∧
      ∀ name ∈ q.depot.store.names, q.Pursues name) ?_ hboth ⟨hwatches, ?_⟩
    · rintro q m ⟨hm, hok, hbounded⟩ ⟨hq, hall⟩
      refine ⟨watches_step hq m, fun name hname => ?_⟩
      exact pursues_step (hall name ((q.mem_names_step m name).1 hname))
        (spares_of_ok hq hm hok name) hbounded
    · intro name hname
      rw [Pursues, hnone]
      exact hpursues name hname
  rw [← p.settings_run moves]
  exact ⟨hrun.1.tables, fun name hname => (hrun.2 name hname).mirrors hend (bounded_run hb)⟩

lemma begun_attempt (h : (p.call .rescan).result = .ok ()) :
    (p.attempt .rescan).engine.Begun (p.attempt .rescan).depot.store := by
  have hrescan := (Engine.rescanAt_eq (p.attempt_eq .rescan)).1
  rw [h] at hrescan
  exact .rescanned (p.store_attempt .rescan).symm (p.store_attempt .rescan).symm hrescan

def onTables (tables : List (String × Shape)) : Pipeline where
  depot := .ofTables tables
  engine := .new .sizingKeys

/-- A key is put, written over and joined by another, while other writes are refused and a
deletion finds nothing. -/
def assorted : List Move :=
  [.outside (.putKey "k" 1 100), .outside (.putBlank "k" 2), .take, .outside (.putKey "k" 1 40),
    .outside (.putBlank "x" 1), .follow, .outside (.delete "k" [3]), .outside (.putKey "k" 4 5),
    .take, .outside (.putBlank "v" 1), .take, .follow, .follow]

theorem replay_mirrors_assorted :
    let p := (onTables [("k", .key), ("v", .raw)]).attempt .rescan
    (p.run assorted).engine.totals.extent? "k" = some ⟨45, 135⟩ ∧
      ∀ name ∈ (p.run assorted).depot.store.names, (p.run assorted).engine.totals.Mirrors
        (p.run assorted).depot.store name (p.engine.settings.watchOf name) := by
  intro p
  refine ⟨by decide +kernel, (replay_mirrors ?_ ?_ ?_ ?_ ?_ ?_).2⟩
  · exact begun_attempt (by decide +kernel)
  · decide +kernel
  · simp [assorted]
  · decide +kernel
  · decide +kernel
  · decide +kernel

/-- A rescan sets the totals of a table right. It takes up its tables; and either it comes as far as
past this one while nothing is outstanding that bears on it, or what it leaves are totals that the
changes of the table which are outstanding would make those that a scan finds. -/
def Rights (p : Pipeline) (name : String) : Prop :=
  (p.call .rescan).loaded = true ∧
    ((p.Reaches name ∧ ∀ c ∈ p.outstanding, c.table = name →
        ¬c.Effective (p.engine.settings.watchOf name)) ∨
      ∃ t, (p.attempt .rescan).engine.totals.applyAll (p.attempt .rescan).engine.tables
          (p.outstanding.filter fun c => c.table = name) = (t, .ok ()) ∧
        t.Mirrors p.depot.store name (p.engine.settings.watchOf name))

lemma Rights.pursues (h : p.Rights name) (hb : p.depot.Bounded p.engine.settings) :
    (p.attempt .rescan).Pursues name := by
  obtain ⟨hloaded, hright⟩ := h
  have hsettings := p.settings_attempt .rescan
  have hmixed : (p.attempt .rescan).engine.Mixed p.depot.store.names p.depot.site.source
      p.depot.site.vault := by
    rcases Engine.rescan_taken (p.attempt_eq .rescan) with ⟨hno, -⟩ | ⟨-, hmixed⟩
    · exact absurd hloaded (by rw [call, hno]; decide)
    · exact hmixed
  have hwatches : (p.attempt .rescan).engine.Watches p.depot.store :=
    ⟨hmixed.ready, hmixed.tables⟩
  suffices hpursues : ∃ tbl, p.depot.store.tables.get? name = some tbl ∧
      (p.attempt .rescan).engine.totals.Pursues name (p.engine.settings.watchOf name)
        p.outstanding tbl by
    rw [Pursues, p.store_attempt .rescan]
    rw [← hsettings] at hpursues
    exact ⟨hwatches, hpursues⟩
  rcases hright with ⟨hreaches, hquiet⟩ | ⟨t, happly, hmirrors⟩
  · rw [Reaches, ← hsettings] at hreaches
    obtain ⟨tbl, htbl⟩ :=
      Option.isSome_iff_exists.1 (Metadata.mem_names.1 (hmixed.scanned name hreaches).1)
    have hagrees := hmixed.agrees hreaches htbl (by rw [hsettings]; exact hb.tally_le htbl)
    rw [hsettings] at hagrees
    exact ⟨tbl, htbl, Totals.pursues_of_agrees hagrees hquiet⟩
  · have ⟨tbl, _, htbl, _⟩ := hmirrors
    have hw : (p.attempt .rescan).engine.tables.get? name =
        some (p.engine.settings.watchOf name) := by
      rw [hwatches.tables, hsettings, Settings.get?_assign_eq_some, Metadata.mem_names, htbl]
      exact ⟨rfl, rfl⟩
    exact ⟨tbl, htbl,
      Totals.pursues_of_applied happly hw (hmirrors.agrees htbl (hb.tally_le htbl))⟩

/-- **A rescan amid the feed** is taken up by what follows it. If it sets the totals of a table
right, and every later move spares them, they are what a scan finds once nothing is outstanding
any more. -/
theorem rescan_mirrors {start : Pipeline} {earlier later : List Move} {name : String}
    (hright : (start.run earlier).Rights name)
    (hspares : Course.Along step (Spares name) ((start.run earlier).attempt .rescan) later)
    (hb : ((start.run earlier).attempt .rescan).Bounded later)
    (hend : (start.run (earlier ++ .rescan :: later)).outstanding = []) :
    (start.run (earlier ++ .rescan :: later)).engine.totals.Mirrors
      (start.run (earlier ++ .rescan :: later)).depot.store name
      (start.engine.settings.watchOf name) := by
  have hsplit : start.run (earlier ++ .rescan :: later) =
      ((start.run earlier).attempt .rescan).run later := Course.run_append
  rw [hsplit] at hend ⊢
  rw [← start.settings_run earlier]
  generalize start.run earlier = p at *
  have hbounded : p.depot.Bounded p.engine.settings := by
    have hhead := hb.1
    rwa [Depot.Bounded, p.store_attempt .rescan, p.settings_attempt .rescan] at hhead
  have hrun := pursues_run (hright.pursues hbounded) hb hspares
  rw [← p.settings_attempt .rescan, ← (p.attempt .rescan).settings_run later]
  exact hrun.mirrors hend (bounded_run hb)

/-- The last call succeeds and nothing is outstanding, but the totals of a table are not what a
scan finds. -/
def Drifts (p : Pipeline) (moves : List Move) (name : String) : Prop :=
  (p.calls moves).getLast?.map (·.result) = some (.ok ()) ∧ (p.run moves).outstanding = [] ∧
    p.Bounded moves ∧ name ∈ (p.run moves).depot.store.names ∧
    ¬(p.run moves).engine.totals.Mirrors (p.run moves).depot.store name
      (p.engine.settings.watchOf name)

lemma drifts_of_count {name : String} (found : Summary)
    (h : (p.calls moves).getLast?.map (·.result) = some (.ok ()) ∧
      (p.run moves).outstanding = [] ∧ p.Bounded moves ∧
      name ∈ (p.run moves).depot.store.names ∧
      (Source.scan ⟨(p.run moves).depot.store, {}⟩ (p.engine.settings.watchOf name) name).2 =
        .ok found ∧
      (p.run moves).engine.totals.count? name ≠ some found.count) : p.Drifts moves name := by
  obtain ⟨hlast, hend, hb, hname, hscan, hcount⟩ := h
  refine ⟨hlast, hend, hb, hname, ?_⟩
  rintro ⟨tbl, found', -, hscan', -, hcount', -⟩
  rw [hscan] at hscan'
  cases hscan'
  exact hcount hcount'

/-- A rescan sees an entry that the next batch tells of. -/
def seenTwice : List Move := [.rescan, .outside (.putBlank "v" 1), .rescan, .take, .follow]

/-- A batch stops at an entry without a size, and what it tells of another table is lost. -/
def lost : List Move :=
  [.rescan, .outside (.putBlank "k" 1), .outside (.putBlank "v" 1), .take, .follow,
    .outside (.putBlank "v" 2), .take, .follow]

/-- A rescan takes up what was recorded before the last batch was refused, and breaks off. -/
def outdated : List Move :=
  [.rescan, .outside (.faults true false []), .outside (.putBlank "v" 1), .take, .follow,
    .outside (.faults false false [("v", 0)]), .rescan, .outside (.faults false false []),
    .outside (.putBlank "v" 2), .take, .follow]

/-- Rescans amid the feed, batches that stop amid their changes and rescans that break off let a
change count twice or not at all. -/
theorem drifts_amid_feed :
    (onTables [("v", .raw)]).Drifts seenTwice "v" ∧
      (onTables [("k", .raw), ("v", .raw)]).Drifts lost "v" ∧
      (onTables [("v", .raw)]).Drifts outdated "v" := by
  refine ⟨drifts_of_count ⟨1, .zero⟩ ?_,
    drifts_of_count ⟨2, .zero⟩ ?_,
    drifts_of_count ⟨2, .zero⟩ ?_⟩
  · decide +kernel
  · decide +kernel
  · decide +kernel

/-- What sets a table right that has drifted: a rescan while a change of another table is
outstanding. A rescan that breaks off does no harm as long as what is recorded is up to date, nor
does a batch that stops at another table. -/
def settled : List Move :=
  [.take, .follow, .outside (.faults false false [("v", 0)]), .rescan,
    .outside (.faults false false []), .outside (.putBlank "v" 3), .outside (.putBlank "k" 1),
    .take, .follow]

theorem rescan_mirrors_outdated :
    let p := onTables [("k", .raw), ("v", .raw), ("x", .raw)]
    let earlier := outdated ++ [.outside (.putBlank "x" 1)]
    let q := p.run (earlier ++ .rescan :: settled)
    q.engine.totals.count? "x" = some 2 ∧
      (q.engine.totals.count? "v" = some 3 ∧
        q.engine.totals.Mirrors q.depot.store "v" (p.engine.settings.watchOf "v")) := by
  refine ⟨by decide +kernel, by decide +kernel, rescan_mirrors ?_ ?_ ?_ ?_⟩
  · exact ⟨by decide +kernel, .inl (by decide +kernel)⟩
  · decide +kernel
  · decide +kernel
  · decide +kernel

end Pipeline

end TableTotals
