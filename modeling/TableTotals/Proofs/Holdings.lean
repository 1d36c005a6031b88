import TableTotals.Proofs.Range
import TableTotals.Proofs.Standing

/-!
What an engine holds, and that it outlives the engine.

What an engine holds is settled by the last call that took up tables (`Engine.Holds`): it watches
the tables that there were then, and has one total for each measure that its settings ask for,
none of them negative. Changes, scans and failures move totals, but they neither make nor drop
one (`Engine.holds_carry`). Persisting writes the totals out, under keys of which no two are the
same unless a sized table is named like another one with `Un` behind. So an engine that takes up
the same tables from what was persisted holds what the engine held that persisted it.
-/

namespace TableTotals

namespace Vault

/-- The vault after its ledger was closed and opened anew, at some moment. -/
def reopened (v : Vault) (now : Moment) : Vault := { ledger := v.ledger, clock := now }

lemma readings_reopened (v : Vault) (now : Moment) :
    (v.reopened now).ledger.readings = v.ledger.readings := rfl

end Vault

lemma Settings.ascending_sizedTables (s : Settings) :
    s.sizedTables.Pairwise (compare · · = .lt) :=
  List.pairwise_map.2 (s.watches.ascending.filter _)

namespace Engine

/-- The names of the tables that a call takes up, if it comes as far as that. -/
def Errand.taken? (settings : Settings) : Errand → Option (List String)
  | .load source v | .rescan source _ v =>
    if (recorded settings source v).isOk then some source.store.names else none
  | .follow .. | .persist _ => none

def lastTaken? (settings : Settings) (errands : List Errand) : Option (List String) :=
  errands.reverse.findSome? (Errand.taken? settings)

/-- **The invariant.** Nothing is held before tables were taken up. Afterwards the engine watches
those tables for what its settings say, and it has the totals that they ask for. -/
def Holds (e : Engine) : Option (List String) → Prop
  | none => e.ready = false ∧ e.tables = ∅ ∧ e.totals = ∅
  | some names =>
    e.ready = true ∧ e.tables = e.settings.assign names ∧ e.totals.Proper e.settings names

variable {e e₂ : Engine} {held : Option (List String)} {v v' v₂ : Vault}

lemma holds_new (settings : Settings) : (new settings).Holds none := ⟨rfl, rfl, rfl⟩

/-! ### What a call leaves -/

lemma Loaded.holds {names : List String} (h : e.Loaded names v) : e.Holds (some names) :=
  ⟨h.ready, h.tables, h.proper⟩

lemma Mixed.holds {names : List String} {snapshot : Source} (h : e.Mixed names snapshot v) :
    e.Holds (some names) := by
  refine ⟨h.ready, h.tables, fun m name => ?_, fun m name x hx => ?_⟩
  · rcases h.cases m name with hrecall | ⟨hname, hkeeps, s, -, hvalue⟩
    · rw [hrecall]
      split
      next hcovers => exact ⟨fun _ => hcovers, fun _ => rfl⟩
      next hcovers => exact ⟨nofun, fun hyes => absurd hyes hcovers⟩
    · rw [hvalue]
      exact ⟨fun _ => ⟨hkeeps, fun _ => hname⟩, fun _ => rfl⟩
  · exact (h.inRange m name x hx).1

lemma load_eq (e : Engine) (source : Source) (v : Vault) :
    ((recorded e.settings source v).isOk = false ∧
      ∃ failure, e.load source v = (e, .error failure)) ∨
    ((recorded e.settings source v).isOk = true ∧
      ∃ e₁, e.load source v = (e₁, .ok ()) ∧ e₁.settings = e.settings ∧
        e₁.Loaded source.store.names v) := by
  rcases hload : e.load source v with ⟨e₁, r⟩
  have hresult : r.isOk = (recorded e.settings source v).isOk := by
    unfold load at hload
    split at hload <;>
    · cases hload
      simp [*, Except.isOk, Except.toBool]
  rw [← hresult]
  rcases load_cases hload with ⟨rfl, rfl | rfl⟩ | ⟨rfl, hsettings, hloaded, -⟩
  · exact .inl ⟨rfl, _, rfl⟩
  · exact .inl ⟨rfl, _, rfl⟩
  · exact .inr ⟨rfl, e₁, rfl, hsettings, hloaded⟩

lemma holds_load {source : Source} (h : e.Holds held) :
    (e.load source v).1.Holds (((Errand.load source v).taken? e.settings).or held) := by
  rcases load_eq e source v with ⟨hno, failure, hload⟩ | ⟨hyes, e₁, hload, -, hloaded⟩
  · simpa [Errand.taken?, hno, hload] using h
  · simpa [Errand.taken?, hyes, hload] using hloaded.holds

/-- Where tables were taken up, they are held wherever the scans break off. -/
lemma holds_rescan {source snapshot : Source} (h : e.Holds held) :
    (e.rescan source snapshot v).1.1.Holds
      (((Errand.rescan source snapshot v).taken? e.settings).or held) := by
  rcases load_eq e source v with ⟨hno, failure, hload⟩ | ⟨hyes, e₁, hload, -, hloaded⟩
  · simpa [Errand.taken?, hno, rescan, hload] using h
  · have htaken : ((Errand.rescan source snapshot v).taken? e.settings).or held =
        some source.store.names := by simp [Errand.taken?, hyes]
    rw [htaken]
    rcases hscan : e₁.totals.scanAll snapshot.outages e₁.tables.entries snapshot.store with
      ⟨⟨totals, store⟩, r⟩
    have hmixed := hloaded.mixed hscan
    cases r with
    | error failure => simpa [rescan, hload, hscan] using hmixed.holds
    | ok => simpa [rescan, hload, hscan] using hmixed.holds

lemma holds_follow {b : Batch} (h : e.Holds held) : (e.follow v b).1.1.Holds held := by
  cases held with
  | none =>
    have hready : e.ready = false := h.1
    simp only [follow, hready, Bool.not_false, if_true]
    exact h
  | some names =>
    obtain ⟨hready, htables, hproper⟩ := h
    rcases happly : e.totals.applyAll e.tables b.changes with ⟨totals, r⟩
    have hmoved : totals.Proper e.settings names := by
      rw [htables] at happly
      exact hproper.applyAll happly
    simp only [follow, hready, Bool.not_true, Bool.false_eq_true, if_false, happly]
    cases r with
    | error failure => exact ⟨rfl, htables, hmoved⟩
    | ok => exact ⟨rfl, htables, hmoved⟩

/-- **One call keeps what is held**, or it takes up tables anew. -/
lemma holds_carry (h : e.Holds held) (x : Errand) :
    (e.carry x).1.1.Holds ((x.taken? e.settings).or held) := by
  cases x with
  | load source v => exact holds_load h
  | follow v b => exact holds_follow h
  | rescan source snapshot v => exact holds_rescan h
  | persist v => exact h

lemma settings_carry (e : Engine) (x : Errand) : (e.carry x).1.1.settings = e.settings := by
  cases x with
  | load source v =>
    rcases load_eq e source v with ⟨-, failure, hload⟩ | ⟨-, e₁, hload, hsettings, -⟩
    · simp [carry, hload]
    · simpa [carry, hload] using hsettings
  | follow v b =>
    simp only [carry, follow]
    split
    · rfl
    · split <;> rfl
  | rescan source snapshot v => exact (rescan_cases (e := e) rfl).2.1
  | persist v => rfl

lemma lastTaken?_cons (settings : Settings) (x : Errand) (rest : List Errand) :
    lastTaken? settings (x :: rest) = (lastTaken? settings rest).or (x.taken? settings) := by
  simp [lastTaken?, List.findSome?_append]

lemma holds_afterAll (h : e.Holds held) (errands : List Errand) :
    (e.afterAll errands).settings = e.settings ∧
      (e.afterAll errands).Holds ((lastTaken? e.settings errands).or held) := by
  induction errands generalizing e held with
  | nil => exact ⟨rfl, h⟩
  | cons x rest ih =>
    obtain ⟨hsettings, hholds⟩ := ih (holds_carry h x)
    rw [settings_carry] at hsettings hholds
    refine ⟨hsettings, ?_⟩
    rw [lastTaken?_cons, Option.or_assoc]
    exact hholds

/-! ### Which totals there are -/

/-- Some engine watches the same tables as another, and has totals of the same tables for each
measure, though they may be other totals. -/
structure SameColumns (e e' : Engine) : Prop where
  tables : e'.tables = e.tables
  keys : ∀ m, (e'.totals.column m).keys = (e.totals.column m).keys

/-- What is held settles which totals there are, to the order in which they stand. -/
lemma Holds.keys {names : List String} (h : e.Holds (some names)) (m : Measure) :
    (e.totals.column m).keys = if m = .count then e.tables.keys else e.settings.sizedTables := by
  obtain ⟨-, htables, hproper⟩ := h
  have hmem : ∀ name, name ∈ (e.totals.column m).keys ↔ e.settings.Covers names m name := by
    intro name
    rw [SortedMap.mem_keys]
    exact hproper.covered m name
  split
  next hm =>
    subst hm
    refine SortedMap.eq_of_ascending (SortedMap.ascending_keys _) (SortedMap.ascending_keys _) ?_
    intro name
    rw [hmem, Settings.covers_count, htables, Settings.mem_keys_assign]
  next hm =>
    have hsized := e.settings.ascending_sizedTables
    refine SortedMap.eq_of_ascending (SortedMap.ascending_keys _) hsized fun name => ?_
    rw [hmem, Settings.covers_size hm]

lemma Holds.sameColumns {e' : Engine} (h : e.Holds held) (h' : e'.Holds held)
    (hsettings : e'.settings = e.settings) : e.SameColumns e' := by
  cases held with
  | none =>
    obtain ⟨-, htables, htotals⟩ := h
    obtain ⟨-, htables', htotals'⟩ := h'
    exact ⟨htables'.trans htables.symm, fun m => by rw [htotals', htotals]⟩
  | some names =>
    have htables : e'.tables = e.tables := by rw [h'.2.1, h.2.1, hsettings]
    refine ⟨htables, fun m => ?_⟩
    rw [h'.keys, h.keys, htables, hsettings]

/-- **Which totals there are is settled by the last load.** Let an engine go through any calls,
each of which finds sources and a vault of its own and may break off anywhere. Before tables were
taken up it watches none and has no total. Afterwards it watches the tables that were there when
they were taken up last, each for what the settings say; it has a count of just these tables, and
sizes of just the tables whose sizes the settings ask for, whether or not there are such tables.
A batch neither makes nor drops a total however it ends, nor does a rescan after its load, and a
load that fails changes nothing at all. -/
theorem totals_settled_by_load (settings : Settings) (errands : List Errand) :
    let e := (new settings).afterAll errands
    (lastTaken? settings errands = none →
      e.ready = false ∧ e.tables = ∅ ∧ ∀ m, e.totals.column m = ∅) ∧
    (∀ names, lastTaken? settings errands = some names →
      e.ready = true ∧
      (∀ name, e.tables.get? name =
        if name ∈ names then some (settings.watchOf name) else none) ∧
      (e.totals.column .count).keys = e.tables.keys ∧
      ∀ m, m ≠ .count → (e.totals.column m).keys = settings.sizedTables) ∧
    (∀ v b, e.SameColumns (e.follow v b).1.1) ∧
    (∀ source snapshot v, (e.load source v).1.SameColumns (e.rescan source snapshot v).1.1) ∧
    ∀ source v failure, (e.load source v).2 = .error failure → (e.load source v).1 = e := by
  intro e
  obtain ⟨hsettings, hholds⟩ := holds_afterAll (holds_new settings) errands
  change e.settings = settings at hsettings
  change e.Holds ((lastTaken? settings errands).or none) at hholds
  rw [Option.or_none] at hholds
  refine ⟨fun hnone => ?_, fun names hnames => ?_, fun v b => ?_, fun source snapshot v => ?_, ?_⟩
  · rw [hnone] at hholds
    obtain ⟨hready, htables, htotals⟩ := hholds
    refine ⟨hready, htables, fun m => ?_⟩
    rw [htotals]
    cases m <;> rfl
  · rw [hnames] at hholds
    refine ⟨hholds.1, fun name => ?_, ?_, fun m hm => ?_⟩
    · rw [hholds.2.1, hsettings, Settings.get?_assign]
    · rw [hholds.keys, if_pos rfl]
    · rw [hholds.keys, if_neg hm, hsettings]
  · exact hholds.sameColumns (holds_follow hholds) (settings_carry e (.follow v b))
  · -- a load and a rescan take up the same tables, if they take up any
    have hload : (e.load source v).1.Holds
        (((Errand.load source v).taken? e.settings).or _) := holds_load hholds
    have hrescan : (e.rescan source snapshot v).1.1.Holds
        (((Errand.rescan source snapshot v).taken? e.settings).or _) := holds_rescan hholds
    refine hload.sameColumns hrescan ?_
    exact (settings_carry e (.rescan source snapshot v)).trans
      (settings_carry e (.load source v)).symm
  · intro source v failure hfails
    rcases load_eq e source v with ⟨-, failure', hload⟩ | ⟨-, e₁, hload, -⟩
    · rw [hload]
    · rw [hload] at hfails
      cases hfails

def keysAndRaw : Metadata :=
  ((((∅ : Metadata).create "k" .key).create "c" .raw).put "c" [1] (.raw [])).1

def blank : Vault := { ledger := { backend := .memory }, clock := 1 }

/-- A rescan that breaks off behind the first table, and a batch that does at its third change. -/
def interrupted : List Errand :=
  [.rescan { store := keysAndRaw } { store := keysAndRaw, outages.scans := .ofList [("k", 0)] }
      blank,
    .follow blank { changes := [⟨"k", .put, [1], some (.key (.sample "" (.copies 3) [7])), none⟩,
      ⟨"c", .put, [2], some (.raw []), none⟩, ⟨"k", .put, [2], some (.raw []), none⟩] }]

/-- Of the tables that there are one is set to be sized and one to be counted, and a table that is
not there is set to be sized. -/
theorem totals_settled_by_load_interrupted :
    let settings := (Settings.sizingKeys.watching "c" .counted).watching "x" (.sized .deletedKeys)
    let e := (new settings).afterAll interrupted
    lastTaken? settings interrupted = some keysAndRaw.names ∧
      e.tables.keys = ["c", "k"] ∧ (e.totals.column .count).keys = e.tables.keys ∧
      settings.sizedTables = ["k", "x"] ∧
      (e.totals.column .replicated).keys = settings.sizedTables := by
  intro settings e
  have htaken : lastTaken? settings interrupted = some keysAndRaw.names := by decide +kernel
  obtain ⟨-, hsettled, -⟩ := totals_settled_by_load settings interrupted
  obtain ⟨-, -, hcounts, hsizes⟩ := hsettled keysAndRaw.names htaken
  exact ⟨htaken, by decide +kernel, hcounts, by decide +kernel, hsizes .replicated (by decide)⟩

/-! ### Restarting -/

/-- **Totals survive a restart.** Let an engine go through any calls, each of which finds sources
and a vault of its own and may break off anywhere, and persist its totals in the end. If the
tables are those that it took up last, a new engine with these settings that takes up tables and
the records that were left is that engine again, in its tables and in every total. It may find
them in a vault that was opened anew, at another moment. -/
theorem load_restores {settings : Settings} {errands : List Errand} {names : List String}
    {source : Source} (hclash : settings.Unshadowed)
    (htaken : lastTaken? settings errands = some names)
    (hpersist : ((new settings).afterAll errands).persist v = (v', .ok ()))
    (hnames : ∀ name, name ∈ source.store.names ↔ name ∈ names)
    (hrecords : v₂.ledger.readings = v'.ledger.readings)
    (hload : (new settings).load source v₂ = (e₂, .ok ())) :
    e₂ = (new settings).afterAll errands := by
  obtain ⟨hsettings, hholds⟩ := holds_afterAll (holds_new settings) errands
  generalize (new settings).afterAll errands = e at *
  have hsame : e.settings = settings := hsettings
  have htaken' : lastTaken? (new settings).settings errands = some names := htaken
  rw [htaken', Option.or] at hholds
  obtain ⟨hready, htables, hproper⟩ := hholds
  have hrecorded : e.totals.RecordedIn v' := hproper.recordedIn hpersist (by rwa [hsame])
  rcases load_cases hload with ⟨-, hr | hr⟩ | ⟨-, hsettings₂, hloaded, -⟩
  · cases hr
  · cases hr
  have hsettings₂ : e₂.settings = e.settings := hsettings₂.trans hsame.symm
  have htotals : e₂.totals = e.totals := by
    refine Totals.ext_value? fun m name => ?_
    rw [hloaded.recalled, hsettings₂, Vault.recorded, hrecords, ← Vault.recorded]
    exact hrecorded.recall_eq (hproper.congr hnames) m name
  have htables₂ : e₂.tables = e.tables := by
    rw [hloaded.tables, htables, hsettings₂, e.settings.assign_congr hnames]
  have hready₂ : e₂.ready = e.ready := by rw [hloaded.ready, hready]
  exact ext_fields hsettings₂ htables₂ htotals hready₂

def outdated : Vault := ({ ledger := { backend := .database }, clock := 1 } : Vault).seed "kCount" 5

/-- What calls left that broke off goes to a database, which is opened anew. -/
theorem load_restores_interrupted :
    let e := (new .sizingKeys).afterAll interrupted
    let restored := (new .sizingKeys).load { store := keysAndRaw }
      ((e.persist outdated).1.reopened 9)
    restored.2 = .ok () ∧ restored.1 = e ∧ e.totals.count? "c" = some 2 ∧
      e.totals.count? "k" = some 1 ∧ e.totals.extent? "k" = some ⟨7, 21⟩ := by
  have hclash : Settings.Unshadowed .sizingKeys := by decide +kernel
  have htaken : lastTaken? .sizingKeys interrupted = some keysAndRaw.names := by decide +kernel
  have hpersist : (((new .sizingKeys).afterAll interrupted).persist outdated).2 = .ok () := by
    decide +kernel
  have hload : ((new .sizingKeys).load { store := keysAndRaw }
      ((((new .sizingKeys).afterAll interrupted).persist outdated).1.reopened 9)).2 = .ok () := by
    decide +kernel
  refine ⟨hload, ?_, by decide +kernel⟩
  exact load_restores hclash htaken (Prod.ext rfl hpersist) (fun _ => Iff.rfl)
    (Vault.readings_reopened _ 9) (Prod.ext rfl hload)

end Engine

end TableTotals
