import TableTotals.Feed
import TableTotals.Proofs.Calls

/-!
A store that is written through its feed alone, and an engine that follows it.

A `Depot` is a site together with the feed of its store. From outside, entries are put and
deleted, outages and refusals come and go, and the clock moves. `Engine.Pursues` is what all of
that keeps, of each table by itself: once the engine is given what was recorded and not yet
applied, its totals of the table are the tallies. `Engine.Follows` says it of all tables.
-/

namespace TableTotals

structure Depot where
  site : Site
  feed : Feed := {}
  deriving DecidableEq

/-- What may happen to a depot from outside. An entry that is put is one that a memory addressed
by words has room for. -/
inductive Happening where
  | put (table : String) (key : List UInt8) (entry : Entry) (fits : entry.Fits)
  | delete (table : String) (key : List UInt8)
  /-- Outages and refusals are switched on and off. -/
  | switch (outages : Outages) (refusals : Refusals)
  | tick (now : Moment)

namespace Depot

def store (d : Depot) : Metadata := d.site.source.store

/-- The depot with what a write through its feed has made of feed and store. -/
def written (d : Depot) (after : Feed × Metadata) : Depot :=
  { site := { d.site with source := { d.site.source with store := after.2 } }, feed := after.1 }

def after (d : Depot) : Happening → Depot
  | .put table key entry _ => d.written (d.feed.put d.store table key entry).1
  | .delete table key => d.written (d.feed.delete d.store table key).1
  | .switch outages refusals =>
    { d with site :=
      { source := { d.site.source with outages }, vault := { d.site.vault with refusals } } }
  | .tick now => { d with site := { d.site with vault := { d.site.vault with clock := now } } }

/-- No tally that the settings ask for is past the largest word. -/
def Bounded (d : Depot) (settings : Settings) : Prop :=
  d.store.Bounded (settings.assign d.store.names)

instance (d : Depot) (settings : Settings) : Decidable (d.Bounded settings) :=
  inferInstanceAs (Decidable (Metadata.Bounded _ _))

end Depot

/-- The totals of a table are what a scan without outages finds: as many entries as there are,
and their sizes where sizes are watched. -/
def Totals.Mirrors (t : Totals) (store : Metadata) (name : String) (w : Watch) : Prop :=
  ∃ tbl s, store.tables.get? name = some tbl ∧ (Source.scan ⟨store, {}⟩ w name).2 = .ok s ∧
    s.count.toInt = tbl.cells.size ∧ t.count? name = some s.count ∧
    (w.tracksSize = true → t.extent? name = some s.extent)

namespace Metadata

lemma mem_names {s : Metadata} {name : String} : name ∈ s.names ↔ (s.tables.get? name).isSome :=
  SortedMap.mem_keys

end Metadata

lemma Feed.Written.mem_names {f f' : Feed} {s s' : Metadata} (h : f.Written s f' s')
    (name : String) : name ∈ s'.names ↔ name ∈ s.names := by
  have hwith : ∀ {written : String} {t t' : Table}, s.tables.get? written = some t →
      (name ∈ (s.withTable written t').names ↔ name ∈ s.names) := by
    intro written t t' ht
    rw [Metadata.mem_names, Metadata.mem_names, Metadata.get?_withTable]
    by_cases hname : name = written <;> simp [hname, ht]
  cases h with
  | refused => rfl
  | recorded ht hw => exact hwith ht
  | blind ht hbroken => exact hwith ht

lemma Depot.mem_names_after (d : Depot) (x : Happening) (name : String) :
    name ∈ (d.after x).store.names ↔ name ∈ d.store.names := by
  cases x with
  | put table key entry fits => exact (d.feed.written_put d.store table key fits).mem_names name
  | delete table key => exact (d.feed.written_delete d.store table key).mem_names name
  | switch outages refusals => rfl
  | tick now => rfl

lemma Depot.Bounded.tally_le {d : Depot} {settings : Settings} (h : d.Bounded settings)
    {name : String} {tbl : Table} (htbl : d.store.tables.get? name = some tbl) (m : Measure)
    (hm : (settings.watchOf name).Keeps m) : tbl.tally (settings.watchOf name) m ≤ maxSigned := by
  have hname : name ∈ d.store.names := Metadata.mem_names.2 (by rw [htbl]; rfl)
  exact Metadata.Bounded.tally_le h (Settings.get?_assign_eq_some.2 ⟨hname, rfl⟩) htbl hm

lemma Settings.assign_congr {a b : List String} (s : Settings)
    (h : ∀ name, name ∈ a ↔ name ∈ b) : s.assign a = s.assign b :=
  SortedMap.ext_get? fun name => by simp only [get?_assign, h name]

namespace Totals

variable {t t' : Totals} {s : Metadata} {name : String} {w : Watch} {tbl : Table}

lemma agrees_iff_scanned {source : Source} (htbl : source.store.tables.get? name = some tbl)
    (hb : ∀ m, w.Keeps m → tbl.tally w m ≤ maxSigned) {found : Summary}
    (hscan : (source.scan w name).2 = .ok found) :
    tbl.Agrees w (t.value? · name) ↔ ∀ m, w.Keeps m → t.value? m name = some (found.value m) := by
  obtain ⟨tbl', htbl', hsound, hfound⟩ := Source.scan_eq_ok hscan
  obtain rfl : tbl = tbl' := Option.some.inj (htbl.symm.trans htbl')
  have hexact : ∀ m, w.Keeps m → (found.value m).toInt = tbl.tally w m := by
    intro m hm
    have hle := hb m hm
    rw [hfound]
    omega
  constructor
  · intro h m hm
    obtain ⟨x, hx, hxe⟩ := h.exact m hm
    have hvalue : t.value? m name = some x := hx
    rw [hvalue, Option.some.injEq, ← Int64.toInt_inj, hxe, hexact m hm]
  · intro h
    exact ⟨hsound, fun m hm => ⟨found.value m, h m hm, hexact m hm⟩⟩

/-- Where totals are the tallies, a scan without outages comes to its end and finds them. -/
lemma found_of_agrees (h : tbl.Agrees w (t.value? · name))
    (htbl : s.tables.get? name = some tbl) (hb : ∀ m, w.Keeps m → tbl.tally w m ≤ maxSigned) :
    ∃ found, (Source.scan ⟨s, {}⟩ w name).2 = .ok found ∧
      found.count.toInt = tbl.cells.size ∧
      ∀ m, w.Keeps m → t.value? m name = some (found.value m) := by
  obtain ⟨found, hscan⟩ : ∃ found, (Source.scan ⟨s, {}⟩ w name).2 = .ok found :=
    Source.scan_ok rfl htbl h.sound
  refine ⟨found, hscan, ?_, (agrees_iff_scanned htbl hb hscan).1 h⟩
  obtain ⟨tbl', htbl', -, hfound⟩ := Source.scan_eq_ok hscan
  obtain rfl : tbl = tbl' := Option.some.inj (htbl.symm.trans htbl')
  have hle := hb .count w.keeps_count
  have hcount := hfound .count
  rw [tbl.tally_count] at hle hcount
  simp only [Summary.value] at hcount
  omega

lemma mirrors_of_agrees (h : tbl.Agrees w (t.value? · name))
    (htbl : s.tables.get? name = some tbl) (hb : ∀ m, w.Keeps m → tbl.tally w m ≤ maxSigned) :
    t.Mirrors s name w := by
  obtain ⟨found, hscan, hcount, hvalue⟩ := found_of_agrees h htbl hb
  refine ⟨tbl, found, htbl, hscan, hcount, hvalue .count w.keeps_count, fun hsized => ?_⟩
  exact extent?_eq_some.2 ⟨hvalue _ (Watch.keeps_of_tracksSize hsized _),
    hvalue _ (Watch.keeps_of_tracksSize hsized _)⟩

lemma Mirrors.agrees (h : t.Mirrors s name w) (htbl : s.tables.get? name = some tbl)
    (hb : ∀ m, w.Keeps m → tbl.tally w m ≤ maxSigned) : tbl.Agrees w (t.value? · name) := by
  obtain ⟨tbl', found, -, hscan, -, hcount, hextent⟩ := h
  have htable : (⟨s, {}⟩ : Source).store.tables.get? name = some tbl := htbl
  refine (agrees_iff_scanned htable hb hscan).2 fun m hm => ?_
  cases m with
  | count => exact hcount
  | unreplicated =>
    exact (extent?_eq_some.1 (hextent (hm.resolve_left (by decide)))).1
  | replicated =>
    exact (extent?_eq_some.1 (hextent (hm.resolve_left (by decide)))).2

/-- There is a total for each measure of a table that is asked for, and none is negative. -/
structure Proper (t : Totals) (settings : Settings) (names : List String) : Prop where
  covered : ∀ m name, (t.value? m name).isSome ↔ settings.Covers names m name
  nonneg : ∀ m name x, t.value? m name = some x → 0 ≤ x.toInt

lemma Proper.congr {settings : Settings} {a b : List String} (h : t.Proper settings a)
    (hnames : ∀ name, name ∈ b ↔ name ∈ a) : t.Proper settings b := by
  refine ⟨fun m name => ?_, h.nonneg⟩
  rw [h.covered, Settings.Covers, Settings.Covers, hnames name]

lemma Proper.apply {settings : Settings} {names : List String} {c : Change}
    (h : t.Proper settings names) (hname : c.table ∈ names)
    (happly : t.apply (settings.watchOf c.table) c = (t', .ok ())) : t'.Proper settings names := by
  refine ⟨fun m name => ?_, fun m name x hx => ?_⟩
  · rw [value?_apply happly]
    split
    next hT =>
      obtain ⟨rfl, -, hkeeps, -⟩ := hT
      simp [Settings.Covers, hkeeps, hname]
    next => exact h.covered m name
  · rw [value?_apply happly] at hx
    split at hx
    · cases hx
      rw [Clamped.toInt_floorZero]
      omega
    · exact h.nonneg m name x hx

lemma Proper.applyAll {settings : Settings} {names : List String} {xs : List Change}
    {r : Except Failure Unit} (h : t.Proper settings names)
    (ha : t.applyAll (settings.assign names) xs = (t', r)) : t'.Proper settings names := by
  refine applyAll_keeps (P := fun u => u.Proper settings names) ha ?_ h
  intro c _ w hw t₁ t₂ happly hproper
  obtain ⟨hname, rfl⟩ := Settings.get?_assign_eq_some.1 hw
  exact hproper.apply hname happly

end Totals

namespace Engine

/-- The engine has taken up all tables of a store, for what its settings say. -/
structure Watches (e : Engine) (s : Metadata) : Prop where
  ready : e.ready = true
  tables : e.tables = e.settings.assign s.names

/-- **The invariant.** Past the changes that are still to be applied, the engine's totals of a
table are its tallies. -/
structure Pursues (e : Engine) (name : String) (late : List Change) (s : Metadata) : Prop
    extends Watches e s where
  pursued : ∃ tbl, s.tables.get? name = some tbl ∧
    e.totals.Pursues name (e.settings.watchOf name) late tbl

/-- The invariant of all tables, and no totals besides theirs. -/
structure Follows (e : Engine) (late : List Change) (s : Metadata) : Prop extends Watches e s where
  proper : e.totals.Proper e.settings s.names
  pursues : ∀ name ∈ s.names, e.Pursues name late s

variable {e e' : Engine} {name : String} {xs ys late before : List Change} {s : Metadata}

lemma Pursues.watch (h : e.Pursues name late s) :
    e.tables.get? name = some (e.settings.watchOf name) := by
  obtain ⟨tbl, htbl, -⟩ := h.pursued
  rw [h.tables, Settings.get?_assign, if_pos (Metadata.mem_names.2 (by rw [htbl]; rfl))]

lemma Pursues.found {d : Depot} (h : e.Pursues name [] d.store) (hb : d.Bounded e.settings) :
    ∃ tbl found, d.store.tables.get? name = some tbl ∧
      (Source.scan ⟨d.store, {}⟩ (e.settings.watchOf name) name).2 = .ok found ∧
      found.count.toInt = tbl.cells.size ∧
      ∀ m, (e.settings.watchOf name).Keeps m →
        e.totals.value? m name = some (found.value m) := by
  obtain ⟨tbl, htbl, hpursues⟩ := h.pursued
  obtain ⟨found, hscan, hcount, hvalue⟩ :=
    Totals.found_of_agrees hpursues.agrees htbl (hb.tally_le htbl)
  exact ⟨tbl, found, htbl, hscan, hcount, hvalue⟩

lemma Pursues.mirrors {d : Depot} (h : e.Pursues name [] d.store) (hb : d.Bounded e.settings) :
    e.totals.Mirrors d.store name (e.settings.watchOf name) := by
  obtain ⟨tbl, htbl, hpursues⟩ := h.pursued
  exact Totals.mirrors_of_agrees hpursues.agrees htbl (hb.tally_le htbl)

/-- A write through the feed is followed, with what it recorded now to be applied as well. -/
lemma Pursues.written {f f' : Feed} {s' : Metadata} (h : e.Pursues name (before ++ f.pending) s)
    (hw : f.Written s f' s') (hb : s'.Bounded (e.settings.assign s'.names)) :
    e.Pursues name (before ++ f'.pending) s' := by
  obtain ⟨tbl, htbl, hpursues⟩ := h.pursued
  have htables : e.tables = e.settings.assign s'.names :=
    h.tables.trans (e.settings.assign_congr fun name => (hw.mem_names name).symm)
  exact ⟨⟨h.ready, htables⟩, hpursues.written htbl hw (by rwa [htables]) h.watch⟩

lemma Pursues.after {d : Depot} (h : e.Pursues name (before ++ d.feed.pending) d.store)
    (x : Happening) (hb : (d.after x).Bounded e.settings) :
    e.Pursues name (before ++ (d.after x).feed.pending) (d.after x).store := by
  cases x with
  | put table key entry fits => exact h.written (d.feed.written_put d.store table key fits) hb
  | delete table key => exact h.written (d.feed.written_delete d.store table key) hb
  | switch outages refusals => exact h
  | tick now => exact h

/-- What was applied is no longer to come, and what was passed over is no loss to a table on which
it has no effect. -/
lemma Pursues.moved (h : e.Pursues name (xs ++ (ys ++ late)) s) (hwatches : e'.Watches s)
    (hsettings : e'.settings = e.settings)
    (hxs : e.totals.applyAll e.tables xs = (e'.totals, .ok ()))
    (hys : ∀ c ∈ ys, c.table = name → ¬c.Effective (e.settings.watchOf name)) :
    e'.Pursues name late s := by
  obtain ⟨tbl, htbl, hpursues⟩ := h.pursued
  refine ⟨hwatches, tbl, htbl, ?_⟩
  rw [hsettings]
  exact (hpursues.applied hxs h.watch).passedOver hys

lemma Watches.after {d : Depot} (h : e.Watches d.store) (x : Happening) :
    e.Watches (d.after x).store :=
  ⟨h.ready, h.tables.trans (e.settings.assign_congr fun name => (d.mem_names_after x name).symm)⟩

lemma Follows.after {d : Depot} (h : e.Follows (before ++ d.feed.pending) d.store)
    (x : Happening) (hb : (d.after x).Bounded e.settings) :
    e.Follows (before ++ (d.after x).feed.pending) (d.after x).store := by
  have hnames := d.mem_names_after x
  exact ⟨h.toWatches.after x, h.proper.congr hnames,
    fun name hname => (h.pursues name ((hnames name).1 hname)).after x hb⟩

lemma Follows.applied (h : e.Follows (xs ++ late) s) (hready : e'.ready = true)
    (htables : e'.tables = e.tables) (hsettings : e'.settings = e.settings)
    (hxs : e.totals.applyAll e.tables xs = (e'.totals, .ok ())) : e'.Follows late s := by
  have hwatches : e'.Watches s := ⟨hready, by rw [htables, hsettings, h.tables]⟩
  refine ⟨hwatches, ?_, fun name hname => ?_⟩
  · rw [h.tables] at hxs
    rw [hsettings]
    exact h.proper.applyAll hxs
  · have hpursues : e.Pursues name (xs ++ ([] ++ late)) s := h.pursues name hname
    exact hpursues.moved hwatches hsettings hxs (by simp)

lemma Loaded.proper {names : List String} {v : Vault} (h : e.Loaded names v) :
    e.totals.Proper e.settings names where
  covered m name := by
    rw [h.recalled]
    split
    next hcovers => exact ⟨fun _ => hcovers, fun _ => rfl⟩
    next hcovers => exact ⟨nofun, fun hyes => absurd hyes hcovers⟩
  nonneg m name x hx := by
    rw [h.recalled] at hx
    split at hx
    · cases hx
      rw [Clamped.toInt_floorZero]
      omega
    · cases hx

lemma Mixed.agrees {source : Source} {v : Vault} {tbl : Table}
    (h : e.Mixed source.store.names source v)
    (hreaches : Reaches e.settings source.store.names source name)
    (htbl : source.store.tables.get? name = some tbl)
    (hb : ∀ m, (e.settings.watchOf name).Keeps m →
      tbl.tally (e.settings.watchOf name) m ≤ maxSigned) :
    tbl.Agrees (e.settings.watchOf name) (e.totals.value? · name) := by
  obtain ⟨-, found, hscan, hvalue⟩ := h.scanned name hreaches
  exact (Totals.agrees_iff_scanned htbl hb hscan).2 hvalue

lemma Seeded.follows {source : Source} {v : Vault} (h : e.Seeded source.store.names source v)
    (hb : source.store.Bounded (e.settings.assign source.store.names)) :
    e.Follows [] source.store := by
  have hwatches : e.Watches source.store := ⟨h.ready, h.tables⟩
  refine ⟨hwatches, ⟨h.isSome_value?, fun m name x => h.nonneg⟩, fun name hname => ?_⟩
  obtain ⟨found, hscan, hvalue⟩ := h.scanned name hname
  obtain ⟨tbl, htbl⟩ := Option.isSome_iff_exists.1 (Metadata.mem_names.1 hname)
  have hw : (e.settings.assign source.store.names).get? name = some (e.settings.watchOf name) :=
    Settings.get?_assign_eq_some.2 ⟨hname, rfl⟩
  have hagrees : tbl.Agrees (e.settings.watchOf name) (e.totals.value? · name) :=
    (Totals.agrees_iff_scanned htbl (fun m => hb.tally_le hw htbl) hscan).2 hvalue
  exact ⟨hwatches, tbl, htbl, Totals.pursues_of_agrees hagrees (by simp)⟩

end Engine

/-! ### Small runs -/

/-- The sizes of keys are watched in a table named `k`, and all other tables are counted. -/
def Settings.sizingKeys : Settings := countersOnly.watching "k" (.sized .openKeys)

def Depot.ofTables (tables : List (String × Shape)) : Depot where
  site :=
    { source := { store := tables.foldl (fun s t => s.create t.1 t.2) ∅ }
      vault := { ledger := { backend := .memory }, clock := 0 } }

namespace Happening

def putBlank (table : String) (key : UInt8) : Happening := .put table [key] (.raw []) (by decide)

def putKey (table : String) (key : UInt8) (length : UInt64) : Happening :=
  .put table [key] (.key (.sample "" (.copies 3) [length]))
    (show "vol".utf8ByteSize ≤ maxWord ∧ "bucket".utf8ByteSize ≤ maxWord ∧
      "".utf8ByteSize ≤ maxWord ∧ 1 ≤ maxWord by decide)

/-- From now on updates may be refused, the list of tables unreadable, and walks break off. -/
def faults (updates names : Bool) (scans : List (String × Nat)) : Happening :=
  .switch { names, scans := .ofList scans } { updates }

end Happening

end TableTotals
