import Mathlib.Data.List.TakeWhile
import TableTotals.Proofs.Load
import TableTotals.Proofs.Replay

/-!
What a rescan leaves, whatever the engine held before.

`Engine.rescan_cases` says everything that a rescan can come to. Either nothing was taken up, or
a scan broke off, or every table was scanned; then the engine is `Seeded`, by which its tables
and every one of its totals are settled, and what is left is to persist them.
-/

namespace TableTotals

/-! ### Scanning -/

lemma Cursor.next_eq_error {c : Cursor} {failure : Failure} (h : c.next.2 = .error failure) :
    failure.kind = .scan := by
  unfold next at h
  split at h
  · cases h
    rfl
  · dsimp only at h
    split at h
    · cases h
    · dsimp only at h
      split at h
      · cases h
      · cases h
        rfl

lemma Watch.extent_eq_error {w : Watch} {table : String} {e : Entry} {failure : Failure}
    (h : w.extent table e = .error failure) : failure.kind = .sizing := by
  cases w with
  | counted => cases h
  | sized s =>
    simp only [extent, Sizer.size] at h
    split at h
    · cases h
    · cases h
      rfl

lemma Cursor.fold_tallyEntry_eq_error {w : Watch} {table : String} {c : Cursor} {s : Summary}
    {failure : Failure} (h : (c.fold (tallyEntry w table) s).2 = .error failure) :
    failure.kind = .scan ∨ failure.kind = .sizing := by
  induction hn : c.ahead.length using Nat.strongRecOn generalizing c s with
  | ind n ih =>
    rw [fold_eq] at h
    rcases hnext : c.next.2 with e | _ | p
    · simp only [hnext] at h
      cases h
      exact .inl (next_eq_error hnext)
    · simp [hnext] at h
    · simp only [hnext] at h
      rcases hstep : tallyEntry w table s p.2 with e | s₁
      · simp only [hstep] at h
        cases h
        right
        unfold tallyEntry at hstep
        rcases hx : w.extent table p.2 with e | x
        · rw [hx] at hstep
          cases hstep
          exact Watch.extent_eq_error hx
        · rw [hx] at hstep
          cases hstep
      · simp only [hstep] at h
        exact ih _ (hn ▸ length_ahead_next hnext) h rfl

lemma Source.scan_eq_error {source : Source} {w : Watch} {name : String} {failure : Failure}
    (h : (source.scan w name).2 = .error failure) :
    failure.kind = .scan ∨ failure.kind = .sizing := by
  rcases ht : source.store.tables.get? name with _ | t
  · rw [scan_of_missing ht] at h
    cases h
    exact .inl rfl
  · rw [scan_of_table ht, Cursor.summarize_eq] at h
    exact Cursor.fold_tallyEntry_eq_error h

/-- The tables that are scanned, if some are to be scanned one after another: those before the
first that cannot be. -/
def Source.reached (source : Source) (watched : List (String × Watch)) : List (String × Watch) :=
  watched.takeWhile fun p => (source.scan p.2 p.1).2.isOk

lemma Source.scan_nonneg {source : Source} {w : Watch} {name : String} {s : Summary}
    (h : (source.scan w name).2 = .ok s) (m : Measure) : 0 ≤ (s.value m).toInt := by
  obtain ⟨t, -, -, hvalue⟩ := Source.scan_eq_ok h
  have h0 := t.tally_nonneg w m
  rw [hvalue]
  simp only [maxSigned]
  omega

lemma Clamped.floorZero_of_nonneg {x : Int64} (h : 0 ≤ x.toInt) : floorZero x = x := by
  rw [floorZero, if_neg]
  omega

namespace Totals

lemma value?_takeOver (t : Totals) (table table' : String) (w : Watch) (s : Summary)
    (m : Measure) :
    (t.takeOver table w s).value? m table' =
      if table' = table ∧ w.Keeps m then some (Clamped.floorZero (s.value m))
      else t.value? m table' := by
  unfold takeOver
  cases hw : w.tracksSize <;> cases m <;>
    by_cases ht : table' = table <;>
    simp [Watch.Keeps, hw, ht, value?_setExtent, value?_set, portion, Summary.value]

variable {t t' : Totals} {store store' : Metadata} {outages : Outages}
  {watched : List (String × Watch)}

/-- **What scanning tables comes to.** A scan breaks it off; or every table was scanned and what
was found has taken the place of its totals. No other total is touched. -/
lemma scanAll_cases {r : Except Failure Unit}
    (h : t.scanAll outages watched store = ((t', store'), r))
    (hnodup : (watched.map (·.1)).Nodup) :
    store' = store ∧
    ((∃ failure, r = .error failure ∧ (failure.kind = .scan ∨ failure.kind = .sizing)) ∨
      (r = .ok () ∧
        (∀ p ∈ watched, ∃ s, (Source.scan ⟨store, outages⟩ p.2 p.1).2 = .ok s ∧
          ∀ m, p.2.Keeps m → t'.value? m p.1 = some (s.value m)) ∧
        ∀ m name, (∀ p ∈ watched, p.1 = name → ¬p.2.Keeps m) →
          t'.value? m name = t.value? m name)) := by
  induction watched generalizing t with
  | nil =>
    cases h
    exact ⟨rfl, .inr ⟨rfl, by simp, fun _ _ _ => rfl⟩⟩
  | cons p rest ih =>
    obtain ⟨name, w⟩ := p
    simp only [List.map_cons, List.nodup_cons, List.mem_map, not_exists, not_and] at hnodup
    have hstore := Source.scan_store ⟨store, outages⟩ w name
    rcases hscan : Source.scan ⟨store, outages⟩ w name with ⟨store₁, failure | s⟩
    · rw [hscan] at hstore
      simp only [scanAll, hscan] at h
      cases h
      exact ⟨hstore, .inl ⟨failure, rfl, Source.scan_eq_error (by rw [hscan])⟩⟩
    · rw [hscan] at hstore
      obtain rfl : store₁ = store := hstore
      simp only [scanAll, hscan] at h
      obtain ⟨rfl, hrest⟩ := ih h hnodup.2
      refine ⟨rfl, hrest.imp id ?_⟩
      rintro ⟨hr, hfound, hother⟩
      have hfirst : (Source.scan ⟨store', outages⟩ w name).2 = .ok s := by rw [hscan]
      have hself : ∀ m, w.Keeps m → t'.value? m name = some (s.value m) := by
        intro m hm
        rw [hother, value?_takeOver, if_pos ⟨rfl, hm⟩]
        · rw [Clamped.floorZero_of_nonneg (Source.scan_nonneg hfirst m)]
        · exact fun p hp hname => absurd hname (hnodup.1 p hp)
      refine ⟨hr, ?_, fun m name' hname' => ?_⟩
      · intro p hp
        rcases List.mem_cons.1 hp with rfl | hp
        · exact ⟨s, hfirst, hself⟩
        · exact hfound p hp
      · rw [hother m name' fun p hp => hname' p (by simp [hp]), value?_takeOver, if_neg]
        rintro ⟨rfl, hm⟩
        exact hname' (name', w) (by simp) rfl hm

/-- However scanning tables ends, it comes to what scanning the tables comes to that are
reached. -/
lemma scanAll_reached {r : Except Failure Unit}
    (h : t.scanAll outages watched store = ((t', store'), r)) :
    t.scanAll outages (Source.reached ⟨store, outages⟩ watched) store =
      ((t', store), .ok ()) := by
  induction watched generalizing t with
  | nil =>
    cases h
    rfl
  | cons p rest ih =>
    obtain ⟨name, w⟩ := p
    have hstore := Source.scan_store ⟨store, outages⟩ w name
    rcases hscan : Source.scan ⟨store, outages⟩ w name with ⟨store₁, failure | s⟩
    · simp only [scanAll, hscan] at h
      cases h
      simp [Source.reached, hscan, Except.isOk, Except.toBool, scanAll]
    · rw [hscan] at hstore
      obtain rfl : store₁ = store := hstore
      simp only [scanAll, hscan] at h
      have hreached : Source.reached ⟨store₁, outages⟩ ((name, w) :: rest) =
          (name, w) :: Source.reached ⟨store₁, outages⟩ rest := by
        simp [Source.reached, hscan, Except.isOk, Except.toBool]
      rw [hreached, scanAll, hscan]
      exact ih h

end Totals

/-! ### Rescanning -/

namespace Engine

/-- The engine holds what a rescan makes it hold: of tables with some names, of what scans of a
snapshot find, and of what is recorded for the sized tables that have no name among them. -/
structure Seeded (e : Engine) (names : List String) (snapshot : Source) (v : Vault) : Prop where
  ready : e.ready = true
  tables : e.tables = e.settings.assign names
  scanned : ∀ name ∈ names, ∃ s, (snapshot.scan (e.settings.watchOf name) name).2 = .ok s ∧
    ∀ m, (e.settings.watchOf name).Keeps m → e.totals.value? m name = some (s.value m)
  recalled : ∀ m, ∀ name ∉ names, e.settings.Covers names m name →
    e.totals.value? m name = some (Clamped.floorZero (v.recorded m name))
  others : ∀ m name, ¬e.settings.Covers names m name → e.totals.value? m name = none

/-- Scanning all tables with some names, one after another, comes as far as past one of them. -/
def Reaches (settings : Settings) (names : List String) (snapshot : Source) (name : String) :
    Prop :=
  (name, settings.watchOf name) ∈ snapshot.reached (settings.assign names).entries

instance (settings : Settings) (names : List String) (snapshot : Source) (name : String) :
    Decidable (Reaches settings names snapshot name) := inferInstanceAs (Decidable (_ ∈ _))

/-- The engine holds what a rescan leaves that took up its tables, whether or not it was broken
off: of the tables that were reached what scans found, and every other total as it was
recorded. -/
structure Mixed (e : Engine) (names : List String) (snapshot : Source) (v : Vault) : Prop where
  ready : e.ready = true
  tables : e.tables = e.settings.assign names
  scanned : ∀ name, Reaches e.settings names snapshot name →
    name ∈ names ∧ ∃ s, (snapshot.scan (e.settings.watchOf name) name).2 = .ok s ∧
      ∀ m, (e.settings.watchOf name).Keeps m → e.totals.value? m name = some (s.value m)
  recalled : ∀ m name,
    (Reaches e.settings names snapshot name → ¬(e.settings.watchOf name).Keeps m) →
      e.totals.value? m name = if e.settings.Covers names m name then
        some (Clamped.floorZero (v.recorded m name)) else none

/-- What a load would take up of a table are its totals. -/
def Recalls (e : Engine) (v : Vault) (name : String) : Prop :=
  ∀ m ∈ Measure.all, (e.settings.watchOf name).Keeps m →
    e.totals.value? m name = some (Clamped.floorZero (v.recorded m name))

instance (e : Engine) (v : Vault) (name : String) : Decidable (e.Recalls v name) :=
  inferInstanceAs (Decidable (∀ m ∈ Measure.all, _ → _))

variable {e e' : Engine} {source snapshot : Source} {v v' : Vault} {store : Metadata}
  {r : Except Failure Unit}

lemma mem_reached {settings : Settings} {names : List String} {name : String} {w : Watch}
    (h : (name, w) ∈ snapshot.reached (settings.assign names).entries) :
    name ∈ names ∧ settings.watchOf name = w := by
  have hmem := (List.takeWhile_sublist _).mem h
  rwa [SortedMap.mem_entries, Settings.get?_assign_eq_some] at hmem

/-- However far scanning the tables of a loaded engine comes, no other total gets in. -/
lemma Loaded.mixed {names : List String} {totals : Totals} {store : Metadata}
    (h : e.Loaded names v) (hscan : e.totals.scanAll snapshot.outages e.tables.entries
      snapshot.store = ((totals, store), r)) : Mixed { e with totals } names snapshot v := by
  have hreached := Totals.scanAll_reached hscan
  have hnodup : ((snapshot.reached e.tables.entries).map (·.1)).Nodup :=
    e.tables.nodup_keys.sublist ((List.takeWhile_sublist _).map _)
  obtain ⟨-, ⟨failure, hr, -⟩ | ⟨-, hfound, hother⟩⟩ := Totals.scanAll_cases hreached hnodup
  · cases hr
  rw [h.tables] at hfound hother
  constructor
  case ready => exact h.ready
  case tables => exact h.tables
  case scanned => exact fun name hname => ⟨(mem_reached hname).1, hfound _ hname⟩
  case recalled =>
    intro m name hno
    refine (hother m name ?_).trans (h.recalled m name)
    rintro ⟨name, w⟩ hp rfl
    obtain ⟨-, rfl⟩ := mem_reached hp
    exact hno hp

lemma Mixed.cases {names : List String} (h : e.Mixed names snapshot v) (m : Measure)
    (name : String) :
    (e.totals.value? m name = if e.settings.Covers names m name then
      some (Clamped.floorZero (v.recorded m name)) else none) ∨
    (name ∈ names ∧ (e.settings.watchOf name).Keeps m ∧
      ∃ s, (snapshot.scan (e.settings.watchOf name) name).2 = .ok s ∧
        e.totals.value? m name = some (s.value m)) := by
  by_cases hfound : Reaches e.settings names snapshot name ∧ (e.settings.watchOf name).Keeps m
  · obtain ⟨hname, s, hs, hvalue⟩ := h.scanned name hfound.1
    exact .inr ⟨hname, hfound.2, s, hs, hvalue m hfound.2⟩
  · exact .inl (h.recalled m name (not_and.1 hfound))

/-- Where scanning the tables of a loaded engine comes to its end, every table is reached. -/
lemma Loaded.reaches {names : List String} {totals : Totals} {store : Metadata}
    (h : e.Loaded names v) (hscan : e.totals.scanAll snapshot.outages e.tables.entries
      snapshot.store = ((totals, store), .ok ())) {name : String} (hname : name ∈ names) :
    Reaches e.settings names snapshot name := by
  obtain ⟨-, ⟨failure, hr, -⟩ | ⟨-, hfound, -⟩⟩ :=
    Totals.scanAll_cases hscan e.tables.nodup_keys
  · cases hr
  have hall : snapshot.reached e.tables.entries = e.tables.entries := by
    refine List.takeWhile_eq_self_iff.2 fun p hp => ?_
    obtain ⟨s, hs, -⟩ := hfound p hp
    simp [hs, Except.isOk, Except.toBool]
  rw [Reaches, ← h.tables, hall, h.tables, SortedMap.mem_entries, Settings.get?_assign_eq_some]
  exact ⟨hname, rfl⟩

/-- An engine is seeded by a rescan that reaches every table. -/
lemma Mixed.seeded {names : List String} (h : e.Mixed names snapshot v)
    (hall : ∀ name ∈ names, Reaches e.settings names snapshot name) :
    e.Seeded names snapshot v where
  ready := h.ready
  tables := h.tables
  scanned name hname := (h.scanned name (hall name hname)).2
  recalled m name hname hcovers := by
    rw [h.recalled, if_pos hcovers]
    exact fun hreached => absurd (h.scanned name hreached).1 hname
  others m name hcovers := by
    rw [h.recalled, if_neg hcovers]
    exact fun hreached hkeeps => hcovers ⟨hkeeps, fun _ => (h.scanned name hreached).1⟩

lemma Seeded.isSome_value? {names : List String} (h : e.Seeded names snapshot v) (m : Measure)
    (name : String) : (e.totals.value? m name).isSome ↔ e.settings.Covers names m name := by
  by_cases hcovers : e.settings.Covers names m name
  · simp only [hcovers, iff_true]
    by_cases hname : name ∈ names
    · obtain ⟨s, -, hvalue⟩ := h.scanned name hname
      rw [hvalue m hcovers.1]
      rfl
    · rw [h.recalled m name hname hcovers]
      rfl
  · simp [hcovers, h.others m name hcovers]

/-- **What a rescan comes to.** Nothing is taken up and nothing changes; or a scan breaks it off
before anything is written; or the engine is seeded, and it is left to persist its totals. -/
theorem rescan_cases (h : e.rescan source snapshot v = ((e', store, v'), r)) :
    store = snapshot.store ∧ e'.settings = e.settings ∧
    (((e.load source v).2 = r ∧ e' = e ∧ v' = v ∧
        (r = .error (.internal .namesRefused) ∨ r = .error (.reading .recordRefused))) ∨
      ((e.load source v).2 = .ok () ∧ e'.Mixed source.store.names snapshot v ∧ v' = v ∧
        ∃ failure, r = .error failure ∧ (failure.kind = .scan ∨ failure.kind = .sizing)) ∨
      ((e.load source v).2 = .ok () ∧ e'.Mixed source.store.names snapshot v ∧
        e'.Seeded source.store.names snapshot v ∧ v.persist e'.totals = (v', r) ∧
        (r = .ok () ∨ ∃ failure, r = .error failure ∧ failure.OfVault))) := by
  unfold rescan at h
  rcases hload : e.load source v with ⟨e₁, r₁⟩
  rcases load_cases hload with ⟨rfl, hr₁⟩ | ⟨rfl, hsettings, hloaded, -⟩
  · have hfail : r = r₁ ∧ e' = e₁ ∧ store = snapshot.store ∧ v' = v := by
      rcases hr₁ with rfl | rfl <;>
      · rw [hload] at h
        cases h
        exact ⟨rfl, rfl, rfl, rfl⟩
    obtain ⟨rfl, rfl, rfl, rfl⟩ := hfail
    exact ⟨rfl, rfl, .inl ⟨rfl, rfl, rfl, hr₁⟩⟩
  simp only [hload] at h
  rcases hscan : e₁.totals.scanAll snapshot.outages e₁.tables.entries snapshot.store with
    ⟨⟨totals, store₁⟩, r₂⟩
  obtain ⟨hstore, hcases⟩ := Totals.scanAll_cases hscan e₁.tables.nodup_keys
  rcases hcases with ⟨failure, rfl, hkind⟩ | ⟨rfl, -⟩
  · simp only [hscan] at h
    cases h
    exact ⟨hstore, hsettings, .inr (.inl ⟨rfl, hloaded.mixed hscan, rfl, failure, rfl, hkind⟩)⟩
  · simp only [hscan] at h
    rcases hpersist : v.persist totals with ⟨v₂, r₃⟩
    rw [hpersist] at h
    cases h
    have hmixed := hloaded.mixed hscan
    refine ⟨hstore, hsettings, .inr (.inr ⟨rfl, hmixed, hmixed.seeded fun name hname => ?_,
      hpersist, ?_⟩)⟩
    · exact hloaded.reaches hscan hname
    rcases r₃ with failure | _
    · exact .inr ⟨failure, rfl, Vault.persist_failure hpersist⟩
    · exact .inl rfl

lemma rescan_eq_ok (h : e.rescan source snapshot v = ((e', store, v'), .ok ())) :
    e'.settings = e.settings ∧ e'.Seeded source.store.names snapshot v ∧
      v.persist e'.totals = (v', .ok ()) := by
  obtain ⟨-, hsettings, ⟨-, -, -, hr | hr⟩ | ⟨-, -, -, failure, hr, -⟩ |
    ⟨-, -, hseeded, hpersist, -⟩⟩ := rescan_cases h
  · cases hr
  · cases hr
  · cases hr
  · exact ⟨hsettings, hseeded, hpersist⟩

end Engine

/-! ### What is left of the past -/

lemma Totals.ext_value? {t t' : Totals} (h : ∀ m name, t.value? m name = t'.value? m name) :
    t = t' := by
  have hcounts : t.counts = t'.counts := SortedMap.ext_get? (h .count)
  have hunreplicated : t.unreplicated = t'.unreplicated := SortedMap.ext_get? (h .unreplicated)
  have hreplicated : t.replicated = t'.replicated := SortedMap.ext_get? (h .replicated)
  cases t
  cases t'
  simp_all

namespace Engine

namespace Seeded

variable {e e₁ e₂ : Engine} {names : List String} {snapshot : Source} {v v₁ v₂ : Vault}

lemma nonneg (h : e.Seeded names snapshot v) {m : Measure} {name : String} {x : Int64}
    (hx : e.totals.value? m name = some x) : 0 ≤ x.toInt := by
  have hcovers : e.settings.Covers names m name := (h.isSome_value? m name).1 (by rw [hx]; rfl)
  by_cases hname : name ∈ names
  · obtain ⟨s, hs, hvalue⟩ := h.scanned name hname
    rw [hvalue m hcovers.1] at hx
    cases hx
    exact Source.scan_nonneg hs m
  · rw [h.recalled m name hname hcovers] at hx
    cases hx
    rw [Clamped.toInt_floorZero]
    omega

/-- What is recorded of absent tables is all that seeding takes from a vault. -/
lemma value?_eq (h₁ : e₁.Seeded names snapshot v₁) (h₂ : e₂.Seeded names snapshot v₂)
    (hsettings : e₂.settings = e₁.settings) {m : Measure} {name : String}
    (hrecorded : name ∉ names → e₁.settings.Covers names m name →
      Clamped.floorZero (v₂.recorded m name) = Clamped.floorZero (v₁.recorded m name)) :
    e₂.totals.value? m name = e₁.totals.value? m name := by
  by_cases hcovers : e₁.settings.Covers names m name
  · by_cases hname : name ∈ names
    · obtain ⟨s₁, hs₁, hvalue₁⟩ := h₁.scanned name hname
      obtain ⟨s₂, hs₂, hvalue₂⟩ := h₂.scanned name hname
      rw [hsettings] at hs₂ hvalue₂
      obtain rfl : s₁ = s₂ := by
        rw [hs₁] at hs₂
        cases hs₂
        rfl
      rw [hvalue₁ m hcovers.1, hvalue₂ m hcovers.1]
    · rw [h₁.recalled m name hname hcovers, h₂.recalled m name hname (by rwa [hsettings]),
        hrecorded hname hcovers]
  · rw [h₁.others m name hcovers, h₂.others m name (by rwa [hsettings])]

end Seeded

/-- What a rescan is for. The engine watches the tables that there are, and their totals are what
scans of the snapshot find. A sized table that is not there has the sizes that were recorded of
it, or zero for those that were not or are negative. There are no totals besides. -/
structure Rebuilt (e : Engine) (names : List String) (snapshot : Source) (v : Vault) : Prop where
  tables : ∀ name, e.tables.get? name =
    if name ∈ names then some (e.settings.watchOf name) else none
  counts : ∀ name ∈ names, ∃ t n, snapshot.store.tables.get? name = some t ∧
    e.totals.count? name = some n ∧ n.toInt = min (t.cells.size : Int) maxSigned
  extents : ∀ name ∈ names, (e.settings.watchOf name).tracksSize = true →
    ∃ s, (snapshot.scan (e.settings.watchOf name) name).2 = .ok s ∧
      e.totals.extent? name = some s.extent
  absent : ∀ name ∈ e.settings.sizedTables, name ∉ names →
    e.totals.extent? name = some ⟨Clamped.floorZero (v.recorded .unreplicated name),
      Clamped.floorZero (v.recorded .replicated name)⟩
  others : ∀ m name, (e.totals.value? m name).isSome →
    name ∈ if m = .count then names else e.settings.sizedTables

variable {e e' : Engine} {source snapshot : Source} {v v' : Vault} {store : Metadata}

lemma Seeded.rebuilt {names : List String} (h : e.Seeded names snapshot v) :
    e.Rebuilt names snapshot v where
  tables name := by rw [h.tables, Settings.get?_assign]
  counts name hname := by
    obtain ⟨s, hs, hvalue⟩ := h.scanned name hname
    obtain ⟨t, ht, -, htally⟩ := Source.scan_eq_ok hs
    refine ⟨t, s.count, ht, hvalue .count (Watch.keeps_count _), ?_⟩
    rw [← t.tally_count (e.settings.watchOf name)]
    exact htally .count
  extents name hname hsized := by
    obtain ⟨s, hs, hvalue⟩ := h.scanned name hname
    exact ⟨s, hs, Totals.extent?_eq_some.2
      ⟨hvalue .unreplicated (Watch.keeps_of_tracksSize hsized _),
        hvalue .replicated (Watch.keeps_of_tracksSize hsized _)⟩⟩
  absent name hsized hname := by
    have hcovers : ∀ m, m ≠ .count → e.settings.Covers names m name := fun m hm =>
      (Settings.covers_size hm).2 hsized
    exact Totals.extent?_eq_some.2 ⟨h.recalled .unreplicated name hname (hcovers _ (by decide)),
      h.recalled .replicated name hname (hcovers _ (by decide))⟩
  others m name hvalue := by
    have hcovers := (h.isSome_value? m name).1 hvalue
    by_cases hm : m = .count
    · subst hm
      simpa using Settings.covers_count.1 hcovers
    · simpa [hm] using (Settings.covers_size hm).1 hcovers

variable {e₂ e₂' : Engine} {source₂ : Source} {v₂ v₂' : Vault} {store₂ : Metadata}

/-- Two engines with one watch for each table come out of a rescan alike, whatever they held. -/
lemma rescan_alike (h : e.rescan source snapshot v = ((e', store, v'), .ok ()))
    (h₂ : e₂.rescan source₂ snapshot v₂ = ((e₂', store₂, v₂'), .ok ()))
    (hsettings : e₂.settings = e.settings) (hnames : source₂.store.names = source.store.names)
    (hledger : v₂.ledger = v.ledger) :
    e₂'.tables = e'.tables ∧ e₂'.totals = e'.totals ∧
      (v₂.clock = v.clock → v₂'.ledger = v'.ledger) := by
  obtain ⟨hs, hseeded, hpersist⟩ := rescan_eq_ok h
  obtain ⟨hs₂, hseeded₂, hpersist₂⟩ := rescan_eq_ok h₂
  have hsame : e₂'.settings = e'.settings := by rw [hs₂, hs, hsettings]
  rw [hnames] at hseeded₂
  have htotals : e₂'.totals = e'.totals :=
    Totals.ext_value? fun m name => hseeded.value?_eq hseeded₂ hsame fun _ _ => by
      rw [Vault.recorded, hledger, ← Vault.recorded]
  refine ⟨by rw [hseeded₂.tables, hseeded.tables, hsame], htotals, fun hclock => ?_⟩
  have hwrote := Vault.persist_eq_ok hpersist
  have hwrote₂ := Vault.persist_eq_ok hpersist₂
  have hreadings : v₂'.ledger.readings = v'.ledger.readings := by
    rw [hwrote₂.readings, hwrote.readings, hledger, hclock, htotals]
  have hbackend : v₂'.ledger.backend = v'.ledger.backend := by
    rw [hwrote₂.backend, hwrote.backend, hledger]
  exact Ledger.ext_readings hbackend hreadings

/-- Totals that are persisted over the records of others change no record but for its moment, if
they differ from those only in unreplicated sizes under whose keys a replicated size is recorded,
and are that replicated size. -/
lemma readings_again {t t₂ : Totals} {P : String → Prop} [DecidablePred P]
    (hpersist : v.persist t = (v', .ok ())) (hpersist₂ : v₂.persist t₂ = (v₂', .ok ()))
    (hledger : v₂.ledger = v'.ledger)
    (hsome : ∀ m name, (t₂.value? m name).isSome ↔ (t.value? m name).isSome)
    (hvalue : ∀ m name, t₂.value? m name =
      if m = .unreplicated ∧ P name then t.value? .replicated (name ++ "Un")
      else t.value? m name) (key : String) :
    (v₂'.ledger.readings.get? key).map (·.value) = (v'.ledger.readings.get? key).map (·.value) ∧
      (v₂.clock = v.clock → v₂'.ledger.readings.get? key = v'.ledger.readings.get? key) := by
  by_cases htotal : ∃ m name, m.key name = key ∧ (t.value? m name).isSome
  · obtain ⟨m, name, rfl, hx⟩ := htotal
    obtain ⟨x₂, hx₂⟩ := Option.isSome_iff_exists.1 ((hsome m name).2 hx)
    obtain ⟨x, hx⟩ := Option.isSome_iff_exists.1 hx
    have hreplicated : t₂.value? .replicated (name ++ "Un") =
        t.value? .replicated (name ++ "Un") := by
      rw [hvalue, if_neg (by simp)]
    rw [Vault.readings_total hpersist hx, Vault.readings_total hpersist₂ hx₂, hreplicated]
    suffices hsame : m = .unreplicated ∧ (t.value? .replicated (name ++ "Un")).isSome ∨ x₂ = x by
      rcases hsame with ⟨rfl, hy⟩ | rfl
      · obtain ⟨y, hy⟩ := Option.isSome_iff_exists.1 hy
        simp +contextual [hy]
      · simp +contextual
    rw [hvalue] at hx₂
    split at hx₂
    next hP => exact .inl ⟨hP.1, by rw [hx₂]; rfl⟩
    next => exact .inr (Option.some.inj (hx₂.symm.trans hx))
  · have hnone : ∀ m name, m.key name = key → t.value? m name = none := fun m name hkey =>
      Option.not_isSome_iff_eq_none.1 fun hx => htotal ⟨m, name, hkey, hx⟩
    have hnone₂ : ∀ m name, m.key name = key → t₂.value? m name = none := fun m name hkey =>
      Option.not_isSome_iff_eq_none.1 fun hx => htotal ⟨m, name, hkey, (hsome m name).1 hx⟩
    rw [Vault.readings_of_no_total hpersist₂ hnone₂, hledger]
    exact ⟨rfl, fun _ => rfl⟩

/-- A second rescan of the same snapshot finds the totals of the first one, and records what the
first one has recorded. Only where the unreplicated size of an absent table was recorded over, by
the replicated size of a table named like it with `Un` behind, that size is taken up in its
place. -/
lemma rescan_again (h : e.rescan source snapshot v = ((e', store, v'), .ok ()))
    (h₂ : e₂.rescan source₂ snapshot v₂ = ((e₂', store₂, v₂'), .ok ()))
    (hsettings : e₂.settings = e.settings) (hnames : source₂.store.names = source.store.names)
    (hledger : v₂.ledger = v'.ledger) :
    e₂'.tables = e'.tables ∧
      (∀ m name, e₂'.totals.value? m name =
        if m = .unreplicated ∧ name ∉ source.store.names ∧ name ∈ e.settings.sizedTables ∧
            name ++ "Un" ∈ e.settings.sizedTables then
          e'.totals.value? .replicated (name ++ "Un")
        else e'.totals.value? m name) ∧
      (∀ key, (v₂'.ledger.record? key).map (·.value) = (v'.ledger.record? key).map (·.value)) ∧
      (v₂.clock = v.clock → v₂'.ledger = v'.ledger) := by
  obtain ⟨hs, hseeded, hpersist⟩ := rescan_eq_ok h
  obtain ⟨hs₂, hseeded₂, hpersist₂⟩ := rescan_eq_ok h₂
  have hsame : e₂'.settings = e'.settings := by rw [hs₂, hs, hsettings]
  rw [hnames] at hseeded₂
  suffices hvalue : ∀ m name, e₂'.totals.value? m name =
      if m = .unreplicated ∧ name ∉ source.store.names ∧ name ∈ e.settings.sizedTables ∧
          name ++ "Un" ∈ e.settings.sizedTables then
        e'.totals.value? .replicated (name ++ "Un")
      else e'.totals.value? m name by
    have hsome : ∀ m name, (e₂'.totals.value? m name).isSome ↔
        (e'.totals.value? m name).isSome := fun m name => by
      rw [hseeded₂.isSome_value?, hseeded.isSome_value?, hsame]
    have hagain := readings_again hpersist hpersist₂ hledger hsome hvalue
    refine ⟨by rw [hseeded₂.tables, hseeded.tables, hsame], hvalue, fun key => ?_, fun hclock => ?_⟩
    · rw [Ledger.record?, Ledger.record?, Option.map_map, Option.map_map]
      exact (hagain key).1
    · refine Ledger.ext_readings ?_ (SortedMap.ext_get? fun key => (hagain key).2 hclock)
      rw [(Vault.persist_eq_ok hpersist₂).backend, hledger]
  intro m name
  have hrecorded : ∀ x, e'.totals.value? m name = some x → Clamped.floorZero
      (v₂.recorded m name) = if m = .unreplicated then
        (e'.totals.value? .replicated (name ++ "Un")).getD x else x := by
    intro x hx
    rw [Vault.recorded, hledger, ← Vault.recorded, Vault.recorded_persist hpersist hx,
      Clamped.floorZero_of_nonneg]
    split
    · cases hr : e'.totals.value? .replicated (name ++ "Un") with
      | none => exact hseeded.nonneg hx
      | some y => exact hseeded.nonneg hr
    · exact hseeded.nonneg hx
  split
  next hshadow =>
    obtain ⟨rfl, hname, hsized, hun⟩ := hshadow
    rw [← hs] at hsized hun
    have hcovers : e'.settings.Covers source.store.names .unreplicated name :=
      (Settings.covers_size (by decide)).2 hsized
    have hcoversUn : e'.settings.Covers source.store.names .replicated (name ++ "Un") :=
      (Settings.covers_size (by decide)).2 hun
    obtain ⟨x, hx⟩ := Option.isSome_iff_exists.1 ((hseeded.isSome_value? _ name).2 hcovers)
    obtain ⟨y, hy⟩ := Option.isSome_iff_exists.1 ((hseeded.isSome_value? _ _).2 hcoversUn)
    rw [hseeded₂.recalled _ name hname (by rwa [hsame]), hrecorded x hx, hy]
    rfl
  next hshadow =>
    refine hseeded.value?_eq hseeded₂ hsame fun hname hcovers => ?_
    rw [hrecorded _ (hseeded.recalled m name hname hcovers)]
    split
    next hm =>
      subst hm
      have hsized := (Settings.covers_size (by decide)).1 hcovers
      have hun : name ++ "Un" ∉ e'.settings.sizedTables := by
        rw [hs] at hsized ⊢
        exact fun hun => hshadow ⟨rfl, hname, hsized, hun⟩
      rw [hseeded.others .replicated (name ++ "Un") fun hc =>
        hun ((Settings.covers_size (by decide)).1 hc)]
      rfl
    next => rfl

/-- **A rescan owes nothing to what the engine held.** If it succeeds, the engine is rebuilt from
the names of the tables, the snapshot and what is recorded of absent tables. Another engine that
watches for the same things, over the same records, comes out of it alike, and so do its records
if the clocks agree. A second rescan of the snapshot changes no record but for its moment, and no
total but for the unreplicated size of an absent table over which the replicated size of another
table is recorded. -/
theorem rescan_rebuilds (h : e.rescan source snapshot v = ((e', store, v'), .ok ())) :
    e'.settings = e.settings ∧ e'.Rebuilt source.store.names snapshot v ∧
    (∀ {e₂ e₂' : Engine} {source₂ : Source} {v₂ v₂' : Vault} {store₂ : Metadata},
      e₂.settings = e.settings → source₂.store.names = source.store.names →
      e₂.rescan source₂ snapshot v₂ = ((e₂', store₂, v₂'), .ok ()) →
      (v₂.ledger = v.ledger → e₂'.tables = e'.tables ∧ e₂'.totals = e'.totals ∧
        (v₂.clock = v.clock → v₂'.ledger = v'.ledger)) ∧
      (v₂.ledger = v'.ledger → e₂'.tables = e'.tables ∧
        (∀ m name, e₂'.totals.value? m name =
          if m = .unreplicated ∧ name ∉ source.store.names ∧ name ∈ e.settings.sizedTables ∧
              name ++ "Un" ∈ e.settings.sizedTables then
            e'.totals.value? .replicated (name ++ "Un")
          else e'.totals.value? m name) ∧
        (∀ key, (v₂'.ledger.record? key).map (·.value) =
          (v'.ledger.record? key).map (·.value)) ∧
        (v₂.clock = v.clock → v₂'.ledger = v'.ledger))) := by
  obtain ⟨hsettings, hseeded, -⟩ := rescan_eq_ok h
  refine ⟨hsettings, hseeded.rebuilt, fun hs hnames h₂ => ⟨fun hledger => ?_, fun hledger => ?_⟩⟩
  · exact rescan_alike h h₂ hs hnames hledger
  · exact rescan_again h h₂ hs hnames hledger

/-- A sized table with one key in three copies. A table that is gone was named like it, less the
`Un` behind. -/
def shadowing : Source :=
  ⟨(((∅ : Metadata).create "aUn" .key).put "aUn" [1] (.key (.sample "k" (.copies 3) [100]))).1, {}⟩

/-- An engine whose totals have nothing to do with any table. -/
def drifted : Engine where
  settings := (Settings.countersOnly.watching "a" (.sized .openKeys)).watching "aUn"
    (.sized .openKeys)
  totals := ((∅ : Totals).add .count "b" 7).add .replicated "aUn" 5

/-- Sizes that were recorded of the table that is gone, one of them negative. -/
def remnants : Vault :=
  (({ ledger := { backend := .memory }, clock := 3 } : Vault).seed "aUnReplicatedDataSize" 7).seed
    "aReplicatedDataSize" (-4)

theorem rescan_rebuilds_drifted :
    let first := drifted.rescan shadowing shadowing remnants
    let second := first.1.1.rescan shadowing shadowing first.1.2.2
    first.2 = .ok () ∧ second.2 = .ok () ∧
      first.1.1.Rebuilt shadowing.store.names shadowing remnants ∧
      first.1.1.totals.extent? "a" = some ⟨7, 0⟩ ∧
      second.1.1.totals.value? .unreplicated "a" = first.1.1.totals.value? .replicated "aUn" := by
  have h : (drifted.rescan shadowing shadowing remnants).2 = .ok () := by decide +kernel
  have h₂ : ((drifted.rescan shadowing shadowing remnants).1.1.rescan shadowing shadowing
      (drifted.rescan shadowing shadowing remnants).1.2.2).2 = .ok () := by decide +kernel
  obtain ⟨hsettings, hrebuilt, hagain⟩ := rescan_rebuilds (Prod.ext rfl h)
  have hshadow := ((hagain hsettings rfl (Prod.ext rfl h₂)).2 rfl).2.1 .unreplicated "a"
  refine ⟨h, h₂, hrebuilt, by decide +kernel, ?_⟩
  rwa [if_pos (by decide +kernel)] at hshadow

/-- A second rescan takes the replicated size of one table for the unreplicated size of another
that is gone. -/
theorem rescan_again_differs :
    let first := drifted.rescan shadowing shadowing remnants
    let second := first.1.1.rescan shadowing shadowing first.1.2.2
    first.2 = .ok () ∧ second.2 = .ok () ∧ first.1.1.totals.extent? "a" = some ⟨7, 0⟩ ∧
      second.1.1.totals.extent? "a" = some ⟨300, 0⟩ := by
  decide +kernel

end Engine

end TableTotals
