import TableTotals.Proofs.Holdings
import TableTotals.Report

/-!
What is reported of a table, and what the engine holds of it.

A report is read record by record, by whoever can read the vault, and knows nothing of engines.
After an engine has persisted its totals each of them has a record of its own, as of the moment at
which persisting began, and that record can be read, since persisting has read it itself
(`Vault.fetch_persisted`). So what is reported is what the engine holds. Of any vault at all the
report of a table tells the latest moment at which one of its records was written
(`Vault.isLatest_reportOf`).
-/

namespace TableTotals

namespace Vault

def recordsOf (v : Vault) (table : String) : List Record :=
  Measure.all.flatMap fun m => (v.ledger.record? (m.key table)).toList

/-- The latest moment at which one of some records was written; there is none where there is no
record. -/
def IsLatest (records : List Record) : Option Moment → Prop
  | none => records = []
  | some moment => (∃ r ∈ records, r.updatedAt = moment) ∧ ∀ r ∈ records, r.updatedAt ≤ moment

variable {v v' : Vault} {table : String}

lemma mem_recordsOf {r : Record} :
    r ∈ v.recordsOf table ↔ ∃ m : Measure, v.ledger.record? (m.key table) = some r := by
  simp only [recordsOf, List.mem_flatMap, Option.mem_toList]
  constructor
  · rintro ⟨m, -, hm⟩
    exact ⟨m, hm⟩
  · rintro ⟨m, hm⟩
    exact ⟨m, m.mem_all, hm⟩

lemma recordsOf_eq_nil :
    v.recordsOf table = [] ↔ ∀ m : Measure, v.ledger.record? (m.key table) = none := by
  simp only [List.eq_nil_iff_forall_not_mem, mem_recordsOf, not_exists,
    Option.eq_none_iff_forall_ne_some]
  exact ⟨fun h m r => h r m, fun h r m => h m r⟩

/-! ### The moment of a report -/

lemma le_max (a b : Moment) : a ≤ max a b ∧ b ≤ max a b := by
  change a ≤ (if a ≤ b then b else a) ∧ b ≤ (if a ≤ b then b else a)
  split
  next h => exact ⟨h, Int64.le_refl b⟩
  next h => exact ⟨Int64.le_refl a, (Int64.le_total a b).resolve_left h⟩

lemma max_eq (a b : Moment) : max a b = a ∨ max a b = b := by
  change (if a ≤ b then b else a) = a ∨ (if a ≤ b then b else a) = b
  split
  · exact .inr rfl
  · exact .inl rfl

lemma IsLatest.eq_none_iff {records : List Record} {moment : Option Moment}
    (h : IsLatest records moment) : moment = none ↔ records = [] := by
  cases moment with
  | none => exact iff_of_true rfl h
  | some moment =>
    obtain ⟨⟨r, hr, -⟩, -⟩ := h
    exact iff_of_false nofun (List.ne_nil_of_mem hr)

lemma IsLatest.latest {records : List Record} {moment : Option Moment}
    (h : IsLatest records moment) (r : Option Record) :
    IsLatest (records ++ r.toList) (latest moment r) := by
  cases r with
  | none => cases moment <;> simpa [Vault.latest] using h
  | some r =>
    cases moment with
    | none =>
      obtain rfl : records = [] := h
      simp [Vault.latest, IsLatest]
    | some moment =>
      obtain ⟨⟨first, hfirst, rfl⟩, hall⟩ := h
      obtain ⟨hle, hle'⟩ := le_max first.updatedAt r.updatedAt
      constructor
      · rcases max_eq first.updatedAt r.updatedAt with hmax | hmax
        · exact ⟨first, List.mem_append_left _ hfirst, hmax.symm⟩
        · exact ⟨r, by simp, hmax.symm⟩
      · intro x hx
        rcases List.mem_append.1 hx with hx | hx
        · exact Int64.le_trans (hall x hx) hle
        · obtain rfl : x = r := by simpa using hx
          exact hle'

/-! ### Reading -/

def Reads (v : Vault) (m : Measure) (table : String) : Prop := m.key table ∉ v.refusals.records

instance (v : Vault) (m : Measure) (table : String) : Decidable (v.Reads m table) :=
  inferInstanceAs (Decidable (_ ∉ _))

lemma Reads.fetch (h : v.Reads m table) :
    v.fetch (m.key table) = .ok (v.ledger.record? (m.key table)) := if_neg h

/-- What is reported of a table is its count and its sizes as they are read by themselves, and an
error if one of them cannot be read. -/
lemma reportOf_agrees (v : Vault) (table : String) :
    (v.reportOf table).map (fun r => (r.count, r.extent)) = do
      let n ← v.countOf table
      let x ← v.extentOf table
      return (n, x) := by
  simp only [reportOf, countOf, extentOf, value]
  cases v.fetch (Measure.count.key table) with
  | error failure => rfl
  | ok c =>
    cases v.fetch (Measure.unreplicated.key table) with
    | error failure => rfl
    | ok u => cases v.fetch (Measure.replicated.key table) <;> rfl

lemma isLatest_reportOf (h : ∀ m, v.Reads m table) :
    ∃ r, v.reportOf table = .ok r ∧ IsLatest (v.recordsOf table) r.updatedAt := by
  simp only [reportOf, (h _).fetch]
  refine ⟨_, rfl, ?_⟩
  have hnone : IsLatest [] none := rfl
  have hall := ((hnone.latest (v.ledger.record? (Measure.count.key table))).latest
    (v.ledger.record? (Measure.unreplicated.key table))).latest
    (v.ledger.record? (Measure.replicated.key table))
  simpa [recordsOf, Measure.all] using hall

/-! ### Reading what was persisted -/

section Persisted

variable {t : Totals} {settings : Settings} {names : List String} {w : Vault} {n x : Int64}
  (hproper : t.Proper settings names) (hclash : settings.Unshadowed)
  (hpersist : v.persist t = (v', .ok ())) (hledger : w.ledger = v'.ledger)

include hproper hclash hpersist hledger

/-- The record of a total can be read after the total was persisted, as of the moment at which
persisting began. -/
lemma fetch_persisted (hread : w.Reads m table) (hx : t.value? m table = some x) :
    w.fetch (m.key table) =
      .ok (some { key := m.key table, value := x, updatedAt := v.clock }) := by
  rw [hread.fetch, hledger, hproper.record?_persist hpersist hclash hx]

lemma value_persisted (hread : w.Reads m table) (hx : t.value? m table = some x) :
    w.value m table = .ok x := by
  rw [value, fetch_persisted hproper hclash hpersist hledger hread hx]
  rfl

lemma extentOf_persisted {x : Extent} (hunreplicated : w.Reads .unreplicated table)
    (hreplicated : w.Reads .replicated table) (hx : t.extent? table = some x) :
    w.extentOf table = .ok x := by
  obtain ⟨hu, hr⟩ := Totals.extent?_eq_some.1 hx
  rw [extentOf, value_persisted hproper hclash hpersist hledger hunreplicated hu,
    value_persisted hproper hclash hpersist hledger hreplicated hr]
  rfl

/-- A table of which all three totals were persisted is reported as of the moment at which that
began. -/
lemma reportOf_persisted {x : Extent} (hread : ∀ m, w.Reads m table)
    (hn : t.count? table = some n) (hx : t.extent? table = some x) :
    w.reportOf table = .ok ⟨n, x, some v.clock⟩ := by
  obtain ⟨hu, hr⟩ := Totals.extent?_eq_some.1 hx
  have hmax : max v.clock v.clock = v.clock := (max_eq _ _).elim id id
  rw [reportOf, fetch_persisted hproper hclash hpersist hledger (hread .count) hn,
    fetch_persisted hproper hclash hpersist hledger (hread .unreplicated) hu,
    fetch_persisted hproper hclash hpersist hledger (hread .replicated) hr]
  change Except.ok _ = _
  simp [latest, hmax]

end Persisted

lemma reads_of_persist {t : Totals} (hsteady : v.refusals.later = [])
    (h : v.persist t = (v', .ok ())) {name : String} (hx : (t.value? m name).isSome) :
    v'.Reads m name := by
  obtain ⟨x, hx⟩ := Option.isSome_iff_exists.1 hx
  rcases v.persist_cases t with ⟨done, a, failure, -, -, heq⟩ | ⟨hnever, heq⟩
  · rw [h] at heq
    cases heq
  rw [h] at heq
  obtain rfl : v' = v.grantAll (t.asks v.clock v.ledger.readings) := congrArg Prod.fst heq
  have hgroup : t.records m v.clock ∈ Measure.all.map fun m => t.records m v.clock :=
    List.mem_map_of_mem m.mem_all
  obtain ⟨before, after, hsplit⟩ :=
    List.append_of_mem (List.mem_cons_of_mem .clock
      (Ledger.read_mem_asks hgroup v.ledger.readings))
  have hgranted : ¬v.Refuses before (.read ((t.records m v.clock).map Record.key)) :=
    hnever before _ after hsplit
  have hsame : ∀ k, Refusals.next^[k] v.refusals = v.refusals :=
    Function.iterate_fixed (Refusals.next_of_steady hsteady)
  rw [Reads, refusals_grantAll, hsame]
  intro hrefused
  refine hgranted ?_
  rw [Refuses, refusal?, hsame, Switches.refuse?, if_pos]
  · exact Option.some_ne_none _
  · exact ⟨m.key name, List.mem_map.2 ⟨_, Totals.record_mem hx v.clock, rfl⟩, hrefused⟩

end Vault

namespace Totals.Proper

variable {t : Totals} {settings : Settings} {names : List String} {name : String}

lemma exists_count? (h : t.Proper settings names) (hname : name ∈ names) :
    ∃ n, t.count? name = some n :=
  Option.isSome_iff_exists.1 ((h.covered _ _).2 (Settings.covers_count.2 hname))

lemma exists_extent? (h : t.Proper settings names) (hname : name ∈ settings.sizedTables) :
    ∃ x, t.extent? name = some x := by
  have hsize : ∀ m, m ≠ .count → ∃ y, t.value? m name = some y := fun m hm =>
    Option.isSome_iff_exists.1 ((h.covered m name).2 ((Settings.covers_size hm).2 hname))
  obtain ⟨u, hu⟩ := hsize .unreplicated (by decide)
  obtain ⟨r, hr⟩ := hsize .replicated (by decide)
  exact ⟨⟨u, r⟩, extent?_eq_some.2 ⟨hu, hr⟩⟩

end Totals.Proper

namespace Engine

lemma proper_of_ready (settings : Settings) (errands : List Errand)
    (hready : ((new settings).afterAll errands).ready = true) :
    ∃ names, ((new settings).afterAll errands).tables = settings.assign names ∧
      ((new settings).afterAll errands).totals.Proper settings names := by
  obtain ⟨hsettings, hholds⟩ := holds_afterAll (holds_new settings) errands
  generalize (lastTaken? _ errands).or none = held at hholds
  cases held with
  | none => simp [hholds.1] at hready
  | some names =>
    obtain ⟨-, htables, hproper⟩ := hholds
    rw [hsettings] at htables hproper
    exact ⟨names, htables, hproper⟩

/-- **What is reported is what the engine holds.** Let an engine go through any calls, each of which
finds sources and a vault of its own and may break off anywhere, and persist its totals in the end.
If no sized table is named like another one with `Un` behind, the count that is read of a table
that the engine watches is the engine's, and so are the sizes that are read of a table that is set
to be sized, whether or not there is such a table; a table of which there are both is reported as
of the moment at which persisting began. All of this can be read unless it is refused from some
later time on. Of any table in any vault the report tells the count and
the sizes that are read by themselves, and the latest moment at which one of the table's records
was written, which it leaves out just where there is no record. -/
theorem report_reads_totals (settings : Settings) (errands : List Errand) (v v' : Vault) :
    let e := (new settings).afterAll errands
    (settings.Unshadowed → e.ready = true → e.persist v = (v', .ok ()) →
      (∀ w : Vault, w.ledger = v'.ledger →
        (∀ name watch, e.tables.get? name = some watch → w.Reads .count name →
          ∃ n, e.totals.count? name = some n ∧ w.countOf name = .ok n) ∧
        (∀ name ∈ settings.sizedTables, w.Reads .unreplicated name → w.Reads .replicated name →
          ∃ x, e.totals.extent? name = some x ∧ w.extentOf name = .ok x) ∧
        ∀ name watch, e.tables.get? name = some watch → watch.tracksSize = true →
          (∀ m, w.Reads m name) →
          ∃ n x, e.totals.count? name = some n ∧ e.totals.extent? name = some x ∧
            w.reportOf name = .ok ⟨n, x, some v.clock⟩) ∧
      (v.refusals.later = [] → ∀ m name, (e.totals.value? m name).isSome → v'.Reads m name)) ∧
    (∀ (any : Vault) table, (any.reportOf table).map (fun r => (r.count, r.extent)) = do
      let n ← any.countOf table
      let x ← any.extentOf table
      return (n, x)) ∧
    ∀ (any : Vault) table, (∀ m, any.Reads m table) →
      ∃ r, any.reportOf table = .ok r ∧ Vault.IsLatest (any.recordsOf table) r.updatedAt ∧
        (r.updatedAt = none ↔ ∀ m : Measure, any.ledger.record? (m.key table) = none) := by
  intro e
  refine ⟨fun hclash hready hpersist => ?_, Vault.reportOf_agrees, fun any table hreadable => ?_⟩
  · obtain ⟨names, htables, hproper⟩ := proper_of_ready settings errands hready
    have hwatched : ∀ {name w}, e.tables.get? name = some w →
        name ∈ names ∧ settings.watchOf name = w := by
      intro name w hw
      rwa [htables, Settings.get?_assign_eq_some] at hw
    refine ⟨fun w hledger => ⟨fun name watch hw hread => ?_, fun name hname hu hr => ?_,
      fun name watch hw hsized hread => ?_⟩, fun hsteady m name hx => ?_⟩
    · obtain ⟨n, hn⟩ := hproper.exists_count? (hwatched hw).1
      exact ⟨n, hn, Vault.value_persisted hproper hclash hpersist hledger hread hn⟩
    · obtain ⟨x, hx⟩ := hproper.exists_extent? hname
      exact ⟨x, hx, Vault.extentOf_persisted hproper hclash hpersist hledger hu hr hx⟩
    · obtain ⟨hname, rfl⟩ := hwatched hw
      obtain ⟨n, hn⟩ := hproper.exists_count? hname
      obtain ⟨x, hx⟩ := hproper.exists_extent? (Settings.mem_sizedTables.2 hsized)
      exact ⟨n, x, hn, hx, Vault.reportOf_persisted hproper hclash hpersist hledger hread hn hx⟩
    · exact Vault.reads_of_persist hsteady hpersist hx
  · obtain ⟨r, hr, hlatest⟩ := Vault.isLatest_reportOf hreadable
    exact ⟨r, hr, hlatest, hlatest.eq_none_iff.trans Vault.recordsOf_eq_nil⟩

/-- A database in which other settings left sizes of a table, at a later moment than its clock
shows now. -/
def leftBehind : Vault :=
  { (({ ledger := { backend := .database }, clock := 9 } : Vault).seed "kCount" 5).seed
      "cReplicatedDataSize" 5 with clock := -1 }

/-- Of two tables one is set to be sized, and all its records are written over. The other one is
counted, and its report shows the sizes that were left and their moment. -/
theorem report_reads_totals_left_behind :
    let e := (new .sizingKeys).afterAll interrupted
    let after := (e.persist leftBehind).1
    (∃ n x, e.totals.count? "k" = some n ∧ e.totals.extent? "k" = some x ∧
      after.reportOf "k" = .ok ⟨n, x, some (-1)⟩) ∧
    after.reportOf "k" = .ok ⟨1, ⟨7, 21⟩, some (-1)⟩ ∧
    (∃ n, e.totals.count? "c" = some n ∧ after.countOf "c" = .ok n) ∧
    (∃ r, after.reportOf "c" = .ok r ∧ Vault.IsLatest (after.recordsOf "c") r.updatedAt) ∧
    after.reportOf "c" = .ok ⟨2, ⟨0, 5⟩, some 9⟩ := by
  intro e after
  obtain ⟨hheld, -, hmoment⟩ := report_reads_totals .sizingKeys interrupted leftBehind after
  have hpersist : (e.persist leftBehind).2 = .ok () := by decide +kernel
  obtain ⟨hread, -⟩ := hheld (by decide +kernel) (by decide +kernel) (Prod.ext rfl hpersist)
  obtain ⟨hcount, -, hreport⟩ := hread after rfl
  have hk : e.tables.get? "k" = some (.sized .openKeys) := by decide +kernel
  have hc : e.tables.get? "c" = some .counted := by decide +kernel
  have hreadable : ∀ table m, after.Reads m table := by
    have hnone : after.refusals.records = [] := by decide +kernel
    intro table m
    rw [Vault.Reads, hnone]
    exact List.not_mem_nil
  obtain ⟨r, hr, hlatest, -⟩ := hmoment after "c" (hreadable "c")
  exact ⟨hreport "k" _ hk rfl (hreadable "k"), by decide +kernel,
    hcount "c" _ hc (hreadable "c" .count), ⟨r, hr, hlatest⟩, by decide +kernel⟩

end Engine

end TableTotals
