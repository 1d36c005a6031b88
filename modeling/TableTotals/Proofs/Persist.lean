import TableTotals.Proofs.BulkWrite

/-!
What persisting totals leaves in a vault.

New keys are inserted and known ones updated, in two bulk writes for each measure. All of it comes
to writing the records of every measure in a row over the readings (`Vault.stored_persist`). Two
totals share a key only where the unreplicated size of a table meets the replicated size of a
table named like it with `Un` behind; the replicated size is then what stays
(`Vault.readings_total`).
-/

namespace TableTotals

namespace Measure

lemma key_inj {m : Measure} {a b : String} : m.key a = m.key b ↔ a = b :=
  String.append_left_inj m.suffix

lemma key_unreplicated (a : String) : unreplicated.key a = replicated.key (a ++ "Un") := by
  simp only [key, suffix, String.append_assoc]
  rfl

lemma last_key (m : Measure) (a : String) :
    (m.key a).toList.getLast? = some (if m = .count then 't' else 'e') := by
  cases m <;> simp [key, suffix, String.toList_append, List.getLast?_append]

lemma key_count_ne {m : Measure} (hm : m ≠ .count) (a b : String) :
    Measure.count.key a ≠ m.key b := by
  intro h
  have hlast := congrArg (·.toList.getLast?) h
  simp [last_key, hm] at hlast

/-- The only two totals of different measures that share a key. -/
lemma key_eq_key {m m' : Measure} {a b : String} (h : m.key a = m'.key b) (hm : m ≠ m') :
    (m = .unreplicated ∧ m' = .replicated ∧ b = a ++ "Un") ∨
      (m = .replicated ∧ m' = .unreplicated ∧ a = b ++ "Un") := by
  cases m with
  | count => exact absurd h (key_count_ne hm.symm a b)
  | unreplicated =>
    cases m' with
    | count => exact absurd h.symm (key_count_ne hm b a)
    | unreplicated => exact absurd rfl hm
    | replicated =>
      rw [key_unreplicated, key_inj] at h
      exact .inl ⟨rfl, rfl, h.symm⟩
  | replicated =>
    cases m' with
    | count => exact absurd h.symm (key_count_ne hm b a)
    | unreplicated =>
      rw [key_unreplicated, key_inj] at h
      exact .inr ⟨rfl, rfl, h⟩
    | replicated => exact absurd rfl hm

end Measure

/-! ### Bulk writes -/

namespace Ledger

variable {records : List Record} (readings : SortedMap String Reading) {key : String}

lemma ext_readings {l l' : Ledger} (hbackend : l'.backend = l.backend)
    (hreadings : l'.readings = l.readings) : l' = l := by
  cases l
  cases l'
  simp_all

/-! What is read after a row of writes. -/

lemma get?_foldl_write_of_ne (h : ∀ r ∈ records, r.key ≠ key) :
    (records.foldl write readings).get? key = readings.get? key :=
  SortedMap.get?_foldl_insert_of_ne (f := Record.key) (g := Record.toReading) h readings

lemma get?_foldl_write_of_mem {r : Record} (hr : r ∈ records)
    (h : ∀ b ∈ records, b.key = r.key → b.toReading = r.toReading) :
    (records.foldl write readings).get? r.key = some r.toReading :=
  SortedMap.get?_foldl_insert_of_mem (f := Record.key) (g := Record.toReading) hr h readings

def Distinct (records : List Record) : Prop :=
  ∀ a ∈ records, ∀ b ∈ records, a.key = b.key → a = b

lemma foldl_write_congr {others : List Record} (hmem : ∀ r, r ∈ others ↔ r ∈ records)
    (hdistinct : Distinct records) :
    others.foldl write readings = records.foldl write readings := by
  refine SortedMap.ext_get? fun key => ?_
  by_cases h : ∃ r ∈ records, r.key = key
  · obtain ⟨r, hr, rfl⟩ := h
    rw [get?_foldl_write_of_mem readings hr, get?_foldl_write_of_mem readings ((hmem r).2 hr)]
    · intro b hb hkey
      rw [hdistinct b ((hmem b).1 hb) r hr hkey]
    · intro b hb hkey
      rw [hdistinct b hb r hr hkey]
  · rw [get?_foldl_write_of_ne, get?_foldl_write_of_ne]
    · exact fun r hr hkey => h ⟨r, hr, hkey⟩
    · exact fun r hr hkey => h ⟨r, (hmem r).1 hr, hkey⟩

end Ledger

/-- Something was not read from a vault, or not written to it. -/
def Failure.OfVault (failure : Failure) : Prop :=
  (∃ cause, failure = .reading cause) ∨ ∃ cause, failure = .writing cause

namespace Vault

/-- The vault after some records were written in it; how many writes that took is left open. -/
structure Wrote (v : Vault) (records : List Record) (v' : Vault) : Prop where
  backend : v'.ledger.backend = v.ledger.backend
  readings : v'.ledger.readings = records.foldl Ledger.write v.ledger.readings
  clock : v'.clock = v.clock
  /-- What refuses nothing will go on so. -/
  calm : v.refusals = {} → v'.refusals = {}

variable {v v' v₁ : Vault} {records more : List Record} {r : Except Failure Unit}

lemma Wrote.nil (v : Vault) : v.Wrote [] v := ⟨rfl, rfl, rfl, id⟩

lemma Wrote.trans (h : v.Wrote records v₁) (h₁ : v₁.Wrote more v') :
    v.Wrote (records ++ more) v' where
  backend := h₁.backend.trans h.backend
  readings := by rw [List.foldl_append, ← h.readings, h₁.readings]
  clock := h₁.clock.trans h.clock
  calm hcalm := h₁.calm (h.calm hcalm)

lemma refusals_switched (h : v.refusals = {}) : v.switched.refusals = {} := by
  rw [switched_of_calm h, h]

lemma wrote_switched (v : Vault) : v.Wrote [] v.switched := ⟨rfl, rfl, rfl, refusals_switched⟩

/-- A bulk write in a vault succeeds with all records written, or fails as a write with none. -/
def Bulk (v : Vault) (records : List Record) : Vault × Except Failure Unit → Prop
  | (v', .ok ()) => v.Wrote records v'
  | (v', .error failure) => v.Wrote [] v' ∧ ∃ cause, failure = .writing cause

lemma bulk_inVault (w : BulkWrite) (v : Vault) (records : List Record) :
    v.Bulk records (w.inVault v records) := by
  have hledger := w.inLedger_cases v.ledger records
  cases w with
  | insertion =>
    rw [BulkWrite.inVault, insert]
    split
    · exact ⟨v.wrote_switched, _, rfl⟩
    · rcases hledger with ⟨before, b, -, heq⟩ | ⟨-, heq⟩ <;> rw [BulkWrite.inLedger] at heq <;>
        rw [heq]
      · exact ⟨v.wrote_switched, _, rfl⟩
      · exact ⟨rfl, rfl, rfl, refusals_switched⟩
  | update =>
    rw [BulkWrite.inVault, update]
    split
    · exact ⟨v.wrote_switched, _, rfl⟩
    · rcases hledger with ⟨before, b, -, heq⟩ | ⟨-, heq⟩ <;> rw [BulkWrite.inLedger] at heq <;>
        rw [heq]
      · exact ⟨v.wrote_switched, _, rfl⟩
      · exact ⟨rfl, rfl, rfl, refusals_switched⟩

lemma bulk_unlessEmpty (w : BulkWrite) (v : Vault) (records : List Record) :
    v.Bulk records (unlessEmpty w.inVault records v) := by
  unfold unlessEmpty
  split
  next hempty =>
    rw [List.isEmpty_iff.1 hempty]
    exact v.wrote_switched
  · exact bulk_inVault w v records

/-- What sorting records comes to: those of new keys and those of known ones, unless the record
of one of the keys is not read out. -/
lemma sort_cases (v : Vault) (records : List Record) :
    v.sort records = .error (.reading .recordRefused) ∨
    ∃ fresh known, v.sort records = .ok (fresh, known) ∧
      ∀ r, r ∈ fresh ++ known ↔ r ∈ records := by
  induction records with
  | nil => exact .inr ⟨[], [], rfl, by simp⟩
  | cons r rest ih =>
    by_cases hr : r.key ∈ v.refusals.records
    · left
      simp only [sort, fetch, if_pos hr]
      rfl
    · rcases ih with herr | ⟨fresh, known, hok, hmem⟩
      · left
        simp only [sort, fetch, if_neg hr, herr]
        rfl
      · cases hold : (v.ledger.record? r.key).isNone with
        | true =>
          refine .inr ⟨r :: fresh, known, ?_, fun b => ?_⟩
          · simp only [sort, fetch, if_neg hr, hok]
            simp [bind, Except.bind, hold]
            rfl
          · simp only [List.cons_append, List.mem_cons, hmem]
        | false =>
          refine .inr ⟨fresh, r :: known, ?_, fun b => ?_⟩
          · simp only [sort, fetch, if_neg hr, hok]
            simp [bind, Except.bind, hold]
            rfl
          · have hb := hmem b
            simp only [List.mem_append, List.mem_cons] at hb ⊢
            rw [← hb]
            tauto

/-- What storing records comes to: all of them are written, or some read or write failed. -/
def Stored (v : Vault) (records : List Record) : Vault × Except Failure Unit → Prop
  | (v', .ok ()) => v.Wrote records v'
  | (_, .error failure) => failure.OfVault

lemma Bulk.stored {result : Vault × Except Failure Unit} (h : v.Bulk records result) :
    v.Stored records result := by
  obtain ⟨v', failure | _⟩ := result
  · exact .inr h.2
  · exact h

lemma Stored.andThen {first : Vault × Except Failure Unit}
    {second : Vault → Vault × Except Failure Unit} (h : v.Stored records first)
    (hsecond : ∀ v₁, v.Wrote records v₁ → v₁.Stored more (second v₁)) :
    v.Stored (records ++ more) (andThen first second) := by
  obtain ⟨v₁, failure | _⟩ := first
  · exact h
  · have hnext := hsecond v₁ h
    show v.Stored (records ++ more) (second v₁)
    rcases hres : second v₁ with ⟨v', failure | _⟩
    · rw [hres] at hnext
      exact hnext
    · rw [hres] at hnext
      exact Wrote.trans h hnext

lemma stored_upsert (v : Vault) (hdistinct : Ledger.Distinct records) :
    v.Stored records (v.upsert records) := by
  unfold upsert
  rcases sort_cases v records with herr | ⟨fresh, known, hok, hmem⟩
  · rw [herr]
    exact .inl ⟨_, rfl⟩
  · rw [hok]
    have hboth : v.switched.Stored (fresh ++ known)
        (andThen (unlessEmpty insert fresh v.switched) (unlessEmpty update known)) :=
      (bulk_unlessEmpty .insertion v.switched fresh).stored.andThen fun v₁ _ =>
        (bulk_unlessEmpty .update v₁ known).stored
    show v.Stored records (andThen (unlessEmpty insert fresh v.switched) (unlessEmpty update known))
    rcases hres : andThen (unlessEmpty insert fresh v.switched) (unlessEmpty update known) with
      ⟨v', failure | _⟩
    · rw [hres] at hboth
      exact hboth
    · rw [hres] at hboth
      have hwrote : v.Wrote (fresh ++ known) v' := v.wrote_switched.trans hboth
      refine ⟨hwrote.backend, ?_, hwrote.clock, hwrote.calm⟩
      rw [hwrote.readings, Ledger.foldl_write_congr _ hmem hdistinct]

lemma stored_upsertAll {groups : List (List Record)} (v : Vault)
    (h : ∀ records ∈ groups, Ledger.Distinct records) :
    v.Stored groups.flatten (upsertAll groups v) := by
  induction groups generalizing v with
  | nil => exact .nil v
  | cons records rest ih =>
    rw [List.flatten_cons]
    refine (stored_upsert v (h records (by simp))).andThen fun v₁ _ => ?_
    exact ih v₁ fun group hgroup => h group (by simp [hgroup])

end Vault

/-! ### Totals as records -/

namespace Totals

lemma mem_records {t : Totals} {m : Measure} {now : Moment} {r : Record} :
    r ∈ t.records m now ↔ ∃ table x, t.value? m table = some x ∧
      r = { key := m.key table, value := x, updatedAt := now } := by
  simp only [records, List.mem_map, Prod.exists, SortedMap.mem_entries, value?, eq_comm (a := r)]

lemma record_mem {t : Totals} {m : Measure} {table : String} {x : Int64}
    (hx : t.value? m table = some x) (now : Moment) :
    { key := m.key table, value := x, updatedAt := now } ∈ t.records m now :=
  mem_records.2 ⟨table, x, hx, rfl⟩

lemma distinct_records (t : Totals) (m : Measure) (now : Moment) :
    Ledger.Distinct (t.records m now) := by
  intro a ha b hb hkey
  obtain ⟨table, x, hx, rfl⟩ := mem_records.1 ha
  obtain ⟨table', y, hy, rfl⟩ := mem_records.1 hb
  obtain rfl := Measure.key_inj.1 hkey
  rw [hx] at hy
  cases hy
  rfl

def allRecords (t : Totals) (now : Moment) : List Record :=
  (Measure.all.map fun m => t.records m now).flatten

lemma mem_allRecords {t : Totals} {now : Moment} {r : Record} :
    r ∈ t.allRecords now ↔ ∃ m, r ∈ t.records m now := by
  simp only [allRecords, Measure.all, List.map_cons, List.map_nil, List.mem_flatten]
  constructor
  · rintro ⟨group, hgroup, hr⟩
    simp only [List.mem_cons, List.not_mem_nil, or_false] at hgroup
    rcases hgroup with rfl | rfl | rfl <;> exact ⟨_, hr⟩
  · rintro ⟨m, hr⟩
    exact ⟨_, by cases m <;> simp, hr⟩

end Totals

namespace Vault

/-- The recorded value of a measure of a table, whether or not it is read out. -/
def recorded (v : Vault) (m : Measure) (table : String) : Int64 :=
  ((v.ledger.readings.get? (m.key table)).map (·.value)).getD 0

variable {v v' : Vault} {t : Totals} {r : Except Failure Unit}

/-- **What persisting comes to.** Every total is written as of one moment, or some read or write
failed. -/
theorem stored_persist (v : Vault) (t : Totals) :
    v.Stored (t.allRecords v.clock) (v.persist t) := by
  unfold persist now
  by_cases hclock : v.refusals.clock = true
  · rw [if_pos hclock]
    exact .inl ⟨_, rfl⟩
  · rw [if_neg hclock]
    have hstored : v.switched.Stored (t.allRecords v.clock)
        (upsertAll (Measure.all.map fun m => t.records m v.clock) v.switched) := by
      refine stored_upsertAll v.switched fun records hrecords => ?_
      obtain ⟨m, -, rfl⟩ := List.mem_map.1 hrecords
      exact t.distinct_records m v.clock
    rcases hres : upsertAll (Measure.all.map fun m => t.records m v.clock) v.switched with
      ⟨v', failure | _⟩
    · rw [hres] at hstored
      simp only [hres]
      exact hstored
    · rw [hres] at hstored
      simp only [hres]
      exact v.wrote_switched.trans hstored

lemma persist_eq_ok (h : v.persist t = (v', .ok ())) : v.Wrote (t.allRecords v.clock) v' := by
  have hstored := v.stored_persist t
  rwa [h] at hstored

lemma persist_failure {failure : Failure} (h : v.persist t = (v', .error failure)) :
    failure.OfVault := by
  have hstored := v.stored_persist t
  rwa [h] at hstored

/-- What is read back under the key of a total, where no later measure has a total of that key. -/
lemma readings_persist (h : v.persist t = (v', .ok ())) {m : Measure} {table : String} {x : Int64}
    (hx : t.value? m table = some x)
    (hlast : m = .unreplicated → t.value? .replicated (table ++ "Un") = none) :
    v'.ledger.readings.get? (m.key table) = some ⟨x, v.clock⟩ := by
  rw [(persist_eq_ok h).readings]
  by_cases hm : m = .replicated
  · -- its records are written last
    subst hm
    have hall : t.allRecords v.clock =
        (t.records .count v.clock ++ t.records .unreplicated v.clock) ++
          t.records .replicated v.clock := by
      simp [Totals.allRecords, Measure.all]
    have hmem := Totals.record_mem hx v.clock
    rw [hall, List.foldl_append]
    refine Ledger.get?_foldl_write_of_mem _ hmem fun b hb hkey => ?_
    rw [t.distinct_records .replicated v.clock b hb _ hmem hkey]
  · have hmem := Totals.mem_allRecords.2 ⟨m, Totals.record_mem hx v.clock⟩
    refine Ledger.get?_foldl_write_of_mem _ hmem fun b hb hkey => ?_
    obtain ⟨m', hb'⟩ := Totals.mem_allRecords.1 hb
    obtain ⟨table', y, hy, rfl⟩ := Totals.mem_records.1 hb'
    by_cases hmm : m' = m
    · subst hmm
      obtain rfl := Measure.key_inj.1 hkey
      obtain rfl : y = x := by simpa [hy] using hx
      rfl
    · rcases Measure.key_eq_key hkey hmm with ⟨-, hr, -⟩ | ⟨rfl, hu, rfl⟩
      · exact absurd hr hm
      · rw [hlast hu] at hy
        cases hy

/-- **What is read back after persisting.** Under the key of every total that total is, but for
the unreplicated size of a table named like one that has a replicated size, less the `Un` behind:
that size is there instead. -/
theorem readings_total (h : v.persist t = (v', .ok ())) {m : Measure} {table : String}
    {x : Int64} (hx : t.value? m table = some x) :
    v'.ledger.readings.get? (m.key table) =
      some ⟨if m = .unreplicated then (t.value? .replicated (table ++ "Un")).getD x else x,
        v.clock⟩ := by
  split
  next hm =>
    subst hm
    cases hr : t.value? .replicated (table ++ "Un") with
    | none => exact readings_persist h hx fun _ => hr
    | some y =>
      rw [Measure.key_unreplicated]
      exact readings_persist h hr (by simp)
  next hm => exact readings_persist h hx fun hu => absurd hu hm

lemma readings_of_no_total (h : v.persist t = (v', .ok ())) {key : String}
    (hkey : ∀ m table, m.key table = key → t.value? m table = none) :
    v'.ledger.readings.get? key = v.ledger.readings.get? key := by
  rw [(persist_eq_ok h).readings]
  refine Ledger.get?_foldl_write_of_ne _ fun r hr hrkey => ?_
  obtain ⟨m, hr⟩ := Totals.mem_allRecords.1 hr
  obtain ⟨table, x, hx, rfl⟩ := Totals.mem_records.1 hr
  rw [hkey m table hrkey] at hx
  cases hx

lemma recorded_persist (h : v.persist t = (v', .ok ())) {m : Measure} {table : String}
    {x : Int64} (hx : t.value? m table = some x) :
    v'.recorded m table =
      if m = .unreplicated then (t.value? .replicated (table ++ "Un")).getD x else x := by
  rw [recorded, readings_total h hx]
  rfl

end Vault

end TableTotals
