import Mathlib.Algebra.Ring.Nat
import Mathlib.Data.Finset.Card
import TableTotals.Proofs.Persist

/-!
Persisting as an exact upsert.

Where nothing is refused, persisting succeeds whatever the ledger holds: the keys that are
inserted in one call are new and no two of them are equal, and those that are updated are there.
Every measure is sorted into new keys and known ones after the measures before it were written,
so a key that two measures share is inserted by the first one and updated by the last one, whose
total stays (`Vault.persist_upserts`). A key is inserted once or not at all, which makes the
insertions the new keys and the updates all other totals (`Vault.upsertAll_eq`).
-/

namespace TableTotals

namespace Ledger

variable {records : List Record} {readings : SortedMap String Reading}

/-! Bulk writes whose records have the keys that they should have. -/

lemma insert_eq_ok {l : Ledger} (hnodup : (records.map Record.key).Nodup)
    (hfresh : ∀ r ∈ records, l.readings.get? r.key = none) :
    l.insert records = ({ l with readings := records.foldl write l.readings }, .ok ()) := by
  have hnever : Never (BulkWrite.insertion.Denies l) records := by
    rintro before r after rfl
    have hnone : l.record? r.key = none := record?_eq_none.2 (hfresh r (by simp))
    have hnew : r.key ∉ before.map Record.key := BulkWrite.key_notMem_before hnodup
    cases hbackend : l.backend <;> simp [BulkWrite.Denies, hbackend, hnone, hnew]
  exact BulkWrite.inLedger_of_never hnever

lemma update_eq_ok {l : Ledger} (hknown : ∀ r ∈ records, l.readings.get? r.key ≠ none) :
    l.update records = ({ l with readings := records.foldl write l.readings }, .ok ()) := by
  have hnever : Never (BulkWrite.update.Denies l) records := by
    rintro before r after rfl hnone
    exact hknown r (by simp) (record?_eq_none.1 hnone)
  exact BulkWrite.inLedger_of_never hnever

/-! ### New keys -/

/-- How many different keys of some records have no record. -/
def newKeys (l : Ledger) (keys : List String) : Nat :=
  (keys.toFinset.filter fun key => l.record? key = none).card

/-- The keys of one group that are new are counted once if no two of its records share one. -/
lemma newKeys_of_nodup {l : Ledger} (hnodup : (records.map Record.key).Nodup) :
    l.newKeys (records.map Record.key) =
      (records.filter fun r => l.record? r.key = none).length := by
  have hfilter : (records.map Record.key).toFinset.filter (fun key => l.record? key = none) =
      ((records.filter fun r => l.record? r.key = none).map Record.key).toFinset := by
    ext key
    simp only [Finset.mem_filter, List.mem_toFinset, List.mem_map, List.mem_filter,
      decide_eq_true_eq]
    constructor
    · rintro ⟨⟨r, hr, rfl⟩, hnone⟩
      exact ⟨r, ⟨hr, hnone⟩, rfl⟩
    · rintro ⟨r, ⟨hr, hnone⟩, rfl⟩
      exact ⟨⟨r, hr, rfl⟩, hnone⟩
  have hsub : ((records.filter fun r => l.record? r.key = none).map Record.key).Nodup :=
    hnodup.sublist (List.filter_sublist.map _)
  rw [newKeys, hfilter, List.toFinset_card_of_nodup hsub, List.length_map]

lemma newKeys_append {l l₁ : Ledger} (h : l₁.readings = records.foldl write l.readings)
    (more : List Record) :
    l.newKeys ((records ++ more).map Record.key) =
      l.newKeys (records.map Record.key) + l₁.newKeys (more.map Record.key) := by
  have hlater : ∀ key, l₁.record? key = none ↔
      l.record? key = none ∧ key ∉ records.map Record.key := by
    intro key
    rw [record?_eq_none, record?_eq_none, h, get?_foldl_write_eq_none]
  have hsplit : ((records ++ more).map Record.key).toFinset.filter
        (fun key => l.record? key = none) =
      (records.map Record.key).toFinset.filter (fun key => l.record? key = none) ∪
        (more.map Record.key).toFinset.filter (fun key => l₁.record? key = none) := by
    ext key
    simp only [List.map_append, List.toFinset_append, Finset.mem_filter, Finset.mem_union,
      List.mem_toFinset, hlater]
    tauto
  have hdisjoint : Disjoint
      ((records.map Record.key).toFinset.filter fun key => l.record? key = none)
      ((more.map Record.key).toFinset.filter fun key => l₁.record? key = none) := by
    refine Finset.disjoint_left.2 fun key hfirst hother => ?_
    have hmem := List.mem_toFinset.1 (Finset.mem_filter.1 hfirst).1
    exact ((hlater key).1 (Finset.mem_filter.1 hother).2).2 hmem
  rw [newKeys, newKeys, newKeys, hsplit, Finset.card_union_of_disjoint hdisjoint]

end Ledger

/-! ### Storing records -/

namespace Vault

variable {v v' : Vault} {records : List Record}

lemma sort_eq_ok (h : v.refusals.records = []) (records : List Record) :
    v.sort records = .ok (records.filter fun r => v.ledger.record? r.key = none,
      records.filter fun r => v.ledger.record? r.key ≠ none) := by
  induction records with
  | nil => rfl
  | cons r rest ih =>
    have hread : v.fetch r.key = .ok (v.ledger.record? r.key) := by
      rw [fetch, h, if_neg (by simp)]
    simp only [sort, hread, ih]
    cases hold : v.ledger.record? r.key <;> simp [bind, Except.bind, hold] <;> rfl

def writing (v : Vault) (records : List Record) : Vault :=
  { v.switched with ledger.readings := records.foldl Ledger.write v.ledger.readings }

lemma unlessEmpty_insert_eq (h : v.refusals.inserts = false)
    (hnodup : (records.map Record.key).Nodup)
    (hfresh : ∀ r ∈ records, v.ledger.readings.get? r.key = none) :
    unlessEmpty insert records v =
      ({ v.writing records with inserted := v.inserted + records.length }, .ok ()) := by
  unfold unlessEmpty
  split
  next hempty => rw [List.isEmpty_iff.1 hempty]; rfl
  next =>
    unfold insert
    rw [h, Ledger.insert_eq_ok hnodup hfresh]
    rfl

lemma unlessEmpty_update_eq (h : v.refusals.updates = false)
    (hknown : ∀ r ∈ records, v.ledger.readings.get? r.key ≠ none) :
    unlessEmpty update records v =
      ({ v.writing records with updated := v.updated + records.length }, .ok ()) := by
  unfold unlessEmpty
  split
  next hempty => rw [List.isEmpty_iff.1 hempty]; rfl
  next =>
    unfold update
    rw [h, Ledger.update_eq_ok hknown]
    rfl

/-- The vault after some records were stored one way or the other: the new keys are counted as
insertions and all other records as updates. -/
structure Upserted (v : Vault) (records : List Record) (v' : Vault) : Prop where
  wrote : v.Wrote records v'
  inserted : v'.inserted = v.inserted + v.ledger.newKeys (records.map Record.key)
  updated : v'.updated + v.ledger.newKeys (records.map Record.key) = v.updated + records.length

lemma distinct_of_nodup (h : (records.map Record.key).Nodup) : Ledger.Distinct records :=
  fun _ ha _ hb hkey => List.inj_on_of_nodup_map h ha hb hkey

lemma upsert_eq_ok (h : v.refusals = {}) (hnodup : (records.map Record.key).Nodup) :
    ∃ v', v.upsert records = (v', .ok ()) ∧ v.Upserted records v' := by
  let fresh := records.filter fun r => v.ledger.record? r.key = none
  let known := records.filter fun r => v.ledger.record? r.key ≠ none
  have hsort : v.sort records = .ok (fresh, known) := sort_eq_ok (by rw [h]) records
  have hfresh : ∀ r ∈ fresh, v.ledger.readings.get? r.key = none := by
    intro r hr
    exact Ledger.record?_eq_none.1 (by simpa using (List.mem_filter.1 hr).2)
  have hknown : ∀ r ∈ known,
      (fresh.foldl Ledger.write v.ledger.readings).get? r.key ≠ none := by
    intro r hr hnone
    have hsome : v.ledger.record? r.key ≠ none := by simpa using (List.mem_filter.1 hr).2
    exact hsome (Ledger.record?_eq_none.2 (Ledger.get?_foldl_write_eq_none.1 hnone).1)
  have hmem : ∀ r, r ∈ fresh ++ known ↔ r ∈ records := by
    intro r
    simp only [fresh, known, List.mem_append, List.mem_filter, decide_eq_true_eq]
    tauto
  have hlength : fresh.length + known.length = records.length := by
    have hsum := List.length_eq_length_filter_add (l := records)
      fun r => decide (v.ledger.record? r.key = none)
    simpa [fresh, known] using hsum.symm
  have hsub : (fresh.map Record.key).Nodup := hnodup.sublist (List.filter_sublist.map _)
  let v₁ : Vault := { v.writing fresh with inserted := v.inserted + fresh.length }
  let v₂ : Vault := { v₁.writing known with updated := v.updated + known.length }
  have hinsert : unlessEmpty insert fresh v = (v₁, .ok ()) :=
    unlessEmpty_insert_eq (by rw [h]) hsub hfresh
  have hcalm : v₁.refusals = {} := refusals_switched h
  have hupdate : unlessEmpty update known v₁ = (v₂, .ok ()) :=
    unlessEmpty_update_eq (by rw [hcalm]) hknown
  have hreadings : v₂.ledger.readings = records.foldl Ledger.write v.ledger.readings := by
    show known.foldl Ledger.write (fresh.foldl Ledger.write v.ledger.readings) = _
    rw [← List.foldl_append, Ledger.foldl_write_congr _ hmem (distinct_of_nodup hnodup)]
  have hnew : v.ledger.newKeys (records.map Record.key) = fresh.length :=
    Ledger.newKeys_of_nodup hnodup
  refine ⟨v₂, ?_, ⟨rfl, hreadings, rfl, fun _ => refusals_switched hcalm⟩, ?_, ?_⟩
  · unfold upsert
    simp only [hsort, switched_of_calm h, hinsert]
    exact hupdate
  · rw [hnew]
    rfl
  · rw [hnew]
    show v.updated + known.length + fresh.length = _
    omega

lemma Upserted.trans {v₁ : Vault} {more : List Record} (h : v.Upserted records v₁)
    (h₁ : v₁.Upserted more v') : v.Upserted (records ++ more) v' := by
  have hnew := Ledger.newKeys_append h.wrote.readings more
  have hins := h.inserted
  have hins₁ := h₁.inserted
  have hupd := h.updated
  have hupd₁ := h₁.updated
  refine ⟨h.wrote.trans h₁.wrote, ?_, ?_⟩
  · omega
  · rw [List.length_append]
    omega

lemma upsertAll_eq_ok {groups : List (List Record)} (h : v.refusals = {})
    (hnodup : ∀ group ∈ groups, (group.map Record.key).Nodup) :
    ∃ v', upsertAll groups v = (v', .ok ()) ∧ v.Upserted groups.flatten v' := by
  induction groups generalizing v with
  | nil => exact ⟨v, rfl, .nil v, by simp [Ledger.newKeys], by simp [Ledger.newKeys]⟩
  | cons group rest ih =>
    obtain ⟨v₁, hfirst, hups⟩ := upsert_eq_ok h (hnodup group (by simp))
    obtain ⟨v', hrest, hups'⟩ := ih (hups.wrote.calm h)
      fun g hg => hnodup g (by simp [hg])
    refine ⟨v', ?_, ?_⟩
    · rw [upsertAll, hfirst]
      exact hrest
    · rw [List.flatten_cons]
      exact hups.trans hups'

end Vault

/-! ### Totals as records -/

namespace Totals

variable {t : Totals} {m : Measure} {key : String} {x : Int64}

/-- The keys under which totals are recorded, one for each total. -/
def keys (t : Totals) : List String := Measure.all.flatMap fun m => (t.column m).keys.map m.key

def size (t : Totals) : Nat := (Measure.all.map fun m => (t.column m).size).sum

/-- The total of a measure that is recorded under a key. -/
def under? (t : Totals) (m : Measure) (key : String) : Option Int64 :=
  ((t.column m).entries.find? fun p => m.key p.1 = key).map (·.2)

/-- The total of the last of the measures that record one under a key. -/
def last? (t : Totals) (key : String) : Option Int64 :=
  Measure.all.reverse.findSome? fun m => t.under? m key

lemma map_key_records (t : Totals) (m : Measure) (now : Moment) :
    (t.records m now).map Record.key = (t.column m).keys.map m.key := by
  simp only [records, SortedMap.keys, List.map_map]
  rfl

lemma nodup_records (t : Totals) (m : Measure) (now : Moment) :
    ((t.records m now).map Record.key).Nodup := by
  rw [map_key_records]
  exact (t.column m).nodup_keys.map fun _ _ hkey => Measure.key_inj.1 hkey

lemma map_key_allRecords (t : Totals) (now : Moment) :
    (t.allRecords now).map Record.key = t.keys := by
  rw [allRecords, List.map_flatten, List.map_map, keys, List.flatMap]
  congr 1
  exact List.map_congr_left fun m _ => t.map_key_records m now

lemma length_keys (t : Totals) : t.keys.length = t.size := by
  simp [keys, size, List.length_flatMap, SortedMap.keys, SortedMap.size]

lemma length_allRecords (t : Totals) (now : Moment) : (t.allRecords now).length = t.size := by
  rw [← t.length_keys, ← t.map_key_allRecords now, List.length_map]

lemma under?_eq_some (h : t.under? m key = some x) :
    ∃ table, m.key table = key ∧ t.value? m table = some x := by
  obtain ⟨p, hp, rfl⟩ := Option.map_eq_some_iff.1 h
  refine ⟨p.1, by simpa using List.find?_some hp, ?_⟩
  exact SortedMap.mem_entries.1 (List.mem_of_find?_eq_some hp)

lemma under?_eq_none (h : t.under? m key = none) {table : String} (hx : t.value? m table = some x) :
    m.key table ≠ key := by
  have hall := List.find?_eq_none.1 (Option.map_eq_none_iff.1 h)
  simpa using hall (table, x) (SortedMap.mem_entries.2 hx)

lemma get?_foldl_records (t : Totals) (m : Measure) (now : Moment)
    (readings : SortedMap String Reading) (key : String) :
    ((t.records m now).foldl Ledger.write readings).get? key =
      ((t.under? m key).map fun x => ⟨x, now⟩).or (readings.get? key) := by
  cases hunder : t.under? m key with
  | none =>
    refine Ledger.get?_foldl_write_of_ne readings fun r hr => ?_
    obtain ⟨table, x, hx, rfl⟩ := mem_records.1 hr
    exact under?_eq_none hunder hx
  | some x =>
    obtain ⟨table, rfl, hx⟩ := under?_eq_some hunder
    have hmem := record_mem hx now
    refine Ledger.get?_foldl_write_of_mem readings hmem fun b hb hkey => ?_
    rw [t.distinct_records m now b hb _ hmem hkey]

/-- The measure that is written last decides what stays under a key. -/
lemma get?_foldl_allRecords (t : Totals) (now : Moment) (readings : SortedMap String Reading)
    (key : String) :
    ((t.allRecords now).foldl Ledger.write readings).get? key =
      ((t.last? key).map fun x => ⟨x, now⟩).or (readings.get? key) := by
  have hall : t.allRecords now =
      t.records .count now ++ (t.records .unreplicated now ++ t.records .replicated now) := by
    simp [allRecords, Measure.all]
  rw [hall, List.foldl_append, List.foldl_append, get?_foldl_records, get?_foldl_records,
    get?_foldl_records, last?]
  simp only [Measure.all, List.reverse_cons, List.reverse_nil, List.nil_append,
    List.cons_append, List.findSome?_cons, List.findSome?_nil]
  cases t.under? .replicated key <;> cases t.under? .unreplicated key <;>
    cases t.under? .count key <;> rfl

end Totals

namespace Vault

variable {v v' : Vault}

lemma persist_eq_upserted (h : v.refusals = {}) (t : Totals) :
    ∃ v', v.persist t = (v', .ok ()) ∧ v.Upserted (t.allRecords v.clock) v' := by
  have hnow : v.now = .ok v.clock := by
    rw [now, h]
    rfl
  rw [persist, hnow, switched_of_calm h]
  refine upsertAll_eq_ok h fun group hgroup => ?_
  obtain ⟨m, -, rfl⟩ := List.mem_map.1 hgroup
  exact t.nodup_records m v.clock

lemma Upserted.record?_eq {t : Totals} {now : Moment} (h : v.Upserted (t.allRecords now) v')
    (key : String) :
    v'.ledger.record? key =
      ((t.last? key).map fun x => { key, value := x, updatedAt := now }).or
        (v.ledger.record? key) := by
  rw [Ledger.record?, h.wrote.readings, Totals.get?_foldl_allRecords, Ledger.record?]
  cases t.last? key <;> rfl

/-- The counts of a vault in which totals were written: each new key was inserted once. -/
lemma Upserted.counts {t : Totals} {now : Moment} (h : v.Upserted (t.allRecords now) v') :
    v'.inserted = v.inserted + v.ledger.newKeys t.keys ∧
      v'.updated + v.ledger.newKeys t.keys = v.updated + t.size := by
  have hins := h.inserted
  have hupd := h.updated
  rw [t.map_key_allRecords] at hins hupd
  rw [t.length_allRecords] at hupd
  exact ⟨hins, hupd⟩

lemma Upserted.newKeys_eq_zero {t : Totals} {now : Moment}
    (h : v.Upserted (t.allRecords now) v') : v'.ledger.newKeys t.keys = 0 := by
  rw [Ledger.newKeys, Finset.card_eq_zero, Finset.filter_eq_empty_iff]
  intro key hkey hnone
  rw [Ledger.record?_eq_none, h.wrote.readings, Ledger.get?_foldl_write_eq_none,
    t.map_key_allRecords] at hnone
  exact hnone.2 (List.mem_toFinset.1 hkey)

/-- **Persisting is an exact upsert.** Where nothing is refused it succeeds. A key of any total
then has the record of the last measure that has a total there, as of the moment at which
persisting began, and every other key has what it had. As many records were inserted as there
are different keys that had no record, and all other totals were updated, so that persisting the
same totals again at any moment inserts nothing and updates every total. -/
theorem persist_upserts (h : v.refusals = {}) (t : Totals) :
    ∃ v', v.persist t = (v', .ok ()) ∧ v'.ledger.backend = v.ledger.backend ∧
      (∀ key, v'.ledger.record? key =
        ((t.last? key).map fun x => { key, value := x, updatedAt := v.clock }).or
          (v.ledger.record? key)) ∧
      v'.inserted = v.inserted + v.ledger.newKeys t.keys ∧
      v'.updated + v.ledger.newKeys t.keys = v.updated + t.size ∧
      ∀ now, ∃ v₂, { v' with clock := now }.persist t = (v₂, .ok ()) ∧
        v₂.inserted = v'.inserted ∧ v₂.updated = v'.updated + t.size := by
  obtain ⟨v', hpersist, hups⟩ := persist_eq_upserted h t
  obtain ⟨hins, hupd⟩ := hups.counts
  refine ⟨v', hpersist, hups.wrote.backend, hups.record?_eq, hins, hupd, fun now => ?_⟩
  have hnone := hups.newKeys_eq_zero
  obtain ⟨v₂, hpersist₂, hups₂⟩ :=
    persist_eq_upserted (v := { v' with clock := now }) (hups.wrote.calm h) t
  obtain ⟨hins₂, hupd₂⟩ := hups₂.counts
  exact ⟨v₂, hpersist₂, by simpa [hnone] using hins₂, by simpa [hnone] using hupd₂⟩

/-- Totals of which two share a key: the unreplicated size of `x` and the replicated one of
`xUn`. -/
def sharingKey : Totals :=
  ((((Totals.empty.set .count "v" 3).set .count "x" 1).set .count "xUn" 1).setExtent "x"
    ⟨7, 21⟩).setExtent "xUn" ⟨100, 300⟩

/-- A database that has a record of one of these totals and of something else. -/
def halfSeeded : Vault :=
  let v : Vault := { ledger := { backend := .database }, clock := 1 }
  { (v.seed "xCount" 9).seed "other" 4 with clock := 2 }

theorem persist_upserts_halfSeeded :
    halfSeeded.refusals = {} ∧
    ∃ v', halfSeeded.persist sharingKey = (v', .ok ()) ∧ (v'.inserted, v'.updated) = (5, 2) ∧
      v'.ledger.record? "xUnReplicatedDataSize" =
        some { key := "xUnReplicatedDataSize", value := 300, updatedAt := 2 } ∧
      v'.ledger.record? "other" = some { key := "other", value := 4, updatedAt := 1 } ∧
      ∃ v₂, { v' with clock := 3 }.persist sharingKey = (v₂, .ok ()) ∧
        (v₂.inserted, v₂.updated) = (5, 9) := by
  have hnone : halfSeeded.refusals = {} := rfl
  obtain ⟨v', hpersist, -, hrecord, hins, hupd, hagain⟩ := persist_upserts hnone sharingKey
  obtain ⟨v₂, hpersist₂, hins₂, hupd₂⟩ := hagain 3
  have hkeys : halfSeeded.ledger.newKeys sharingKey.keys = 5 := by decide +kernel
  have hsize : sharingKey.size = 7 := by decide +kernel
  have hcounts : halfSeeded.inserted = 0 ∧ halfSeeded.updated = 0 := by decide +kernel
  rw [hkeys, hcounts.1] at hins
  rw [hkeys, hcounts.2, hsize] at hupd
  rw [hsize] at hupd₂
  have hshared := hrecord "xUnReplicatedDataSize"
  have hother := hrecord "other"
  refine ⟨hnone, v', hpersist, ?_, ?_, ?_, v₂, hpersist₂, ?_⟩
  · exact Prod.ext_iff.2 ⟨by omega, by omega⟩
  · rw [hshared]
    decide +kernel
  · rw [hother]
    decide +kernel
  · exact Prod.ext_iff.2 ⟨by omega, by omega⟩

end Vault

end TableTotals
