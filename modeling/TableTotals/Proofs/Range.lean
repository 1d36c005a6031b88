import TableTotals.Proofs.Agenda
import TableTotals.Proofs.Calls

/-!
The range of totals and of what is recorded of them.

Every total is written by `Totals.set`, which takes a negative word for zero, so each of them
stays between zero and the largest word whatever is loaded, applied or scanned, and wherever a
call breaks off (`Totals.InRange`). What persisting writes are totals, so it never puts a value
in a ledger that is out of that range. The one operation on words that could wrap around is to
negate the sizes of an entry that was removed; sizes are words with a sign that are not negative,
and each of those has a negative.
-/

namespace TableTotals

/-- A value that a statistic may have. -/
def WithinRange (x : Int64) : Prop := 0 ≤ x.toInt ∧ x.toInt ≤ maxSigned

instance (x : Int64) : Decidable (WithinRange x) := inferInstanceAs (Decidable (_ ∧ _))

lemma withinRange_of_nonneg {x : Int64} (h : 0 ≤ x.toInt) : WithinRange x :=
  ⟨h, Clamped.toInt_le x⟩

lemma withinRange_floorZero (x : Int64) : WithinRange (Clamped.floorZero x) := by
  refine withinRange_of_nonneg ?_
  rw [Clamped.toInt_floorZero]
  omega

lemma Sizer.toInt_neg_size {s : Sizer} {table : String} {e : Entry} {x : Extent}
    (h : s.size table e = .ok x) :
    x.neg.unreplicated.toInt = -x.unreplicated.toInt ∧
      x.neg.replicated.toInt = -x.replicated.toInt := by
  have hx : (Watch.sized s).extent? e = some x := Totals.size_eq_ok.1 h
  obtain ⟨hu, hr⟩ := Watch.extent?_nonneg hx
  exact ⟨Clamped.toInt_neg hu, Clamped.toInt_neg hr⟩

/-! ### Totals -/

namespace Totals

def InRange (t : Totals) : Prop := ∀ m table x, t.value? m table = some x → WithinRange x

variable {t t' : Totals} {r : Except Failure Unit}

lemma inRange_empty : InRange ∅ := by
  intro m table x hx
  rw [value?_empty] at hx
  cases hx

lemma InRange.apply {w : Watch} {c : Change} (h : t.InRange) (happly : t.apply w c = (t', .ok ())) :
    t'.InRange := by
  intro m table x hx
  rw [value?_apply happly] at hx
  split at hx
  · cases hx
    exact withinRange_floorZero _
  · exact h m table x hx

lemma InRange.applyAll {tables : SortedMap String Watch} {xs : List Change} (h : t.InRange)
    (happly : t.applyAll tables xs = (t', r)) : t'.InRange :=
  applyAll_keeps happly (fun _ _ _ _ _ _ hstep hrange => hrange.apply hstep) h

lemma InRange.withinRange_record (h : t.InRange) {m : Measure} {now : Moment} {record : Record}
    (hrecord : record ∈ t.records m now) : WithinRange record.value := by
  obtain ⟨table, x, hx, rfl⟩ := mem_records.1 hrecord
  exact h m table x hx

end Totals

/-! ### Ledgers -/

lemma Ledger.mem_or_get?_of_foldl_write {records : List Record}
    {readings : SortedMap String Reading} {key : String} {reading : Reading}
    (h : (records.foldl write readings).get? key = some reading) :
    readings.get? key = some reading ∨ ∃ record ∈ records, record.toReading = reading := by
  induction records generalizing readings with
  | nil => exact .inl h
  | cons first rest ih =>
    rw [List.foldl_cons] at h
    rcases ih h with hfirst | ⟨record, hmem, hr⟩
    · rw [write, SortedMap.get?_insert] at hfirst
      split at hfirst
      · exact .inr ⟨first, by simp, Option.some.inj hfirst⟩
      · exact .inl hfirst
    · exact .inr ⟨record, by simp [hmem], hr⟩

namespace Vault

variable {v v' : Vault}

/-- A value that persisting puts in a vault is within range, however it ends. -/
lemma withinRange_persist {t : Totals} {r : Except Failure Unit} (h : t.InRange)
    (hpersist : v.persist t = (v', r)) {key : String} {reading : Reading}
    (hget : v'.ledger.readings.get? key = some reading) :
    v.ledger.readings.get? key = some reading ∨ WithinRange reading.value := by
  obtain ⟨written, hwritten, hwrote⟩ := persist_partly hpersist
  rw [hwrote.readings] at hget
  rcases Ledger.mem_or_get?_of_foldl_write hget with hold | ⟨record, hmem, rfl⟩
  · exact .inl hold
  · obtain ⟨m, hrecord⟩ := Totals.mem_allRecords.1 (hwritten record hmem)
    exact .inr (h.withinRange_record hrecord)

end Vault

/-! ### Engines -/

namespace Engine

/-- A call of an engine, with the sources and the vault as the call finds them. -/
inductive Errand where
  | load (source : Source) (v : Vault)
  | follow (v : Vault) (b : Batch)
  | rescan (source snapshot : Source) (v : Vault)
  | persist (v : Vault)

def Errand.vault : Errand → Vault
  | load _ v | follow v _ | rescan _ _ v | persist v => v

/-- What a call makes of the engine and of the vault, and how it ends. -/
def carry (e : Engine) : Errand → (Engine × Vault) × Except Failure Unit
  | .load source v =>
    let (e, result) := e.load source v
    ((e, v), result)
  | .follow v b => e.follow v b
  | .rescan source snapshot v =>
    let ((e, _, v), result) := e.rescan source snapshot v
    ((e, v), result)
  | .persist v =>
    let (v, result) := e.persist v
    ((e, v), result)

def afterAll (e : Engine) (errands : List Errand) : Engine :=
  errands.foldl (fun e x => (e.carry x).1.1) e

variable {e e' : Engine} {v v' : Vault} {r : Except Failure Unit}

/-- What a call left in the vault was there before or is within range. -/
def Keeps (v v' : Vault) : Prop := ∀ key reading, v'.ledger.readings.get? key = some reading →
  v.ledger.readings.get? key = some reading ∨ WithinRange reading.value

lemma Keeps.refl (v : Vault) : Keeps v v := fun _ _ hget => .inl hget

lemma keeps_persist {t : Totals} (h : t.InRange) (hpersist : v.persist t = (v', r)) :
    Keeps v v' :=
  fun _ _ hget => Vault.withinRange_persist h hpersist hget

lemma withinRange_of_recalled {recalled : Prop} [Decidable recalled] {x y : Int64}
    (h : (if recalled then some (Clamped.floorZero y) else none) = some x) : WithinRange x := by
  split at h
  · cases h
    exact withinRange_floorZero _
  · cases h

lemma Loaded.inRange {names : List String} (h : e.Loaded names v) : e.totals.InRange := by
  intro m table x hx
  rw [h.recalled] at hx
  exact withinRange_of_recalled hx

lemma Mixed.inRange {names : List String} {snapshot : Source} (h : e.Mixed names snapshot v) :
    e.totals.InRange := by
  intro m table x hx
  rcases h.cases m table with hrecall | ⟨-, -, s, hs, hvalue⟩
  · rw [hrecall] at hx
    exact withinRange_of_recalled hx
  · rw [hvalue] at hx
    cases hx
    exact withinRange_of_nonneg (Source.scan_nonneg hs m)

lemma inRange_load {source : Source} (h : e.totals.InRange) (hload : e.load source v = (e', r)) :
    e'.totals.InRange := by
  rcases load_cases hload with ⟨rfl, -⟩ | ⟨-, -, hloaded, -⟩
  · exact h
  · exact hloaded.inRange

lemma inRange_follow {b : Batch} (h : e.totals.InRange)
    (hfollow : e.follow v b = ((e', v'), r)) : e'.totals.InRange ∧ Keeps v v' := by
  unfold follow at hfollow
  split at hfollow
  · cases hfollow
    exact ⟨h, .refl v⟩
  rcases happly : e.totals.applyAll e.tables b.changes with ⟨totals, failure | _⟩
  · -- a change could not be applied, and those before it stay applied
    rw [happly] at hfollow
    cases hfollow
    exact ⟨h.applyAll happly, .refl v⟩
  · rw [happly] at hfollow
    cases hfollow
    have htotals := h.applyAll happly
    exact ⟨htotals, keeps_persist htotals rfl⟩

lemma inRange_rescan {source snapshot : Source} {store : Metadata} (h : e.totals.InRange)
    (hrescan : e.rescan source snapshot v = ((e', store, v'), r)) :
    e'.totals.InRange ∧ Keeps v v' := by
  obtain ⟨-, -, ⟨-, rfl, rfl, -⟩ | ⟨-, hmixed, rfl, -⟩ | ⟨-, hmixed, -, hpersist, -⟩⟩ :=
    rescan_cases hrescan
  · exact ⟨h, .refl _⟩
  · exact ⟨hmixed.inRange, .refl _⟩
  · exact ⟨hmixed.inRange, keeps_persist hmixed.inRange hpersist⟩

/-- **One call keeps the range**, of the totals and of what it leaves in the vault. -/
lemma inRange_carry (h : e.totals.InRange) (x : Errand) :
    (e.carry x).1.1.totals.InRange ∧ Keeps x.vault (e.carry x).1.2 := by
  cases x with
  | load source v => exact ⟨inRange_load h rfl, .refl v⟩
  | follow v b => exact inRange_follow h rfl
  | rescan source snapshot v => exact inRange_rescan h rfl
  | persist v => exact ⟨h, keeps_persist h rfl⟩

lemma inRange_afterAll (h : e.totals.InRange) (errands : List Errand) :
    (e.afterAll errands).totals.InRange := by
  induction errands generalizing e with
  | nil => exact h
  | cons x rest ih => exact ih (inRange_carry h x).1

/-- **Statistics are never negative and never wrap around.** After any calls of an engine, each
of which finds sources and a vault of its own and may break off anywhere, every total is within
range, and so is every record that persisting the totals stages, to be inserted or to be
updated, whatever the vault holds by then. Whatever the next call leaves in its vault was there
before or is within range. The sizes of an entry that was removed are negated exactly. -/
theorem statistics_within_range (settings : Settings) (errands : List Errand) :
    let e := (new settings).afterAll errands
    e.totals.InRange ∧
    (∀ (v : Vault) (m : Measure) (now : Moment) (fresh known : List Record),
      v.sort (e.totals.records m now) = .ok (fresh, known) →
        ∀ record ∈ fresh ++ known, WithinRange record.value) ∧
    (∀ x : Errand, Keeps x.vault (e.carry x).1.2) ∧
    ∀ (s : Sizer) (table : String) (gone : Entry) (x : Extent), s.size table gone = .ok x →
      x.neg.unreplicated.toInt = -x.unreplicated.toInt ∧
        x.neg.replicated.toInt = -x.replicated.toInt := by
  intro e
  have hrange : e.totals.InRange := inRange_afterAll Totals.inRange_empty errands
  refine ⟨hrange, fun v m now fresh known hsort record hrecord => ?_, fun x => ?_, ?_⟩
  · rcases Vault.sort_cases v (e.totals.records m now) with herr | ⟨_, _, hok, hmem⟩
    · rw [herr] at hsort
      cases hsort
    · rw [hok] at hsort
      cases hsort
      exact hrange.withinRange_record ((hmem record).1 hrecord)
  · exact (inRange_carry hrange x).2
  · exact fun s table gone x hx => Sizer.toInt_neg_size hx

end Engine

end TableTotals
