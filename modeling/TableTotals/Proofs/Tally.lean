import TableTotals.Proofs.SortedMap
import TableTotals.Source

/-!
The exact totals of a table, in unbounded integers, and the scan that finds them.

`Table.tally` adds up what the entries of a table weigh for a measure; it knows nothing of
words, cursors or outages. A scan that succeeds has read and sized every entry and found each
tally, stopped at the largest word (`Source.scan_eq_ok`), and nothing but an outage or an entry
without a size keeps a scan from succeeding (`Source.scan_ok`).
-/

namespace TableTotals

def Watch.extent? (w : Watch) (e : Entry) : Option Extent :=
  match w with
  | .counted => some .zero
  | .sized s => s.size? e

def Watch.Keeps (w : Watch) (m : Measure) : Prop := m = .count ∨ w.tracksSize = true

instance (w : Watch) (m : Measure) : Decidable (w.Keeps m) := inferInstanceAs (Decidable (_ ∨ _))

namespace Measure

def weigh (m : Measure) (x : Option Extent) : Int :=
  match m with
  | .count => 1
  | .unreplicated => (x.map (·.unreplicated.toInt)).getD 0
  | .replicated => (x.map (·.replicated.toInt)).getD 0

@[simp] lemma weigh_count (x : Option Extent) : weigh .count x = 1 := rfl

end Measure

namespace Watch

lemma extent_eq_ok {w : Watch} {table : String} {e : Entry} {x : Extent} :
    w.extent table e = .ok x ↔ w.extent? e = some x := by
  cases w with
  | counted => simp [extent, extent?]
  | sized s =>
    simp only [extent, extent?, Sizer.size]
    cases s.size? e <;> simp

lemma keeps_count (w : Watch) : w.Keeps .count := .inl rfl

lemma keeps_of_tracksSize {w : Watch} (h : w.tracksSize = true) (m : Measure) : w.Keeps m := .inr h

lemma extent?_nonneg {w : Watch} {e : Entry} {x : Extent} (h : w.extent? e = some x) :
    0 ≤ x.unreplicated.toInt ∧ 0 ≤ x.replicated.toInt := by
  cases w with
  | counted =>
    cases h
    exact ⟨Int.le_refl 0, Int.le_refl 0⟩
  | sized s =>
    simp only [extent?, Sizer.size?] at h
    split at h
    · obtain ⟨t, -, rfl⟩ := Option.map_eq_some_iff.1 h
      simp only [Extent.ofWords, Clamped.toInt_ofWord, maxSigned]
      omega
    · cases h

lemma weigh_nonneg (w : Watch) (m : Measure) (e : Entry) : 0 ≤ m.weigh (w.extent? e) := by
  cases h : w.extent? e with
  | none => cases m <;> simp [Measure.weigh]
  | some x =>
    have hx := extent?_nonneg h
    cases m
    · simp [Measure.weigh]
    · exact hx.1
    · exact hx.2

end Watch

namespace Summary

def value (s : Summary) : Measure → Int64
  | .count => s.count
  | .unreplicated => s.extent.unreplicated
  | .replicated => s.extent.replicated

@[simp] lemma value_zero (m : Measure) : (zero.value m).toInt = 0 := by cases m <;> rfl

lemma toInt_value_addEntry (s : Summary) (x : Extent) (m : Measure) :
    ((s.addEntry x).value m).toInt =
      max minSigned (min ((s.value m).toInt + m.weigh (some x)) maxSigned) := by
  cases m <;> simp [addEntry, value, Extent.add, Measure.weigh]

end Summary

namespace Table

def extent? (layout : Shape) (w : Watch) (bytes : List UInt8) : Option Extent :=
  match Wire.decode layout bytes with
  | .ok e => w.extent? e
  | .error _ => none

/-- Every entry of the table can be read, and has a size. -/
def Sound (t : Table) (w : Watch) : Prop :=
  ∀ p ∈ t.cells.entries, (extent? t.layout w p.2).isSome

instance (t : Table) (w : Watch) : Decidable (t.Sound w) := inferInstanceAs (Decidable (∀ _ ∈ _, _))

/-- The exact total of a measure over the entries of the table. -/
def tally (t : Table) (w : Watch) (m : Measure) : Int :=
  t.cells.sum fun p => m.weigh (extent? t.layout w p.2)

lemma extent?_of_decode {layout : Shape} {w : Watch} {bytes : List UInt8} {e : Entry}
    (h : Wire.decode layout bytes = .ok e) : extent? layout w bytes = w.extent? e := by
  rw [extent?, h]

lemma weigh_extent?_nonneg (layout : Shape) (w : Watch) (m : Measure) (bytes : List UInt8) :
    0 ≤ m.weigh (extent? layout w bytes) := by
  unfold extent?
  split
  · exact w.weigh_nonneg m _
  · cases m <;> simp [Measure.weigh]

lemma tally_nonneg (t : Table) (w : Watch) (m : Measure) : 0 ≤ t.tally w m :=
  SortedMap.sum_nonneg fun p => weigh_extent?_nonneg t.layout w m p.2

lemma tally_count (t : Table) (w : Watch) : t.tally w .count = t.cells.size :=
  SortedMap.sum_one t.cells

end Table

/-! ### Walks -/

namespace Cursor

lemma next_eq_ok_none {c : Cursor} (h : c.next.2 = .ok none) : c.ahead = [] := by
  unfold next at h
  split at h
  · cases h
  · dsimp only at h
    split at h
    next hc => exact hc
    · split at h <;> cases h

/-- Without a limit on its steps a walk reads every cell that is an entry. -/
lemma next_of_decode {c : Cursor} {key bytes : List UInt8} {rest : List (List UInt8 × List UInt8)}
    {e : Entry} (hb : c.budget = none) (hc : c.ahead = (key, bytes) :: rest)
    (hd : Wire.decode c.layout bytes = .ok e) :
    c.next = ({ c with ahead := rest }, .ok (some (key, e))) := by
  obtain ⟨table, layout, cells, ahead, budget⟩ := c
  subst hb hc
  simp only [next, hd, Option.map_none]

lemma next_of_nil {c : Cursor} (hb : c.budget = none) (hc : c.ahead = []) :
    c.next = (c, .ok none) := by
  obtain ⟨table, layout, cells, ahead, budget⟩ := c
  subst hb hc
  simp only [next, Option.map_none]

/-- What `summarize` does with one entry. -/
def tallyEntry (w : Watch) (table : String) (s : Summary) (e : Entry) : Except Failure Summary :=
  s.addEntry <$> w.extent table e

lemma tallyEntry_eq_ok {w : Watch} {table : String} {s s' : Summary} {e : Entry} :
    tallyEntry w table s e = .ok s' ↔ ∃ x, w.extent? e = some x ∧ s.addEntry x = s' := by
  simp only [tallyEntry, ← @Watch.extent_eq_ok w table]
  cases w.extent table e <;> simp [Functor.map, Except.map]

/-- What the cells ahead weigh. -/
def aheadTally (c : Cursor) (w : Watch) (m : Measure) : Int :=
  (c.ahead.map fun p => m.weigh (Table.extent? c.layout w p.2)).sum

lemma aheadTally_cons {c : Cursor} {w : Watch} {p : List UInt8 × List UInt8}
    {rest : List (List UInt8 × List UInt8)} (hc : c.ahead = p :: rest) (m : Measure) :
    c.aheadTally w m = m.weigh (Table.extent? c.layout w p.2) +
      (rest.map fun q => m.weigh (Table.extent? c.layout w q.2)).sum := by
  rw [aheadTally, hc, List.map_cons, List.sum_cons]

lemma aheadTally_nonneg (c : Cursor) (w : Watch) (m : Measure) : 0 ≤ c.aheadTally w m := by
  unfold aheadTally
  induction c.ahead with
  | nil => simp
  | cons p rest ih =>
    have := Table.weigh_extent?_nonneg c.layout w m p.2
    simp only [List.map_cons, List.sum_cons]
    omega

/-- A walk that comes to its end has sized every cell, and its totals are exact as far as words
go: sizes only ever add, so stopping at the largest word on the way is stopping there once. -/
lemma fold_tallyEntry {w : Watch} {table : String} {c : Cursor} {s s' : Summary}
    (h : (c.fold (tallyEntry w table) s).2 = .ok s') (hs : ∀ m, 0 ≤ (s.value m).toInt) :
    (∀ p ∈ c.ahead, (Table.extent? c.layout w p.2).isSome) ∧
      ∀ m, (s'.value m).toInt = min ((s.value m).toInt + c.aheadTally w m) maxSigned := by
  induction hn : c.ahead.length using Nat.strongRecOn generalizing c s with
  | ind n ih =>
    rw [fold_eq] at h
    rcases hnext : c.next.2 with e | _ | p
    · simp [hnext] at h
    · -- the end of the walk
      have hahead := next_eq_ok_none hnext
      simp only [hnext, Except.ok.injEq] at h
      subst h
      refine ⟨by simp [hahead], fun m => ?_⟩
      have hle := Clamped.toInt_le (s.value m)
      simp only [aheadTally, hahead, List.map_nil, List.sum_nil]
      omega
    · -- one entry, and the walk behind it
      obtain ⟨hlayout, bytes, hdecode, hahead⟩ := next_eq_ok_some hnext
      simp only [hnext] at h
      rcases hstep : tallyEntry w table s p.2 with e | s₁
      · simp [hstep] at h
      simp only [hstep] at h
      obtain ⟨x, hx, rfl⟩ := tallyEntry_eq_ok.1 hstep
      have hcell : Table.extent? c.layout w bytes = some x := by
        rw [Table.extent?_of_decode hdecode, hx]
      have hadd : ∀ m, ((s.addEntry x).value m).toInt =
          min ((s.value m).toInt + m.weigh (some x)) maxSigned := by
        intro m
        have h0 := w.weigh_nonneg m p.2
        have hsm := hs m
        rw [hx] at h0
        rw [Summary.toInt_value_addEntry]
        simp only [minSigned, maxSigned]
        omega
      have hlt : c.next.1.ahead.length < n := by
        rw [← hn]
        exact length_ahead_next hnext
      have hs₁ : ∀ m, 0 ≤ ((s.addEntry x).value m).toInt := by
        intro m
        have h0 := w.weigh_nonneg m p.2
        have hsm := hs m
        rw [hx] at h0
        rw [hadd]
        simp only [maxSigned]
        omega
      obtain ⟨hsound, hvalue⟩ := ih _ hlt h hs₁ rfl
      rw [hlayout] at hsound
      refine ⟨?_, fun m => ?_⟩
      · rw [hahead]
        intro q hq
        rcases List.mem_cons.1 hq with rfl | hq
        · simp [hcell]
        · exact hsound q hq
      · have hrest := c.next.1.aheadTally_nonneg w m
        have h0 := w.weigh_nonneg m p.2
        rw [hx] at h0
        rw [aheadTally, hlayout] at hrest
        rw [hvalue, hadd, aheadTally_cons hahead, aheadTally, hlayout, hcell]
        simp only [maxSigned] at hrest ⊢
        omega

/-- A walk without a limit on its steps comes to its end if every cell can be sized. -/
lemma fold_tallyEntry_ok {w : Watch} {table : String} {c : Cursor} (s : Summary)
    (hb : c.budget = none) (h : ∀ p ∈ c.ahead, (Table.extent? c.layout w p.2).isSome) :
    ∃ s', (c.fold (tallyEntry w table) s).2 = .ok s' := by
  obtain ⟨label, layout, cells, ahead, budget⟩ := c
  simp only at hb h
  induction ahead generalizing s with
  | nil =>
    rw [fold_eq, next_of_nil hb rfl]
    exact ⟨s, rfl⟩
  | cons p rest ih =>
    have hp := h p (by simp)
    unfold Table.extent? at hp
    rcases hd : Wire.decode layout p.2 with e | e
    · simp [hd] at hp
    · simp only [hd] at hp
      obtain ⟨x, hx⟩ := Option.isSome_iff_exists.1 hp
      have hstep : tallyEntry w table s e = .ok (s.addEntry x) :=
        tallyEntry_eq_ok.2 ⟨x, hx, rfl⟩
      rw [fold_eq, next_of_decode hb rfl hd]
      simp only [hstep]
      exact ih (s.addEntry x) fun q hq => h q (by simp [hq])

lemma summarize_eq (c : Cursor) (w : Watch) (table : String) :
    c.summarize w table = c.rewind.fold (tallyEntry w table) .zero := rfl

end Cursor

/-! ### Scans -/

lemma Metadata.table_eq_ok {s : Metadata} {name : String} {t : Table} :
    s.table name = .ok t ↔ s.tables.get? name = some t := by
  unfold Metadata.table
  cases s.tables.get? name <;> simp

namespace Source

lemma scan_of_table {src : Source} {name : String} {t : Table}
    (h : src.store.tables.get? name = some t) (w : Watch) :
    (src.scan w name).2 =
      ((Cursor.start name t (src.outages.scans.get? name)).summarize w name).2 := by
  have ht := Metadata.table_eq_ok.2 h
  simp only [scan, openTable, Metadata.openCursor, ht]

lemma scan_of_missing {src : Source} {name : String} (h : src.store.tables.get? name = none)
    (w : Watch) : (src.scan w name).2 = .error (.missingTable name) := by
  simp only [scan, openTable, Metadata.table, h]

/-- **What a scan finds.** A scan that succeeds has sized every entry of a table that is there,
and what it found is each tally, stopped at the largest word. -/
theorem scan_eq_ok {src : Source} {w : Watch} {name : String} {s : Summary}
    (h : (src.scan w name).2 = .ok s) :
    ∃ t, src.store.tables.get? name = some t ∧ t.Sound w ∧
      ∀ m, (s.value m).toInt = min (t.tally w m) maxSigned := by
  rcases ht : src.store.tables.get? name with _ | t
  · rw [scan_of_missing ht] at h
    cases h
  rw [scan_of_table ht, Cursor.summarize_eq] at h
  obtain ⟨hsound, hvalue⟩ := Cursor.fold_tallyEntry h (by simp)
  refine ⟨t, rfl, hsound, fun m => ?_⟩
  rw [hvalue, Summary.value_zero, Int.zero_add]
  rfl

/-- **When a scan succeeds.** Unless it is made to break off, a scan of a table that is there
and whose entries all have a size comes to its end. -/
theorem scan_ok {src : Source} {w : Watch} {name : String} {t : Table}
    (hout : src.outages.scans.get? name = none) (ht : src.store.tables.get? name = some t)
    (hsound : t.Sound w) : ∃ s, (src.scan w name).2 = .ok s := by
  rw [scan_of_table ht, Cursor.summarize_eq]
  exact Cursor.fold_tallyEntry_ok _ hout hsound

end Source

end TableTotals
