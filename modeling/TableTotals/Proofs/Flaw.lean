import TableTotals.Proofs.Misfit

/-!
What keeps a table from being scanned, and what a rescan leaves that meets such a table.

A walk over a table looks at its cells one after another and last at the end. `Cursor.flaw?` tells
of each of these steps by itself what is wrong there; a scan fails with what is wrong at the first
step at which anything is (`Source.scan_eq_error_iff`), and if nothing is, it comes to its end. So
a rescan breaks off at the first table, by name, of which anything is wrong. It leaves the totals
that scans found of the tables before that one, and all others as the load left them
(`Totals.ScannedBefore`); of a table that was scanned in part nothing is taken over.
-/

namespace TableTotals

/-- Why an entry has no size, where sizes are watched. -/
def Watch.flaw? (w : Watch) (table : String) (entry : Entry) : Option Failure :=
  match w with
  | .counted => none
  | .sized s =>
    if entry.shape = s.shape then none
    else some (.sizing table (.unsuited s.name entry.shape))

/-- What is wrong so many steps ahead of a walk. It is made to break off there, or the cell is no
entry, or the entry has no size; at the end of the table only the first can be. -/
def Cursor.flaw? (c : Cursor) (w : Watch) (steps : Nat) : Option Failure :=
  if c.budget = some steps then some (.scan c.table .interrupted)
  else
    match c.ahead[steps]? with
    | none => none
    | some cell =>
      match Wire.decode c.layout cell.2 with
      | .error cause => some (.scan c.table (.undecodable cause))
      | .ok entry => w.flaw? c.table entry

/-- What is wrong at the first step ahead of a walk at which anything is, the step that sees the
end among them. -/
def Cursor.firstFlaw? (c : Cursor) (w : Watch) : Option Failure :=
  (List.range (c.ahead.length + 1)).findSome? (c.flaw? w)

/-- Why a table cannot be scanned: it is not there, or a walk over it meets a flaw. -/
def Source.flaw? (source : Source) (w : Watch) (name : String) : Option Failure :=
  match source.store.tables.get? name with
  | none => some (.missingTable name)
  | some t => (Cursor.start name t (source.outages.scans.get? name)).firstFlaw? w

/-! ### One table -/

namespace Watch

variable {w : Watch} {table : String} {entry : Entry} {failure : Failure}

lemma extent_of_flaw (h : w.flaw? table entry = some failure) :
    w.extent table entry = .error failure := by
  cases w with
  | counted => cases h
  | sized s =>
    simp only [flaw?] at h
    split at h
    · cases h
    next hshape =>
      cases h
      exact Sizer.size_of_misfit hshape table

lemma extent_of_flawless (h : w.flaw? table entry = none) : ∃ x, w.extent table entry = .ok x := by
  cases w with
  | counted => exact ⟨.zero, rfl⟩
  | sized s =>
    have hshape : entry.shape = s.shape := by
      by_contra hne
      simp [flaw?, hne] at h
    exact Sizer.size_of_shape hshape table

end Watch

namespace Cursor

variable {c : Cursor} {w : Watch} {failure : Failure}

lemma flaw?_zero (c : Cursor) (w : Watch) :
    c.flaw? w 0 =
      match c.next.2 with
      | .error failure => some failure
      | .ok none => none
      | .ok (some p) => w.flaw? c.table p.2 := by
  obtain ⟨table, layout, cells, ahead, budget⟩ := c
  rcases budget with _ | _ | n
  case some.zero => simp [flaw?, next]
  all_goals
    rcases ahead with _ | ⟨⟨key, bytes⟩, rest⟩
    · simp [flaw?, next]
    · rcases hdecode : Wire.decode layout bytes with cause | entry <;>
        simp [flaw?, next, hdecode]

/-- After a step that answers an entry, what was one step further ahead is next. -/
lemma flaw?_next {p : List UInt8 × Entry} (h : c.next.2 = .ok (some p)) (steps : Nat) :
    c.next.1.flaw? w steps = c.flaw? w (steps + 1) := by
  obtain ⟨table, layout, cells, ahead, budget⟩ := c
  rcases ahead with _ | ⟨cell, rest⟩
  · rcases budget with _ | _ | n <;> simp [next] at h
  · rcases budget with _ | _ | n
    · simp [next, flaw?]
    · simp [next] at h
    · simp [next, flaw?]

lemma table_next (c : Cursor) : c.next.1.table = c.table := by
  unfold next
  split
  · rfl
  · dsimp only
    split <;> rfl

/-- **The first flaw, step by step**: the next step meets it, or its entry has no size, or it is
further ahead. -/
lemma firstFlaw?_eq (c : Cursor) (w : Watch) :
    c.firstFlaw? w =
      match c.next.2 with
      | .error failure => some failure
      | .ok none => none
      | .ok (some p) => (w.flaw? c.table p.2).or (c.next.1.firstFlaw? w) := by
  have hsplit : c.firstFlaw? w =
      (c.flaw? w 0).or ((List.range c.ahead.length).findSome? fun i => c.flaw? w (i + 1)) := by
    rw [firstFlaw?, List.range_succ_eq_map, List.findSome?_cons, List.findSome?_map]
    cases c.flaw? w 0 <;> rfl
  rw [hsplit, flaw?_zero]
  rcases hnext : c.next.2 with failure | _ | p
  · rfl
  · have hahead : c.ahead = [] := next_eq_ok_none hnext
    simp [hahead]
  · obtain ⟨-, bytes, -, hahead⟩ := next_eq_ok_some hnext
    have hlength : c.ahead.length = c.next.1.ahead.length + 1 := by rw [hahead, List.length_cons]
    have hlater : (fun i => c.flaw? w (i + 1)) = c.next.1.flaw? w :=
      funext fun i => (flaw?_next hnext i).symm
    rw [hlength, hlater, firstFlaw?]

lemma firstFlaw?_eq_some (h : c.firstFlaw? w = some failure) :
    ∃ steps ≤ c.ahead.length, c.flaw? w steps = some failure ∧
      ∀ earlier < steps, c.flaw? w earlier = none := by
  obtain ⟨before, steps, after, hsplit, hflaw, hbefore⟩ := List.findSome?_eq_some_iff.1 h
  -- what stands before a number of a range are the numbers below it
  rw [List.range_eq_range', List.range'_eq_append_iff] at hsplit
  obtain ⟨k, hk, rfl, hrest⟩ := hsplit
  obtain ⟨hsteps, hpos, -⟩ := List.range'_eq_cons_iff.1 hrest.symm
  refine ⟨steps, by omega, hflaw, fun earlier hearlier => hbefore earlier ?_⟩
  rw [List.mem_range'_1]
  omega

/-- A walk that counts and sizes fails with the first flaw, and otherwise comes to its end. -/
lemma fold_eq_error_iff {s : Summary} :
    (c.fold (tallyEntry w c.table) s).2 = .error failure ↔ c.firstFlaw? w = some failure := by
  induction hn : c.ahead.length using Nat.strongRecOn generalizing c s with
  | ind n ih =>
    rw [fold_eq, firstFlaw?_eq]
    rcases hnext : c.next.2 with e | _ | p
    · simp
    · simp
    · have hlt : c.next.1.ahead.length < n := hn ▸ length_ahead_next hnext
      rcases hflaw : w.flaw? c.table p.2 with _ | e
      · obtain ⟨x, hx⟩ := Watch.extent_of_flawless hflaw
        have hstep : tallyEntry w c.table s p.2 = .ok (s.addEntry x) := by
          rw [tallyEntry, hx]
          rfl
        simp only [hstep, hflaw, Option.none_or]
        rw [← c.table_next]
        exact ih _ hlt rfl
      · have hstep : tallyEntry w c.table s p.2 = .error e := by
          rw [tallyEntry, Watch.extent_of_flaw hflaw]
          rfl
        simp [hstep, hflaw]

end Cursor

namespace Source

variable {source : Source} {w : Watch} {name : String} {failure : Failure}

/-- **A scan fails with the first flaw that it meets.** -/
theorem scan_eq_error_iff :
    (source.scan w name).2 = .error failure ↔ source.flaw? w name = some failure := by
  unfold flaw?
  rcases ht : source.store.tables.get? name with _ | t
  · simp [scan_of_missing ht]
  · rw [scan_of_table ht, Cursor.summarize_eq]
    exact Cursor.fold_eq_error_iff (c := Cursor.start name t (source.outages.scans.get? name))

/-- The table is not there, or some step of a walk over it is the first at which anything is wrong,
and the failure is what is wrong. -/
def FirstFlaw (source : Source) (w : Watch) (name : String) (failure : Failure) : Prop :=
  (source.store.tables.get? name = none ∧ failure = .missingTable name) ∨
  ∃ t steps, source.store.tables.get? name = some t ∧ steps ≤ t.cells.size ∧
    (Cursor.start name t (source.outages.scans.get? name)).flaw? w steps = some failure ∧
    ∀ earlier < steps,
      (Cursor.start name t (source.outages.scans.get? name)).flaw? w earlier = none

lemma firstFlaw_of_flaw (h : source.flaw? w name = some failure) :
    source.FirstFlaw w name failure := by
  unfold flaw? at h
  rcases ht : source.store.tables.get? name with _ | t
  · rw [ht] at h
    exact .inl ⟨ht, (Option.some.inj h).symm⟩
  · rw [ht] at h
    obtain ⟨steps, hle, hflaw, hearlier⟩ := Cursor.firstFlaw?_eq_some h
    exact .inr ⟨t, steps, ht, hle, hflaw, hearlier⟩

lemma scan_of_flawless (h : source.flaw? w name = none) : ∃ s, (source.scan w name).2 = .ok s := by
  rcases hscan : (source.scan w name).2 with failure | s
  · rw [scan_eq_error_iff.1 hscan] at h
    cases h
  · exact ⟨s, rfl⟩

end Source

/-! ### Table after table -/

namespace Totals

variable {t t' : Totals} {store store' : Metadata} {outages : Outages}
  {before after : List (String × Watch)} {name : String} {w : Watch} {failure : Failure}

lemma scanAll_append (h : t.scanAll outages before store = ((t', store'), .ok ())) :
    t.scanAll outages (before ++ after) store = t'.scanAll outages after store' := by
  induction before generalizing t store with
  | nil =>
    cases h
    rfl
  | cons p rest ih =>
    obtain ⟨first, w⟩ := p
    rcases hscan : Source.scan ⟨store, outages⟩ w first with ⟨store₁, failure | s⟩
    · simp [scanAll, hscan] at h
    · simp only [scanAll, hscan] at h
      simp only [List.cons_append, scanAll, hscan]
      exact ih h

lemma scanAll_of_flawless (h : ∀ p ∈ before, Source.flaw? ⟨store, outages⟩ p.2 p.1 = none)
    (t : Totals) : ∃ t', t.scanAll outages before store = ((t', store), .ok ()) := by
  induction before generalizing t with
  | nil => exact ⟨t, rfl⟩
  | cons p rest ih =>
    obtain ⟨first, w⟩ := p
    have hstore := Source.scan_store ⟨store, outages⟩ w first
    obtain ⟨s, hs⟩ := Source.scan_of_flawless (h (first, w) (by simp))
    have hscan : Source.scan ⟨store, outages⟩ w first = (store, .ok s) := Prod.ext hstore hs
    simp only [scanAll, hscan]
    exact ih (fun q hq => h q (by simp [hq])) _

lemma scanAll_of_flaw (hbefore : t.scanAll outages before store = ((t', store), .ok ()))
    (hflaw : Source.flaw? ⟨store, outages⟩ w name = some failure) :
    t.scanAll outages (before ++ (name, w) :: after) store = ((t', store), .error failure) := by
  have hstore := Source.scan_store ⟨store, outages⟩ w name
  have hscan : Source.scan ⟨store, outages⟩ w name = (store, .error failure) :=
    Prod.ext hstore (Source.scan_eq_error_iff.2 hflaw)
  rw [scanAll_append hbefore]
  simp only [scanAll, hscan]

/-- Some totals are what others were, but that scans of a snapshot have taken the place of the
totals of the watched tables before some table, by name. -/
structure ScannedBefore (t t₀ : Totals) (tables : SortedMap String Watch) (snapshot : Source)
    (name : String) : Prop where
  scanned : ∀ other w, tables.get? other = some w → compare other name = .lt →
    ∃ table, snapshot.store.tables.get? other = some table ∧
      ∀ m, w.Keeps m → ∃ x, t.value? m other = some x ∧
        x.toInt = min (table.tally w m) maxSigned
  others : ∀ m other,
    (∀ w, tables.get? other = some w → compare other name = .lt → ¬w.Keeps m) →
    t.value? m other = t₀.value? m other

lemma scannedBefore_of_scanAll {tables : SortedMap String Watch} {snapshot : Source}
    (hsplit : tables.entries = before ++ (name, w) :: after)
    (hbefore : t.scanAll snapshot.outages before snapshot.store =
      ((t', snapshot.store), .ok ())) :
    t'.ScannedBefore t tables snapshot name := by
  have hnodup : (before.map (·.1)).Nodup := by
    have hkeys := tables.nodup_keys
    rw [SortedMap.keys, hsplit, List.map_append] at hkeys
    exact (List.nodup_append.1 hkeys).1
  have hmem : ∀ other w', (other, w') ∈ before ↔
      tables.get? other = some w' ∧ compare other name = .lt :=
    fun other w' => SortedMap.mem_before_iff hsplit
  obtain ⟨-, ⟨failure, hfails, -⟩ | ⟨-, hfound, hothers⟩⟩ := scanAll_cases hbefore hnodup
  · cases hfails
  constructor
  case scanned =>
    intro other w' hget hlt
    obtain ⟨s, hs, hvalue⟩ := hfound (other, w') ((hmem other w').2 ⟨hget, hlt⟩)
    obtain ⟨table, htable, -, htally⟩ := Source.scan_eq_ok hs
    exact ⟨table, htable, fun m hm => ⟨s.value m, hvalue m hm, htally m⟩⟩
  case others =>
    intro m other hno
    refine hothers m other ?_
    rintro ⟨other, w'⟩ hp rfl
    obtain ⟨hget, hlt⟩ := (hmem other w').1 hp
    exact hno w' hget hlt

end Totals

/-! ### Rescans -/

namespace Engine

variable {e e₁ : Engine} {source snapshot : Source} {v : Vault} {failure : Failure}

lemma rescan_of_load_error (h : e.load source v = (e₁, .error failure)) :
    e.rescan source snapshot v = ((e₁, snapshot.store, v), .error failure) := by
  rw [rescan, h]

lemma rescan_of_flaw (hload : e.load source v = (e₁, .ok ()))
    (h : ∃ p ∈ e₁.tables.entries, (snapshot.flaw? p.2 p.1).isSome) :
    ∃ name w failure totals, e₁.tables.get? name = some w ∧
      snapshot.flaw? w name = some failure ∧
      (∀ other w', e₁.tables.get? other = some w' → compare other name = .lt →
        snapshot.flaw? w' other = none) ∧
      totals.ScannedBefore e₁.totals e₁.tables snapshot name ∧
      e.rescan source snapshot v = (({ e₁ with totals }, snapshot.store, v), .error failure) := by
  obtain ⟨before, ⟨name, w⟩, after, hsplit, hflawless, hsome⟩ := exists_first h
  obtain ⟨failure, hflaw⟩ := Option.isSome_iff_exists.1 hsome
  have hnone : ∀ p ∈ before, snapshot.flaw? p.2 p.1 = none := fun p hp => by
    simpa using hflawless p hp
  obtain ⟨totals, hbefore⟩ := Totals.scanAll_of_flawless hnone e₁.totals
  have hscan : e₁.totals.scanAll snapshot.outages (before ++ (name, w) :: after) snapshot.store =
      ((totals, snapshot.store), .error failure) := Totals.scanAll_of_flaw hbefore hflaw
  refine ⟨name, w, failure, totals, ?_, hflaw, ?_, ?_, ?_⟩
  · exact SortedMap.mem_entries.1 (by simp [hsplit])
  · intro other w' hget hlt
    exact hnone (other, w') ((SortedMap.mem_before_iff hsplit).2 ⟨hget, hlt⟩)
  · exact Totals.scannedBefore_of_scanAll hsplit hbefore
  · simp only [rescan, hload, hsplit, hscan]

/-- **A rescan that breaks off.** If the load fails, that is reported and nothing has changed. If
it succeeds and some table cannot be scanned, what is reported is what is wrong with the first
such table, by name, at the first step at which a walk over it meets anything wrong. The totals
of the tables before it are what scans found of them; those of the table itself and of all later
ones are as they were recorded. Either way the vault is left alone, and so is the snapshot. -/
theorem rescan_breaks_off (e : Engine) (source snapshot : Source) (v : Vault) :
    (∀ failure, (e.load source v).2 = .error failure →
      e.rescan source snapshot v = ((e, snapshot.store, v), .error failure)) ∧
    ((e.load source v).2 = .ok () →
      (∃ name ∈ source.store.names, (snapshot.flaw? (e.settings.watchOf name) name).isSome) →
      (e.load source v).1.Loaded source.store.names v ∧
      ∃ name ∈ source.store.names, ∃ failure totals,
        snapshot.FirstFlaw (e.settings.watchOf name) name failure ∧
        (∀ other ∈ source.store.names, compare other name = .lt →
          (snapshot.scan (e.settings.watchOf other) other).2.isOk) ∧
        totals.ScannedBefore (e.load source v).1.totals (e.load source v).1.tables snapshot name ∧
        e.rescan source snapshot v =
          (({ (e.load source v).1 with totals }, snapshot.store, v), .error failure)) := by
  rcases hload : e.load source v with ⟨e₁, r⟩
  rcases load_cases hload with ⟨rfl, hr⟩ | ⟨rfl, hsettings, hloaded, -⟩
  · refine ⟨fun failure hfails => ?_, fun hok => ?_⟩
    · obtain rfl : r = .error failure := hfails
      exact rescan_of_load_error hload
    · rcases hr with rfl | rfl <;> cases hok
  refine ⟨nofun, fun _ hsome => ⟨hloaded, ?_⟩⟩
  have hget : ∀ name w, e₁.tables.get? name = some w ↔
      name ∈ source.store.names ∧ e.settings.watchOf name = w := by
    intro name w
    rw [hloaded.tables, hsettings, Settings.get?_assign_eq_some]
  have hentry : ∃ p ∈ e₁.tables.entries, (snapshot.flaw? p.2 p.1).isSome := by
    obtain ⟨name, hname, hflaw⟩ := hsome
    exact ⟨(name, _), SortedMap.mem_entries.2 ((hget name _).2 ⟨hname, rfl⟩), hflaw⟩
  obtain ⟨name, w, failure, totals, hw, hflaw, hnone, hbefore, hrescan⟩ :=
    rescan_of_flaw hload hentry
  obtain ⟨hname, rfl⟩ := (hget name w).1 hw
  refine ⟨name, hname, failure, totals, Source.firstFlaw_of_flaw hflaw, ?_, hbefore, hrescan⟩
  intro other hother hlt
  obtain ⟨s, hs⟩ := Source.scan_of_flawless (hnone other _ ((hget other _).2 ⟨hother, rfl⟩) hlt)
  rw [hs]
  rfl

/-- A table of one entry, and one of keys in which something stands behind the first key that is
none. -/
def patchy : Metadata :=
  let counted := (((∅ : Metadata).create "c" .raw).put "c" [1] (.raw [])).1.create "k" .key
  ((counted.put "k" [1] (.key (.sample "" (.copies 3) [7]))).1.putBytes "k" [2] [255]).1

/-- A walk comes upon what is no key before it would have to break off, and what was found of the
key before it is not taken over. A third table has gone. -/
theorem rescan_breaks_off_patchy :
    let e := new (Settings.countersOnly.watching "k" (.sized .openKeys))
    let source : Source := { store := patchy.create "m" .raw }
    let snapshot : Source := { store := patchy, outages.scans := .ofList [("k", 2)] }
    let v := ({ ledger := { backend := .memory }, clock := 3 } : Vault).seed
      "kReplicatedDataSize" 40
    (e.load source v).2 = .ok () ∧ (snapshot.flaw? (e.settings.watchOf "k") "k").isSome ∧
      ∃ name totals, totals.ScannedBefore (e.load source v).1.totals (e.load source v).1.tables
          snapshot name ∧
        totals.count? "c" = some 1 ∧ totals.extent? "k" = some ⟨0, 40⟩ ∧
        e.rescan source snapshot v = (({ (e.load source v).1 with totals }, snapshot.store, v),
          .error (.scan "k" (.undecodable (.malformedKey .ended)))) := by
  intro e source snapshot v
  have hload : (e.load source v).2 = .ok () := by decide +kernel
  have hflaw : (snapshot.flaw? (e.settings.watchOf "k") "k").isSome := by decide +kernel
  have hresult : (e.rescan source snapshot v).2 =
      .error (.scan "k" (.undecodable (.malformedKey .ended))) := by decide +kernel
  have hcount : (e.rescan source snapshot v).1.1.totals.count? "c" = some 1 := by decide +kernel
  have hextent : (e.rescan source snapshot v).1.1.totals.extent? "k" = some ⟨0, 40⟩ := by
    decide +kernel
  obtain ⟨-, hbreaks⟩ := rescan_breaks_off e source snapshot v
  obtain ⟨-, name, -, failure, totals, -, -, hbefore, hrescan⟩ :=
    hbreaks hload ⟨"k", by decide +kernel, hflaw⟩
  rw [hrescan] at hresult hcount hextent
  obtain rfl := Except.error.inj hresult
  exact ⟨hload, hflaw, name, totals, hbefore, hcount, hextent, hrescan⟩

end Engine

end TableTotals
