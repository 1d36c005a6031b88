import TableTotals.Engine
import TableTotals.Feed
import TableTotals.Proofs.Change
import TableTotals.Proofs.Wire.RoundTrip

/-!
Totals that follow a store through its feed.

A total depends on the effects that changes have on its own table, and on nothing else
(`Totals.value?_applyAll`), so a table can be followed by itself. `Totals.Pursues` is the
invariant: once the changes that are still to come have moved them, the totals of the table are
its exact tallies. A write that goes through the feed keeps it, since the change that is recorded
shifts each total by just what the write does to the tally; applying the next changes keeps it
too, and so does passing over changes that do not bear on the table.
-/

namespace TableTotals

namespace Totals

/-! ### Changes in a row -/

variable {tables : SortedMap String Watch}

lemma applyAll_append (xs ys : List Change) (t : Totals) :
    t.applyAll tables (xs ++ ys) =
      match t.applyAll tables xs with
      | (t, .error failure) => (t, .error failure)
      | (t, .ok ()) => t.applyAll tables ys := by
  induction xs generalizing t with
  | nil => rfl
  | cons c rest ih =>
    simp only [List.cons_append, applyAll]
    split
    · exact ih t
    · split
      · rfl
      · exact ih _

/-- What every change keeps that can be applied, a row of changes keeps, however far it comes. -/
lemma applyAll_keeps {P : Totals → Prop} {xs : List Change} {t t' : Totals}
    {r : Except Failure Unit} (h : t.applyAll tables xs = (t', r))
    (hstep : ∀ c ∈ xs, ∀ w, tables.get? c.table = some w →
      ∀ t t', t.apply w c = (t', .ok ()) → P t → P t')
    (hstart : P t) : P t' := by
  induction xs generalizing t with
  | nil =>
    cases h
    exact hstart
  | cons c rest ih =>
    have hrest := fun d (hd : d ∈ rest) => hstep d (List.mem_cons_of_mem c hd)
    simp only [applyAll] at h
    split at h
    · exact ih h hrest hstart
    next w hw =>
      split at h
      next t₁ failure ht₁ =>
        cases h
        rwa [(apply_eq_error ht₁).1]
      next t₁ ht₁ => exact ih h hrest (hstep c (by simp) w hw t t₁ ht₁ hstart)

lemma value?_applyAll_of_untouched {xs : List Change} {t t' : Totals} {table : String}
    {m : Measure} (h : t.applyAll tables xs = (t', .ok ()))
    (hxs : ∀ c ∈ xs, c.table = table → ∀ w, tables.get? table = some w → ¬c.Effective w) :
    t'.value? m table = t.value? m table := by
  refine applyAll_keeps (P := fun u => u.value? m table = t.value? m table) h ?_ rfl
  intro c hc w hw t₁ t₂ happly hsame
  rw [value?_apply happly, if_neg, hsame]
  rintro ⟨rfl, hT⟩
  exact hxs c hc rfl w hw hT.1

lemma sized_of_applyAll {xs : List Change} {t t' : Totals} {table : String} {w : Watch}
    (h : t.applyAll tables xs = (t', .ok ())) (hw : tables.get? table = some w) :
    ∀ c ∈ xs, c.table = table → c.Sized w := by
  induction xs generalizing t with
  | nil => simp
  | cons c rest ih =>
    simp only [applyAll] at h
    split at h
    next hnone =>
      intro d hd htable
      rcases List.mem_cons.1 hd with rfl | hd
      · simp [htable, hw] at hnone
      · exact ih h d hd htable
    next w' hw' =>
      split at h
      · cases h
      next t₁ ht₁ =>
        intro d hd htable
        rcases List.mem_cons.1 hd with rfl | hd
        · obtain rfl : w' = w := Option.some.inj (hw'.symm.trans (by rw [htable, hw]))
          exact sized_of_apply ht₁
        · exact ih h d hd htable

end Totals

/-! ### Effects in a row -/

/-- The effects that changes have on a table that is watched so, in order. -/
def effectsOn (table : String) (w : Watch) (xs : List Change) : List Effect :=
  (xs.filter fun c => c.table = table ∧ c.Effective w).map Change.effect

lemma effectsOn_cons (table : String) (w : Watch) (c : Change) (rest : List Change) :
    effectsOn table w (c :: rest) =
      if c.table = table ∧ c.Effective w then c.effect :: effectsOn table w rest
      else effectsOn table w rest := by
  unfold effectsOn
  rw [List.filter_cons]
  split <;> simp_all

lemma effectsOn_append (table : String) (w : Watch) (xs ys : List Change) :
    effectsOn table w (xs ++ ys) = effectsOn table w xs ++ effectsOn table w ys := by
  rw [effectsOn, List.filter_append, List.map_append, effectsOn, effectsOn]

lemma effectsOn_filter (table : String) (w : Watch) (xs : List Change) :
    effectsOn table w (xs.filter fun c => c.table = table) = effectsOn table w xs := by
  rw [effectsOn, effectsOn, List.filter_filter]
  congr 2
  funext c
  by_cases hc : c.table = table <;> simp [hc]

lemma effectsOn_eq_nil {table : String} {w : Watch} {xs : List Change} :
    effectsOn table w xs = [] ↔ ∀ c ∈ xs, c.table = table → ¬c.Effective w := by
  simp [effectsOn, List.filter_eq_nil_iff]

namespace Totals

variable {t t' : Totals} {tables : SortedMap String Watch} {w : Watch} {c : Change}
  {xs late : List Change} {table : String}

/-- **What changes come to, table by table.** A total is moved by one after another of the effects
that there are on its table. -/
lemma value?_applyAll (h : t.applyAll tables xs = (t', .ok ())) (hw : tables.get? table = some w)
    (m : Measure) :
    t'.value? m table = (effectsOn table w xs).foldl (m.moved w) (t.value? m table) := by
  induction xs generalizing t with
  | nil =>
    cases h
    rfl
  | cons c rest ih =>
    rw [effectsOn_cons]
    rcases hc : tables.get? c.table with _ | w'
    · have htable : c.table ≠ table := by
        rintro rfl
        simp [hc] at hw
      simp only [applyAll, hc] at h
      rw [if_neg fun hT => htable hT.1, ih h]
    rcases happly : t.apply w' c with ⟨t₁, failure | _⟩
    · simp [applyAll, hc, happly] at h
    simp only [applyAll, hc, happly] at h
    rw [ih h, value?_apply_effect happly]
    by_cases htable : c.table = table
    · subst htable
      obtain rfl : w' = w := Option.some.inj (hc.symm.trans hw)
      by_cases heffective : c.Effective w'
      · simp [heffective]
      · have hstays : m.moved w' (t.value? m c.table) c.effect = t.value? m c.table :=
          if_neg fun hT => heffective hT.1
        simp [heffective, hstays]
    · simp [htable]

/-- The totals of a table, moved by what some changes will do to them. -/
def ahead (t : Totals) (table : String) (w : Watch) (late : List Change) (m : Measure) :
    Option Int64 :=
  (effectsOn table w late).foldl (m.moved w) (t.value? m table)

lemma ahead_applied (h : t.applyAll tables xs = (t', .ok ())) (hw : tables.get? table = some w) :
    t'.ahead table w late = t.ahead table w (xs ++ late) := by
  funext m
  rw [ahead, ahead, effectsOn_append, List.foldl_append, value?_applyAll h hw]

lemma ahead_passedOver (h : ∀ c ∈ xs, c.table = table → ¬c.Effective w) :
    t.ahead table w (xs ++ late) = t.ahead table w late := by
  funext m
  rw [ahead, ahead, effectsOn_append, effectsOn_eq_nil.2 h, List.nil_append]

lemma ahead_concat (h : c.table = table) (m : Measure) :
    t.ahead table w (late ++ [c]) m = m.moved w (t.ahead table w late m) c.effect := by
  rw [ahead, ahead, effectsOn_append, List.foldl_append]
  by_cases hc : c.Effective w
  · simp [effectsOn, h, hc]
  · have hstays : ∀ x, m.moved w x c.effect = x := fun x => if_neg fun hT => hc hT.1
    simp [effectsOn, hc, hstays]

lemma ahead_concat_of_ne (h : c.table ≠ table) :
    t.ahead table w (late ++ [c]) = t.ahead table w late := by
  funext m
  rw [ahead, ahead, effectsOn_append]
  simp [effectsOn, h]

end Totals

/-! ### Writes -/

/-- Some totals of a table are its tallies: all its entries have a size, and each kept total is
exact. -/
structure Table.Agrees (tbl : Table) (w : Watch) (value : Measure → Option Int64) : Prop where
  sound : tbl.Sound w
  exact : ∀ m, w.Keeps m → ∃ x, value m = some x ∧ x.toInt = tbl.tally w m

/-- A write that a change tells of: the change, and the table after it. -/
inductive Table.Write (name : String) (t : Table) : Change → Table → Prop
  | put {key bytes : List UInt8} {e : Entry} {old : Option Entry}
      (hfits : e.Fits) (hbytes : Wire.encode t.layout e = .ok bytes)
      (hold : t.lookup key = .ok old) :
      Write name t (Feed.putChange name key e old) { t with cells := t.cells.insert key bytes }
  | delete {key : List UInt8} {gone : Option Entry} (hgone : t.lookup key = .ok gone) :
      Write name t ⟨name, .delete, key, gone, none⟩ { t with cells := t.cells.erase key }

namespace Table

/-- What a lookup answers weighs what the cell under the key weighs. -/
lemma part_of_lookup {t : Table} {key : List UInt8} {old : Option Entry}
    (h : t.lookup key = .ok old) (w : Watch) (m : Measure) :
    (t.cells.part fun p => m.weigh (extent? t.layout w p.2)) key =
      match old with
      | none => 0
      | some e => m.weigh (w.extent? e) := by
  unfold lookup at h
  unfold SortedMap.part
  split at h
  next hget =>
    cases h
    rw [hget]
  next bytes hget =>
    rw [hget]
    rcases hd : Wire.decode t.layout bytes with cause | e
    · simp [read, hd, Except.mapError] at h
    · obtain rfl : some e = old := by simpa [read, hd, Except.mapError] using h
      simp only [extent?_of_decode hd]

lemma not_sound_of_lookup {t : Table} {key : List UInt8} {failure : Failure}
    (h : t.lookup key = .error failure) (w : Watch) : ¬t.Sound w := by
  intro hsound
  unfold lookup at h
  split at h
  · cases h
  next bytes hget =>
    have hcell := hsound (key, bytes) (SortedMap.mem_entries.2 hget)
    rcases hd : Wire.decode t.layout bytes with cause | e
    · simp [extent?, hd] at hcell
    · simp [read, hd, Except.mapError] at h

namespace Write

variable {name : String} {t t' : Table} {c : Change}

lemma table_eq (h : t.Write name c t') : c.table = name := by
  cases h with
  | put hfits hbytes hold => rename_i old; cases old <;> rfl
  | delete hgone => rfl

/-- A write moves each tally by what the change that tells of it adds. -/
lemma tally_eq (h : t.Write name c t') (w : Watch) (m : Measure) :
    t'.tally w m = t.tally w m + c.shift w m := by
  cases h with
  | put hfits hbytes hold =>
    rename_i key bytes e old
    have hcell := extent?_of_decode (w := w) (Wire.decode_encode hfits hbytes)
    have hpart := part_of_lookup hold w m
    unfold tally
    rw [SortedMap.sum_insert, hpart, hcell]
    cases old with
    | none => simp [Feed.putChange, Change.shift]
    | some old =>
      simp only [Feed.putChange, Change.shift]
      omega
  | delete hgone =>
    rename_i key gone
    have hpart := part_of_lookup hgone w m
    unfold tally
    rw [SortedMap.sum_erase, hpart]
    cases gone with
    | none => simp [Change.shift]
    | some e =>
      simp only [Change.shift]
      omega

lemma sound (h : t.Write name c t') {w : Watch} (hsound : t.Sound w) (hc : c.Sized w) :
    t'.Sound w := by
  cases h with
  | put hfits hbytes hold =>
    rename_i key bytes e old
    rintro ⟨key', bytes'⟩ hmem
    have hget := SortedMap.mem_entries.1 hmem
    rw [SortedMap.get?_insert] at hget
    split at hget
    · cases hget
      have hwritten : (Feed.putChange name key e old).written? = some e := by cases old <;> rfl
      simpa only [extent?_of_decode (Wire.decode_encode hfits hbytes)] using hc e hwritten
    · exact hsound (key', bytes') (SortedMap.mem_entries.2 hget)
  | delete hgone =>
    rintro ⟨key', bytes'⟩ hmem
    have hget := SortedMap.mem_entries.1 hmem
    rw [SortedMap.get?_erase] at hget
    split at hget
    · cases hget
    · exact hsound (key', bytes') (SortedMap.mem_entries.2 hget)

end Write

end Table

/-- The step that carries the invariant: moved by the change that tells of a write, totals that
agree with a table agree with the table after it. -/
lemma Table.Agrees.write {name : String} {tbl tbl' : Table} {w : Watch} {c : Change}
    {value : Measure → Option Int64} (h : tbl.Agrees w value) (hw : tbl.Write name c tbl')
    (hc : c.Sized w) (hb : ∀ m, w.Keeps m → tbl'.tally w m ≤ maxSigned) :
    tbl'.Agrees w fun m => m.moved w (value m) c.effect := by
  refine ⟨hw.sound h.sound hc, fun m hm => ?_⟩
  obtain ⟨x, hx, hexact⟩ := h.exact m hm
  have hx0 : 0 ≤ x.toInt := hexact ▸ tbl.tally_nonneg w m
  obtain ⟨y, hy, hvalue⟩ := Totals.toInt_moved c hm hx0
  have h0 := tbl'.tally_nonneg w m
  have hle := hb m hm
  refine ⟨y, ?_, ?_⟩
  · rw [hx]
    exact hy
  · rw [hvalue, hexact, ← hw.tally_eq w m]
    omega

/-! ### Totals and a store -/

namespace Metadata

/-- No tally of a watched table is past the largest word. Of the number of entries that is no
more than what a memory addressed by words has room for. -/
def Bounded (s : Metadata) (tables : SortedMap String Watch) : Prop :=
  ∀ p ∈ tables.entries, ∀ t ∈ s.tables.get? p.1, ∀ m ∈ Measure.all,
    p.2.Keeps m → t.tally p.2 m ≤ maxSigned

instance (s : Metadata) (tables : SortedMap String Watch) : Decidable (s.Bounded tables) :=
  inferInstanceAs (Decidable (∀ p ∈ tables.entries, ∀ t ∈ s.tables.get? p.1, ∀ m ∈ Measure.all,
    p.2.Keeps m → t.tally p.2 m ≤ maxSigned))

lemma Bounded.tally_le {s : Metadata} {tables : SortedMap String Watch} (h : s.Bounded tables)
    {name : String} {w : Watch} {t : Table} (hw : tables.get? name = some w)
    (ht : s.tables.get? name = some t) {m : Measure} (hm : w.Keeps m) :
    t.tally w m ≤ maxSigned :=
  h (name, w) (SortedMap.mem_entries.2 hw) t ht m m.mem_all hm

def withTable (s : Metadata) (name : String) (t : Table) : Metadata :=
  { s with tables := s.tables.insert name t }

@[simp] lemma get?_withTable (s : Metadata) (name name' : String) (t : Table) :
    (s.withTable name t).tables.get? name' = if name' = name then some t else s.tables.get? name' :=
  SortedMap.get?_insert s.tables name name' t

end Metadata

namespace Feed

/-- What a put or a deletion through the feed comes to. It may be refused; it may be recorded;
and it may meet a cell that is no entry, in which case it is done and yet not recorded. -/
inductive Written (f : Feed) (s : Metadata) : Feed → Metadata → Prop
  | refused : Written f s f s
  | recorded {name : String} {t t' : Table} {c : Change} (ht : s.tables.get? name = some t)
      (hw : t.Write name c t') : Written f s (f.record c) (s.withTable name t')
  | blind {name : String} {t t' : Table} (ht : s.tables.get? name = some t)
      (hbroken : ∀ w, ¬t.Sound w) : Written f s f (s.withTable name t')

lemma written_put (f : Feed) (s : Metadata) (name : String) (key : List UInt8) {e : Entry}
    (hfits : e.Fits) : f.Written s (f.put s name key e).1.1 (f.put s name key e).1.2 := by
  rcases ht : s.tables.get? name with _ | t
  · simp only [Feed.put, Metadata.put, Metadata.table, ht]
    exact .refused
  have htable := Metadata.table_eq_ok.2 ht
  rcases hbytes : Wire.encode t.layout e with cause | bytes
  · simp only [Feed.put, Metadata.put, htable, hbytes]
    exact .refused
  rcases hold : t.lookup key with failure | old
  · simp only [Feed.put, Metadata.put, htable, hbytes, hold]
    exact .blind ht (Table.not_sound_of_lookup hold)
  · simp only [Feed.put, Metadata.put, htable, hbytes, hold]
    exact .recorded ht (.put hfits hbytes hold)

lemma written_delete (f : Feed) (s : Metadata) (name : String) (key : List UInt8) :
    f.Written s (f.delete s name key).1.1 (f.delete s name key).1.2 := by
  rcases ht : s.tables.get? name with _ | t
  · simp only [Feed.delete, Metadata.delete, Metadata.table, ht]
    exact .refused
  have htable := Metadata.table_eq_ok.2 ht
  rcases hgone : t.lookup key with failure | gone
  · simp only [Feed.delete, Metadata.delete, htable, hgone]
    exact .blind ht (Table.not_sound_of_lookup hgone)
  · simp only [Feed.delete, Metadata.delete, htable, hgone]
    exact .recorded ht (.delete hgone)

end Feed

namespace Totals

variable {t t' : Totals} {tables : SortedMap String Watch} {name : String} {w : Watch}
  {late xs : List Change} {tbl : Table}

/-- **The invariant.** Once the changes that are still to come have moved them, if all of those
that are of the table can be applied, the totals of a table are its tallies. -/
def Pursues (t : Totals) (name : String) (w : Watch) (late : List Change) (tbl : Table) : Prop :=
  (∀ c ∈ late, c.table = name → c.Sized w) → tbl.Agrees w (t.ahead name w late)

lemma Pursues.agrees (h : t.Pursues name w [] tbl) : tbl.Agrees w (t.value? · name) := h (by simp)

lemma pursues_of_agrees (h : tbl.Agrees w (t.value? · name))
    (hlate : ∀ c ∈ late, c.table = name → ¬c.Effective w) : t.Pursues name w late tbl := by
  intro _
  have hsame : t.ahead name w late = (t.value? · name) := by
    rw [← List.append_nil late, ahead_passedOver hlate]
    rfl
  rwa [hsame]

lemma pursues_of_applied
    (h : t.applyAll tables (late.filter fun c => c.table = name) = (t', .ok ()))
    (hw : tables.get? name = some w) (hagrees : tbl.Agrees w (t'.value? · name)) :
    t.Pursues name w late tbl := by
  intro _
  have hsame : t.ahead name w late = (t'.value? · name) := by
    funext m
    rw [ahead, ← effectsOn_filter, value?_applyAll h hw]
  rwa [hsame]

lemma Pursues.applied (h : t.Pursues name w (xs ++ late) tbl)
    (hxs : t.applyAll tables xs = (t', .ok ())) (hw : tables.get? name = some w) :
    t'.Pursues name w late tbl := by
  intro hlate
  rw [ahead_applied hxs hw]
  refine h fun c hc => ?_
  rcases List.mem_append.1 hc with hc | hc
  · exact sized_of_applyAll hxs hw c hc
  · exact hlate c hc

/-- What is never applied is no loss to a table on which it has no effect. -/
lemma Pursues.passedOver (h : t.Pursues name w (xs ++ late) tbl)
    (hxs : ∀ c ∈ xs, c.table = name → ¬c.Effective w) : t.Pursues name w late tbl := by
  intro hlate
  rw [← ahead_passedOver hxs]
  refine h fun c hc htable => ?_
  rcases List.mem_append.1 hc with hc | hc
  · exact Change.sized_of_not_effective (hxs c hc htable)
  · exact hlate c hc htable

lemma Pursues.congr (h : t.Pursues name w late tbl)
    (hvalue : ∀ m, w.Keeps m → t'.value? m name = t.value? m name) :
    t'.Pursues name w late tbl := by
  intro hlate
  refine ⟨(h hlate).sound, fun m hm => ?_⟩
  rw [ahead, hvalue m hm]
  exact (h hlate).exact m hm

/-- **Writes keep the invariant.** Whatever a write through the feed comes to, the totals still
pursue the table, with what it recorded now to come as well. -/
lemma Pursues.written {f f' : Feed} {s s' : Metadata} {before : List Change}
    (h : t.Pursues name w (before ++ f.pending) tbl) (htbl : s.tables.get? name = some tbl)
    (hw : f.Written s f' s') (hb : s'.Bounded tables) (hwatch : tables.get? name = some w) :
    ∃ tbl', s'.tables.get? name = some tbl' ∧ t.Pursues name w (before ++ f'.pending) tbl' := by
  cases hw with
  | refused => exact ⟨tbl, htbl, h⟩
  | recorded hold hwrite =>
    rename_i name' old new c
    have hlater : before ++ (f.record c).pending = before ++ f.pending ++ [c] := by
      rw [Feed.record, List.append_assoc]
    rw [hlater]
    by_cases hname : name' = name
    · subst hname
      obtain rfl : old = tbl := Option.some.inj (hold.symm.trans htbl)
      have hget : (s.withTable name' new).tables.get? name' = some new := by simp
      refine ⟨new, hget, fun hlate => ?_⟩
      have hmoved : t.ahead name' w (before ++ f.pending ++ [c]) =
          fun m => m.moved w (t.ahead name' w (before ++ f.pending) m) c.effect :=
        funext (ahead_concat hwrite.table_eq)
      rw [hmoved]
      have hagrees := h fun d hd => hlate d (List.mem_append_left _ hd)
      exact hagrees.write hwrite (hlate c (by simp) hwrite.table_eq) fun m hm =>
        hb.tally_le hwatch hget hm
    · refine ⟨tbl, by simp [Ne.symm hname, htbl], fun hlate => ?_⟩
      rw [ahead_concat_of_ne (by rwa [hwrite.table_eq])]
      exact h fun d hd => hlate d (List.mem_append_left _ hd)
  | blind hold hbroken =>
    rename_i name' old new
    by_cases hname : name' = name
    · -- no totals agree with a table that holds bytes which are no entry
      subst hname
      obtain rfl : old = tbl := Option.some.inj (hold.symm.trans htbl)
      exact ⟨new, by simp, fun hlate => absurd (h hlate).sound (hbroken w)⟩
    · exact ⟨tbl, by simp [Ne.symm hname, htbl], h⟩

end Totals

end TableTotals
