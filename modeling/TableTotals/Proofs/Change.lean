import TableTotals.Proofs.Tally

/-!
What a change does to the totals.

`Change.shift` is what a change adds to a measure of its table, in unbounded integers. A change
that can be applied moves the totals that it touches by its shift, stopped at zero and at the
largest word, and leaves all others alone (`Totals.value?_apply`).
-/

namespace TableTotals

abbrev Effect := Action × Option Entry × Option Entry

namespace Change

/-- What the change adds to a measure of its table. -/
def shift (c : Change) (w : Watch) (m : Measure) : Int :=
  match c.action, c.value, c.old with
  | .put, some new, _ => m.weigh (w.extent? new)
  | .delete, some gone, _ => -m.weigh (w.extent? gone)
  | .update, some new, some old => m.weigh (w.extent? new) - m.weigh (w.extent? old)
  | _, _, _ => 0

/-- The change says enough to bear on the totals of a table that is watched so. -/
def Effective (c : Change) (w : Watch) : Prop :=
  match c.action, c.value, c.old with
  | .put, some _, _ => True
  | .delete, some _, _ => True
  | .update, some _, some _ => w.tracksSize = true
  | _, _, _ => False

instance (c : Change) (w : Watch) : Decidable (c.Effective w) := by
  unfold Effective
  split <;> infer_instance

/-- The change moves a measure of its table; a modification never moves the count. -/
def Touches (c : Change) (w : Watch) (m : Measure) : Prop :=
  c.Effective w ∧ w.Keeps m ∧ (c.action = .update → m ≠ .count)

instance (c : Change) (w : Watch) (m : Measure) : Decidable (c.Touches w m) :=
  inferInstanceAs (Decidable (_ ∧ _ ∧ _))

/-- The entry that the change leaves in its table, where it says which and what it replaced. -/
def written? (c : Change) : Option Entry :=
  match c.action, c.value, c.old with
  | .put, some new, _ => some new
  | .update, some new, some _ => some new
  | _, _, _ => none

/-- What the change has put into its table has a size there. -/
def Sized (c : Change) (w : Watch) : Prop :=
  ∀ e, c.written? = some e → (w.extent? e).isSome

lemma sized_of_not_effective {c : Change} {w : Watch} (h : ¬c.Effective w) : c.Sized w := by
  obtain ⟨table, action, key, value, old⟩ := c
  intro e he
  cases w with
  | counted => rfl
  | sized s =>
    cases action <;> cases value <;> cases old <;>
      simp [written?, Effective, Watch.tracksSize, Watch.sizer?] at he h

def effect (c : Change) : Effect := (c.action, c.value, c.old)

def ofEffect (d : Effect) : Change := ⟨"", d.1, [], d.2.1, d.2.2⟩

end Change

/-- What an effect makes of a total of a table that is watched so. -/
def Measure.moved (m : Measure) (w : Watch) (x : Option Int64) (d : Effect) : Option Int64 :=
  if (Change.ofEffect d).Touches w m then
    some (Clamped.floorZero (Clamped.add (x.getD 0)
      (Clamped.ofInt ((Change.ofEffect d).shift w m))))
  else x

namespace Clamped

lemma ofInt_toInt (d : Int64) : ofInt d.toInt = d := by
  have hle := toInt_le d
  have hge := le_toInt d
  refine Int64.toInt_inj.1 ?_
  rw [toInt_ofInt]
  omega

lemma toInt_neg {x : Int64} (h : 0 ≤ x.toInt) : (-x).toInt = -x.toInt := by
  have hx := x.toInt_lt
  rw [Int64.toInt_neg, Int.bmod_eq_of_le] <;> omega

lemma toInt_sub_of_nonneg {x y : Int64} (hx : 0 ≤ x.toInt) (hy : 0 ≤ y.toInt) :
    (sub x y).toInt = x.toInt - y.toInt := by
  have hlx := toInt_le x
  have hly := toInt_le y
  rw [toInt_sub]
  simp only [minSigned, maxSigned] at hlx hly ⊢
  omega

end Clamped

namespace Totals

lemma value?_add (t : Totals) (m m' : Measure) (table table' : String) (d : Int64) :
    (t.add m table d).value? m' table' =
      if m' = m ∧ table' = table then
        some (Clamped.floorZero (Clamped.add ((t.value? m table).getD 0) d))
      else t.value? m' table' :=
  value?_set t m m' table table' _

/-- What goes to a measure of a change that adds to the count and to the sizes. -/
def portion (n : Int64) (d : Extent) : Measure → Int64
  | .count => n
  | .unreplicated => d.unreplicated
  | .replicated => d.replicated

lemma value?_addExtent (t : Totals) (table table' : String) (d : Extent) (m : Measure) :
    (t.addExtent table d).value? m table' =
      if m ≠ .count ∧ table' = table then
        some (Clamped.floorZero (Clamped.add ((t.value? m table).getD 0) (portion 0 d m)))
      else t.value? m table' := by
  cases m <;> simp [addExtent, value?_add, portion]

lemma value?_add_addExtent (t : Totals) (table table' : String) (n : Int64) (d : Extent)
    (m : Measure) :
    ((t.add .count table n).addExtent table d).value? m table' =
      if table' = table then
        some (Clamped.floorZero (Clamped.add ((t.value? m table).getD 0) (portion n d m)))
      else t.value? m table' := by
  by_cases ht : table' = table
  · subst ht
    cases m <;> simp [value?_addExtent, value?_add, portion]
  · cases m <;> simp [value?_addExtent, value?_add, ht]

variable {t t' : Totals} {w : Watch} {c : Change}

/-! What each way of adjusting adds is the weight of the entries it names. -/

lemma portion_add {e : Entry} {x : Extent} (h : w.extent? e = some x) (m : Measure) :
    portion 1 x m = Clamped.ofInt (m.weigh (w.extent? e)) := by
  rw [h, ← Clamped.ofInt_toInt (portion 1 x m)]
  cases m <;> rfl

lemma portion_neg {e : Entry} {x : Extent} (h : w.extent? e = some x) (m : Measure) :
    portion (-1) x.neg m = Clamped.ofInt (-m.weigh (w.extent? e)) := by
  obtain ⟨hu, hr⟩ := Watch.extent?_nonneg h
  rw [h, ← Clamped.ofInt_toInt (portion (-1) x.neg m)]
  congr 1
  cases m
  · rfl
  · exact Clamped.toInt_neg hu
  · exact Clamped.toInt_neg hr

lemma portion_sub {e old : Entry} {x y : Extent} (hx : w.extent? e = some x)
    (hy : w.extent? old = some y) (m : Measure) :
    portion 0 (x.sub y) m = Clamped.ofInt (m.weigh (w.extent? e) - m.weigh (w.extent? old)) := by
  obtain ⟨hxu, hxr⟩ := Watch.extent?_nonneg hx
  obtain ⟨hyu, hyr⟩ := Watch.extent?_nonneg hy
  rw [hx, hy, ← Clamped.ofInt_toInt (portion 0 (x.sub y) m)]
  congr 1
  cases m
  · rfl
  · exact Clamped.toInt_sub_of_nonneg hxu hyu
  · exact Clamped.toInt_sub_of_nonneg hxr hyr

lemma size_eq_ok {s : Sizer} {table : String} {e : Entry} {x : Extent} :
    s.size table e = .ok x ↔ (Watch.sized s).extent? e = some x :=
  @Watch.extent_eq_ok (.sized s) table e x

/-- What applying a change makes of the totals, said by what the change itself says. -/
lemma apply_sized_eq_ok {s : Sizer} (h : t.apply (.sized s) c = (t', .ok ())) :
    (∃ new x, c.action = .put ∧ c.value = some new ∧ (Watch.sized s).extent? new = some x ∧
      t' = (t.add .count c.table 1).addExtent c.table x) ∨
    (∃ gone x, c.action = .delete ∧ c.value = some gone ∧
      (Watch.sized s).extent? gone = some x ∧
      t' = (t.add .count c.table (-1)).addExtent c.table x.neg) ∨
    (∃ new old x y, c.action = .update ∧ c.value = some new ∧ c.old = some old ∧
      (Watch.sized s).extent? new = some x ∧ (Watch.sized s).extent? old = some y ∧
      t' = t.addExtent c.table (x.sub y)) ∨
    (¬c.Effective (.sized s) ∧ t' = t) := by
  obtain ⟨table, action, key, value, old⟩ := c
  cases value with
  | none =>
    refine .inr (.inr (.inr ⟨by cases action <;> simp [Change.Effective], ?_⟩))
    cases action <;> simpa [apply, Action.adjustment?, adjust] using h.symm
  | some new =>
    cases action with
    | put =>
      simp only [apply, Action.adjustment?, adjust] at h
      rcases hx : s.size table new with e | x
      · simp [hx] at h
      · simp only [hx] at h
        cases h
        exact .inl ⟨new, x, rfl, rfl, size_eq_ok.1 hx, rfl⟩
    | delete =>
      simp only [apply, Action.adjustment?, adjust] at h
      rcases hx : s.size table new with e | x
      · simp [hx] at h
      · simp only [hx] at h
        cases h
        exact .inr (.inl ⟨new, x, rfl, rfl, size_eq_ok.1 hx, rfl⟩)
    | update =>
      cases old with
      | none =>
        refine .inr (.inr (.inr ⟨by simp [Change.Effective], ?_⟩))
        simpa [apply, Action.adjustment?, adjust] using h.symm
      | some old =>
        simp only [apply, Action.adjustment?, adjust] at h
        rcases hx : s.size table new with e | x
        · simp [hx] at h
        rcases hy : s.size table old with e | y
        · simp [hx, hy] at h
        simp only [hx, hy] at h
        cases h
        exact .inr (.inr (.inl ⟨new, old, x, y, rfl, rfl, rfl, size_eq_ok.1 hx,
          size_eq_ok.1 hy, rfl⟩))
    | other name =>
      refine .inr (.inr (.inr ⟨by simp [Change.Effective], ?_⟩))
      simpa [apply, Action.adjustment?] using h.symm

/-- An adjustment fails only over the size of an entry that the change names, and no total has
changed by then. -/
lemma adjust_eq_error {s : Sizer} {table : String} {a : Adjustment} {value old : Option Entry}
    {failure : Failure} (h : t.adjust s table a value old = (t', .error failure)) :
    t' = t ∧ ∃ e, s.size table e = .error failure := by
  cases value with
  | none => cases a <;> cases h
  | some new =>
    cases a with
    | insertion | removal =>
      simp only [adjust] at h
      rcases hx : s.size table new with e | x
      · simp only [hx] at h
        cases h
        exact ⟨rfl, new, hx⟩
      · simp [hx] at h
    | modification =>
      cases old with
      | none => cases h
      | some old =>
        simp only [adjust] at h
        rcases hx : s.size table new with e | x
        · simp only [hx] at h
          cases h
          exact ⟨rfl, new, hx⟩
        rcases hy : s.size table old with e | y
        · simp only [hx, hy] at h
          cases h
          exact ⟨rfl, old, hy⟩
        · simp [hx, hy] at h

/-- So the totals that an adjustment makes, or its failure, say all that it does. -/
theorem adjust_eq_match (s : Sizer) (table : String) (a : Adjustment) (value old : Option Entry)
    (t : Totals) :
    t.adjust s table a value old =
      match s.adjust table a value old t with
      | .ok t' => (t', .ok ())
      | .error failure => (t, .error failure) := by
  rcases h : t.adjust s table a value old with ⟨t', failure | _⟩
  · obtain ⟨rfl, -⟩ := adjust_eq_error h
    simp [Sizer.adjust, h, Except.map]
  · simp [Sizer.adjust, h, Except.map]

/-- **A change that fails has changed no total**; it names an entry of its table without a size. -/
theorem apply_eq_error {failure : Failure} (h : t.apply w c = (t', .error failure)) :
    t' = t ∧ ∃ s e, w = .sized s ∧ s.size c.table e = .error failure := by
  cases w with
  | counted => cases h
  | sized s =>
    cases ha : c.action.adjustment? with
    | none => simp [apply, ha] at h
    | some a =>
      simp only [apply, ha] at h
      obtain ⟨rfl, e, he⟩ := adjust_eq_error h
      exact ⟨rfl, s, e, rfl, he⟩

lemma value?_recount (t : Totals) (c : Change) (m : Measure) (table : String) :
    (t.recount c).value? m table =
      if table = c.table ∧ c.Touches .counted m then
        some (Clamped.floorZero (Clamped.add ((t.value? m table).getD 0)
          (Clamped.ofInt (c.shift .counted m))))
      else t.value? m table := by
  obtain ⟨ctable, action, key, value, old⟩ := c
  have hkeeps : Watch.counted.Keeps m ↔ m = .count := by simp [Watch.Keeps, Watch.tracksSize,
    Watch.sizer?]
  have hone : Clamped.ofInt 1 = 1 := Clamped.ofInt_toInt 1
  have hneg : Clamped.ofInt (-1) = -1 := Clamped.ofInt_toInt (-1)
  by_cases ht : table = ctable
  · subst ht
    by_cases hm : m = .count
    · subst hm
      cases action <;> cases value <;> cases old <;>
        simp [recount, value?_add, Change.Touches, Change.Effective, Change.shift, hkeeps, hone,
          hneg]
    · cases action <;> cases value <;> simp [recount, value?_add, Change.Touches, hkeeps, hm]
  · cases action <;> cases value <;> simp [recount, value?_add, ht]

/-- **What a change does to the totals.** A change that can be applied adds its shift to the
totals that it touches, and leaves every other total as it was. -/
theorem value?_apply (h : t.apply w c = (t', .ok ())) (m : Measure) (table : String) :
    t'.value? m table =
      if table = c.table ∧ c.Touches w m then
        some (Clamped.floorZero (Clamped.add ((t.value? m table).getD 0)
          (Clamped.ofInt (c.shift w m))))
      else t.value? m table := by
  cases w with
  | counted =>
    obtain rfl : t.recount c = t' := by simpa [apply] using h
    exact value?_recount t c m table
  | sized s =>
    have hkeeps : (Watch.sized s).Keeps m := Watch.keeps_of_tracksSize rfl m
    rcases apply_sized_eq_ok h with ⟨new, x, ha, hv, hx, rfl⟩ | ⟨gone, x, ha, hv, hx, rfl⟩ |
      ⟨new, old, x, y, ha, hv, ho, hx, hy, rfl⟩ | ⟨hc, rfl⟩
    · have hT : c.Touches (.sized s) m := ⟨by simp [Change.Effective, ha, hv], hkeeps, by simp [ha]⟩
      have hs : c.shift (.sized s) m = m.weigh ((Watch.sized s).extent? new) := by
        simp [Change.shift, ha, hv]
      rw [value?_add_addExtent, portion_add hx, hs]
      by_cases ht : table = c.table <;> simp [ht, hT]
    · have hT : c.Touches (.sized s) m := ⟨by simp [Change.Effective, ha, hv], hkeeps, by simp [ha]⟩
      have hs : c.shift (.sized s) m = -m.weigh ((Watch.sized s).extent? gone) := by
        simp [Change.shift, ha, hv]
      rw [value?_add_addExtent, portion_neg hx, hs]
      by_cases ht : table = c.table <;> simp [ht, hT]
    · have hT : c.Touches (.sized s) m ↔ m ≠ .count := by
        simp [Change.Touches, Change.Effective, ha, hv, ho, hkeeps, Watch.tracksSize, Watch.sizer?]
      have hs : c.shift (.sized s) m =
          m.weigh ((Watch.sized s).extent? new) - m.weigh ((Watch.sized s).extent? old) := by
        simp [Change.shift, ha, hv, ho]
      rw [value?_addExtent, portion_sub hx hy, hs]
      by_cases ht : table = c.table <;> simp [ht, hT]
    · rw [if_neg fun hT => hc hT.2.1]

lemma sized_of_apply (h : t.apply w c = (t', .ok ())) : c.Sized w := by
  intro e he
  cases w with
  | counted => rfl
  | sized s =>
    rcases apply_sized_eq_ok h with ⟨new, x, ha, hv, hx, -⟩ | ⟨gone, x, ha, hv, hx, -⟩ |
      ⟨new, old, x, y, ha, hv, ho, hx, hy, -⟩ | ⟨hc, -⟩
    · simp only [Change.written?, ha, hv, Option.some.injEq] at he
      simp [← he, hx]
    · simp [Change.written?, ha] at he
    · simp only [Change.written?, ha, hv, ho, Option.some.injEq] at he
      simp [← he, hx]
    · obtain ⟨table, action, key, value, old⟩ := c
      cases action <;> cases value <;> cases old <;>
        simp [Change.written?, Change.Effective, Watch.tracksSize, Watch.sizer?] at he hc

lemma weigh_extent?_le (w : Watch) (m : Measure) (e : Entry) :
    m.weigh (w.extent? e) ≤ maxSigned := by
  rcases w.extent? e with _ | x
  · cases m <;> simp [Measure.weigh, maxSigned]
  · cases m
    · simp [maxSigned]
    · exact Clamped.toInt_le x.unreplicated
    · exact Clamped.toInt_le x.replicated

lemma toInt_ofInt_shift (c : Change) (w : Watch) (m : Measure) :
    (Clamped.ofInt (c.shift w m)).toInt = c.shift w m := by
  have hbound : -maxSigned ≤ c.shift w m ∧ c.shift w m ≤ maxSigned := by
    obtain ⟨table, action, key, value, old⟩ := c
    have h0 := w.weigh_nonneg m
    have hle := weigh_extent?_le w m
    cases action with
    | put | delete =>
      cases value with
      | none => simp [Change.shift, maxSigned]
      | some e =>
        have h0e := h0 e
        have hle := hle e
        simp only [Change.shift, maxSigned] at hle ⊢
        omega
    | update =>
      cases value with
      | none => simp [Change.shift, maxSigned]
      | some e =>
        cases old with
        | none => simp [Change.shift, maxSigned]
        | some old =>
          have h0e := h0 e
          have hle₁ := hle e
          have h0o := h0 old
          have hle₂ := hle old
          simp only [Change.shift, maxSigned] at hle₁ hle₂ ⊢
          omega
    | other name => simp [Change.shift, maxSigned]
  rw [Clamped.toInt_ofInt]
  simp only [minSigned, maxSigned] at hbound ⊢
  omega

lemma toInt_floorZero_add_shift (c : Change) (w : Watch) (m : Measure) (x : Int64) :
    (Clamped.floorZero (Clamped.add x (Clamped.ofInt (c.shift w m)))).toInt =
      max 0 (min (x.toInt + c.shift w m) maxSigned) := by
  rw [Clamped.toInt_floorZero, Clamped.toInt_add, toInt_ofInt_shift]
  simp only [minSigned, maxSigned]
  omega

def level (t : Totals) (m : Measure) (table : String) : Int := ((t.value? m table).getD 0).toInt

lemma level_apply (h : t.apply w c = (t', .ok ())) (m : Measure) (table : String) :
    t'.level m table =
      if table = c.table ∧ c.Touches w m then
        max 0 (min (t.level m table + c.shift w m) maxSigned)
      else t.level m table := by
  rw [level, value?_apply h]
  split
  · exact toInt_floorZero_add_shift c w m _
  · rfl

/-- A kept total that a change does not touch is one that it would add nothing to. -/
lemma shift_eq_zero {m : Measure} (hm : w.Keeps m) (h : ¬c.Touches w m) : c.shift w m = 0 := by
  obtain ⟨table, action, key, value, old⟩ := c
  cases action <;> cases value <;> cases old <;>
    simp_all [Change.Touches, Change.Effective, Change.shift, Watch.Keeps]
  rcases hm with rfl | hm
  · simp
  · simp [h hm]

lemma toInt_moved (c : Change) {m : Measure} (hm : w.Keeps m) {x : Int64} (h0 : 0 ≤ x.toInt) :
    ∃ y, (if c.Touches w m then
        some (Clamped.floorZero (Clamped.add x (Clamped.ofInt (c.shift w m))))
      else some x) = some y ∧ y.toInt = max 0 (min (x.toInt + c.shift w m) maxSigned) := by
  by_cases hT : c.Touches w m
  · rw [if_pos hT]
    exact ⟨_, rfl, toInt_floorZero_add_shift c w m x⟩
  · rw [if_neg hT]
    have hle := Clamped.toInt_le x
    refine ⟨x, rfl, ?_⟩
    rw [shift_eq_zero hm hT]
    omega

lemma value?_apply_effect (h : t.apply w c = (t', .ok ())) (m : Measure) (table : String) :
    t'.value? m table =
      if c.table = table then m.moved w (t.value? m table) c.effect else t.value? m table := by
  rw [value?_apply h]
  by_cases htable : c.table = table
  · subst htable
    simp only [true_and, if_true]
    rfl
  · rw [if_neg fun hT => htable hT.1.symm, if_neg htable]

lemma apply_of_not_effective (h : ¬c.Effective w) (t : Totals) : t.apply w c = (t, .ok ()) := by
  obtain ⟨table, action, key, value, old⟩ := c
  cases w <;> cases action <;> cases value <;> cases old <;>
    first
    | rfl
    | exact absurd trivial h
    | exact absurd rfl h

end Totals

end TableTotals
