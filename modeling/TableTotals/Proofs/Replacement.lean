import TableTotals.Proofs.Misfit

/-!
An entry that is replaced.

A feed may report that an entry was replaced as one modification, or as the removal of the old
entry and the insertion of the new one. The two ways stop at zero and at the largest word at
different points: a modification adds the difference of the sizes once, a removal and an
insertion add two sizes one after the other. They come to the same wherever the totals include
the entry that goes (`Totals.Includes`): nothing is then lost to the floor, and what is lost above
the largest word is lost to the last step either way.
-/

namespace TableTotals

namespace Change

variable (table : String) (key : List UInt8) (new old : Entry) (other : Option Entry)

/-- The changes that report that an entry of a table went, came, and made way for another. -/
def removal : Change := ⟨table, .delete, key, some old, other⟩

def insertion : Change := ⟨table, .put, key, some new, other⟩

def modification : Change := ⟨table, .update, key, some new, some old⟩

variable (s : Sizer) (m : Measure)

lemma touches_removal : (removal table key old other).Touches (.sized s) m :=
  ⟨trivial, Watch.keeps_of_tracksSize rfl m, nofun⟩

lemma touches_insertion : (insertion table key new other).Touches (.sized s) m :=
  ⟨trivial, Watch.keeps_of_tracksSize rfl m, nofun⟩

lemma touches_modification :
    (modification table key new old).Touches (.sized s) m ↔ m ≠ .count :=
  ⟨fun h => h.2.2 rfl, fun h => ⟨rfl, Watch.keeps_of_tracksSize rfl m, fun _ => h⟩⟩

end Change

namespace Totals

/-- Each total of a table is at least what an entry adds to it. -/
def Includes (t : Totals) (s : Sizer) (table : String) (e : Entry) : Prop :=
  ∀ m : Measure, m.weigh (s.size? e) ≤ t.level m table

variable {s : Sizer} {table : String} {key : List UInt8} {new old : Entry}
  {o o' : Option Entry} {t t' without replaced : Totals}

/-- The two ways to report a replacement make the same word of a total that includes the old
entry. -/
lemma floorZero_replaced (table : String) (key : List UInt8) (new : Entry) (o o' : Option Entry)
    {x : Int64} {m : Measure} (h : m.weigh (s.size? old) ≤ x.toInt) :
    Clamped.floorZero (Clamped.add x
        (Clamped.ofInt ((Change.modification table key new old).shift (.sized s) m))) =
      Clamped.floorZero (Clamped.add
        (Clamped.floorZero (Clamped.add x
          (Clamped.ofInt ((Change.removal table key old o).shift (.sized s) m))))
        (Clamped.ofInt ((Change.insertion table key new o').shift (.sized s) m))) := by
  have hmod : (Change.modification table key new old).shift (.sized s) m =
      m.weigh (s.size? new) - m.weigh (s.size? old) := rfl
  have hgone : (Change.removal table key old o).shift (.sized s) m = -m.weigh (s.size? old) := rfl
  have hcome : (Change.insertion table key new o').shift (.sized s) m = m.weigh (s.size? new) := rfl
  have hnew : 0 ≤ m.weigh (s.size? new) := (Watch.sized s).weigh_nonneg m new
  have hx := Clamped.toInt_le x
  refine Int64.toInt_inj.1 ?_
  rw [toInt_floorZero_add_shift, toInt_floorZero_add_shift, toInt_floorZero_add_shift, hmod, hgone,
    hcome]
  omega

lemma Includes.value?_count (h : t.Includes s table old) :
    ∃ x, t.value? .count table = some x ∧ 1 ≤ x.toInt := by
  have hone : 1 ≤ t.level .count table := h .count
  rcases hx : t.value? .count table with _ | x
  · simp [level, hx] at hone
  · exact ⟨x, rfl, by simpa [level, hx] using hone⟩

/-- **A modification comes to a removal that an insertion follows.** -/
lemma modified_eq_replaced (h : t.Includes s table old)
    (hmod : t.apply (.sized s) (.modification table key new old) = (t', .ok ()))
    (hgone : t.apply (.sized s) (.removal table key old o) = (without, .ok ()))
    (hcome : without.apply (.sized s) (.insertion table key new o') = (replaced, .ok ())) :
    replaced = t' := by
  refine ext_value? fun m name => ?_
  rw [value?_apply hmod, value?_apply hcome, value?_apply hgone]
  by_cases hname : name = table
  · subst hname
    have hincludes := floorZero_replaced name key new o o' (h m)
    rw [if_pos ⟨rfl, Change.touches_insertion ..⟩, if_pos ⟨rfl, Change.touches_removal ..⟩,
      Option.getD_some, ← hincludes]
    by_cases hm : m = .count
    · -- one entry less and one more
      subst hm
      obtain ⟨x, hx, hone⟩ := h.value?_count
      rw [if_neg fun hT => (Change.touches_modification ..).1 hT.2 rfl, hx, Option.getD_some,
        Option.some.injEq]
      refine Int64.toInt_inj.1 ?_
      rw [toInt_floorZero_add_shift]
      have hle := Clamped.toInt_le x
      have hstays : (Change.modification name key new old).shift (.sized s) .count = 0 := rfl
      omega
    · rw [if_pos ⟨rfl, (Change.touches_modification ..).2 hm⟩]
  · have hother : ∀ c : Change, c.table = table → ¬(name = c.table ∧ c.Touches (.sized s) m) :=
      fun c hc hT => hname (hT.1.trans hc)
    rw [if_neg (hother _ rfl), if_neg (hother _ rfl), if_neg (hother _ rfl)]

end Totals

/-- **A modification is a removal that an insertion follows.** Let two entries be of the shape
that a sizer sizes, and let the totals of a table include the old one. To modify the totals by the
two is then the same as to remove the old entry from them and to insert the new one, also where
the totals stop at the largest word. A modification never changes a count, nor any total of
another table. If one of the two entries has another shape, it is reported of the new one, or else
of the old one, that it has no size, and no total has changed. -/
theorem Sizer.modification_replaces (s : Sizer) (table : String) (new old : Entry) (t : Totals) :
    (new.shape = s.shape → old.shape = s.shape → t.Includes s table old →
      ∀ o o' : Option Entry, ∃ without replaced,
        t.adjust s table .removal (some old) o = (without, .ok ()) ∧
        without.adjust s table .insertion (some new) o' = (replaced, .ok ()) ∧
        t.adjust s table .modification (some new) (some old) = (replaced, .ok ())) ∧
    (∀ t', t.adjust s table .modification (some new) (some old) = (t', .ok ()) →
      ∀ m name, m = .count ∨ name ≠ table → t'.value? m name = t.value? m name) ∧
    (new.shape ≠ s.shape ∨ old.shape ≠ s.shape →
      let misfit := if new.shape = s.shape then old else new
      let failure : Failure := .sizing table (.unsuited s.name misfit.shape)
      t.adjust s table .modification (some new) (some old) = (t, .error failure) ∧
        ∀ tables key rest, tables.get? table = some (.sized s) →
          t.applyAll tables (.modification table key new old :: rest) = (t, .error failure)) := by
  refine ⟨fun hnew hold hincludes o o' => ?_, fun t' hmod m name hname => ?_, fun hmisfit => ?_⟩
  · obtain ⟨without, hgone⟩ := Totals.apply_of_fit (c := .removal table [] old o) (s := s)
      (by simp [Change.misfit?, Change.weighed, Change.removal, hold]) t
    obtain ⟨replaced, hcome⟩ := Totals.apply_of_fit (c := .insertion table [] new o') (s := s)
      (by simp [Change.misfit?, Change.weighed, Change.insertion, hnew]) without
    obtain ⟨t', hmod⟩ := Totals.apply_of_fit (c := .modification table [] new old) (s := s)
      (by simp [Change.misfit?, Change.weighed, Change.modification, hnew, hold]) t
    obtain rfl := Totals.modified_eq_replaced hincludes hmod hgone hcome
    exact ⟨without, replaced, hgone, hcome, hmod⟩
  · have happly : t.apply (.sized s) (.modification table [] new old) = (t', .ok ()) := hmod
    rw [Totals.value?_apply happly, if_neg]
    rintro ⟨htable, hT⟩
    rcases hname with hm | hother
    · exact (Change.touches_modification ..).1 hT hm
    · exact hother htable
  · intro misfit failure
    have hfirst : ∀ key, (Change.modification table key new old).misfit? s = some misfit := by
      intro key
      by_cases hnew : new.shape = s.shape
      · have hold : old.shape ≠ s.shape := hmisfit.resolve_left fun hno => hno hnew
        simp [Change.misfit?, Change.weighed, Change.modification, misfit, hnew, hold]
      · simp [Change.misfit?, Change.weighed, Change.modification, misfit, hnew]
    refine ⟨Totals.apply_of_misfit (hfirst []) t, fun tables key rest hs => ?_⟩
    have hnone : t.applyAll tables [] = (t, .ok ()) := rfl
    exact Totals.applyAll_of_misfit hnone hs (hfirst key)

/-- One key of seven bytes makes way for the largest that there is, and the sizes stop at the
largest word; bytes that are no key cannot take its place. -/
theorem Sizer.modification_replaces_largest :
    let old : Entry := .key (.sample "" (.copies 3) [7])
    let new : Entry := .key (.sample "" (.copies 3) [0xffff_ffff_ffff_ffff])
    let t := ((∅ : Totals).set .count "k" 1).setExtent "k" ⟨100, 100⟩
    new.shape = Sizer.openKeys.shape ∧ old.shape = Sizer.openKeys.shape ∧
      t.Includes .openKeys "k" old ∧
      (∃ without replaced,
        t.adjust .openKeys "k" .removal (some old) none = (without, .ok ()) ∧
        without.adjust .openKeys "k" .insertion (some new) none = (replaced, .ok ()) ∧
        t.adjust .openKeys "k" .modification (some new) (some old) = (replaced, .ok ()) ∧
        replaced.value? .count "k" = t.value? .count "k" ∧
        replaced.extent? "k" = some ⟨Int64.maxValue, Int64.maxValue⟩) ∧
      t.adjust .openKeys "k" .modification (some (.raw [])) (some old) =
        (t, .error (.sizing "k" (.unsuited "open entries" .raw))) := by
  intro old new t
  have hincludes : t.Includes .openKeys "k" old := by
    intro m
    cases m <;> decide +kernel
  have hlargest : (t.adjust .openKeys "k" .modification (some new) (some old)).1.extent? "k" =
      some ⟨Int64.maxValue, Int64.maxValue⟩ := by decide +kernel
  obtain ⟨hsame, hframe, -⟩ := modification_replaces .openKeys "k" new old t
  obtain ⟨without, replaced, hgone, hcome, hmod⟩ := hsame rfl rfl hincludes none none
  obtain ⟨-, -, hmisfit⟩ := modification_replaces .openKeys "k" (.raw []) old t
  have hcount := hframe replaced hmod .count "k" (.inl rfl)
  rw [hmod] at hlargest
  exact ⟨rfl, rfl, hincludes, ⟨without, replaced, hgone, hcome, hmod, hcount, hlargest⟩,
    (hmisfit (.inl (by decide))).1⟩

end TableTotals
