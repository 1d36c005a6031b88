import TableTotals.Proofs.Floor

/-!
Two engines that differ in their totals, and what becomes of the difference.

Which changes of a batch are applied, and what each of them adds, depends on the change and on what
its table is watched for, and never on a total. So two engines that watch the same tables answer
the same batches alike, whatever their totals are. To add one number to two totals and to stop both
at zero and at the largest word brings them no further apart and never past each other
(`Totals.NoFurther`); so a drift between two engines only ever shrinks (`Engine.drift_never_grows`).
-/

namespace TableTotals

namespace Totals

/-- Some totals and others are no further apart than two before them were, each from its other, and
no two have changed places. -/
def NoFurther (before after : Totals × Totals) : Prop :=
  ∀ m table,
    (after.1.level m table - after.2.level m table).natAbs ≤
      (before.1.level m table - before.2.level m table).natAbs ∧
    (before.1.level m table ≤ before.2.level m table →
      after.1.level m table ≤ after.2.level m table) ∧
    (before.2.level m table ≤ before.1.level m table →
      after.2.level m table ≤ after.1.level m table)

lemma NoFurther.refl (p : Totals × Totals) : NoFurther p p :=
  fun _ _ => ⟨Nat.le_refl _, id, id⟩

lemma NoFurther.trans {p q r : Totals × Totals} (h : NoFurther p q) (h' : NoFurther q r) :
    NoFurther p r := fun m table =>
  ⟨Nat.le_trans (h' m table).1 (h m table).1, (h' m table).2.1 ∘ (h m table).2.1,
    (h' m table).2.2 ∘ (h m table).2.2⟩

variable {t u t' u' : Totals} {w : Watch} {c : Change} {tables : SortedMap String Watch}

lemma NoFurther.apply (ht : t.apply w c = (t', .ok ())) (hu : u.apply w c = (u', .ok ())) :
    NoFurther (t, u) (t', u') := by
  intro m table
  simp only [level_apply ht, level_apply hu]
  split
  · refine ⟨?_, ?_, ?_⟩ <;> omega
  · exact ⟨Nat.le_refl _, id, id⟩

/-- Whether a change can be applied does not depend on the totals. -/
lemma apply_alike (w : Watch) (c : Change) (t u : Totals) :
    (∃ t' u', t.apply w c = (t', .ok ()) ∧ u.apply w c = (u', .ok ())) ∨
      ∃ failure, t.apply w c = (t, .error failure) ∧ u.apply w c = (u, .error failure) := by
  cases w with
  | counted => exact .inl ⟨_, _, rfl, rfl⟩
  | sized s =>
    cases hmisfit : c.misfit? s with
    | none =>
      obtain ⟨t', ht⟩ := apply_of_fit hmisfit t
      obtain ⟨u', hu⟩ := apply_of_fit hmisfit u
      exact .inl ⟨t', u', ht, hu⟩
    | some entry => exact .inr ⟨_, apply_of_misfit hmisfit t, apply_of_misfit hmisfit u⟩

/-- **Changes in a row end alike, and bring totals no further apart.** -/
lemma applyAll_alike (tables : SortedMap String Watch) (xs : List Change) (t u : Totals) :
    (u.applyAll tables xs).2 = (t.applyAll tables xs).2 ∧
      NoFurther (t, u) ((t.applyAll tables xs).1, (u.applyAll tables xs).1) := by
  induction xs generalizing t u with
  | nil => exact ⟨rfl, .refl _⟩
  | cons c rest ih =>
    rcases hw : tables.get? c.table with _ | w
    · simpa only [applyAll, hw] using ih t u
    rcases apply_alike w c t u with ⟨t', u', ht, hu⟩ | ⟨failure, ht, hu⟩
    · simp only [applyAll, hw, ht, hu]
      exact ⟨(ih t' u').1, (NoFurther.apply ht hu).trans (ih t' u').2⟩
    · simp only [applyAll, hw, ht, hu]
      exact ⟨trivial, .refl _⟩

/-! ### Change by change -/

/-- The totals that changes lead through: the first ones, and those after each change. -/
def stages (t : Totals) (tables : SortedMap String Watch) (xs : List Change) : List Totals :=
  (List.range (xs.length + 1)).map fun k => (t.applyAll tables (xs.take k)).1

lemma length_stages (t : Totals) (xs : List Change) :
    (t.stages tables xs).length = xs.length + 1 := by simp [stages]

lemma NoFurther.applyAll_append (t u : Totals) (xs ys : List Change) :
    NoFurther ((t.applyAll tables xs).1, (u.applyAll tables xs).1)
      ((t.applyAll tables (xs ++ ys)).1, (u.applyAll tables (xs ++ ys)).1) := by
  have hresult := (applyAll_alike tables xs t u).1
  rw [Totals.applyAll_append, Totals.applyAll_append]
  rcases ht : t.applyAll tables xs with ⟨t₁, r⟩
  rcases hu : u.applyAll tables xs with ⟨u₁, r'⟩
  obtain rfl : r' = r := by simpa [ht, hu] using hresult
  cases r' with
  | error failure => exact .refl _
  | ok => exact (applyAll_alike tables ys t₁ u₁).2

lemma zip_stages (t u : Totals) (xs : List Change) :
    (t.stages tables xs).zip (u.stages tables xs) =
      (List.range (xs.length + 1)).map fun k =>
        ((t.applyAll tables (xs.take k)).1, (u.applyAll tables (xs.take k)).1) := by
  rw [stages, stages, List.zip_map']

lemma pairwise_stages (t u : Totals) (xs : List Change) :
    ((t.stages tables xs).zip (u.stages tables xs)).Pairwise NoFurther := by
  rw [zip_stages, List.pairwise_map]
  refine List.pairwise_lt_range.imp fun {i j} hij => ?_
  obtain ⟨ys, hys⟩ := List.take_prefix_take_left (l := xs) (Nat.le_of_lt hij)
  rw [← hys]
  exact .applyAll_append t u _ ys

lemma mem_zip_stages {p : Totals × Totals} {xs : List Change}
    (h : p ∈ (t.stages tables xs).zip (u.stages tables xs)) :
    NoFurther (t, u) p ∧ NoFurther p ((t.applyAll tables xs).1, (u.applyAll tables xs).1) := by
  rw [zip_stages] at h
  obtain ⟨k, -, rfl⟩ := List.mem_map.1 h
  refine ⟨(applyAll_alike tables (xs.take k) t u).2, ?_⟩
  have hlast : NoFurther _ ((t.applyAll tables (xs.take k ++ xs.drop k)).1,
      (u.applyAll tables (xs.take k ++ xs.drop k)).1) := .applyAll_append t u _ _
  rwa [List.take_append_drop] at hlast

end Totals

/-! ### Batch by batch -/

namespace Engine

variable {e e' : Engine} {v v' : Vault}

/-- What is answered to batch after batch, whether or not the ones before failed. -/
def answers : List Delivery → Engine → Vault → List (Except Failure Unit)
  | [], _, _ => []
  | x :: rest, e, v =>
    let after := e.follow (v.amid x.now x.refusals) x.batch
    after.2 :: answers rest after.1.1 after.1.2

/-- The totals that an engine goes through while it follows batch after batch, change by change,
and those that it ends with. -/
def course : List Delivery → Engine → Vault → List Totals
  | [], e, _ => [e.totals]
  | x :: rest, e, v =>
    let after := e.follow (v.amid x.now x.refusals) x.batch
    e.totals.stages e.tables x.batch.changes ++ course rest after.1.1 after.1.2

/-- Two engines have taken up the same tables, whatever their totals are. -/
structure Alike (e e' : Engine) : Prop where
  ready : e.ready = true
  ready' : e'.ready = true
  tables : e'.tables = e.tables

/-- Where nothing is refused, it is up to the changes alone how a batch ends. -/
lemma follow_unrefused (hready : e.ready = true) (hv : v.refusals = {}) (b : Batch) :
    (e.follow v b).1.1 = { e with totals := (e.totals.applyAll e.tables b.changes).1 } ∧
      (e.follow v b).2 = (e.totals.applyAll e.tables b.changes).2 := by
  rcases happly : e.totals.applyAll e.tables b.changes with ⟨totals, failure | _⟩
  · simp [follow, hready, happly]
  · obtain ⟨v₁, hpersist, -⟩ := Vault.persist_eq_upserted hv totals
    simp [follow, hready, happly, hpersist]

/-- **One batch is answered alike**, and the totals that it leads through come no further apart. -/
lemma Alike.follow (h : e.Alike e') (hv : v.refusals = {}) (hv' : v'.refusals = {}) (b : Batch) :
    let after := e.follow v b
    let after' := e'.follow v' b
    let stages := (e.totals.stages e.tables b.changes).zip (e'.totals.stages e'.tables b.changes)
    after'.2 = after.2 ∧ after.1.1.Alike after'.1.1 ∧
      Totals.NoFurther (e.totals, e'.totals) (after.1.1.totals, after'.1.1.totals) ∧
      stages.Pairwise Totals.NoFurther ∧
      ∀ p ∈ stages, Totals.NoFurther (e.totals, e'.totals) p ∧
        Totals.NoFurther p (after.1.1.totals, after'.1.1.totals) := by
  intro after after' stages
  obtain ⟨hengine, hresult⟩ := follow_unrefused h.ready hv b
  obtain ⟨hengine', hresult'⟩ := follow_unrefused h.ready' hv' b
  obtain ⟨happly, hends⟩ := Totals.applyAll_alike e.tables b.changes e.totals e'.totals
  simp only [after, after', stages, hengine, hresult, hengine', hresult', h.tables]
  exact ⟨happly, ⟨h.ready, h.ready', rfl⟩, hends, Totals.pairwise_stages .., fun p hp =>
    Totals.mem_zip_stages hp⟩

/-- **Batch after batch is answered alike**, and the totals never come any further apart. -/
lemma Alike.followAll (h : e.Alike e') (v v' : Vault) {xs xs' : List Delivery}
    (hsame : xs'.map Delivery.batch = xs.map Delivery.batch)
    (hcalm : ∀ x ∈ xs, x.refusals = {}) (hcalm' : ∀ x ∈ xs', x.refusals = {}) :
    answers xs' e' v' = answers xs e v ∧
      (course xs' e' v').length = (course xs e v).length ∧
      (∀ p ∈ (course xs e v).zip (course xs' e' v'), Totals.NoFurther (e.totals, e'.totals) p) ∧
      ((course xs e v).zip (course xs' e' v')).Pairwise Totals.NoFurther := by
  induction xs generalizing xs' e e' v v' with
  | nil =>
    obtain rfl : xs' = [] := List.map_eq_nil_iff.1 hsame
    refine ⟨rfl, rfl, fun p hp => ?_, List.pairwise_singleton _ _⟩
    obtain rfl : p = (e.totals, e'.totals) := by simpa [course] using hp
    exact .refl _
  | cons x rest ih =>
    rcases xs' with _ | ⟨x', rest'⟩
    · cases hsame
    obtain ⟨hbatch, hrest⟩ : x'.batch = x.batch ∧
        rest'.map Delivery.batch = rest.map Delivery.batch := by simpa using hsame
    have hv : (v.amid x.now x.refusals).refusals = {} := hcalm x (by simp)
    have hv' : (v'.amid x'.now x'.refusals).refusals = {} := hcalm' x' (by simp)
    obtain ⟨hanswer, halike, hends, hpairwise, hstages⟩ := h.follow hv hv' x.batch
    obtain ⟨hanswers, hlength, hlater, hpairwise'⟩ := ih halike _ _ hrest
      (fun y hy => hcalm y (by simp [hy])) (fun y hy => hcalm' y (by simp [hy]))
    simp only [answers, course, hbatch]
    rw [List.zip_append (by simp only [Totals.length_stages])]
    refine ⟨by rw [hanswer, hanswers], ?_, fun p hp => ?_, ?_⟩
    · simp only [List.length_append, Totals.length_stages, hlength]
    · rcases List.mem_append.1 hp with hp | hp
      · exact (hstages p hp).1
      · exact hends.trans (hlater p hp)
    · exact List.pairwise_append.2 ⟨hpairwise, hpairwise', fun p hp q hq =>
        (hstages p hp).2.trans (hlater q hq)⟩

/-- **Drift never grows.** Let two engines watch the same tables for the same, with whatever totals,
and let both follow the same batches, each at moments of its own and with nothing refused. Both
answer every batch alike, those that fail with the same failure. From one change to the next, and
so from any point of the two courses to any later one, the difference of two totals of one table
and measure does not grow, and the one that is less, or no more, stays so. -/
theorem drift_never_grows {e e' : Engine} (hready : e.ready = true) (hready' : e'.ready = true)
    (htables : e'.tables = e.tables) (v v' : Vault) {xs xs' : List Delivery}
    (hsame : xs'.map Delivery.batch = xs.map Delivery.batch)
    (hcalm : ∀ x ∈ xs, x.refusals = {}) (hcalm' : ∀ x ∈ xs', x.refusals = {}) :
    answers xs' e' v' = answers xs e v ∧
      (course xs' e' v').length = (course xs e v).length ∧
      ((course xs e v).zip (course xs' e' v')).Pairwise Totals.NoFurther := by
  obtain ⟨hanswers, hlength, -, hpairwise⟩ :=
    Alike.followAll ⟨hready, hready', htables⟩ v v' hsame hcalm hcalm'
  exact ⟨hanswers, hlength, hpairwise⟩

/-- More bytes are on record than a key has that is deleted, and as many as a word can say. -/
def brimming : Engine :=
  { countingAndSizing with totals := countingAndSizing.totals.setExtent "k" ⟨100, Int64.maxValue⟩ }

/-- Of one engine more is deleted than it has, and less than it has of the other, for which then
more is put than there is room for. The second batch breaks off at its third change. -/
theorem drift_never_grows_overdrawn :
    let v : Vault := { ledger := { backend := .memory }, clock := 0 }
    let v' : Vault := { ledger := { backend := .database }, clock := 0 }
    let b : Batch := { changes := [sevenBytes .delete] }
    let b' : Batch := { changes := [sevenBytes .put, sevenBytes .put, misshapen, counting 1] }
    let xs : List Delivery := [⟨3, b, {}⟩, ⟨5, b', {}⟩]
    let xs' : List Delivery := [⟨7, b, {}⟩, ⟨7, b', {}⟩]
    let pairs := (course xs overdrawn v).zip (course xs' brimming v')
    overdrawn.ready = true ∧ brimming.ready = true ∧ brimming.tables = overdrawn.tables ∧
      answers xs overdrawn v =
        [.ok (), .error (.sizing "k" (.unsuited "open entries" .raw))] ∧
      answers xs' brimming v' = answers xs overdrawn v ∧
      pairs.map (fun p => p.2.level .unreplicated "k" - p.1.level .unreplicated "k") =
        [97, 93, 93, 93, 93, 93, 93, 93] ∧
      pairs.map (fun p => maxSigned - (p.2.level .replicated "k" - p.1.level .replicated "k")) =
        [9, 21, 21, 21, 42, 42, 42, 42] ∧
      pairs.Pairwise Totals.NoFurther := by
  intro v v' b b' xs xs' pairs
  have htables : brimming.tables = overdrawn.tables := rfl
  have hsame : xs'.map Delivery.batch = xs.map Delivery.batch := rfl
  obtain ⟨hanswers, -, hpairwise⟩ :=
    drift_never_grows rfl rfl htables v v' hsame (by decide) (by decide)
  exact ⟨rfl, rfl, rfl, by decide +kernel, hanswers, by decide +kernel, by decide +kernel,
    hpairwise⟩

end Engine

end TableTotals
