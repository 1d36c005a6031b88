import Mathlib.Algebra.Order.Group.Int
import Mathlib.Data.List.TakeWhile
import Mathlib.Order.Bounds.Basic
import TableTotals.Proofs.Effects

/-!
What a total comes to that never falls below zero.

A total is moved by one contribution after another and is taken back to zero where it would fall
below it. What is lost that way is never made up for, so the total depends on the deepest deficit
that the contributions have ever come to, and not on their sum alone: it is the largest of the
start with all contributions and of what each end of the contributions comes to
(`isGreatest_floored`). Contributions come from the changes that batches have processed, those of
a batch that was broken off among them (`Engine.follow_processed`), so this holds of a total over
any series of batches, however each of them ended.
-/

namespace TableTotals

/-! ### Contributions to a value that is kept at or above zero -/

/-- What a value comes to that contributions move one after another, kept at or above zero. -/
def floored (x : Int) (ds : List Int) : Int := ds.foldl (fun x d => max 0 (x + d)) x

def partialSum (ds : List Int) (k : Nat) : Int := (ds.take k).sum

/-- What the contributions come to from some point on, to their end. -/
def endSums (ds : List Int) : Set Int :=
  {s | ∃ k ≤ ds.length, s = partialSum ds ds.length - partialSum ds k}

section Floored

variable {x d : Int} {ds : List Int}

@[simp] lemma floored_nil (x : Int) : floored x [] = x := rfl

lemma floored_append_singleton (x d : Int) (ds : List Int) :
    floored x (ds ++ [d]) = max 0 (floored x ds + d) := by
  rw [floored, floored, List.foldl_append, List.foldl_cons, List.foldl_nil]

lemma floored_nonneg (h : 0 ≤ x) (ds : List Int) : 0 ≤ floored x ds := by
  cases ds using List.reverseRecOn with
  | nil => exact h
  | append_singleton ds d =>
    rw [floored_append_singleton]
    exact le_max_left 0 _

lemma partialSum_length (ds : List Int) : partialSum ds ds.length = ds.sum := by
  rw [partialSum, List.take_length]

lemma partialSum_append_of_le {k : Nat} (h : k ≤ ds.length) (d : Int) :
    partialSum (ds ++ [d]) k = partialSum ds k := by
  rw [partialSum, partialSum, List.take_append_of_le_length h]

lemma mem_endSums {s : Int} :
    s ∈ endSums ds ↔ ∃ k ≤ ds.length, s = partialSum ds ds.length - partialSum ds k := Iff.rfl

/-- One more contribution is added to every end, and there is one more end, which is empty. -/
lemma mem_endSums_append {s : Int} :
    s ∈ endSums (ds ++ [d]) ↔ (∃ s' ∈ endSums ds, s = s' + d) ∨ s = 0 := by
  have hall : partialSum (ds ++ [d]) (ds ++ [d]).length = partialSum ds ds.length + d := by
    rw [partialSum_length, partialSum_length, List.sum_append, List.sum_singleton]
  simp only [mem_endSums, hall]
  constructor
  · rintro ⟨k, hk, rfl⟩
    rw [List.length_append, List.length_singleton] at hk
    rcases Nat.lt_or_ge ds.length k with hlt | hle
    · obtain rfl : k = (ds ++ [d]).length := by simp; omega
      exact .inr (by rw [hall]; omega)
    · exact .inl ⟨_, ⟨k, hle, rfl⟩, by rw [partialSum_append_of_le hle]; omega⟩
  · rintro (⟨_, ⟨k, hk, rfl⟩, rfl⟩ | rfl)
    · refine ⟨k, by simp; omega, ?_⟩
      rw [partialSum_append_of_le hk]
      omega
    · exact ⟨_, Nat.le_refl _, by rw [hall]; omega⟩

/-- **A value that is kept at or above zero, in closed form.** -/
lemma isGreatest_floored (h : 0 ≤ x) (ds : List Int) :
    IsGreatest (insert (x + ds.sum) (endSums ds)) (floored x ds) := by
  induction ds using List.reverseRecOn with
  | nil =>
    refine ⟨by simp, ?_⟩
    rintro s (rfl | ⟨k, -, rfl⟩)
    · simp
    · simpa [partialSum] using h
  | append_singleton ds d ih =>
    obtain ⟨hmem, hbound⟩ := ih
    rw [floored_append_singleton, List.sum_append, List.sum_singleton]
    constructor
    · rcases le_total 0 (floored x ds + d) with hpos | hneg
      · rw [max_eq_right hpos]
        rcases hmem with hmem | hmem
        · exact .inl (by omega)
        · exact .inr (mem_endSums_append.2 (.inl ⟨_, hmem, rfl⟩))
      · rw [max_eq_left hneg]
        exact .inr (mem_endSums_append.2 (.inr rfl))
    · rintro s (rfl | hs)
      · have := hbound (Set.mem_insert _ _)
        omega
      · rcases mem_endSums_append.1 hs with ⟨s', hs', rfl⟩ | rfl
        · have := hbound (Set.mem_insert_of_mem _ hs')
          omega
        · exact le_max_left 0 _

/-- Nothing is lost to the floor if and only if no sum falls below it. -/
lemma floored_eq_iff (h : 0 ≤ x) (ds : List Int) :
    floored x ds = x + ds.sum ↔ ∀ k ≤ ds.length, 0 ≤ x + partialSum ds k := by
  obtain ⟨hmem, hbound⟩ := isGreatest_floored h ds
  have hsum := partialSum_length ds
  constructor
  · intro heq k hk
    have := hbound (Set.mem_insert_of_mem _ ⟨k, hk, rfl⟩)
    omega
  · intro hnonneg
    refine le_antisymm ?_ (hbound (Set.mem_insert _ _))
    rcases hmem with hmem | ⟨k, hk, hmem⟩
    · omega
    · have := hnonneg k hk
      omega

end Floored

/-- None of the values that contributions lead through is larger than a word. -/
def RunsWithin (x : Int) (ds : List Int) : Prop :=
  ∀ k ≤ ds.length, floored x (ds.take k) ≤ maxSigned

instance (x : Int) (ds : List Int) : Decidable (RunsWithin x ds) :=
  inferInstanceAs (Decidable (∀ k ≤ ds.length, _))

lemma RunsWithin.of_append {x : Int} {ds more : List Int} (h : RunsWithin x (ds ++ more)) :
    RunsWithin x ds := by
  intro k hk
  have := h k (by simp; omega)
  rwa [List.take_append_of_le_length hk] at this

lemma RunsWithin.last {x : Int} {ds : List Int} (h : RunsWithin x ds) :
    floored x ds ≤ maxSigned := by
  simpa using h ds.length (Nat.le_refl _)

/-! ### Totals -/

/-- What the effects of changes on a table contribute to one of its totals, in order. -/
def contributions (table : String) (w : Watch) (m : Measure) (xs : List Change) : List Int :=
  (effectsOn table w xs).map fun d => (Change.ofEffect d).shift w m

namespace Measure

variable {m : Measure} {w : Watch} {x : Int64}

lemma moved_eq (hm : w.Keeps m) (h0 : 0 ≤ x.toInt) (d : Effect)
    (hroom : max 0 (x.toInt + (Change.ofEffect d).shift w m) ≤ maxSigned) :
    ∃ y, m.moved w (some x) d = some y ∧
      y.toInt = max 0 (x.toInt + (Change.ofEffect d).shift w m) := by
  obtain ⟨y, hy, hvalue⟩ := Totals.toInt_moved (Change.ofEffect d) hm h0
  refine ⟨y, hy, ?_⟩
  omega

lemma foldl_moved_eq (hm : w.Keeps m) (h0 : 0 ≤ x.toInt) (ds : List Effect)
    (hroom : RunsWithin x.toInt (ds.map fun d => (Change.ofEffect d).shift w m)) :
    ∃ y, ds.foldl (m.moved w) (some x) = some y ∧
      y.toInt = floored x.toInt (ds.map fun d => (Change.ofEffect d).shift w m) := by
  induction ds using List.reverseRecOn with
  | nil => exact ⟨x, rfl, rfl⟩
  | append_singleton ds d ih =>
    rw [List.map_append, List.map_singleton] at hroom ⊢
    obtain ⟨y, hy, hvalue⟩ := ih hroom.of_append
    have hlast := hroom.last
    rw [floored_append_singleton] at hlast ⊢
    rw [List.foldl_append, hy, List.foldl_cons, List.foldl_nil, ← hvalue]
    rw [← hvalue] at hlast
    have hy0 : 0 ≤ y.toInt := hvalue ▸ floored_nonneg h0 _
    exact moved_eq hm hy0 d hlast

end Measure

/-! ### Batches -/

namespace Engine

variable {e : Engine}

/-- Follows batch after batch, and goes on behind one that fails. -/
def followAll : List Delivery → Engine → Vault → Engine × Vault
  | [], e, v => (e, v)
  | x :: rest, e, v =>
    let after := e.follow (v.amid x.now x.refusals) x.batch
    followAll rest after.1.1 after.1.2

def processedOf (e : Engine) (xs : List Delivery) : List Change :=
  xs.flatMap fun x => x.batch.processed e.tables

lemma followAll_processed (hready : e.ready = true) (v : Vault) (xs : List Delivery) :
    e.totals.applyAll e.tables (e.processedOf xs) = ((followAll xs e v).1.totals, .ok ()) := by
  induction xs generalizing e v with
  | nil => rfl
  | cons x rest ih =>
    obtain ⟨totals, happly, hengine⟩ := follow_processed hready (v.amid x.now x.refusals) x.batch
    have hrest := ih (e := { e with totals }) hready
      (e.follow (v.amid x.now x.refusals) x.batch).1.2
    rw [followAll, hengine, ← hrest, processedOf, List.flatMap_cons, Totals.applyAll_append, happly]
    rfl

/-- **What a total comes to over a series of batches.** Let a total of a watched table start at or
above zero, let batch after batch be followed, however each of them ends, and let no value that
the total goes through be larger than a word. The total is then the largest of the start with all
contributions of what was processed, and of what the contributions come to from any point on. So
it is never less than the start with all contributions, and is just that if and only if the start
with the first contributions, however many of them, is never below zero. -/
theorem totals_floored (hready : e.ready = true) (v : Vault) (xs : List Delivery)
    {table : String} {w : Watch} {m : Measure} {x : Int64} (hw : e.tables.get? table = some w)
    (hm : w.Keeps m) (hx : e.totals.value? m table = some x) (h0 : 0 ≤ x.toInt) :
    let ds := contributions table w m (e.processedOf xs)
    RunsWithin x.toInt ds →
      ∃ y, (followAll xs e v).1.totals.value? m table = some y ∧
        IsGreatest (insert (x.toInt + ds.sum) (endSums ds)) y.toInt ∧
        x.toInt + ds.sum ≤ y.toInt ∧
        (y.toInt = x.toInt + ds.sum ↔ ∀ k ≤ ds.length, 0 ≤ x.toInt + partialSum ds k) := by
  intro ds hroom
  have happlied := followAll_processed hready v xs
  have hvalue := Totals.value?_applyAll happlied hw m
  obtain ⟨y, hy, hfloored⟩ := Measure.foldl_moved_eq hm h0 _ hroom
  rw [hx, hy] at hvalue
  have hgreatest : IsGreatest (insert (x.toInt + ds.sum) (endSums ds)) y.toInt :=
    hfloored ▸ isGreatest_floored h0 ds
  refine ⟨y, hvalue, hgreatest, hgreatest.2 (Set.mem_insert _ _), ?_⟩
  rw [hfloored]
  exact floored_eq_iff h0 ds

def overdrawn : Engine :=
  { countingAndSizing with totals := countingAndSizing.totals.setExtent "k" ⟨3, 9⟩ }

/-- More is deleted than was there, in a batch that is not recorded, and as much is put again, in
a batch that breaks off behind that. The total is then 21, where the plain sum is 9. -/
theorem totals_floored_overdrawn :
    let v : Vault := { ledger := { backend := .database }, clock := 0 }
    let xs : List Delivery := [⟨3, { changes := [sevenBytes .delete] }, { inserts := true }⟩,
      ⟨5, { changes := [counting 1, sevenBytes .put, misshapen, sevenBytes .put] }, {}⟩]
    let ds := contributions "k" (.sized .openKeys) .replicated (overdrawn.processedOf xs)
    overdrawn.ready = true ∧ ds = [-21, 21] ∧
      ∃ y, (followAll xs overdrawn v).1.totals.value? .replicated "k" = some y ∧
        y.toInt = 21 ∧ (9 : Int) + ds.sum = 9 := by
  intro v xs ds
  have hready : overdrawn.ready = true := rfl
  have hds : ds = [-21, 21] := by decide +kernel
  have hroom : RunsWithin (9 : Int64).toInt ds := by
    rw [hds]
    decide +kernel
  obtain ⟨y, hy, hgreatest, -, -⟩ := totals_floored hready v xs (by decide +kernel)
    (by decide +kernel) (x := 9) (by decide +kernel) (by decide) hroom
  have hvalue : y.toInt = floored 9 ds :=
    hgreatest.unique (isGreatest_floored (by decide) ds)
  exact ⟨hready, hds, y, hy, by rw [hvalue, hds]; rfl, by rw [hds]; rfl⟩

end Engine

end TableTotals
