import Mathlib.Data.List.TakeWhile
import TableTotals.Proofs.Calls

/-!
Changes that cannot be applied, and what a batch comes to that holds one.

A change is applied by the sizes of the entries that it names, and it cannot be where one of them
is not of the shape that the sizer of its table sizes (`Change.Misfits`). All sizes are looked up
before any total is touched. So a batch is applied up to its first misfit, which is reported, and
nothing is written (`Engine.follow_of_misfit`); a batch without one is applied as a whole, however
persisting ends (`Engine.follow_of_fits`).
-/

namespace TableTotals

namespace Change

/-- The entries by the sizes of which a change is applied, in the order in which they are sized:
the value of a put or a deletion, and both values of an update that has both. -/
def weighed (c : Change) : List Entry :=
  match c.action, c.value, c.old with
  | .put, some entry, _ => [entry]
  | .delete, some entry, _ => [entry]
  | .update, some new, some old => [new, old]
  | _, _, _ => []

/-- The first entry of a change that is not of the shape that a sizer sizes. -/
def misfit? (c : Change) (s : Sizer) : Option Entry :=
  c.weighed.find? fun entry => entry.shape ≠ s.shape

/-- The sizes of the change's table are watched, and one of its entries has none. -/
def Misfits (c : Change) (tables : SortedMap String Watch) : Prop :=
  match tables.get? c.table with
  | some (.sized s) => ∃ entry ∈ c.weighed, entry.shape ≠ s.shape
  | _ => False

instance (c : Change) (tables : SortedMap String Watch) : Decidable (c.Misfits tables) := by
  unfold Misfits
  split <;> infer_instance

variable {c : Change} {s : Sizer} {tables : SortedMap String Watch}

lemma misfit?_isSome : (c.misfit? s).isSome ↔ ∃ entry ∈ c.weighed, entry.shape ≠ s.shape := by
  simp [misfit?, List.find?_isSome]

lemma misfits_iff : c.Misfits tables ↔
    ∃ s entry, tables.get? c.table = some (.sized s) ∧ c.misfit? s = some entry := by
  unfold Misfits
  split
  next s hs =>
    rw [← misfit?_isSome, Option.isSome_iff_exists, hs]
    simp
  next hno =>
    refine ⟨False.elim, ?_⟩
    rintro ⟨s, -, hs, -⟩
    exact hno s hs

end Change

/-! ### Sizing -/

namespace Sizer

variable {s : Sizer} {entry : Entry}

lemma size_of_shape (h : entry.shape = s.shape) (table : String) :
    ∃ x, s.size table entry = .ok x := by
  cases s <;> cases entry <;> first | exact ⟨_, rfl⟩ | cases h

lemma size_of_misfit (h : entry.shape ≠ s.shape) (table : String) :
    s.size table entry = .error (.sizing table (.unsuited s.name entry.shape)) := by
  rw [size, size?, if_neg h]

end Sizer

/-! ### Applying changes -/

namespace Totals

variable {tables : SortedMap String Watch} {c : Change} {s : Sizer} {entry : Entry}

lemma apply_of_misfit (h : c.misfit? s = some entry) (t : Totals) :
    t.apply (.sized s) c = (t, .error (.sizing c.table (.unsuited s.name entry.shape))) := by
  obtain ⟨table, action, key, value, old⟩ := c
  cases value with
  | none => cases action <;> simp [Change.misfit?, Change.weighed] at h
  | some new =>
    cases action with
    | put | delete =>
      obtain ⟨hnew, rfl⟩ : new.shape ≠ s.shape ∧ new = entry := by
        simpa [Change.misfit?, Change.weighed] using h
      simp only [apply, Action.adjustment?, adjust, Sizer.size_of_misfit hnew]
    | update =>
      cases old with
      | none => simp [Change.misfit?, Change.weighed] at h
      | some old =>
        by_cases hnew : new.shape = s.shape
        · -- the new entry is sized first
          obtain ⟨x, hx⟩ := Sizer.size_of_shape hnew table
          obtain ⟨hold, rfl⟩ : old.shape ≠ s.shape ∧ old = entry := by
            simpa [Change.misfit?, Change.weighed, hnew] using h
          simp only [apply, Action.adjustment?, adjust, hx, Sizer.size_of_misfit hold]
        · obtain rfl : new = entry := by
            simpa [Change.misfit?, Change.weighed, hnew] using h
          simp only [apply, Action.adjustment?, adjust, Sizer.size_of_misfit hnew]
    | other name => simp [Change.misfit?, Change.weighed] at h

lemma apply_of_fit (h : c.misfit? s = none) (t : Totals) :
    ∃ t', t.apply (.sized s) c = (t', .ok ()) := by
  obtain ⟨table, action, key, value, old⟩ := c
  cases value with
  | none => cases action <;> exact ⟨t, rfl⟩
  | some new =>
    cases action with
    | put | delete =>
      have hnew : new.shape = s.shape := by simpa [Change.misfit?, Change.weighed] using h
      obtain ⟨x, hx⟩ := Sizer.size_of_shape hnew table
      simp only [apply, Action.adjustment?, adjust, hx]
      exact ⟨_, rfl⟩
    | update =>
      cases old with
      | none => exact ⟨t, rfl⟩
      | some old =>
        obtain ⟨hnew, hold⟩ : new.shape = s.shape ∧ old.shape = s.shape := by
          simpa [Change.misfit?, Change.weighed] using h
        obtain ⟨x, hx⟩ := Sizer.size_of_shape hnew table
        obtain ⟨y, hy⟩ := Sizer.size_of_shape hold table
        simp only [apply, Action.adjustment?, adjust, hx, hy]
        exact ⟨_, rfl⟩
    | other name => exact ⟨t, rfl⟩

lemma applyAll_of_fits {xs : List Change} (h : ∀ c ∈ xs, ¬c.Misfits tables) (t : Totals) :
    ∃ t', t.applyAll tables xs = (t', .ok ()) := by
  induction xs generalizing t with
  | nil => exact ⟨t, rfl⟩
  | cons c rest ih =>
    have hrest := ih fun d hd => h d (by simp [hd])
    rcases hw : tables.get? c.table with _ | _ | s
    · simpa only [applyAll, hw] using hrest t
    · simpa only [applyAll, hw, apply] using hrest (t.recount c)
    · have hfit : c.misfit? s = none := by
        rw [Option.eq_none_iff_forall_ne_some]
        exact fun entry hentry => h c (by simp) (Change.misfits_iff.2 ⟨s, entry, hw, hentry⟩)
      obtain ⟨t', ht'⟩ := apply_of_fit hfit t
      simpa only [applyAll, hw, ht'] using hrest t'

/-- Changes are applied up to the first one that cannot be, and no further. -/
lemma applyAll_of_misfit {before after : List Change} {t t' : Totals}
    (hbefore : t.applyAll tables before = (t', .ok ())) (hs : tables.get? c.table = some (.sized s))
    (hmisfit : c.misfit? s = some entry) :
    t.applyAll tables (before ++ c :: after) =
      (t', .error (.sizing c.table (.unsuited s.name entry.shape))) := by
  rw [applyAll_append, hbefore]
  simp only [applyAll, hs, apply_of_misfit hmisfit]

/-- However changes end that are applied one after another, they come to what those before the
first misfit come to. -/
lemma applyAll_takeWhile {xs : List Change} {t t' : Totals} {r : Except Failure Unit}
    (h : t.applyAll tables xs = (t', r)) :
    t.applyAll tables (xs.takeWhile fun c => ¬c.Misfits tables) = (t', .ok ()) := by
  induction xs generalizing t with
  | nil =>
    cases h
    rfl
  | cons c rest ih =>
    by_cases hc : c.Misfits tables
    · obtain ⟨s, entry, hs, hmisfit⟩ := Change.misfits_iff.1 hc
      simp only [applyAll, hs, apply_of_misfit hmisfit] at h
      cases h
      simp [hc, applyAll]
    · have hfits : ∀ x ∈ [c], ¬x.Misfits tables := by simpa using hc
      obtain ⟨t₁, hfirst⟩ := applyAll_of_fits hfits t
      have hsplit : ∀ ys, t.applyAll tables (c :: ys) = t₁.applyAll tables ys := fun ys => by
        rw [← List.singleton_append, applyAll_append, hfirst]
      rw [List.takeWhile_cons_of_pos (by simpa using hc), hsplit]
      rw [hsplit] at h
      exact ih h

end Totals

lemma exists_first {α : Type} {p : α → Prop} [DecidablePred p] {xs : List α}
    (h : ∃ x ∈ xs, p x) :
    ∃ before x after, xs = before ++ x :: after ∧ (∀ y ∈ before, ¬p y) ∧ p x := by
  have hsome : (xs.find? fun x => p x).isSome := List.find?_isSome.2 (by simpa using h)
  obtain ⟨x, hx⟩ := Option.isSome_iff_exists.1 hsome
  obtain ⟨hp, before, after, hsplit, hbefore⟩ := List.find?_eq_some_iff_append.1 hx
  exact ⟨before, x, after, hsplit, by simpa using hbefore, by simpa using hp⟩

namespace Batch

/-- The changes of a batch that are processed: those before the first that cannot be applied. -/
def processed (b : Batch) (tables : SortedMap String Watch) : List Change :=
  b.changes.takeWhile fun c => ¬c.Misfits tables

def leftOver (b : Batch) (tables : SortedMap String Watch) : List Change :=
  b.changes.dropWhile fun c => ¬c.Misfits tables

lemma processed_append_leftOver (b : Batch) (tables : SortedMap String Watch) :
    b.processed tables ++ b.leftOver tables = b.changes := List.takeWhile_append_dropWhile

end Batch

namespace Engine

variable {e : Engine} {b : Batch}

lemma follow_of_fits (hready : e.ready = true) (h : ∀ c ∈ b.changes, ¬c.Misfits e.tables)
    (v : Vault) :
    ∃ totals, e.totals.applyAll e.tables b.changes = (totals, .ok ()) ∧
      e.follow v b = (({ e with totals }, (v.persist totals).1), (v.persist totals).2) := by
  obtain ⟨totals, happly⟩ := Totals.applyAll_of_fits h e.totals
  refine ⟨totals, happly, ?_⟩
  simp only [follow, hready, happly, Bool.not_true, Bool.false_eq_true, if_false]

lemma follow_of_misfit (hready : e.ready = true) {before after : List Change} {c : Change}
    (hsplit : b.changes = before ++ c :: after) (hbefore : ∀ d ∈ before, ¬d.Misfits e.tables)
    (hc : c.Misfits e.tables) (v : Vault) :
    ∃ s entry totals, e.tables.get? c.table = some (.sized s) ∧ c.misfit? s = some entry ∧
      e.totals.applyAll e.tables before = (totals, .ok ()) ∧
      e.follow v b =
        (({ e with totals }, v), .error (.sizing c.table (.unsuited s.name entry.shape))) := by
  obtain ⟨s, entry, hs, hmisfit⟩ := Change.misfits_iff.1 hc
  obtain ⟨totals, happly⟩ := Totals.applyAll_of_fits hbefore e.totals
  refine ⟨s, entry, totals, hs, hmisfit, happly, ?_⟩
  simp only [follow, hready, hsplit, Totals.applyAll_of_misfit happly hs hmisfit, Bool.not_true,
    Bool.false_eq_true, if_false]

/-- **However following a batch ends, the engine has applied what was processed of it.** -/
lemma follow_processed (hready : e.ready = true) (v : Vault) (b : Batch) :
    ∃ totals, e.totals.applyAll e.tables (b.processed e.tables) = (totals, .ok ()) ∧
      (e.follow v b).1.1 = { e with totals } := by
  rcases happly : e.totals.applyAll e.tables b.changes with ⟨totals, r⟩
  refine ⟨totals, Totals.applyAll_takeWhile happly, ?_⟩
  cases r <;> simp [follow, hready, happly]

lemma leftOver_eq_nil (hready : e.ready = true) {v : Vault} (h : (e.follow v b).2 = .ok ()) :
    b.leftOver e.tables = [] := by
  suffices hfits : ∀ c ∈ b.changes, ¬c.Misfits e.tables by
    simpa [Batch.leftOver, List.dropWhile_eq_nil_iff] using hfits
  intro c hc hmisfits
  have hsome : ∃ c ∈ b.changes, c.Misfits e.tables := ⟨c, hc, hmisfits⟩
  obtain ⟨before, d, after, hsplit, hbefore, hd⟩ := exists_first hsome
  obtain ⟨s, entry, totals, -, -, -, hfollow⟩ := follow_of_misfit hready hsplit hbefore hd v
  rw [hfollow] at h
  cases h

/-- **A batch stops at its first misfit.** A batch fails on a size if and only if it holds a
change that cannot be applied. Of the first such change it is reported which table it is of and
which entry of it has no size. The changes before it stay applied, and nothing else has changed,
neither in the engine nor in the vault. A batch without a misfit is applied as a whole, and it
stays applied whatever comes of persisting the totals. -/
theorem follow_stops_at_misfit (hready : e.ready = true) (v : Vault) :
    ((∃ table cause, (e.follow v b).2 = .error (.sizing table cause)) ↔
      ∃ c ∈ b.changes, c.Misfits e.tables) ∧
    (∀ before c after, b.changes = before ++ c :: after →
      (∀ d ∈ before, ¬d.Misfits e.tables) → c.Misfits e.tables →
      ∃ s entry totals, e.tables.get? c.table = some (.sized s) ∧ c.misfit? s = some entry ∧
        e.totals.applyAll e.tables before = (totals, .ok ()) ∧
        e.follow v b =
          (({ e with totals }, v), .error (.sizing c.table (.unsuited s.name entry.shape)))) ∧
    ((∀ c ∈ b.changes, ¬c.Misfits e.tables) →
      ∃ totals, e.totals.applyAll e.tables b.changes = (totals, .ok ()) ∧
        e.follow v b = (({ e with totals }, (v.persist totals).1), (v.persist totals).2)) := by
  refine ⟨⟨?_, fun hsome => ?_⟩, ?_, fun hfits => follow_of_fits hready hfits v⟩
  · rintro ⟨table, cause, hresult⟩
    by_contra hnone
    obtain ⟨totals, -, hfollow⟩ :=
      follow_of_fits hready (fun c hc hmisfits => hnone ⟨c, hc, hmisfits⟩) v
    -- it is left to persist the totals, which never fails on a size
    have hpersist : v.persist totals = ((v.persist totals).1, .error (.sizing table cause)) := by
      rw [hfollow] at hresult
      exact Prod.ext rfl hresult
    obtain ⟨_, hreading⟩ | ⟨_, hwriting⟩ := Vault.persist_failure hpersist
    · cases hreading
    · cases hwriting
  · obtain ⟨before, c, after, hsplit, hbefore, hc⟩ := exists_first hsome
    obtain ⟨s, entry, totals, -, -, -, hfollow⟩ := follow_of_misfit hready hsplit hbefore hc v
    exact ⟨_, _, by rw [hfollow]⟩
  · intro before c after hsplit hbefore hc
    exact follow_of_misfit hready hsplit hbefore hc v

def countingAndSizing : Engine where
  settings := Settings.countersOnly.watching "k" (.sized .openKeys)
  tables := .ofList [("c", .counted), ("k", .sized .openKeys)]
  totals := ((∅ : Totals).set .count "c" 0).set .count "k" 0
  ready := true

def counting (key : UInt8) : Change := ⟨"c", .put, [key], some (.raw []), none⟩

/-- An update of which only the old value has a size. -/
def misshapen : Change :=
  ⟨"k", .update, [0], some (.raw []), some (.key (.sample "" (.copies 3) [7]))⟩

theorem follow_stops_at_misfit_amid :
    let v : Vault := { ledger := { backend := .memory }, clock := 1 }
    let b : Batch := { changes := [counting 1, misshapen, counting 2] }
    countingAndSizing.ready = true ∧ ∃ totals : Totals, totals.count? "c" = some 1 ∧
      countingAndSizing.follow v b = (({ countingAndSizing with totals }, v),
        .error (.sizing "k" (.unsuited "open entries" .raw))) := by
  intro v b
  have hready : countingAndSizing.ready = true := rfl
  have htable : countingAndSizing.tables.get? "k" = some (.sized .openKeys) := by decide +kernel
  have hentry : misshapen.misfit? .openKeys = some (.raw []) := by decide +kernel
  have hcount : (countingAndSizing.totals.applyAll countingAndSizing.tables
      [counting 1]).1.count? "c" = some 1 := by decide +kernel
  obtain ⟨-, hstops, -⟩ := follow_stops_at_misfit (b := b) hready v
  obtain ⟨s, entry, totals, hs, hmisfit, happly, hfollow⟩ :=
    hstops [counting 1] misshapen [counting 2] rfl (by decide +kernel) (by decide +kernel)
  obtain rfl : s = .openKeys := by simpa using hs.symm.trans htable
  obtain rfl : entry = .raw [] := Option.some.inj (hmisfit.symm.trans hentry)
  rw [happly] at hcount
  exact ⟨hready, totals, hcount, hfollow⟩

end Engine

end TableTotals
