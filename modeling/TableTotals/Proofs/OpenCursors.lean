import TableTotals.Proofs.Bench
import TableTotals.Proofs.SortedMap

/-!
No cursor stays open that nobody holds.

A store counts its open cursors up and down and knows nothing of who holds them; a bench holds its
cursors by name. The two agree after any commands (`Workbench.balanced_run`). A write never touches
the count, and a walk that an engine makes over a table closes its own cursor however it ends, so
all that matters is opening and closing by hand. Where a new cursor takes the name of an old one,
the store has for a moment one more open than there are names for, and
`Workbench.surplus_dropCursor` says that closing keeps such a surplus as it is.
-/

namespace TableTotals

/-! ### Counting the pairs of a map -/

namespace SortedMap

universe u v

variable {κ : Type u} {ν : Type v} [Ord κ]

def countP (m : SortedMap κ ν) (p : κ × ν → Bool) : Nat := m.entries.countP p

lemma natCast_countP (m : SortedMap κ ν) (p : κ × ν → Bool) :
    (m.countP p : Int) = m.sum fun q => if p q then 1 else 0 := by
  unfold countP sum
  induction m.entries with
  | nil => rfl
  | cons q rest ih =>
    rw [List.countP_cons, List.map_cons, List.sum_cons, ← ih]
    split <;> omega

variable [Std.LawfulEqOrd κ] [DecidableEq κ] {m : SortedMap κ ν} {k : κ} {y : ν}

lemma countP_erase (p : κ × ν → Bool) (h : m.get? k = some y) :
    (m.erase k).countP p + (if p (k, y) then 1 else 0) = m.countP p := by
  have hsum := m.sum_erase (fun q => if p q then 1 else 0) k
  rw [← natCast_countP, ← natCast_countP, part, h] at hsum
  cases hp : p (k, y) <;> simp only [hp, if_true, Bool.false_eq_true, if_false] at hsum ⊢ <;> omega

variable [Std.TransOrd κ]

lemma countP_insert_of_none (p : κ × ν → Bool) (h : m.get? k = none) (x : ν) :
    (m.insert k x).countP p = m.countP p + if p (k, x) then 1 else 0 := by
  have hsum := m.sum_insert (fun q => if p q then 1 else 0) k x
  rw [← natCast_countP, ← natCast_countP, part, h] at hsum
  cases hp : p (k, x) <;> simp only [hp, if_true, Bool.false_eq_true, if_false] at hsum ⊢ <;> omega

lemma countP_insert_of_some {x : ν} (p : κ × ν → Bool) (h : m.get? k = some y)
    (hp : p (k, x) = p (k, y)) : (m.insert k x).countP p = m.countP p := by
  have hsum := m.sum_insert (fun q => if p q then 1 else 0) k x
  rw [← natCast_countP, ← natCast_countP, part, h] at hsum
  dsimp only at hsum
  rw [hp] at hsum
  omega

end SortedMap

namespace Metadata

lemma openCursors_mutate (s : Metadata) (m : Mutation) :
    (s.mutate m).openCursors = s.openCursors := by
  cases m with
  | create name layout =>
    simp only [mutate, create]
    split <;> rfl
  | drop name => rfl
  | put name key entry =>
    simp only [mutate, put]
    split
    · rfl
    · split <;> rfl
  | putBytes name key bytes =>
    simp only [mutate, putBytes]
    split <;> rfl
  | delete name key =>
    simp only [mutate, delete]
    split <;> rfl

end Metadata

namespace Workbench

variable {b b' : Workbench} {c : Command} {r : Except Failure Answer}

def alive (b : Workbench) (shelf : Shelf) : Nat := b.cursors.countP (·.2.1 = shelf)

/-- Every cursor that a store has open is one of the bench's. -/
def Balanced (b : Workbench) : Prop := ∀ shelf, (b.store shelf).openCursors = b.alive shelf

lemma get?_dropCursor_self (b : Workbench) (name : String) :
    (b.dropCursor name).cursors.get? name = none := by
  unfold dropCursor
  split
  next h => exact h
  · rw [SortedMap.get?_erase, if_pos rfl]

lemma balanced_of_fixtures (hb : b.Balanced) (h : b'.fixtures = b.fixtures) : b'.Balanced := by
  intro shelf
  rw [store_of_fixtures h, alive, cursors_of_fixtures h, ← alive]
  exact hb shelf

lemma surplus_dropCursor (surplus : Shelf → Nat)
    (h : ∀ shelf, (b.store shelf).openCursors = b.alive shelf + surplus shelf) (name : String)
    (shelf : Shelf) : ((b.dropCursor name).store shelf).openCursors =
      (b.dropCursor name).alive shelf + surplus shelf := by
  have hshelf := h shelf
  unfold dropCursor
  split
  · exact hshelf
  next on cursor hget =>
    have hcount := SortedMap.countP_erase (fun q => q.2.1 = shelf) hget
    show ((b.withStore on (b.store on).closeCursor).store shelf).openCursors =
      (b.cursors.erase name).countP _ + surplus shelf
    rw [store_withStore]
    rw [alive] at hshelf
    split
    next heq =>
      subst heq
      simp only [decide_true, if_true] at hcount
      rw [Metadata.closeCursor]
      dsimp only
      omega
    next hne =>
      simp only [Ne.symm hne, decide_false, Bool.false_eq_true, if_false] at hcount
      omega

lemma balanced_move {name : String} {on : Shelf} {old : Cursor} (hb : b.Balanced)
    (hget : b.cursors.get? name = some (on, old)) (new : Cursor) :
    Balanced { b with cursors := b.cursors.insert name (on, new) } := by
  intro shelf
  have hcount := SortedMap.countP_insert_of_some (x := (on, new)) (fun q => q.2.1 = shelf) hget rfl
  show (b.store shelf).openCursors = (b.cursors.insert name (on, new)).countP _
  rw [hb, hcount, alive]

lemma balanced_hold {name : String} {on : Shelf} (hfree : b.cursors.get? name = none)
    (h : ∀ shelf, (b.store shelf).openCursors = b.alive shelf + if on = shelf then 1 else 0)
    (new : Cursor) : Balanced { b with cursors := b.cursors.insert name (on, new) } := by
  intro shelf
  have hcount := SortedMap.countP_insert_of_none (fun q => q.2.1 = shelf) hfree (on, new)
  simp only [decide_eq_true_eq] at hcount
  show (b.store shelf).openCursors = (b.cursors.insert name (on, new)).countP _
  rw [h, hcount, alive]

/-- Opening a cursor keeps the balance, whether it fails, takes a new name or takes the name of
another cursor, which is closed. -/
lemma balanced_openCursor {handle name : String} (hb : b.Balanced)
    (h : b.step (.openCursor handle name) = some (b', r)) : b'.Balanced := by
  simp only [step, Option.bind_eq_bind, Option.bind_eq_some_iff] at h
  obtain ⟨⟨on, opened⟩, -, heq⟩ := h
  rcases htable : (b.store on).table opened.table with failure | t
  · simp only [Metadata.openCursor, htable] at heq
    cases heq
    exact balanced_of_fixtures hb (b.fixtures_withStore on)
  · simp only [Metadata.openCursor, htable] at heq
    cases heq
    -- the store has one cursor open that the bench does not hold yet
    refine balanced_hold (get?_dropCursor_self _ name) (surplus_dropCursor _ ?_ name) _
    intro shelf
    have hshelf := hb shelf
    rw [alive, cursors_withStore, ← alive, store_withStore]
    by_cases hon : on = shelf
    · subst hon
      simp only [if_true]
      omega
    · rw [if_neg hon, if_neg (Ne.symm hon)]
      exact hshelf

lemma balanced_step (hb : b.Balanced) (h : b.step c = some (b', r)) : b'.Balanced := by
  rcases hmutation : c.mutation? with _ | ⟨on, m⟩
  · rcases hcursor : c.cursor? with _ | name
    · exact balanced_of_fixtures hb (fixtures_step hmutation hcursor h)
    · cases c with
      | openCursor handle cursor => exact balanced_openCursor hb h
      | next cursor | rewind cursor | summarize cursor sizer label =>
        simp only [step, Option.bind_eq_bind, Option.bind_eq_some_iff] at h
        obtain ⟨⟨on, old⟩, hget, heq⟩ := h
        cases heq
        exact balanced_move hb hget _
      | closeCursor cursor =>
        cases h
        exact surplus_dropCursor (fun _ => 0) hb cursor
      | _ => cases hcursor
  · obtain ⟨hstore, hcursors⟩ := step_of_mutation hmutation h
    intro shelf
    rw [hstore, alive, hcursors, ← alive]
    split
    next heq => rw [Metadata.openCursors_mutate, heq, hb]
    · exact hb shelf

lemma balanced_after (hb : b.Balanced) (c : Command) : (b.after c).Balanced := by
  unfold after
  split
  · exact hb
  next h => exact balanced_step hb h

/-- **The balance holds after any commands.** -/
lemma balanced_run (hb : b.Balanced) (cs : List Command) : (b.run cs).Balanced := by
  induction cs generalizing b with
  | nil => exact hb
  | cons c rest ih => exact ih (balanced_after hb c)

lemma balanced_new (tables : SortedMap String Table) (ledger : Ledger) (clock : Moment)
    (settings : Settings) : (new { tables } ledger clock settings).Balanced := by
  intro shelf
  cases shelf <;> rfl

/-- **No cursor leaks.** After any commands, failed ones among them, every store counts as open just
the cursors that are held on its tables. And whatever an engine is told to do on whatever bench, and
however that ends, every store counts what it counted before; so does any other store that an engine
scans in place of its own. -/
theorem no_cursor_leaks (tables : SortedMap String Table) (ledger : Ledger) (clock : Moment)
    (settings : Settings) (cs : List Command) :
    (∀ shelf, (((new { tables } ledger clock settings).run cs).store shelf).openCursors =
      ((new { tables } ledger clock settings).run cs).alive shelf) ∧
    (∀ (b : Workbench) (e : Engine) (duty : Duty) (shelf : Shelf),
      ((b.perform e duty).1.1.store shelf).openCursors = (b.store shelf).openCursors) ∧
    ∀ (e : Engine) (source snapshot : Source) (v : Vault),
      (e.rescan source snapshot v).1.2.1.openCursors = snapshot.store.openCursors := by
  refine ⟨balanced_run (balanced_new tables ledger clock settings) cs, fun b e duty shelf => ?_,
    fun e source snapshot v => ?_⟩
  · rw [store_of_fixtures (b.fixtures_perform e duty)]
  · rcases hrescan : e.rescan source snapshot v with ⟨⟨e', store, v'⟩, r⟩
    rw [(Engine.rescan_cases hrescan).1]

example : ((new ∅ { backend := .memory } 0 .countersOnly).run
    [.create .main "t" .raw, .openTable .guarded "t" "h", .openCursor "h" "c", .openCursor "h" "c",
      .drop .main "t", .openCursor "h" "d"]).main.openCursors = 1 := by
  decide +kernel

end Workbench

end TableTotals
