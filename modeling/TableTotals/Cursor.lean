import TableTotals.Metadata

/-!
Cursors: walks over the entries of a table as they stood when the cursor was opened.

A cursor holds its own copy of the table's cells, so no later change of the store reaches it.
An entry that does not decode fails that one step; the next step goes on behind it. A cursor
may be set to break off after a number of steps, and taking it back to the start does not
give it more of them.
-/

namespace TableTotals

structure Cursor where
  /-- The name of the table, for failures. -/
  table : String
  layout : Shape
  /-- Every cell, by ascending key. -/
  cells : List (List UInt8 × List UInt8)
  /-- The cells that are still ahead. -/
  ahead : List (List UInt8 × List UInt8)
  /-- How many steps are left before the walk breaks off, if it is to. -/
  budget : Option Nat
  deriving DecidableEq

namespace Cursor

def start (name : String) (t : Table) (budget : Option Nat) : Cursor :=
  ⟨name, t.layout, t.cells.entries, t.cells.entries, budget⟩

def rewind (c : Cursor) : Cursor := { c with ahead := c.cells }

/-- The next entry with its key, or nothing after the last. -/
def next (c : Cursor) : Cursor × Except Failure (Option (List UInt8 × Entry)) :=
  match c.budget with
  | some 0 => (c, .error (.scan c.table .interrupted))
  | budget =>
    let c := { c with budget := budget.map (· - 1) }
    match c.ahead with
    | [] => (c, .ok none)
    | (key, bytes) :: ahead =>
      ({ c with ahead },
        match Wire.decode c.layout bytes with
        | .ok entry => .ok (some (key, entry))
        | .error cause => .error (.scan c.table (.undecodable cause)))

theorem next_eq_ok_some {c : Cursor} {p : List UInt8 × Entry} (h : c.next.2 = .ok (some p)) :
    c.next.1.layout = c.layout ∧ ∃ bytes, Wire.decode c.layout bytes = .ok p.2 ∧
      c.ahead = (p.1, bytes) :: c.next.1.ahead := by
  unfold next at h ⊢
  split at h
  · cases h
  · dsimp only at h ⊢
    split at h
    · cases h
    next hc =>
      dsimp only at h
      split at h
      next hd =>
        cases h
        exact ⟨rfl, _, hd, hc⟩
      · cases h

theorem length_ahead_next {c : Cursor} {p : List UInt8 × Entry}
    (h : c.next.2 = .ok (some p)) : c.next.1.ahead.length < c.ahead.length := by
  obtain ⟨-, bytes, -, hahead⟩ := next_eq_ok_some h
  rw [hahead]
  exact Nat.lt_succ_self _

/-- Folds over the entries that are ahead, stopping at the first failure of the walk or of the
function. -/
def fold {β : Type} (f : β → Entry → Except Failure β) (b : β) (c : Cursor) :
    Cursor × Except Failure β :=
  match _h : c.next.2 with
  | .error e => (c.next.1, .error e)
  | .ok none => (c.next.1, .ok b)
  | .ok (some p) =>
    match f b p.2 with
    | .error e => (c.next.1, .error e)
    | .ok b' => fold f b' c.next.1
termination_by c.ahead.length
decreasing_by exact length_ahead_next ‹_›

/-- A fold takes one step, and goes on from there with what the function makes of it. -/
theorem fold_eq {β : Type} (f : β → Entry → Except Failure β) (b : β) (c : Cursor) :
    c.fold f b =
      match c.next.2 with
      | .error e => (c.next.1, .error e)
      | .ok none => (c.next.1, .ok b)
      | .ok (some p) =>
        match f b p.2 with
        | .error e => (c.next.1, .error e)
        | .ok b' => c.next.1.fold f b' := by
  rw [fold]
  split
  next h => rw [h]
  next h => rw [h]
  next h => rw [h]

end Cursor

end TableTotals
