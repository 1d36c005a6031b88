import TableTotals.Proofs.Bench
import TableTotals.Proofs.Replay
import TableTotals.Proofs.Wire.RoundTrip

/-!
Cursors as walks over tables that do not change.

A cursor stands at a number of steps from the start of a table (`Cursor.along`): a step answers
with the cell of that number, or with why its bytes are no entry, and goes on to the next number
in either case. Only commands that work on the cursor move it, so whatever else a bench is told to
do, the table that it walks over stays the one that it was opened on (`Workbench.walk_after`).
What the cells of that table are worth is a matter of the writes before: one that was put last is
read back as what was put (`Metadata.cell?_mutateAll_put`).
-/

namespace TableTotals

/-- What a walk over a table answers where it comes to the cell of some number, which is none after
the last cell. -/
def Table.cellAt (t : Table) (name : String) (i : Nat) :
    Except Failure (Option (List UInt8 × Entry)) :=
  match t.cells.entries[i]? with
  | none => .ok none
  | some (key, bytes) =>
    match Wire.decode t.layout bytes with
    | .ok entry => .ok (some (key, entry))
    | .error cause => .error (.scan name (.undecodable cause))

namespace Cursor

/-- A cursor on a table that is some steps from the start, past the end if those are more than the
table has cells. -/
def along (name : String) (t : Table) (n : Nat) : Cursor :=
  ⟨name, t.layout, t.cells.entries, t.cells.entries.drop n, none⟩

variable (name : String) (t : Table) (n : Nat)

lemma start_eq_along : start name t none = along name t 0 := rfl

lemma rewind_along : (along name t n).rewind = along name t 0 := rfl

/-- A step answers with the cell that it passes, and passes it whatever it answers. -/
lemma next_along : (along name t n).next = (along name t (n + 1), t.cellAt name n) := by
  rcases hcell : t.cells.entries[n]? with _ | ⟨key, bytes⟩
  · have hend : t.cells.entries.length ≤ n := List.getElem?_eq_none_iff.1 hcell
    have hhere : t.cells.entries.drop n = [] := List.drop_eq_nil_of_le hend
    have hthere : t.cells.entries.drop (n + 1) = [] := List.drop_eq_nil_of_le (by omega)
    simp [next, along, Table.cellAt, hcell, hhere, hthere]
  · obtain ⟨hn, hget⟩ := List.getElem?_eq_some_iff.1 hcell
    have hhere : t.cells.entries.drop n = (key, bytes) :: t.cells.entries.drop (n + 1) := by
      rw [List.drop_eq_getElem_cons hn, hget]
    rcases hdecode : Wire.decode t.layout bytes with cause | entry <;>
      simp only [next, along, Table.cellAt, hcell, hhere, hdecode, Option.map_none]

end Cursor

namespace Command

/-- The command does nothing to a cursor but take a step with it or take it back to the start. -/
def Walks (cursor : String) (c : Command) : Prop :=
  c.cursor? = some cursor → c = .next cursor ∨ c = .rewind cursor

instance (cursor : String) : DecidablePred (Walks cursor) := fun c =>
  inferInstanceAs (Decidable (c.cursor? = some cursor → c = .next cursor ∨ c = .rewind cursor))

/-- How far from the start a cursor is after a command. -/
def advance (cursor : String) (n : Nat) (c : Command) : Nat :=
  if c = .next cursor then n + 1 else if c = .rewind cursor then 0 else n

/-- How many steps some commands take with a cursor since they took it back for the last time. -/
def steps (cursor : String) (cs : List Command) : Nat := cs.foldl (advance cursor) 0

end Command

namespace Workbench

variable {b b' : Workbench} {c : Command} {cursor name : String} {shelf : Shelf} {t : Table}
  {n : Nat}

lemma step_next (h : b.cursors.get? cursor = some (shelf, .along name t n)) :
    b.step (.next cursor) =
      some ({ b with cursors := b.cursors.insert cursor (shelf, .along name t (n + 1)) },
        .cell <$> t.cellAt name n) := by
  simp only [step, h, Option.bind_eq_bind, Option.bind_some, Cursor.next_along]
  rfl

lemma step_rewind (h : b.cursors.get? cursor = some (shelf, .along name t n)) :
    b.step (.rewind cursor) =
      some ({ b with cursors := b.cursors.insert cursor (shelf, .along name t 0) }, .ok .done) := by
  simp only [step, h, Option.bind_eq_bind, Option.bind_some, Cursor.rewind_along]
  rfl

/-- **A cursor goes along the table that it was opened on**, whatever else is done. -/
lemma walk_after (h : b.cursors.get? cursor = some (shelf, .along name t n))
    (hc : c.Walks cursor) :
    (b.after c).cursors.get? cursor = some (shelf, .along name t (c.advance cursor n)) := by
  by_cases hcursor : c.cursor? = some cursor
  · rcases hc hcursor with rfl | rfl
    · simp [after, step_next h, Command.advance]
    · simp [after, step_rewind h, Command.advance]
  · have hnext : c ≠ .next cursor := by
      rintro rfl
      exact hcursor rfl
    have hrewind : c ≠ .rewind cursor := by
      rintro rfl
      exact hcursor rfl
    rw [cursor_after b hcursor, h, Command.advance, if_neg hnext, if_neg hrewind]

lemma walk_run {cs : List Command} (h : b.cursors.get? cursor = some (shelf, .along name t n))
    (hcs : ∀ c ∈ cs, c.Walks cursor) :
    (b.run cs).cursors.get? cursor =
      some (shelf, .along name t (cs.foldl (Command.advance cursor) n)) := by
  induction cs generalizing b n with
  | nil => exact h
  | cons c rest ih =>
    exact ih (walk_after h (hcs c (by simp))) fun c' hc' => hcs c' (by simp [hc'])

end Workbench

/-! ### The last write of a cell -/

/-- A write settles a cell of a table of some layout: it puts something there, or takes it away.
A put of another layout is refused, and a table that is there is not created again. -/
def Mutation.Settles (name : String) (key : List UInt8) (layout : Shape) : Mutation → Prop
  | .create .. => False
  | .drop name' => name' = name
  | .put name' key' e => name' = name ∧ key' = key ∧ e.shape = layout
  | .putBytes name' key' _ | .delete name' key' => name' = name ∧ key' = key

instance (name : String) (key : List UInt8) (layout : Shape) :
    DecidablePred (Mutation.Settles name key layout)
  | .create .. => inferInstanceAs (Decidable False)
  | .drop name' => inferInstanceAs (Decidable (name' = name))
  | .put name' key' e => inferInstanceAs (Decidable (name' = name ∧ key' = key ∧ e.shape = layout))
  | .putBytes name' key' _ => inferInstanceAs (Decidable (name' = name ∧ key' = key))
  | .delete name' key' => inferInstanceAs (Decidable (name' = name ∧ key' = key))

namespace Metadata

def Keeps (s : Metadata) (name : String) (key : List UInt8) (layout : Shape) (bytes : List UInt8) :
    Prop :=
  ∃ t, s.tables.get? name = some t ∧ t.layout = layout ∧ t.cells.get? key = some bytes

variable {s : Metadata} {name : String} {key bytes : List UInt8} {layout : Shape} {m : Mutation}

lemma put_cases (s : Metadata) (name : String) (key : List UInt8) (e : Entry) :
    ((s.put name key e).1 = s ∧ ∀ t, s.tables.get? name = some t → e.shape ≠ t.layout) ∨
    ∃ t bytes, s.tables.get? name = some t ∧ Wire.encode t.layout e = .ok bytes ∧
      (s.put name key e).1 = s.withCells name t (t.cells.insert key bytes) := by
  rcases ht : s.tables.get? name with _ | t
  · left
    simp [put, table, ht]
  have htable := table_eq_ok.2 ht
  by_cases hshape : e.shape = t.layout
  · right
    obtain ⟨bytes, hbytes⟩ := Wire.encode_of_shape hshape
    exact ⟨t, bytes, rfl, hbytes, by simp only [put, htable, hbytes]⟩
  · left
    have hrefused := Wire.encode_of_mismatch hshape
    refine ⟨by simp only [put, htable, hrefused], fun t' ht' => ?_⟩
    cases ht'
    exact hshape

lemma keeps_of_withCells {name' : String} {t : Table}
    {cells : SortedMap (List UInt8) (List UInt8)} (ht : s.tables.get? name' = some t)
    (hcells : name' = name → t.layout = layout → cells.get? key = t.cells.get? key)
    (h : (s.withCells name' t cells).Keeps name key layout bytes) :
    s.Keeps name key layout bytes := by
  obtain ⟨t', ht', hlayout, hbytes⟩ := h
  rw [withCells, SortedMap.get?_insert] at ht'
  split at ht'
  next hname =>
    subst hname
    cases ht'
    exact ⟨t, ht, hlayout, (hcells rfl hlayout).symm.trans hbytes⟩
  · exact ⟨t', ht', hlayout, hbytes⟩

/-- **What a cell holds after a write that does not settle it** is what it held before. -/
lemma keeps_of_mutate (hm : ¬m.Settles name key layout)
    (h : (s.mutate m).Keeps name key layout bytes) : s.Keeps name key layout bytes := by
  cases m with
  | create name' layout' =>
    simp only [mutate, create] at h
    split at h
    · exact h
    · obtain ⟨t, ht, hlayout, hbytes⟩ := h
      rw [SortedMap.get?_insert] at ht
      split at ht
      · cases ht
        cases hbytes
      · exact ⟨t, ht, hlayout, hbytes⟩
  | drop name' =>
    obtain ⟨t, ht, hlayout, hbytes⟩ := h
    rw [mutate, drop, SortedMap.get?_erase] at ht
    split at ht
    · cases ht
    · exact ⟨t, ht, hlayout, hbytes⟩
  | put name' key' e =>
    rcases s.put_cases name' key' e with ⟨hsame, -⟩ | ⟨t, bytes', ht, hbytes, hdone⟩
    · rwa [mutate, hsame] at h
    rw [mutate, hdone] at h
    refine keeps_of_withCells ht (fun hname hlayout => ?_) h
    have hshape : e.shape = layout := by
      by_contra hne
      rw [hlayout, Wire.encode_of_mismatch hne] at hbytes
      cases hbytes
    rw [SortedMap.get?_insert, if_neg fun hkey => hm ⟨hname, hkey.symm, hshape⟩]
  | putBytes name' key' bytes' =>
    simp only [mutate, putBytes] at h
    rcases ht : s.table name' with failure | t
    · rwa [ht] at h
    rw [ht] at h
    refine keeps_of_withCells (table_eq_ok.1 ht) (fun hname _ => ?_) h
    rw [SortedMap.get?_insert, if_neg fun hkey => hm ⟨hname, hkey.symm⟩]
  | delete name' key' =>
    simp only [mutate, delete] at h
    rcases ht : s.table name' with failure | t
    · rwa [ht] at h
    rw [ht] at h
    refine keeps_of_withCells (table_eq_ok.1 ht) (fun hname _ => ?_) h
    rw [SortedMap.get?_erase, if_neg fun hkey => hm ⟨hname, hkey.symm⟩]

lemma keeps_of_mutateAll {ms : List Mutation} (hms : ∀ m ∈ ms, ¬m.Settles name key layout)
    (h : (s.mutateAll ms).Keeps name key layout bytes) : s.Keeps name key layout bytes := by
  induction ms generalizing s with
  | nil => exact h
  | cons m rest ih =>
    exact keeps_of_mutate (hms m (by simp)) (ih (fun m' hm' => hms m' (by simp [hm'])) h)

lemma encode_of_keeps_put {e : Entry} (hshape : e.shape = layout)
    (h : (s.mutate (.put name key e)).Keeps name key layout bytes) :
    Wire.encode layout e = .ok bytes := by
  obtain ⟨t', ht', hlayout, hbytes⟩ := h
  rcases s.put_cases name key e with ⟨hsame, hrefused⟩ | ⟨t, bytes', -, hbytes', hdone⟩
  · rw [mutate, hsame] at ht'
    exact absurd (hshape.trans hlayout.symm) (hrefused t' ht')
  · rw [mutate, hdone, withCells, SortedMap.get?_insert, if_pos rfl] at ht'
    cases ht'
    rw [SortedMap.get?_insert, if_pos rfl] at hbytes
    cases hbytes
    rwa [← hlayout]

/-- **A cell that was put last holds the bytes of what was put.** -/
lemma encode_of_last_put {before rest : List Mutation} {e : Entry} (hshape : e.shape = layout)
    (hrest : ∀ m ∈ rest, ¬m.Settles name key layout)
    (h : (s.mutateAll (before ++ .put name key e :: rest)).Keeps name key layout bytes) :
    Wire.encode layout e = .ok bytes := by
  rw [mutateAll, List.foldl_append, List.foldl_cons] at h
  exact encode_of_keeps_put hshape (keeps_of_mutateAll hrest h)

end Metadata

namespace Workbench

/-- **A walk sees the table as it was when the cursor was opened.** Whatever was done before and
whatever is done in between, a step answers with the cell of that table that comes next in
ascending order of keys, counted from the opening or from when the cursor was last taken back; with
why its bytes are no entry, if they are none; and with nothing once the walk is past the last cell.
An entry that was written last by a put is answered as it was put. -/
theorem walk_sees_opening {b b' : Workbench} {history : List Command} {shelf : Shelf}
    {handle cursor name : String}
    (hhandle : (b.run history).handles.get? handle = some (shelf, ⟨name, none⟩))
    (hopen : (b.run history).step (.openCursor handle cursor) = some (b', .ok .done)) :
    ∃ t, ((b.run history).store shelf).tables.get? name = some t ∧
      t.cells.entries.Pairwise (fun p q => compare p.1 q.1 = .lt) ∧
      (∀ cs : List Command, (∀ c ∈ cs, c.Walks cursor) →
        ((b'.run cs).step (.next cursor)).map (·.2) =
          some (.cell <$> t.cellAt name (Command.steps cursor cs))) ∧
      ∀ before rest key e, history.filterMap (·.mutationOf shelf) =
          before ++ .put name key e :: rest →
        e.shape = t.layout → e.Fits → (∀ m ∈ rest, ¬m.Settles name key t.layout) →
        ∀ i bytes, t.cells.entries[i]? = some (key, bytes) →
          t.cellAt name i = .ok (some (key, e)) := by
  rcases openCursor_cases hhandle hopen with
    ⟨failure, -, hr, -⟩ | ⟨t, htable, -, -, hcursor, -⟩
  · cases hr
  have ht := Metadata.table_eq_ok.1 htable
  refine ⟨t, ht, t.cells.ascending, fun cs hcs => ?_, ?_⟩
  · rw [Cursor.start_eq_along] at hcursor
    rw [step_next (walk_run hcursor hcs)]
    rfl
  · intro before rest key e hhistory hshape hfits hrest i bytes hcell
    have hget : t.cells.get? key = some bytes :=
      SortedMap.mem_entries.1 (List.mem_of_getElem? hcell)
    have htables := b.tables_run history shelf
    rw [hhistory] at htables
    have hkeeps : ((b.store shelf).mutateAll (before ++ .put name key e :: rest)).Keeps name key
        t.layout bytes := ⟨t, by rw [← htables, ht], rfl, hget⟩
    have hbytes := Metadata.encode_of_last_put hshape hrest hkeeps
    simp only [Table.cellAt, hcell, Wire.decode_encode hfits hbytes]

/-- Two keys of a table and bytes that are no entry are written, the first key over another one; a
put of bytes over it is refused. -/
def mixedHistory : List Command :=
  [.create .main "k" .key, .put .main "k" [2] (.key (.sample "" (.copies 1) [5])),
    .put .main "k" [2] (.key (.sample "" (.copies 3) [7])), .putBytes .main "k" [1] [255],
    .put .main "k" [3] (.key (.sample "" (.copies 3) [9])), .put .main "k" [2] (.raw [8]),
    .openTable (.plain .main) "k" "h"]

/-- The table gives way to one of another layout while a walk is on its way. -/
def replacedTable : List Command :=
  [.next "c", .next "c", .drop .main "k", .create .main "k" .raw, .rewind "c",
    .put .main "k" [2] (.raw [8]), .next "c", .delete .main "k" [2], .closeCursor "d"]

def blank : Workbench := new ∅ { backend := .memory } 0 .countersOnly

/-- A cursor has been opened on the table that the history made. -/
def opened : Workbench := (blank.run mixedHistory).after (.openCursor "h" "c")

/-- The first cell is bytes that are no entry. The walk goes on behind them to what was put last,
though the table has been replaced meanwhile. -/
theorem walk_sees_opening_replaced :
    (blank.run mixedHistory).step (.openCursor "h" "c") = some (opened, .ok .done) ∧
    (opened.run replacedTable).main.layout? "k" = some .raw ∧
    (opened.step (.next "c")).map (·.2) =
      some (.error (.scan "k" (.undecodable (.malformedKey .ended)))) ∧
    ((opened.run replacedTable).step (.next "c")).map (·.2) =
      some (.ok (.cell (some ([2], .key (.sample "" (.copies 3) [7]))))) := by
  have hhandle : (blank.run mixedHistory).handles.get? "h" = some (.main, ⟨"k", none⟩) := by
    decide +kernel
  have hopen : (blank.run mixedHistory).step (.openCursor "h" "c") = some (opened, .ok .done) := by
    decide +kernel
  obtain ⟨t, ht, -, hwalk, hput⟩ := walk_sees_opening hhandle hopen
  have htable : t = (opened.main.tables.get? "k").getD ⟨.raw, ∅⟩ := by
    have hget : opened.main.tables.get? "k" = some t := ht
    rw [hget]
    rfl
  have hlast : t.cellAt "k" 1 = .ok (some ([2], .key (.sample "" (.copies 3) [7]))) := by
    refine hput [.create "k" .key, .put "k" [2] (.key (.sample "" (.copies 1) [5]))]
      [.putBytes "k" [1] [255], .put "k" [3] (.key (.sample "" (.copies 3) [9])),
        .put "k" [2] (.raw [8])] [2] _ (by decide +kernel) ?_ (by decide) ?_ 1
      ((t.cells.get? [2]).getD []) ?_
    all_goals
      rw [htable]
      decide +kernel
  have hfirst := hwalk [] (by simp)
  have hsecond := hwalk replacedTable (by decide +kernel)
  refine ⟨hopen, by decide +kernel, ?_, ?_⟩
  · rw [htable] at hfirst
    exact hfirst.trans (by decide +kernel)
  · rw [show Command.steps "c" replacedTable = 1 by decide +kernel, hlast] at hsecond
    exact hsecond

end Workbench

end TableTotals
