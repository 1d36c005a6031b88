import TableTotals.Proofs.Replay

/-!
What one write through a feed comes to.

A `Request` asks for a write: that an entry be under a key of a table, or none. It is refused where
the table is missing or keeps entries of another shape, and then nothing has changed. Otherwise it
is done (`Metadata.Amended`), and told of by one change, which carries what was under the key
before (`Request.change`). One case is neither: if the key holds bytes that are no entry, the
write is done and yet fails, and no change tells of it. `Feed.whole_iff_not_garbled` says that
it is the only one.
-/

namespace TableTotals

/-- A write that is asked for. An entry that is put is one that a memory addressed by words has
room for. -/
inductive Request where
  | put (table : String) (key : List UInt8) (entry : Entry) (fits : entry.Fits)
  | delete (table : String) (key : List UInt8)

namespace Request

def table : Request → String
  | put table .. | delete table _ => table

def key : Request → List UInt8
  | put _ key .. | delete _ key => key

def entry? : Request → Option Entry
  | put _ _ entry _ => some entry
  | delete .. => none

/-- The change that tells of the write, from what was under the key before it. -/
def change : Request → Option Entry → Change
  | put table key entry _, none => ⟨table, .put, key, some entry, none⟩
  | put table key entry _, some old => ⟨table, .update, key, some entry, some old⟩
  | delete table key, gone => ⟨table, .delete, key, gone, none⟩

end Request

def Feed.write (f : Feed) (s : Metadata) : Request → (Feed × Metadata) × Except Failure Unit
  | .put table key entry _ => f.put s table key entry
  | .delete table key => f.delete s table key

namespace Metadata

def refusal? (s : Metadata) (q : Request) : Option Failure :=
  match s.tables.get? q.table, q.entry? with
  | none, _ => some (.missingTable q.table)
  | some _, none => none
  | some t, some entry =>
    if entry.shape = t.layout then none else some (.coding (.mismatch entry.shape t.layout))

/-- One store is what another becomes by a write: what was asked for is read under the key, and
every other cell of the table, every other table and the number of open cursors are the same. -/
structure Amended (s : Metadata) (q : Request) (s' : Metadata) : Prop where
  done : s'.get q.table q.key = .ok q.entry?
  table : ∃ t t', s.tables.get? q.table = some t ∧ s'.tables.get? q.table = some t' ∧
    t'.layout = t.layout ∧ ∀ key, key ≠ q.key → t'.cells.get? key = t.cells.get? key
  tables : ∀ name, name ≠ q.table → s'.tables.get? name = s.tables.get? name
  openCursors : s'.openCursors = s.openCursors

/-- A write that is not refused finds bytes under its key that are no entry. -/
def Garbled (s : Metadata) (q : Request) : Prop :=
  s.refusal? q = none ∧ ∃ failure, s.get q.table q.key = .error failure

variable {s : Metadata} {q : Request} {t : Table}

lemma get_of_table {name : String} (h : s.tables.get? name = some t) (key : List UInt8) :
    s.get name key = t.lookup key := by
  simp only [get, table_eq_ok.2 h]
  rfl

lemma get_of_missing {name : String} (h : s.tables.get? name = none) (key : List UInt8) :
    s.get name key = .error (.missingTable name) := by
  simp only [get, table, h]
  rfl

lemma refusal?_eq_none (h : s.refusal? q = none) :
    ∃ t, s.tables.get? q.table = some t ∧ ∀ entry ∈ q.entry?, entry.shape = t.layout := by
  unfold refusal? at h
  rcases ht : s.tables.get? q.table with _ | t
  · rw [ht] at h
    cases h
  refine ⟨t, rfl, fun entry hentry => ?_⟩
  rw [ht, Option.mem_def.1 hentry] at h
  simpa using h

lemma amended_withTable {t' : Table} (ht : s.tables.get? q.table = some t)
    (hlayout : t'.layout = t.layout) (hkey : t'.lookup q.key = .ok q.entry?)
    (hothers : ∀ key, key ≠ q.key → t'.cells.get? key = t.cells.get? key) :
    s.Amended q (s.withTable q.table t') := by
  have ht' : (s.withTable q.table t').tables.get? q.table = some t' := by simp
  constructor
  case done => rw [get_of_table ht', hkey]
  case table => exact ⟨t, t', ht, ht', hlayout, hothers⟩
  case tables =>
    intro name hname
    rw [get?_withTable, if_neg hname]
  case openCursors => rfl

lemma amended_put {name : String} {key bytes : List UInt8} {e : Entry} {fits : e.Fits}
    (ht : s.tables.get? name = some t) (hbytes : Wire.encode t.layout e = .ok bytes) :
    s.Amended (.put name key e fits)
      (s.withTable name { t with cells := t.cells.insert key bytes }) := by
  refine amended_withTable ht rfl ?_ fun other hother => ?_
  · have hread : Wire.decode t.layout bytes = .ok e := Wire.decode_encode fits hbytes
    simp [Table.lookup, Table.read, Request.key, Request.entry?, hread, Except.mapError]
  · simp only [SortedMap.get?_insert]
    exact if_neg hother

lemma amended_delete {name : String} {key : List UInt8} (ht : s.tables.get? name = some t) :
    s.Amended (.delete name key) (s.withTable name { t with cells := t.cells.erase key }) := by
  refine amended_withTable ht rfl ?_ fun other hother => ?_
  · simp [Table.lookup, Request.key, Request.entry?]
  · simp only [SortedMap.get?_erase]
    exact if_neg hother

end Metadata

namespace Feed

variable {f : Feed} {s : Metadata} {q : Request} {failure : Failure}

lemma write_of_refusal (f : Feed) (h : s.refusal? q = some failure) :
    f.write s q = ((f, s), .error failure) := by
  unfold Metadata.refusal? at h
  split at h
  next ht =>
    cases h
    cases q <;> simp only [write, put, delete, Metadata.put, Metadata.delete, Metadata.table,
      Request.table] at ht ⊢ <;> rw [ht]
  · cases h
  next t entry ht hsome =>
    split at h
    · cases h
    next hshape =>
      cases h
      cases q with
      | delete name key => cases hsome
      | put name key e fits =>
        obtain rfl : e = entry := Option.some.inj hsome
        have htable := Metadata.table_eq_ok.2 ht
        simp only [Request.table] at htable
        simp only [write, put, Metadata.put, htable, Wire.encode_of_mismatch hshape]

/-- A write that is not refused is done. It succeeds, and a change tells of it, if what was under
the key before can be read, and otherwise it fails with why that cannot be. -/
lemma write_of_no_refusal (f : Feed) (h : s.refusal? q = none) :
    ∃ s', s.Amended q s' ∧ f.write s q =
      match s.get q.table q.key with
      | .ok old => ((f.record (q.change old), s'), .ok ())
      | .error failure => ((f, s'), .error failure) := by
  obtain ⟨t, ht, hshape⟩ := Metadata.refusal?_eq_none h
  have htable := Metadata.table_eq_ok.2 ht
  rw [Metadata.get_of_table ht]
  cases q with
  | put name key e fits =>
    obtain ⟨bytes, hbytes⟩ := Wire.encode_of_shape (hshape e rfl)
    simp only [Request.table, Request.key] at ht htable ⊢
    refine ⟨_, Metadata.amended_put ht hbytes, ?_⟩
    simp only [write, put, Metadata.put, htable, hbytes]
    rcases t.lookup key with failure | _ | old <;> rfl
  | delete name key =>
    simp only [Request.table, Request.key] at ht htable ⊢
    refine ⟨_, Metadata.amended_delete ht, ?_⟩
    simp only [write, delete, Metadata.delete, htable]
    rcases t.lookup key with failure | gone <;> rfl

lemma write_of_get {old : Option Entry} (f : Feed) (h : s.refusal? q = none)
    (hold : s.get q.table q.key = .ok old) :
    ∃ s', s.Amended q s' ∧ f.write s q = ((f.record (q.change old), s'), .ok ()) := by
  obtain ⟨s', hamended, hwrite⟩ := f.write_of_no_refusal h
  rw [hold] at hwrite
  exact ⟨s', hamended, hwrite⟩

/-- What was no entry is overwritten or removed, and the failure to read it is what is answered. -/
lemma write_of_garbled (f : Feed) (h : s.Garbled q) :
    ∃ failure s', s.get q.table q.key = .error failure ∧ s.Amended q s' ∧ s' ≠ s ∧
      f.write s q = ((f, s'), .error failure) := by
  obtain ⟨hrefusal, failure, hget⟩ := h
  obtain ⟨s', hamended, hwrite⟩ := f.write_of_no_refusal hrefusal
  rw [hget] at hwrite
  refine ⟨failure, s', hget, hamended, ?_, hwrite⟩
  rintro rfl
  have hdone := hamended.done
  rw [hget] at hdone
  cases hdone

/-- The write is done and told of by one change at the end of what was recorded, or it fails and
neither the store nor anything recorded has changed. -/
def Whole (f : Feed) (s : Metadata) (q : Request) : Prop :=
  (∃ old s', s.get q.table q.key = .ok old ∧ s.Amended q s' ∧
    f.write s q = (({ pending := f.pending ++ [q.change old], sequence := f.sequence + 1 }, s'),
      .ok ())) ∨
  ∃ failure, f.write s q = ((f, s), .error failure)

lemma whole_of_not_garbled (f : Feed) (h : ¬s.Garbled q) : f.Whole s q := by
  rcases hrefusal : s.refusal? q with _ | failure
  · rcases hget : s.get q.table q.key with failure | old
    · exact absurd ⟨hrefusal, failure, hget⟩ h
    · obtain ⟨s', hamended, hwrite⟩ := f.write_of_get hrefusal hget
      exact .inl ⟨old, s', hget, hamended, hwrite⟩
  · exact .inr ⟨failure, f.write_of_refusal hrefusal⟩

lemma not_whole_of_garbled (f : Feed) (h : s.Garbled q) : ¬f.Whole s q := by
  obtain ⟨failure, s', hget, -, hne, hwrite⟩ := f.write_of_garbled h
  rintro (⟨old, s'', hold, -⟩ | ⟨failure', hfails⟩)
  · rw [hget] at hold
    cases hold
  · rw [hwrite] at hfails
    exact hne (congrArg (fun x => x.1.2) hfails)

/-- **A write is whole if and only if it does not come upon bytes that are no entry.** Upon such
bytes it is done in the store, and yet it fails with why they are no entry, and the feed does not
tell of it. -/
theorem whole_iff_not_garbled (f : Feed) (s : Metadata) (q : Request) :
    (f.Whole s q ↔ ¬s.Garbled q) ∧
    (s.Garbled q → ∃ failure s', s.get q.table q.key = .error failure ∧ s.Amended q s' ∧ s' ≠ s ∧
      f.write s q = ((f, s'), .error failure)) := by
  refine ⟨⟨fun hwhole hgarbled => ?_, f.whole_of_not_garbled⟩, f.write_of_garbled⟩
  exact f.not_whole_of_garbled hgarbled hwhole

/-- A table of keys in which a byte stands under one key that is no entry. -/
def garbledTable : Metadata := (((∅ : Metadata).create "k" .key).putBytes "k" [1] [255]).1

def putOverGarbage : Request := .put "k" [1] (.key (.sample "" (.copies 3) [7])) (by decide)

/-- The write fails, and yet the table holds the key afterwards, which nothing recorded tells of. -/
theorem put_over_garbage_not_whole :
    ¬Whole {} garbledTable putOverGarbage ∧
    ∃ s', write {} garbledTable putOverGarbage =
        (({}, s'), .error (.coding (.malformedKey .ended))) ∧
      s'.get "k" [1] = .ok (some (.key (.sample "" (.copies 3) [7]))) := by
  have hgarbled : garbledTable.Garbled putOverGarbage :=
    ⟨by decide +kernel, .coding (.malformedKey .ended), by decide +kernel⟩
  exact ⟨not_whole_of_garbled _ hgarbled, (write {} garbledTable putOverGarbage).1.2,
    by decide +kernel, by decide +kernel⟩

end Feed

end TableTotals
