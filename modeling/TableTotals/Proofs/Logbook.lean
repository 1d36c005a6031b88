import Mathlib.Data.List.Forall2
import TableTotals.Proofs.Amendment

/-!
The changes that a feed records, as a complete log of its store.

A `Logbook` is a store that is written through a feed alone, with the batches that were handed
over so far; its log is all of their changes and those still pending. `Contents` is what a reader
sees of a store: the entry under each key of each table. If all of it could be read to begin with,
the log replays what was seen then to what is seen now, and each of its changes tells of the
entry, or of none, that was under its key when its turn came (`Logbook.Complete`). One write
keeps that, and so does handing over a batch; `Logbook.log_complete` says it of any calls.
-/

namespace TableTotals

/-- The entries of tables by their keys. -/
abbrev Contents := String → List UInt8 → Option Entry

namespace Contents

def set (c : Contents) (table : String) (key : List UInt8) (e : Option Entry) : Contents :=
  fun table' key' => if table' = table ∧ key' = key then e else c table' key'

/-- What a change makes of contents: a put or an update sets its key, a deletion removes it. -/
def after (c : Contents) (x : Change) : Contents :=
  match x.action with
  | .put | .update => c.set x.table x.key x.value
  | .delete => c.set x.table x.key none
  | .other _ => c

def replay (c : Contents) (xs : List Change) : Contents := xs.foldl after c

end Contents

/-- What the change tells of its key is true of contents: a put finds nothing there, an update what
it says it replaced, and a deletion what it says it removed. -/
def Change.TellsOf (x : Change) (c : Contents) : Prop :=
  match x.action with
  | .put => c x.table x.key = none
  | .update => x.old.isSome ∧ c x.table x.key = x.old
  | .delete => c x.table x.key = x.value
  | .other _ => False

namespace Request

variable (q : Request) (old : Option Entry)

lemma tellsOf_change {c : Contents} (h : c q.table q.key = old) : (q.change old).TellsOf c := by
  cases q with
  | put name key e fits =>
    cases old with
    | none => exact h
    | some old => exact ⟨rfl, h⟩
  | delete name key => exact h

lemma after_change (c : Contents) : c.after (q.change old) = c.set q.table q.key q.entry? := by
  cases q with
  | put name key e fits => cases old <;> rfl
  | delete name key => rfl

end Request

namespace Metadata

def Readable (s : Metadata) : Prop :=
  ∀ p ∈ s.tables.entries, ∀ cell ∈ p.2.cells.entries, (p.2.read cell.2).isOk = true

instance (s : Metadata) : Decidable s.Readable :=
  inferInstanceAs (Decidable (∀ p ∈ s.tables.entries, ∀ cell ∈ p.2.cells.entries, _))

def contents (s : Metadata) : Contents := fun name key =>
  match s.get name key with
  | .ok e => e
  | .error _ => none

variable {s s' : Metadata} {q : Request} {name : String} {t : Table} {key : List UInt8}
  {old : Option Entry}

lemma contents_of_get (h : s.get name key = .ok old) : s.contents name key = old := by
  simp only [contents, h]

lemma contents_congr (h : s'.get name key = s.get name key) :
    s'.contents name key = s.contents name key := by
  simp only [contents, h]

lemma Readable.get_ok (h : s.Readable) (ht : s.tables.get? name = some t) (key : List UInt8) :
    ∃ old, s.get name key = .ok old := by
  rw [get_of_table ht, Table.lookup]
  rcases hcell : t.cells.get? key with _ | bytes
  · exact ⟨none, rfl⟩
  · have hread := h _ (SortedMap.mem_entries.2 ht) _ (SortedMap.mem_entries.2 hcell)
    rcases hentry : t.read bytes with failure | e
    · simp [hentry, Except.isOk, Except.toBool] at hread
    · exact ⟨some e, by simp only [hentry]; rfl⟩

lemma readable_of_get (h : ∀ name t, s.tables.get? name = some t → ∀ key,
    ∃ old, s.get name key = .ok old) : s.Readable := by
  rintro ⟨name, t⟩ ht ⟨key, bytes⟩ hcell
  have hname := SortedMap.mem_entries.1 ht
  obtain ⟨old, hold⟩ := h name t hname key
  rw [get_of_table hname, Table.lookup, SortedMap.mem_entries.1 hcell] at hold
  rcases hentry : t.read bytes with failure | e
  · simp [hentry] at hold
  · rfl

lemma Readable.not_garbled (h : s.Readable) (q : Request) : ¬s.Garbled q := by
  rintro ⟨hrefusal, failure, hget⟩
  obtain ⟨t, ht, -⟩ := refusal?_eq_none hrefusal
  obtain ⟨old, hold⟩ := h.get_ok ht q.key
  rw [hget] at hold
  cases hold

namespace Amended

lemma get_eq (h : s.Amended q s') (hne : ¬(name = q.table ∧ key = q.key)) :
    s'.get name key = s.get name key := by
  by_cases hname : name = q.table
  · subst hname
    have hkey : key ≠ q.key := fun hkey => hne ⟨rfl, hkey⟩
    obtain ⟨t, t', ht, ht', hlayout, hcells⟩ := h.table
    rw [get_of_table ht, get_of_table ht', Table.lookup, Table.lookup, hcells key hkey]
    simp only [Table.read, hlayout]
  · have htables := h.tables name hname
    rcases ht : s.tables.get? name with _ | t
    · rw [get_of_missing ht, get_of_missing (htables.trans ht)]
    · rw [get_of_table ht, get_of_table (htables.trans ht)]

lemma contents_eq (h : s.Amended q s') : s'.contents = s.contents.set q.table q.key q.entry? := by
  funext name key
  unfold Contents.set
  split
  next heq =>
    obtain ⟨rfl, rfl⟩ := heq
    exact contents_of_get h.done
  next hne => exact contents_congr (h.get_eq hne)

lemma readable (h : s.Amended q s') (hs : s.Readable) : s'.Readable := by
  refine readable_of_get fun name t' ht' key => ?_
  by_cases heq : name = q.table ∧ key = q.key
  · obtain ⟨rfl, rfl⟩ := heq
    exact ⟨_, h.done⟩
  · rw [h.get_eq heq]
    by_cases hname : name = q.table
    · subst hname
      obtain ⟨t, -, ht, -⟩ := h.table
      exact hs.get_ok ht key
    · exact hs.get_ok ((h.tables name hname).symm.trans ht') key

lemma layout?_eq (h : s.Amended q s') (name : String) : s'.layout? name = s.layout? name := by
  unfold layout?
  by_cases hname : name = q.table
  · subst hname
    obtain ⟨t, t', ht, ht', hlayout, -⟩ := h.table
    rw [ht, ht', Option.map_some, Option.map_some, hlayout]
  · rw [h.tables name hname]

end Amended

end Metadata

/-- A store that is written through a feed alone, with the batches handed over so far. -/
structure Logbook where
  store : Metadata
  feed : Feed := {}
  taken : List Batch := []

namespace Logbook

inductive Call where
  | write (request : Request)
  | take

/-- The changes of all batches that were handed over and those that are pending. -/
def log (b : Logbook) : List Change := b.taken.flatMap (·.changes) ++ b.feed.pending

def after (b : Logbook) : Call → Logbook
  | .write q =>
    let ((feed, store), _) := b.feed.write b.store q
    { b with feed, store }
  | .take =>
    let (feed, batch) := b.feed.take
    { b with feed, taken := b.taken ++ [batch] }

/-- The write that a call asks for, if it succeeds. -/
def grants (b : Logbook) : Call → List Request
  | .write q => if (b.feed.write b.store q).2.isOk then [q] else []
  | .take => []

def run (b : Logbook) (calls : List Call) : Logbook := calls.foldl after b

def granted : Logbook → List Call → List Request
  | _, [] => []
  | b, call :: rest => b.grants call ++ granted (b.after call) rest

/-- What the log of a logbook says of its store and of some writes that were done to it, from a
store that could be read. -/
structure Complete (start : Metadata) (done : List Request) (b : Logbook) : Prop where
  readable : b.store.Readable
  layouts : ∀ name, b.store.layout? name = start.layout? name
  /-- The log replays what was seen at first to what is seen now. -/
  replays : start.contents.replay b.log = b.store.contents
  /-- Every change tells the truth about its key when its turn comes. -/
  tells : ∀ before x, before ++ [x] <+: b.log → x.TellsOf (start.contents.replay before)
  /-- There is one change for each write, in their order. -/
  changes : List.Forall₂ (fun x q => ∃ old, x = q.change old) b.log done
  /-- A batch has the number of all changes up to its end. -/
  numbered : ∀ before batch, before ++ [batch] <+: b.taken →
    batch.sequence = ((before ++ [batch]).flatMap (·.changes)).length
  sequence : b.feed.sequence = b.log.length

variable {start : Metadata} {done : List Request} {b : Logbook}

lemma complete_start (h : start.Readable) : Complete start [] { store := start } where
  readable := h
  layouts _ := rfl
  replays := rfl
  tells before x hprefix := by simp [log] at hprefix
  changes := .nil
  numbered before batch hprefix := by simp at hprefix
  sequence := rfl

lemma Complete.write (h : b.Complete start done) {q : Request} {old : Option Entry} {s' : Metadata}
    (hold : b.store.get q.table q.key = .ok old) (hs' : b.store.Amended q s') :
    Complete start (done ++ [q])
      { b with feed := b.feed.record (q.change old), store := s' } := by
  have hlog : log { b with feed := b.feed.record (q.change old), store := s' } =
      b.log ++ [q.change old] := by simp [log, Feed.record]
  have hnow : start.contents.replay b.log q.table q.key = old := by
    rw [h.replays, Metadata.contents_of_get hold]
  constructor
  case readable => exact hs'.readable h.readable
  case layouts => exact fun name => (hs'.layout?_eq name).trans (h.layouts name)
  case replays =>
    rw [hlog, Contents.replay, List.foldl_append]
    have hreplays := h.replays
    unfold Contents.replay at hreplays
    rw [hreplays, List.foldl_cons, List.foldl_nil, q.after_change, hs'.contents_eq]
  case tells =>
    intro before x hprefix
    rw [hlog, List.prefix_concat_iff] at hprefix
    rcases hprefix with heq | hprefix
    · obtain ⟨rfl, hx⟩ := List.append_inj' heq rfl
      cases hx
      exact q.tellsOf_change old hnow
    · exact h.tells before x hprefix
  case changes =>
    rw [hlog]
    exact List.rel_append h.changes (.cons ⟨old, rfl⟩ .nil)
  case numbered => exact h.numbered
  case sequence =>
    rw [hlog, List.length_append, ← h.sequence]
    rfl

lemma Complete.take (h : b.Complete start done) :
    Complete start done (b.after .take) := by
  have hlog : (b.after .take).log = b.log := by simp [log, after, Feed.take]
  constructor
  case readable => exact h.readable
  case layouts => exact h.layouts
  case replays => rw [hlog]; exact h.replays
  case tells => rw [hlog]; exact h.tells
  case changes => rw [hlog]; exact h.changes
  case numbered =>
    intro before batch hprefix
    have htaken : (b.after .take).taken =
        b.taken ++ [{ changes := b.feed.pending, sequence := b.feed.sequence }] := rfl
    rw [htaken, List.prefix_concat_iff] at hprefix
    rcases hprefix with heq | hprefix
    · rw [heq]
      obtain ⟨-, hbatch⟩ := List.append_inj' heq rfl
      cases hbatch
      simp [h.sequence, log]
    · exact h.numbered before batch hprefix
  case sequence => rw [hlog]; exact h.sequence

/-- **One call keeps the log complete.** -/
lemma Complete.after (h : b.Complete start done) (call : Call) :
    Complete start (done ++ b.grants call) (b.after call) := by
  cases call with
  | take => simpa [grants] using h.take
  | write q =>
    rcases b.feed.whole_of_not_garbled (h.readable.not_garbled q) with
      ⟨old, s', hold, hs', hwrite⟩ | ⟨failure, hwrite⟩
    · have hgrants : b.grants (.write q) = [q] := by
        simp [grants, hwrite, Except.isOk, Except.toBool]
      have hafter : b.after (.write q) =
          { b with feed := b.feed.record (q.change old), store := s' } := by
        simp [Logbook.after, hwrite, Feed.record]
      rw [hgrants, hafter]
      exact h.write hold hs'
    · have hgrants : b.grants (.write q) = [] := by
        simp [grants, hwrite, Except.isOk, Except.toBool]
      have hafter : b.after (.write q) = b := by simp [Logbook.after, hwrite]
      rw [hgrants, hafter, List.append_nil]
      exact h

lemma Complete.run (h : b.Complete start done) (calls : List Call) :
    Complete start (done ++ b.granted calls) (b.run calls) := by
  induction calls generalizing b done with
  | nil => simpa [granted, Logbook.run] using h
  | cons call rest ih =>
    have hrest := ih (h.after call)
    rwa [List.append_assoc] at hrest

/-- **What a feed records is a complete log of its store.** A store that can be read is written
through a feed alone, and some of the writes may fail. Then the changes handed over and those
pending replay what was seen of the store at first to what is seen now; each tells the truth about
its key; there is exactly one for each write that succeeded, in their order; and each batch has the
number of all changes up to its end. -/
theorem log_complete {s : Metadata} (h : s.Readable) (calls : List Call) :
    Complete s (granted { store := s } calls) (run { store := s } calls) := by
  simpa using (complete_start h).run calls

def keyAndBytes : Metadata :=
  let tables := ((∅ : Metadata).create "k" .key).create "r" .raw
  (tables.put "k" [1] (.key (.sample "" (.copies 3) [7]))).1

/-- Writes of every kind. A put of bytes among the keys and one into a table that is not there
fail; a deletion finds nothing; the last write is not handed over. -/
def assorted : List Call :=
  [.write (.put "r" [1] (.raw [5]) (by decide)),
    .write (.put "k" [1] (.key (.sample "" (.copies 1) [9])) (by decide)),
    .write (.put "k" [1] (.raw [4]) (by decide)), .write (.delete "r" [9]), .take,
    .write (.delete "k" [1]), .write (.put "m" [1] (.raw [4]) (by decide)), .take,
    .write (.put "r" [1] (.raw [6]) (by decide))]

theorem log_complete_assorted :
    keyAndBytes.Readable ∧
    (run { store := keyAndBytes } assorted).taken.map (·.sequence) = [3, 4] ∧
    (run { store := keyAndBytes } assorted).log.map (·.action) =
      [.put, .update, .delete, .delete, .update] ∧
    Complete keyAndBytes (granted { store := keyAndBytes } assorted)
      (run { store := keyAndBytes } assorted) := by
  have hreadable : keyAndBytes.Readable := by decide +kernel
  exact ⟨hreadable, by decide +kernel, by decide +kernel, log_complete hreadable assorted⟩

end Logbook

end TableTotals
