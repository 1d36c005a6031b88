import Mathlib.Data.List.Induction
import TableTotals.Proofs.SortedMap
import TableTotals.Vault

/-!
Bulk writes: all records or none, and exactly when which.

A bulk write is denied over the first record that there is a reason to deny, and then nothing is
written (`BulkWrite.inLedger_cases`). The reasons are those of the ledger. A ledger in memory
looks over all keys before it writes, so it knows of the records that were there before the call
only. A database executes a statement for each record in a transaction: its statements see what
those before them have done (`BulkWrite.execute_cases`), and the transaction is rolled back over
the first one that fails. An update is denied over the same records either way, for what the
updates before it have written was there before the call.
-/

namespace TableTotals

/-! ### The first member of which something holds -/

section First

variable {α : Type} {P Q : List α → α → Prop} {xs before : List α} {x y : α}

/-- Something holds of no member of a list, given the members before it. -/
def Never (P : List α → α → Prop) (xs : List α) : Prop :=
  ∀ before x after, xs = before ++ x :: after → ¬P before x

/-- The member behind some others is the first of which something holds, given those. -/
def First (P : List α → α → Prop) (xs before : List α) (x : α) : Prop :=
  (∃ after, xs = before ++ x :: after) ∧ P before x ∧ Never P before

lemma never_nil : Never P [] := by
  intro before x after h
  simp at h

lemma Never.cons (hx : ¬P [] x) (h : Never (fun before => P (x :: before)) xs) :
    Never P (x :: xs) := by
  rintro (_ | ⟨y, before⟩) z after hsplit
  · obtain ⟨rfl, -⟩ := List.cons.inj hsplit
    exact hx
  · obtain ⟨rfl, hrest⟩ := List.cons.inj hsplit
    exact h before z after hrest

lemma first_head (hx : P [] x) : First P (x :: xs) [] x := ⟨⟨xs, rfl⟩, hx, never_nil⟩

lemma First.cons (hx : ¬P [] x) (h : First (fun before => P (x :: before)) xs before y) :
    First P (x :: xs) (x :: before) y := by
  obtain ⟨⟨after, rfl⟩, hy, hnever⟩ := h
  exact ⟨⟨after, rfl⟩, hy, hnever.cons hx⟩

lemma Never.of_append {ys : List α} (h : Never P (xs ++ ys)) : Never P xs := by
  rintro before x after rfl
  exact h before x (after ++ ys) (by simp)

/-- Two properties that come to the same as long as neither has held have the same first member, or
neither has one. -/
lemma Never.congr (h : ∀ before x, Never P before → (P before x ↔ Q before x)) (hP : Never P xs) :
    Never Q xs := by
  rintro before x after rfl
  exact fun hQ => hP before x after rfl ((h before x hP.of_append).2 hQ)

lemma First.congr (h : ∀ before x, Never P before → (P before x ↔ Q before x))
    (hP : First P xs before x) : First Q xs before x :=
  ⟨hP.1, (h before x hP.2.2).1 hP.2.1, hP.2.2.congr h⟩

lemma find?_cases (p : α → Bool) (xs : List α) :
    (∃ before x, First (fun _ x => p x = true) xs before x ∧ xs.find? p = some x) ∨
    (Never (fun _ x => p x = true) xs ∧ xs.find? p = none) := by
  induction xs with
  | nil => exact .inr ⟨never_nil, rfl⟩
  | cons x xs ih =>
    rw [List.find?_cons]
    cases hx : p x with
    | true => exact .inl ⟨[], x, first_head hx, rfl⟩
    | false =>
      have hnot : ¬p x = true := by simp [hx]
      rcases ih with ⟨before, y, hfirst, hfind⟩ | ⟨hnever, hfind⟩
      · exact .inl ⟨x :: before, y, .cons hnot hfirst, hfind⟩
      · exact .inr ⟨.cons hnot hnever, hfind⟩

lemma First.not_never (h : First P xs before x) : ¬Never P xs := by
  obtain ⟨⟨after, hsplit⟩, hx, -⟩ := h
  exact fun hnever => hnever before x after hsplit hx

/-- There is no more than one first member. -/
lemma First.unique {before' : List α} {x' : α} (h : First P xs before x)
    (h' : First P xs before' x') : before' = before ∧ x' = x := by
  obtain ⟨⟨after, rfl⟩, hx, hnever⟩ := h
  obtain ⟨⟨after', hsplit⟩, hx', hnever'⟩ := h'
  rcases List.append_eq_append_iff.1 hsplit with ⟨more, rfl, hmore⟩ | ⟨more, rfl, hmore⟩
  · cases more with
    | nil =>
      obtain ⟨rfl, -⟩ := List.cons.inj hmore
      exact ⟨by simp, rfl⟩
    | cons y more =>
      obtain ⟨rfl, -⟩ := List.cons.inj hmore
      exact absurd hx (hnever' before x more rfl)
  · cases more with
    | nil =>
      obtain ⟨rfl, -⟩ := List.cons.inj hmore
      exact ⟨by simp, rfl⟩
    | cons y more =>
      obtain ⟨rfl, -⟩ := List.cons.inj hmore
      exact absurd hx' (hnever before' x' more rfl)

end First

/-! ### What a key holds after some writes -/

namespace Ledger

variable {records : List Record} {readings : SortedMap String Reading}

lemma get?_write (readings : SortedMap String Reading) (r : Record) (key : String) :
    (write readings r).get? key = if key = r.key then some r.toReading else readings.get? key :=
  SortedMap.get?_insert readings r.key key r.toReading

def lastOf? (records : List Record) (key : String) : Option Record :=
  (records.filter fun r => r.key = key).getLast?

lemma lastOf?_eq_none {key : String} :
    lastOf? records key = none ↔ key ∉ records.map Record.key := by
  rw [lastOf?, List.getLast?_eq_none_iff, List.filter_eq_nil_iff]
  simp

lemma key_of_lastOf? {key : String} {r : Record} (h : lastOf? records key = some r) :
    r.key = key := by
  have hmem : r ∈ records.filter fun b => b.key = key := List.mem_of_getLast? h
  simpa using (List.mem_filter.1 hmem).2

lemma get?_foldl_write (records : List Record) (readings : SortedMap String Reading)
    (key : String) :
    (records.foldl write readings).get? key =
      ((lastOf? records key).map Record.toReading).or (readings.get? key) := by
  induction records generalizing readings with
  | nil => rfl
  | cons r rest ih =>
    rw [List.foldl_cons, ih, get?_write]
    unfold lastOf?
    by_cases hkey : r.key = key
    · subst hkey
      rw [List.filter_cons_of_pos (by simp), List.getLast?_cons, if_pos rfl]
      cases (rest.filter fun b => b.key = r.key).getLast? <;> rfl
    · rw [List.filter_cons_of_neg (by simpa using hkey), if_neg (Ne.symm hkey)]

lemma get?_foldl_write_eq_none {key : String} :
    (records.foldl write readings).get? key = none ↔
      readings.get? key = none ∧ key ∉ records.map Record.key := by
  rw [get?_foldl_write, Option.or_eq_none_iff, Option.map_eq_none_iff, lastOf?_eq_none, and_comm]

lemma record?_eq_none {l : Ledger} {key : String} :
    l.record? key = none ↔ l.readings.get? key = none := by
  rw [record?, Option.map_eq_none_iff]

lemma record?_foldl_write (l : Ledger) (records : List Record) (key : String) :
    ({ l with readings := records.foldl write l.readings } : Ledger).record? key =
      (lastOf? records key).or (l.record? key) := by
  rw [record?, get?_foldl_write, record?]
  rcases hlast : lastOf? records key with _ | r
  · rfl
  · obtain rfl : r.key = key := key_of_lastOf? hlast
    rfl

end Ledger

inductive BulkWrite where
  | insertion
  | update
  deriving DecidableEq, Repr

/-- A transaction of a database: the readings that were committed before it, and what its
statements have made of them so far. -/
structure Transaction where
  committed : SortedMap String Reading
  staged : SortedMap String Reading
  deriving DecidableEq

namespace BulkWrite

def inLedger : BulkWrite → Ledger → List Record → Ledger × Except Failure Unit
  | insertion => Ledger.insert
  | update => Ledger.update

def inVault : BulkWrite → Vault → List Record → Vault × Except Failure Unit
  | insertion => Vault.insert
  | update => Vault.update

/-- There is a reason to deny a record that comes behind some others in the call. -/
def Denies (w : BulkWrite) (l : Ledger) (before : List Record) (r : Record) : Prop :=
  match w, l.backend with
  | insertion, .memory => l.record? r.key ≠ none
  | insertion, .database => l.record? r.key ≠ none ∨ r.key ∈ before.map Record.key
  | update, _ => l.record? r.key = none

def denial : BulkWrite → Backend → String → WritingCause
  | insertion, .memory => .present
  | insertion, .database => .duplicate
  | update, _ => .absent

/-! ### Statements of a transaction -/

/-- A statement for a record fails over these readings: a key is unique, and an update changes the
row that has its key. -/
def Fails (w : BulkWrite) (readings : SortedMap String Reading) (r : Record) : Prop :=
  match w with
  | insertion => readings.get? r.key ≠ none
  | update => readings.get? r.key = none

instance (w : BulkWrite) (readings : SortedMap String Reading) (r : Record) :
    Decidable (w.Fails readings r) := by
  unfold Fails
  split <;> infer_instance

/-- Executes statement after statement, up to the first that fails, and tells its record. -/
def execute (w : BulkWrite) : List Record → Transaction → Transaction × Option Record
  | [], t => (t, none)
  | r :: rest, t =>
    if w.Fails t.staged r then (t, some r)
    else w.execute rest { t with staged := Ledger.write t.staged r }

/-- Makes the write in a transaction, which is rolled back over a statement that fails. -/
def transact (w : BulkWrite) (readings : SortedMap String Reading) (records : List Record) :
    SortedMap String Reading × Except Failure Unit :=
  match w.execute records ⟨readings, readings⟩ with
  | (t, none) => (t.staged, .ok ())
  | (t, some r) => (t.committed, .error (.writing (w.denial .database r.key)))

variable {w : BulkWrite} {records before : List Record} {r : Record}
  {readings : SortedMap String Reading} {l : Ledger}

/-- A statement fails that finds staged what it should not. -/
def FailsAfter (w : BulkWrite) (readings : SortedMap String Reading) (before : List Record)
    (r : Record) : Prop :=
  w.Fails (before.foldl Ledger.write readings) r

/-- **What statements come to.** They are executed up to the first one that fails, with the
records before it staged, or all of them are. -/
lemma execute_cases (w : BulkWrite) (records : List Record) (t : Transaction) :
    (∃ before r, First (w.FailsAfter t.staged) records before r ∧
      w.execute records t = ({ t with staged := before.foldl Ledger.write t.staged }, some r)) ∨
    (Never (w.FailsAfter t.staged) records ∧
      w.execute records t = ({ t with staged := records.foldl Ledger.write t.staged }, none)) := by
  induction records generalizing t with
  | nil => exact .inr ⟨never_nil, rfl⟩
  | cons r rest ih =>
    rw [execute]
    by_cases hr : w.Fails t.staged r
    · rw [if_pos hr]
      exact .inl ⟨[], r, first_head hr, rfl⟩
    · rw [if_neg hr]
      rcases ih { t with staged := Ledger.write t.staged r } with
        ⟨before, r', hfirst, hexec⟩ | ⟨hnever, hexec⟩
      · exact .inl ⟨r :: before, r', .cons hr hfirst, hexec⟩
      · exact .inr ⟨.cons hr hnever, hexec⟩

/-- Statements stage only. -/
lemma committed_execute (w : BulkWrite) (records : List Record) (t : Transaction) :
    (w.execute records t).1.committed = t.committed := by
  rcases execute_cases w records t with ⟨before, r, -, hexec⟩ | ⟨-, hexec⟩ <;> rw [hexec]

/-- Updates that do not fail are of keys that were there before all of them. -/
lemma known_of_never (h : Never (update.FailsAfter readings) records) :
    ∀ r ∈ records, readings.get? r.key ≠ none := by
  induction records using List.reverseRecOn with
  | nil => simp
  | append_singleton before b ih =>
    have hbefore : ∀ r ∈ before, readings.get? r.key ≠ none := ih h.of_append
    have hb : ¬update.Fails (before.foldl Ledger.write readings) b := h before b [] rfl
    rw [Fails, Ledger.get?_foldl_write_eq_none] at hb
    intro r hr
    rcases List.mem_append.1 hr with hr | hr
    · exact hbefore r hr
    · obtain rfl := List.mem_singleton.1 hr
      intro hnone
      refine hb ⟨hnone, fun hkey => ?_⟩
      obtain ⟨earlier, hearlier, hsame⟩ := List.mem_map.1 hkey
      exact hbefore earlier hearlier (hsame ▸ hnone)

/-- As long as no statement has failed, a statement fails for the reason that the ledger has to
deny its record. -/
lemma failsAfter_iff (hdatabase : l.backend = .database) (before : List Record) (r : Record)
    (h : Never (w.FailsAfter l.readings) before) :
    w.FailsAfter l.readings before r ↔ w.Denies l before r := by
  cases w with
  | insertion =>
    simp only [FailsAfter, Fails, Denies, hdatabase]
    rw [Ne, Ledger.get?_foldl_write_eq_none, Ne, Ledger.record?_eq_none]
    tauto
  | update =>
    have hknown := known_of_never h
    simp only [FailsAfter, Fails, Denies]
    rw [Ledger.get?_foldl_write_eq_none, Ledger.record?_eq_none]
    refine ⟨And.left, fun hnone => ⟨hnone, fun hkey => ?_⟩⟩
    obtain ⟨earlier, hearlier, hsame⟩ := List.mem_map.1 hkey
    exact hknown earlier hearlier (hsame ▸ hnone)

/-! ### The outcome in a ledger -/

lemma fails_insertion : insertion.Fails readings r ↔ readings.contains r.key = true := by
  rw [Fails, SortedMap.contains, Option.isSome_iff_ne_none]

lemma fails_update : update.Fails readings r ↔ readings.contains r.key = false := by
  rw [Fails, SortedMap.contains, Option.isSome_eq_false_iff, Option.isNone_iff_eq_none]

lemma inLedger_of_memory (hmemory : l.backend = .memory) (w : BulkWrite) (records : List Record) :
    w.inLedger l records =
      match records.find? fun r => w.Fails l.readings r with
      | some r => (l, .error (.writing (w.denial l.backend r.key)))
      | none => ({ l with readings := records.foldl Ledger.write l.readings }, .ok ()) := by
  obtain ⟨backend, readings⟩ := l
  obtain rfl : backend = .memory := hmemory
  cases w with
  | insertion =>
    simp only [inLedger, Ledger.insert, Ledger.insertAfterCheck, fails_insertion,
      Bool.decide_eq_true]
    cases records.find? fun r => readings.contains r.key <;> rfl
  | update =>
    simp only [inLedger, Ledger.update, Ledger.updateAfterCheck, fails_update,
      Bool.decide_eq_false]
    cases records.find? fun r => !readings.contains r.key <;> rfl

/-- A database writes record after record as its statements do. -/
lemma insertEach_eq (records : List Record) (t : Transaction) :
    Ledger.insertEach records t.staged =
      match insertion.execute records t with
      | (t', none) => (t'.staged, .ok ())
      | (t', some r) => (t'.staged, .error (.writing (.duplicate r.key))) := by
  induction records generalizing t with
  | nil => rfl
  | cons r rest ih =>
    simp only [Ledger.insertEach, execute, fails_insertion]
    split
    · rfl
    · exact ih { t with staged := Ledger.write t.staged r }

lemma updateEach_eq (records : List Record) (t : Transaction) :
    Ledger.updateEach records t.staged =
      match update.execute records t with
      | (t', none) => (t'.staged, .ok ())
      | (t', some r) => (t'.staged, .error (.writing (.absent r.key))) := by
  induction records generalizing t with
  | nil => rfl
  | cons r rest ih =>
    simp only [Ledger.updateEach, execute, fails_update]
    cases hr : t.staged.contains r.key with
    | false => rfl
    | true => simpa [hr] using ih { t with staged := Ledger.write t.staged r }

lemma inLedger_of_database (hdatabase : l.backend = .database) (w : BulkWrite)
    (records : List Record) :
    w.inLedger l records =
      ({ l with readings := (w.transact l.readings records).1 },
        (w.transact l.readings records).2) := by
  obtain ⟨backend, readings⟩ := l
  obtain rfl : backend = .database := hdatabase
  have hcommitted : (w.execute records ⟨readings, readings⟩).1.committed = readings :=
    committed_execute w records ⟨readings, readings⟩
  unfold transact
  cases w with
  | insertion =>
    simp only [inLedger, Ledger.insert]
    rw [insertEach_eq records ⟨readings, readings⟩]
    rcases hexec : insertion.execute records ⟨readings, readings⟩ with ⟨t, _ | r⟩
    · rfl
    · simp only [hexec] at hcommitted
      simp only [Ledger.commit, hcommitted, denial]
  | update =>
    simp only [inLedger, Ledger.update]
    rw [updateEach_eq records ⟨readings, readings⟩]
    rcases hexec : update.execute records ⟨readings, readings⟩ with ⟨t, _ | r⟩
    · rfl
    · simp only [hexec] at hcommitted
      simp only [Ledger.commit, hcommitted, denial]

/-- **What a bulk write comes to in a ledger.** It is denied over the first record that there is a
reason to deny and the ledger is as before, or all records are written. -/
lemma inLedger_cases (w : BulkWrite) (l : Ledger) (records : List Record) :
    (∃ before r, First (w.Denies l) records before r ∧
      w.inLedger l records = (l, .error (.writing (w.denial l.backend r.key)))) ∨
    (Never (w.Denies l) records ∧ w.inLedger l records =
      ({ l with readings := records.foldl Ledger.write l.readings }, .ok ())) := by
  cases hbackend : l.backend with
  | memory =>
    have hiff : ∀ before r, decide (w.Fails l.readings r) = true ↔ w.Denies l before r := by
      intro before r
      rw [decide_eq_true_iff]
      cases w <;> simp [Fails, Denies, hbackend, Ledger.record?_eq_none]
    rw [inLedger_of_memory hbackend, hbackend]
    rcases find?_cases (fun r => decide (w.Fails l.readings r)) records with
      ⟨before, r, hfirst, hfind⟩ | ⟨hnever, hfind⟩
    · rw [hfind]
      exact .inl ⟨before, r, hfirst.congr fun before r _ => hiff before r, rfl⟩
    · rw [hfind]
      exact .inr ⟨hnever.congr fun before r _ => hiff before r, rfl⟩
  | database =>
    have hiff := fun before r => failsAfter_iff (w := w) hbackend before r
    rw [inLedger_of_database hbackend, transact]
    rcases execute_cases w records ⟨l.readings, l.readings⟩ with
      ⟨before, r, hfirst, hexec⟩ | ⟨hnever, hexec⟩
    · rw [hexec]
      exact .inl ⟨before, r, hfirst.congr hiff, rfl⟩
    · rw [hexec]
      exact .inr ⟨hnever.congr hiff, by rw [hbackend]⟩

lemma inLedger_of_never (h : Never (w.Denies l) records) :
    w.inLedger l records =
      ({ l with readings := records.foldl Ledger.write l.readings }, .ok ()) := by
  rcases inLedger_cases w l records with ⟨before, r, hfirst, -⟩ | ⟨-, hledger⟩
  · exact absurd h hfirst.not_never
  · exact hledger

lemma key_notMem_before {after : List Record}
    (hnodup : ((before ++ r :: after).map Record.key).Nodup) : r.key ∉ before.map Record.key := by
  rw [List.map_append, List.map_cons] at hnodup
  intro hmem
  exact (List.nodup_append.1 hnodup).2.2 _ hmem _ List.mem_cons_self rfl

lemma denies_congr {l' : Ledger} (hreadings : l'.readings = l.readings) {after : List Record}
    (hnodup : ((before ++ r :: after).map Record.key).Nodup) :
    w.Denies l' before r ↔ w.Denies l before r := by
  have hrecord : l'.record? r.key = l.record? r.key := by
    rw [Ledger.record?, Ledger.record?, hreadings]
  have hnew : r.key ∉ before.map Record.key := key_notMem_before hnodup
  unfold Denies
  cases w <;> cases l.backend <;> cases l'.backend <;> simp [hrecord, hnew]

variable {v : Vault}

/-! ### The outcome in a vault -/

lemma inVault_eq (h : v.refusals = {}) (w : BulkWrite) (records : List Record) :
    ∃ counted : Ledger → Vault, (∀ ledger, (counted ledger).ledger = ledger) ∧
      w.inVault v records =
        match w.inLedger v.ledger records with
        | (ledger, .error failure) => ({ v with ledger }, .error failure)
        | (ledger, .ok ()) => (counted ledger, .ok ()) := by
  cases w with
  | insertion =>
    refine ⟨fun ledger => { v with ledger, inserted := v.inserted + records.length },
      fun _ => rfl, ?_⟩
    rcases hinsert : v.ledger.insert records with ⟨ledger, failure | _⟩ <;>
      simp [inVault, Vault.insert, Vault.switched_of_calm h, h, inLedger, hinsert]
  | update =>
    refine ⟨fun ledger => { v with ledger, updated := v.updated + records.length },
      fun _ => rfl, ?_⟩
    rcases hupdate : v.ledger.update records with ⟨ledger, failure | _⟩ <;>
      simp [inVault, Vault.update, Vault.switched_of_calm h, h, inLedger, hupdate]

/-- **What a bulk write comes to in a vault.** -/
lemma inVault_cases (h : v.refusals = {}) (w : BulkWrite) (records : List Record) :
    (∃ before r, First (w.Denies v.ledger) records before r ∧
      w.inVault v records = (v, .error (.writing (w.denial v.ledger.backend r.key)))) ∨
    (Never (w.Denies v.ledger) records ∧ ∃ v', w.inVault v records = (v', .ok ()) ∧
      v'.ledger =
        { v.ledger with readings := records.foldl Ledger.write v.ledger.readings }) := by
  obtain ⟨counted, hcounted, heq⟩ := inVault_eq h w records
  rcases inLedger_cases w v.ledger records with ⟨before, r, hfirst, hledger⟩ | ⟨hnever, hledger⟩
  · refine .inl ⟨before, r, hfirst, ?_⟩
    rw [heq, hledger]
  · refine .inr ⟨hnever, counted _, ?_, hcounted _⟩
    rw [heq, hledger]

/-- A database makes the write in a transaction, and holds what the transaction leaves. -/
lemma inVault_of_database (h : v.refusals = {}) (hdatabase : v.ledger.backend = .database)
    (w : BulkWrite) (records : List Record) :
    ((w.inVault v records).1.ledger.readings, (w.inVault v records).2) =
      w.transact v.ledger.readings records := by
  obtain ⟨counted, hcounted, heq⟩ := inVault_eq h w records
  rw [heq, inLedger_of_database hdatabase, transact]
  rcases execute_cases w records ⟨v.ledger.readings, v.ledger.readings⟩ with
    ⟨before, r, -, hexec⟩ | ⟨-, hexec⟩
  · simp only [hexec]
  · simp only [hexec, hcounted]

/-- Records of distinct keys are written into either ledger or into neither, which end with the
same records. -/
lemma inVault_alike (h : v.refusals = {}) (hnodup : (records.map Record.key).Nodup)
    (backend : Backend) :
    ((w.inVault { v with ledger.backend := backend } records).2 = .ok () ↔
      (w.inVault v records).2 = .ok ()) ∧
    (w.inVault { v with ledger.backend := backend } records).1.ledger.records =
      (w.inVault v records).1.ledger.records := by
  have hsame : ∀ before r after, records = before ++ r :: after →
      (w.Denies { v.ledger with backend } before r ↔ w.Denies v.ledger before r) := by
    rintro before r after rfl
    exact denies_congr rfl hnodup
  rcases inVault_cases h w records with
    ⟨before, r, ⟨⟨after, hsplit⟩, hdenies, -⟩, heq⟩ | ⟨hnever, v₁, heq, hledger⟩ <;>
  rcases inVault_cases (v := { v with ledger.backend := backend }) h w records with
    ⟨before', r', ⟨⟨after', hsplit'⟩, hdenies', -⟩, heq'⟩ | ⟨hnever', v₂, heq', hledger'⟩
  · rw [heq, heq']
    exact ⟨by simp, rfl⟩
  · exact absurd ((hsame before r after hsplit).2 hdenies) (hnever' before r after hsplit)
  · exact absurd ((hsame before' r' after' hsplit').1 hdenies')
      (hnever before' r' after' hsplit')
  · rw [heq, heq', hledger, hledger']
    exact ⟨Iff.rfl, rfl⟩

/-- **Bulk writes are all or nothing.** Where nothing is refused, a bulk write fails if and only if
there is a reason to deny one of its records. An insertion in memory is denied over a key that was
there before the call, one in a database also over a key that stands earlier in the call, and an
update over a key that has no record. What is reported names the first such record, and the vault
is as before. If the write succeeds, each of its keys holds the last record that was given for it,
and all others are as before. So if its keys are distinct, the write succeeds over either ledger or
over neither, and they end with the same records. In a database the statements that come before a
failing one are undone, for the write is a transaction. -/
theorem bulk_writes_exact (w : BulkWrite) (v : Vault) (h : v.refusals = {})
    (records : List Record) :
    ((w.inVault v records).2 ≠ .ok () ↔
      ∃ before r after, records = before ++ r :: after ∧ w.Denies v.ledger before r) ∧
    (∀ failure, (w.inVault v records).2 = .error failure →
      (w.inVault v records).1 = v ∧
        ∃ before r, First (w.Denies v.ledger) records before r ∧
          failure = .writing (w.denial v.ledger.backend r.key)) ∧
    ((w.inVault v records).2 = .ok () → ∀ key,
      (w.inVault v records).1.ledger.record? key =
        (Ledger.lastOf? records key).or (v.ledger.record? key)) ∧
    ((records.map Record.key).Nodup → ∀ backend,
      ((w.inVault { v with ledger.backend := backend } records).2 = .ok () ↔
        (w.inVault v records).2 = .ok ()) ∧
      (w.inVault { v with ledger.backend := backend } records).1.ledger.records =
        (w.inVault v records).1.ledger.records) ∧
    (v.ledger.backend = .database →
      ((w.inVault v records).1.ledger.readings, (w.inVault v records).2) =
        w.transact v.ledger.readings records) := by
  have houtcome := inVault_cases h w records
  refine ⟨⟨fun hfails => ?_, ?_⟩, fun failure hfailure => ?_, fun hok key => ?_,
    fun hnodup backend => ?_, fun hdatabase => inVault_of_database h hdatabase w records⟩
  · rcases houtcome with ⟨before, r, ⟨⟨after, hsplit⟩, hdenies, -⟩, -⟩ | ⟨-, v', heq, -⟩
    · exact ⟨before, r, after, hsplit, hdenies⟩
    · rw [heq] at hfails
      exact absurd rfl hfails
  · rintro ⟨before, r, after, hsplit, hdenies⟩
    rcases houtcome with ⟨_, _, -, heq⟩ | ⟨hnever, -⟩
    · rw [heq]
      exact nofun
    · exact absurd hdenies (hnever before r after hsplit)
  · rcases houtcome with ⟨before, r, hfirst, heq⟩ | ⟨-, v', heq, -⟩
    · rw [heq] at hfailure ⊢
      exact ⟨rfl, before, r, hfirst, (Except.error.inj hfailure).symm⟩
    · rw [heq] at hfailure
      cases hfailure
  · rcases houtcome with ⟨before, r, -, heq⟩ | ⟨-, v', heq, hledger⟩
    · rw [heq] at hok
      cases hok
    · rw [heq, hledger]
      exact v.ledger.record?_foldl_write records key
  · exact inVault_alike h hnodup backend

def oneReading (backend : Backend) : Vault where
  ledger := { backend, readings := .ofList [("b", ⟨9, 1⟩)] }
  clock := 5

/-- A key that is given twice in one call, and behind it the key that is there. In memory the call
fails over the latter, and it would succeed without it. In a database it fails over the former,
and its first record is undone. -/
theorem bulk_writes_exact_repeated :
    let twice : List Record := [⟨⟨1, 5⟩, "a"⟩, ⟨⟨2, 5⟩, "a"⟩]
    let known : Record := ⟨⟨3, 5⟩, "b"⟩
    let distinct : List Record := [⟨⟨1, 5⟩, "a"⟩, ⟨⟨4, 5⟩, "c"⟩]
    (∀ backend, (oneReading backend).refusals = {}) ∧
    insertion.inVault (oneReading .memory) (twice ++ [known]) =
      (oneReading .memory, .error (.writing (.present "b"))) ∧
    (insertion.inVault (oneReading .memory) twice).1.ledger.record? "a" = some ⟨⟨2, 5⟩, "a"⟩ ∧
    insertion.inVault (oneReading .database) (twice ++ [known]) =
      (oneReading .database, .error (.writing (.duplicate "a"))) ∧
    ((insertion.inVault (oneReading .database) (twice ++ [known])).1.ledger.readings,
        (insertion.inVault (oneReading .database) (twice ++ [known])).2) =
      insertion.transact (oneReading .database).ledger.readings (twice ++ [known]) ∧
    (distinct.map Record.key).Nodup ∧
    (insertion.inVault (oneReading .database) distinct).1.ledger.records =
      (insertion.inVault (oneReading .memory) distinct).1.ledger.records := by
  intro twice known distinct
  have hnone : ∀ backend, (oneReading backend).refusals = {} := fun _ => rfl
  have hpresent : (insertion.inVault (oneReading .memory) (twice ++ [known])).2 =
      .error (.writing (.present "b")) := by decide
  have hduplicate : (insertion.inVault (oneReading .database) (twice ++ [known])).2 =
      .error (.writing (.duplicate "a")) := by decide
  have hdone : (insertion.inVault (oneReading .memory) twice).2 = .ok () := by decide
  have hnodup : (distinct.map Record.key).Nodup := by decide
  obtain ⟨-, hmemory, -, -, -⟩ :=
    bulk_writes_exact insertion (oneReading .memory) (hnone .memory) (twice ++ [known])
  obtain ⟨-, hdatabase, -, -, htransact⟩ :=
    bulk_writes_exact insertion (oneReading .database) (hnone .database) (twice ++ [known])
  obtain ⟨-, -, hlast, -, -⟩ :=
    bulk_writes_exact insertion (oneReading .memory) (hnone .memory) twice
  obtain ⟨-, -, -, halike, -⟩ :=
    bulk_writes_exact insertion (oneReading .memory) (hnone .memory) distinct
  refine ⟨hnone, Prod.ext (hmemory _ hpresent).1 hpresent, ?_,
    Prod.ext (hdatabase _ hduplicate).1 hduplicate, htransact rfl, hnodup,
    (halike hnodup .database).2⟩
  rw [hlast hdone "a"]
  rfl

end BulkWrite

end TableTotals
