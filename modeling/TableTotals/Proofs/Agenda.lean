import TableTotals.Proofs.Upsert

/-!
What persisting asks of a vault, one thing after another.

Totals are persisted in a fixed row of asks. The clock is read; then, measure by measure, the
records of the measure's keys are read, those of its totals whose keys are new by then are
inserted, and all others are updated (`Vault.persist_eq_answerAll`). Each of these asks is one
that any ledger can grant when its turn comes: no insertion holds a key that is there or holds
one twice, and no update a key that is not there (`Totals.properInTurn_asks`). So nothing but a
refusal can stop the row. Each ask is met by switches of its own. Persisting grants what stands
before the first ask that is refused, and ends as that refusal does (`Vault.persist_cases`); any
ask may be the one (`Vault.persist_foiled`).
-/

namespace TableTotals

/-- One thing that persisting asks of a vault. -/
inductive Ask where
  | clock
  | read (keys : List String)
  | insert (records : List Record)
  | update (records : List Record)
  deriving DecidableEq, Repr

namespace Ask

def records : Ask → List Record
  | clock | read _ => []
  | insert records | update records => records

/-- Any ledger with these readings can grant the ask: what is to be inserted is new and has no
key twice, and what is to be updated is there. -/
def Proper (readings : SortedMap String Reading) : Ask → Prop
  | clock | read _ => True
  | insert records => (records.map Record.key).Nodup ∧ ∀ r ∈ records, readings.get? r.key = none
  | update records => ∀ r ∈ records, readings.get? r.key ≠ none

/-- Each of some asks is proper when its turn comes, the asks before it granted. -/
def ProperInTurn : List Ask → SortedMap String Reading → Prop
  | [], _ => True
  | a :: rest, readings =>
    a.Proper readings ∧ ProperInTurn rest (a.records.foldl Ledger.write readings)

end Ask

def Ledger.asks : List (List Record) → SortedMap String Reading → List Ask
  | [], _ => []
  | group :: rest, readings =>
    .read (group.map Record.key) ::
      .insert (group.filter fun r => readings.get? r.key = none) ::
      .update (group.filter fun r => readings.get? r.key ≠ none) ::
      asks rest (group.foldl write readings)

/-- What persisting totals at a moment asks of a vault with these readings. -/
def Totals.asks (t : Totals) (now : Moment) (readings : SortedMap String Reading) : List Ask :=
  .clock :: Ledger.asks (Measure.all.map fun m => t.records m now) readings

/-- Why an ask is refused, if it is. A write without records is not made, so nothing refuses
it. -/
def Switches.refuse? (s : Switches) : Ask → Option Failure
  | .clock => if s.clock then some (.reading .clockRefused) else none
  | .read keys => if ∃ key ∈ keys, key ∈ s.records then some (.reading .recordRefused) else none
  | .insert records =>
    if s.inserts ∧ records ≠ [] then some (.writing .insertsRefused) else none
  | .update records =>
    if s.updates ∧ records ≠ [] then some (.writing .updatesRefused) else none

namespace Vault

/-- Reads the records of some keys, up to one that is not read out. -/
def readEach (v : Vault) : List String → Except Failure Unit
  | [] => .ok ()
  | key :: rest => do
    let _ ← v.fetch key
    v.readEach rest

def answer (v : Vault) : Ask → Vault × Except Failure Unit
  | .clock => (v.switched, v.now.map fun _ => ())
  | .read keys => (v.switched, v.readEach keys)
  | .insert records => unlessEmpty insert records v
  | .update records => unlessEmpty update records v

def answerAll : List Ask → Vault → Vault × Except Failure Unit
  | [], v => (v, .ok ())
  | a :: rest, v => andThen (v.answer a) (answerAll rest)

/-- The vault after an ask was granted. -/
def grant (v : Vault) : Ask → Vault
  | .clock | .read _ => v.switched
  | .insert records => { v.writing records with inserted := v.inserted + records.length }
  | .update records => { v.writing records with updated := v.updated + records.length }

def grantAll (v : Vault) (asks : List Ask) : Vault := asks.foldl grant v

/-- Why an ask is refused that comes behind some others, if it is. -/
def refusal? (v : Vault) (done : List Ask) (a : Ask) : Option Failure :=
  (Refusals.next^[done.length] v.refusals).refuse? a

def Refuses (v : Vault) (done : List Ask) (a : Ask) : Prop := v.refusal? done a ≠ none

end Vault

/-! ### Proper asks -/

lemma Ask.ProperInTurn.of_append {done rest : List Ask} {readings : SortedMap String Reading}
    (h : ProperInTurn (done ++ rest) readings) : ProperInTurn done readings := by
  induction done generalizing readings with
  | nil => trivial
  | cons a more ih => exact ⟨h.1, ih h.2⟩

namespace Ledger

/-- Once the new keys of a group were inserted and the others updated, the group is written. -/
lemma foldl_write_sorted {group : List Record} (h : (group.map Record.key).Nodup)
    (readings : SortedMap String Reading) :
    (group.filter fun r => readings.get? r.key ≠ none).foldl write
        ((group.filter fun r => readings.get? r.key = none).foldl write readings) =
      group.foldl write readings := by
  rw [← List.foldl_append]
  refine foldl_write_congr readings (fun r => ?_) (Vault.distinct_of_nodup h)
  simp only [List.mem_append, List.mem_filter, decide_eq_true_eq]
  tauto

/-- Storing group after group asks for what is proper, if no group holds a key twice. -/
lemma properInTurn_asks {groups : List (List Record)}
    (h : ∀ group ∈ groups, (group.map Record.key).Nodup) (readings : SortedMap String Reading) :
    Ask.ProperInTurn (asks groups readings) readings := by
  induction groups generalizing readings with
  | nil => trivial
  | cons group rest ih =>
    have hgroup : (group.map Record.key).Nodup := h group (by simp)
    refine ⟨trivial, ⟨hgroup.sublist (List.filter_sublist.map _), ?_⟩, ?_, ?_⟩
    · intro r hr
      have hnew : readings.get? r.key = none := by simpa using (List.mem_filter.1 hr).2
      exact hnew
    · intro r hr hnone
      have hknown : readings.get? r.key ≠ none := by simpa using (List.mem_filter.1 hr).2
      exact hknown (get?_foldl_write_eq_none.1 hnone).1
    · simp only [Ask.records, List.foldl_nil]
      rw [foldl_write_sorted hgroup]
      exact ih (fun g hg => h g (by simp [hg])) _

lemma mem_of_mem_asks {groups : List (List Record)} {readings : SortedMap String Reading}
    {a : Ask} (ha : a ∈ asks groups readings) {r : Record} (hr : r ∈ a.records) :
    r ∈ groups.flatten := by
  induction groups generalizing readings with
  | nil => simp [asks] at ha
  | cons group rest ih =>
    rw [List.flatten_cons, List.mem_append]
    simp only [asks, List.mem_cons] at ha
    rcases ha with rfl | rfl | rfl | ha
    · simp [Ask.records] at hr
    · exact .inl (List.mem_filter.1 hr).1
    · exact .inl (List.mem_filter.1 hr).1
    · exact .inr (ih ha)

end Ledger

lemma Ledger.read_mem_asks {groups : List (List Record)} {group : List Record}
    (h : group ∈ groups) (readings : SortedMap String Reading) :
    .read (group.map Record.key) ∈ asks groups readings := by
  induction groups generalizing readings with
  | nil => cases h
  | cons first rest ih =>
    simp only [asks, List.mem_cons]
    rcases List.mem_cons.1 h with rfl | h
    · exact .inl rfl
    · exact .inr (.inr (.inr (ih h _)))

lemma Totals.mem_of_mem_asks {t : Totals} {now : Moment} {readings : SortedMap String Reading}
    {a : Ask} (ha : a ∈ t.asks now readings) {r : Record} (hr : r ∈ a.records) :
    r ∈ t.allRecords now := by
  rcases List.mem_cons.1 ha with rfl | ha
  · simp [Ask.records] at hr
  · exact Ledger.mem_of_mem_asks ha hr

/-- **Persisting asks for what any ledger can grant**, whatever the totals and the readings. -/
theorem Totals.properInTurn_asks (t : Totals) (now : Moment)
    (readings : SortedMap String Reading) : Ask.ProperInTurn (t.asks now readings) readings := by
  refine ⟨trivial, Ledger.properInTurn_asks (fun group hgroup => ?_) readings⟩
  obtain ⟨m, -, rfl⟩ := List.mem_map.1 hgroup
  exact t.nodup_records m now

namespace Vault

variable {v v' : Vault}

/-! ### Persisting as a row of asks -/

lemma andThen_ok (x : Vault × Except Failure Unit) : andThen x (fun v => (v, .ok ())) = x := by
  obtain ⟨v, failure | _⟩ := x <;> rfl

lemma andThen_assoc (x : Vault × Except Failure Unit)
    (f g : Vault → Vault × Except Failure Unit) :
    andThen (andThen x f) g = andThen x fun v => andThen (f v) g := by
  obtain ⟨v, failure | _⟩ := x <;> rfl

/-- Records are sorted once the records of all their keys have been read. -/
lemma sort_eq (v : Vault) (records : List Record) :
    v.sort records = (v.readEach (records.map Record.key)).map fun _ =>
      (records.filter fun r => v.ledger.readings.get? r.key = none,
        records.filter fun r => v.ledger.readings.get? r.key ≠ none) := by
  induction records with
  | nil => rfl
  | cons r rest ih =>
    rw [sort, ih, List.map_cons, readEach]
    by_cases hr : r.key ∈ v.refusals.records
    · simp only [fetch, if_pos hr]
      rfl
    · simp only [fetch, if_neg hr]
      rcases hrest : v.readEach (rest.map Record.key) with failure | _
      · simp [bind, Except.bind, Except.map]
      · cases hold : v.ledger.readings.get? r.key <;>
          simp [bind, Except.bind, Except.map, Ledger.record?, hold] <;> rfl

lemma upsert_eq_answerAll (v : Vault) (records : List Record) :
    v.upsert records = answerAll (Ledger.asks [records] v.ledger.readings) v := by
  rw [upsert, sort_eq]
  simp only [Ledger.asks, answerAll, andThen_ok]
  rcases hread : v.readEach (records.map Record.key) with failure | _
  · simp only [answer, hread]
    rfl
  · simp only [answer, hread]
    rfl

/-- Storing group after group is a row of asks, if no group holds a key twice. -/
lemma upsertAll_eq_answerAll {groups : List (List Record)}
    (h : ∀ group ∈ groups, (group.map Record.key).Nodup) (v : Vault) :
    upsertAll groups v = answerAll (Ledger.asks groups v.ledger.readings) v := by
  induction groups generalizing v with
  | nil => rfl
  | cons group rest ih =>
    have hstored := stored_upsert v (distinct_of_nodup (h group (by simp)))
    have hfirst := upsert_eq_answerAll v group
    have hrow : answerAll (Ledger.asks (group :: rest) v.ledger.readings) v =
        andThen (v.upsert group)
          (answerAll (Ledger.asks rest (group.foldl Ledger.write v.ledger.readings))) := by
      rw [hfirst]
      simp only [Ledger.asks, answerAll, andThen_ok, andThen_assoc]
    rw [hrow, upsertAll]
    rcases hres : v.upsert group with ⟨v₁, failure | _⟩
    · rfl
    · -- what the first group left is what the others are sorted by
      rw [hres] at hstored
      have hwrote : v.Wrote group v₁ := hstored
      show upsertAll rest v₁ = answerAll _ v₁
      rw [ih (fun g hg => h g (by simp [hg])) v₁, hwrote.readings]

/-- **Persisting is a row of asks.** -/
theorem persist_eq_answerAll (v : Vault) (t : Totals) :
    v.persist t = answerAll (t.asks v.clock v.ledger.readings) v := by
  rw [persist, Totals.asks, answerAll, answer]
  by_cases hclock : v.refusals.clock = true
  · simp only [now, hclock, if_true]
    rfl
  · have hnow : v.now = .ok v.clock := by rw [now, if_neg hclock]
    rw [hnow]
    refine upsertAll_eq_answerAll (fun group hgroup => ?_) v.switched
    obtain ⟨m, -, rfl⟩ := List.mem_map.1 hgroup
    exact t.nodup_records m v.clock

/-! ### Refusals -/

lemma readEach_eq (v : Vault) (keys : List String) :
    v.readEach keys =
      if ∃ key ∈ keys, key ∈ v.refusals.records then .error (.reading .recordRefused)
      else .ok () := by
  induction keys with
  | nil => simp [readEach]
  | cons key rest ih =>
    rw [readEach, fetch, ih]
    by_cases hkey : key ∈ v.refusals.records
    · simp only [hkey, if_true, List.mem_cons, exists_eq_or_imp, true_or]
      rfl
    · simp only [List.mem_cons, exists_eq_or_imp, hkey, false_or]
      rfl

/-- **A proper ask is refused, or granted.** Being refused changes nothing but the refusals. -/
lemma answer_eq {a : Ask} (h : a.Proper v.ledger.readings) :
    v.answer a =
      match v.refusals.refuse? a with
      | some failure => (v.switched, .error failure)
      | none => (v.grant a, .ok ()) := by
  cases a with
  | clock =>
    simp only [answer, now, Switches.refuse?]
    by_cases hclock : v.refusals.clock = true
    · simp only [hclock, if_true]
      rfl
    · simp only [hclock]
      rfl
  | read keys =>
    simp only [answer, readEach_eq, Switches.refuse?]
    split
    · rfl
    · rfl
  | insert records =>
    by_cases hempty : records = []
    · subst hempty
      simp only [Switches.refuse?, ne_eq, not_true_eq_false, and_false, if_false]
      rfl
    · cases hinserts : v.refusals.inserts with
      | false =>
        have hgranted : v.answer (.insert records) = (v.grant (.insert records), .ok ()) :=
          unlessEmpty_insert_eq hinserts h.1 h.2
        simp [hgranted, Switches.refuse?, hinserts]
      | true => simp [answer, Switches.refuse?, unlessEmpty, insert, hinserts, hempty]
  | update records =>
    by_cases hempty : records = []
    · subst hempty
      simp only [Switches.refuse?, ne_eq, not_true_eq_false, and_false, if_false]
      rfl
    · cases hupdates : v.refusals.updates with
      | false =>
        have hgranted : v.answer (.update records) = (v.grant (.update records), .ok ()) :=
          unlessEmpty_update_eq hupdates h
        simp [hgranted, Switches.refuse?, hupdates]
      | true => simp [answer, Switches.refuse?, unlessEmpty, update, hupdates, hempty]

lemma refusals_grant (v : Vault) (a : Ask) : (v.grant a).refusals = v.refusals.next := by
  cases a <;> rfl

lemma refusal?_cons (v : Vault) (a : Ask) (done : List Ask) :
    v.refusal? (a :: done) = (v.grant a).refusal? done := by
  funext b
  rw [refusal?, refusal?, refusals_grant, List.length_cons, Function.iterate_succ_apply]

lemma refusals_grantAll (v : Vault) (asks : List Ask) :
    (v.grantAll asks).refusals = Refusals.next^[asks.length] v.refusals := by
  induction asks generalizing v with
  | nil => rfl
  | cons a rest ih =>
    rw [grantAll, List.foldl_cons, ← grantAll, ih, refusals_grant, List.length_cons,
      Function.iterate_succ_apply]

lemma readings_grant (v : Vault) (a : Ask) :
    (v.grant a).ledger.readings = a.records.foldl Ledger.write v.ledger.readings := by
  cases a <;> rfl

lemma grantAll_cons (v : Vault) (a : Ask) (rest : List Ask) :
    v.grantAll (a :: rest) = (v.grant a).grantAll rest := rfl

lemma wrote_grantAll (v : Vault) (asks : List Ask) :
    v.Wrote (asks.flatMap Ask.records) (v.grantAll asks) := by
  induction asks generalizing v with
  | nil => exact .nil v
  | cons a rest ih =>
    have hfirst : v.Wrote a.records (v.grant a) := by
      cases a <;> exact ⟨rfl, rfl, rfl, refusals_switched⟩
    rw [grantAll_cons, List.flatMap_cons]
    exact hfirst.trans (ih (v.grant a))

lemma get?_grantAll {asks : List Ask} {key : String}
    (h : ∀ a ∈ asks, ∀ r ∈ a.records, r.key ≠ key) :
    (v.grantAll asks).ledger.readings.get? key = v.ledger.readings.get? key := by
  rw [(v.wrote_grantAll asks).readings]
  refine Ledger.get?_foldl_write_of_ne _ fun r hr => ?_
  obtain ⟨a, ha, hr⟩ := List.mem_flatMap.1 hr
  exact h a ha r hr

/-- Asks that are proper in their turn are granted up to the first one that is refused. -/
lemma answerAll_cases {asks : List Ask} (h : Ask.ProperInTurn asks v.ledger.readings) :
    (∃ done a failure, First v.Refuses asks done a ∧ v.refusal? done a = some failure ∧
      answerAll asks v = ((v.grantAll done).switched, .error failure)) ∨
    (Never v.Refuses asks ∧ answerAll asks v = (v.grantAll asks, .ok ())) := by
  induction asks generalizing v with
  | nil => exact .inr ⟨never_nil, rfl⟩
  | cons a rest ih =>
    rw [answerAll, answer_eq h.1]
    cases hrefuse : v.refusals.refuse? a with
    | some failure =>
      have hfirst : v.Refuses [] a := by simp [Refuses, refusal?, hrefuse]
      exact .inl ⟨[], a, failure, first_head hfirst, hrefuse, rfl⟩
    | none =>
      have hhead : ¬v.Refuses [] a := by simp [Refuses, refusal?, hrefuse]
      have hmore : (fun done => v.Refuses (a :: done)) = (v.grant a).Refuses := by
        funext done b
        rw [Refuses, refusal?_cons, Refuses]
      have hproper : Ask.ProperInTurn rest (v.grant a).ledger.readings := by
        rw [readings_grant]
        exact h.2
      rcases ih hproper with ⟨done, b, failure, hfirst, hrefusal, heq⟩ | ⟨hnever, heq⟩
      · rw [← hmore] at hfirst
        rw [← refusal?_cons] at hrefusal
        exact .inl ⟨a :: done, b, failure, hfirst.cons hhead, hrefusal, heq⟩
      · rw [← hmore] at hnever
        exact .inr ⟨hnever.cons hhead, heq⟩

/-- **How persisting ends.** What stands before the first ask that is refused is granted, and the
refusal is the result; if nothing is refused all is granted. -/
theorem persist_cases (v : Vault) (t : Totals) :
    (∃ done a failure, First v.Refuses (t.asks v.clock v.ledger.readings) done a ∧
      v.refusal? done a = some failure ∧
      v.persist t = ((v.grantAll done).switched, .error failure)) ∨
    (Never v.Refuses (t.asks v.clock v.ledger.readings) ∧
      v.persist t = (v.grantAll (t.asks v.clock v.ledger.readings), .ok ())) := by
  rw [persist_eq_answerAll]
  exact answerAll_cases (t.properInTurn_asks v.clock v.ledger.readings)

lemma persist_eq_error {t : Totals} {failure : Failure} (h : v.persist t = (v', .error failure)) :
    ∃ done a, First v.Refuses (t.asks v.clock v.ledger.readings) done a ∧
      v.refusal? done a = some failure ∧ v' = (v.grantAll done).switched := by
  rcases v.persist_cases t with ⟨done, a, failure', hfirst, hrefusal, heq⟩ | ⟨-, heq⟩
  · rw [h] at heq
    cases heq
    exact ⟨done, a, hfirst, hrefusal, rfl⟩
  · rw [h] at heq
    cases heq

lemma persist_grants (v : Vault) (t : Totals) :
    ∃ done rest, t.asks v.clock v.ledger.readings = done ++ rest ∧
      ((v.persist t).1 = v.grantAll done ∨ (v.persist t).1 = (v.grantAll done).switched) := by
  rcases v.persist_cases t with ⟨done, a, failure, ⟨⟨rest, hsplit⟩, -⟩, -, heq⟩ | ⟨-, heq⟩
  · exact ⟨done, _, hsplit, .inr (by rw [heq])⟩
  · exact ⟨_, [], (List.append_nil _).symm, .inl (by rw [heq])⟩

/-- However persisting ends, nothing but totals was written. -/
lemma persist_partly {t : Totals} {r : Except Failure Unit} (h : v.persist t = (v', r)) :
    ∃ written, (∀ r ∈ written, r ∈ t.allRecords v.clock) ∧ v.Wrote written v' := by
  obtain ⟨done, rest, hsplit, hleft⟩ := v.persist_grants t
  rw [h] at hleft
  have hwrote := v.wrote_grantAll done
  refine ⟨done.flatMap Ask.records, fun r hr => ?_, ?_⟩
  · obtain ⟨a, ha, hr⟩ := List.mem_flatMap.1 hr
    have hask : a ∈ t.asks v.clock v.ledger.readings := by
      rw [hsplit]
      exact List.mem_append_left rest ha
    exact Totals.mem_of_mem_asks hask hr
  · rcases hleft with hleft | hleft
    · rw [show v' = v.grantAll done from hleft]
      exact hwrote
    · rw [show v' = (v.grantAll done).switched from hleft]
      simpa using hwrote.trans (v.grantAll done).wrote_switched

end Vault

/-! ### Foiling one ask -/

def Ask.foil : Ask → Switches
  | clock => { clock := true }
  | read keys => { records := keys }
  | insert _ => { inserts := true }
  | update _ => { updates := true }

/-- There is something to be read or to be written. -/
def Ask.Made : Ask → Prop
  | clock => True
  | read keys => keys ≠ []
  | insert records | update records => records ≠ []

/-- Nothing is refused a number of times, and then what these switches refuse. -/
def Refusals.upTo : Nat → Switches → Refusals
  | 0, s => { toSwitches := s }
  | n + 1, s => { later := List.replicate n {} ++ [s] }

namespace Refusals

lemma next_of_steady {r : Refusals} (h : r.later = []) : r.next = r := by rw [next, h]

lemma next_upTo (n : Nat) (s : Switches) : (upTo (n + 1) s).next = upTo n s := by
  cases n <;> rfl

lemma iterate_next_upTo (n k : Nat) (s : Switches) : next^[n] (upTo (n + k) s) = upTo k s := by
  induction n with
  | zero => rw [Nat.zero_add]; rfl
  | succ n ih => rw [Function.iterate_succ_apply, Nat.succ_add, next_upTo, ih]

end Refusals

lemma Ask.refuse?_foil {a : Ask} (h : a.Made) : a.foil.refuse? a ≠ none := by
  cases a with
  | clock => simp [foil, Switches.refuse?]
  | read keys =>
    obtain ⟨key, hkey⟩ := List.exists_mem_of_ne_nil keys h
    rw [foil, Switches.refuse?, if_pos ⟨key, hkey, hkey⟩]
    exact nofun
  | insert records | update records =>
    rw [foil, Switches.refuse?, if_pos ⟨rfl, h⟩]
    exact nofun

lemma Ask.refuse?_none (a : Ask) : ({} : Switches).refuse? a = none := by
  cases a <;> simp [Switches.refuse?]

namespace Vault

/-- The vault with refusals that are to meet one ask and none of those before it. -/
def foiled (v : Vault) (done : List Ask) (a : Ask) : Vault :=
  { v with refusals := .upTo done.length a.foil }

/-- **Any ask may be the one that is refused**, the asks before it granted, as long as there is
something to be read or to be written. -/
theorem persist_foiled {v : Vault} {t : Totals} {done rest : List Ask} {a : Ask}
    (hsplit : t.asks v.clock v.ledger.readings = done ++ a :: rest) (ha : a.Made) :
    ∃ failure, (v.foiled done a).persist t =
      (((v.foiled done a).grantAll done).switched, .error failure) := by
  have hturn : Refusals.next^[done.length] (v.foiled done a).refusals = .upTo 0 a.foil :=
    Refusals.iterate_next_upTo done.length 0 a.foil
  have hat : (v.foiled done a).Refuses done a := by
    rw [Refuses, refusal?, hturn]
    exact a.refuse?_foil ha
  have hbefore : Never (v.foiled done a).Refuses done := by
    intro earlier b later hdone
    have hlength : done.length = earlier.length + (later.length + 1) := by simp [hdone]
    rw [Refuses, refusal?, foiled, hlength, Refusals.iterate_next_upTo, not_not]
    exact b.refuse?_none
  have hfirst : First (v.foiled done a).Refuses
      (t.asks (v.foiled done a).clock (v.foiled done a).ledger.readings) done a :=
    ⟨⟨rest, hsplit⟩, hat, hbefore⟩
  rcases (v.foiled done a).persist_cases t with
    ⟨done', a', failure, hfirst', -, heq⟩ | ⟨hnever, -⟩
  · obtain ⟨rfl, rfl⟩ := hfirst.unique hfirst'
    exact ⟨failure, heq⟩
  · exact absurd hnever hfirst.not_never

end Vault

end TableTotals
