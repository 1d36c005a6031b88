import TableTotals.Proofs.Range

/-!
An engine over a ledger in memory, and the same one over a ledger in a database.

The two ledgers part over calls that are not proper. An insertion that holds a key twice goes
through in memory, and a database refuses it; and where a call is refused, they look for the
reason in different orders. Persisting makes no such call. It grants the same asks over either
ledger (`Vault.persist_keptIn`), and everything else that an engine does reads records only. So
whatever is done to an engine and to its vault, one after another, nothing that is seen on the
way tells where the ledger keeps its readings (`Engine.sights_keptIn`).
-/

namespace TableTotals

namespace Vault

def keptIn (v : Vault) (backend : Backend) : Vault := { v with ledger.backend := backend }

variable (v : Vault) (backend : Backend)

lemma grant_keptIn (a : Ask) : (v.keptIn backend).grant a = (v.grant a).keptIn backend := by
  cases a <;> rfl

lemma answer_keptIn {a : Ask} (h : a.Proper v.ledger.readings) :
    (v.keptIn backend).answer a = ((v.answer a).1.keptIn backend, (v.answer a).2) := by
  have hrefusals : (v.keptIn backend).refusals = v.refusals := rfl
  rw [answer_eq h, answer_eq (v := v.keptIn backend) h, hrefusals, grant_keptIn]
  split <;> rfl

lemma answerAll_keptIn {asks : List Ask} (h : Ask.ProperInTurn asks v.ledger.readings) :
    answerAll asks (v.keptIn backend) =
      ((answerAll asks v).1.keptIn backend, (answerAll asks v).2) := by
  induction asks generalizing v with
  | nil => rfl
  | cons a rest ih =>
    rw [answerAll, answerAll, answer_keptIn v backend h.1, answer_eq h.1]
    cases v.refusals.refuse? a with
    | some failure => rfl
    | none =>
      refine ih (v.grant a) ?_
      rw [readings_grant]
      exact h.2

/-- **Persisting comes to the same over either ledger.** -/
lemma persist_keptIn (t : Totals) :
    (v.keptIn backend).persist t = ((v.persist t).1.keptIn backend, (v.persist t).2) := by
  rw [persist_eq_answerAll, persist_eq_answerAll]
  exact v.answerAll_keptIn backend (t.properInTurn_asks v.clock v.ledger.readings)

/-! What is read of a vault does not tell where its readings are kept. -/

lemma value_keptIn (m : Measure) (table : String) :
    (v.keptIn backend).value m table = v.value m table := rfl

lemma recallCounts_keptIn (names : List String) (t : Totals) :
    (v.keptIn backend).recallCounts names t = v.recallCounts names t := by
  induction names generalizing t with
  | nil => rfl
  | cons name rest ih => simp only [recallCounts, value_keptIn, ih]

lemma recallExtents_keptIn (names : List String) (t : Totals) :
    (v.keptIn backend).recallExtents names t = v.recallExtents names t := by
  induction names generalizing t with
  | nil => rfl
  | cons name rest ih => simp only [recallExtents, value_keptIn, ih]

end Vault

namespace Engine

/-- What may be done to an engine and to its vault. -/
inductive Deed where
  /-- A new engine takes the place of the old one. -/
  | begin (settings : Settings)
  | load (source : Source)
  | follow (b : Batch)
  | rescan (source snapshot : Source)
  | persist
  /-- Refusals are switched on and off. -/
  | refuse (refusals : Refusals)
  | tick (now : Moment)
  /-- The vault starts counting anew. -/
  | recount

def act (e : Engine) (v : Vault) : Deed → (Engine × Vault) × Except Failure Unit
  | .begin settings => ((new settings, v), .ok ())
  | .load source => e.carry (.load source v)
  | .follow b => e.carry (.follow v b)
  | .rescan source snapshot => e.carry (.rescan source snapshot v)
  | .persist => e.carry (.persist v)
  | .refuse refusals => ((e, { v with refusals }), .ok ())
  | .tick now => ((e, { v with clock := now }), .ok ())
  | .recount => ((e, { v with inserted := 0, updated := 0 }), .ok ())

/-- All that is seen once a deed was done. -/
structure Sight where
  result : Except Failure Unit
  engine : Engine
  /-- Every record, by ascending key. -/
  records : List Record
  inserted : Nat
  updated : Nat

def sight (after : (Engine × Vault) × Except Failure Unit) : Sight where
  result := after.2
  engine := after.1.1
  records := after.1.2.ledger.records
  inserted := after.1.2.inserted
  updated := after.1.2.updated

def sights (e : Engine) (v : Vault) : List Deed → List Sight
  | [] => []
  | d :: rest => sight (e.act v d) :: sights (e.act v d).1.1 (e.act v d).1.2 rest

variable (e : Engine) (v : Vault) (backend : Backend)

/-- What a deed has come to, with the readings of the vault kept elsewhere. -/
def movedTo (after : (Engine × Vault) × Except Failure Unit) :
    (Engine × Vault) × Except Failure Unit :=
  ((after.1.1, after.1.2.keptIn backend), after.2)

lemma load_keptIn (source : Source) : e.load source (v.keptIn backend) = e.load source v := by
  simp only [load, recorded, Vault.recallCounts_keptIn, Vault.recallExtents_keptIn]

lemma follow_keptIn (b : Batch) :
    e.follow (v.keptIn backend) b = movedTo backend (e.follow v b) := by
  unfold follow
  cases e.ready with
  | false => rfl
  | true =>
    rcases e.totals.applyAll e.tables b.changes with ⟨totals, failure | _⟩
    · rfl
    · simp only [Bool.not_true, Bool.false_eq_true, if_false, Vault.persist_keptIn, movedTo]

lemma rescan_keptIn (source snapshot : Source) :
    e.carry (.rescan source snapshot (v.keptIn backend)) =
      movedTo backend (e.carry (.rescan source snapshot v)) := by
  simp only [carry, rescan, load_keptIn]
  rcases hload : e.load source v with ⟨e₁, failure | _⟩
  · simp only [movedTo]
  rcases hscan : e₁.totals.scanAll snapshot.outages e₁.tables.entries snapshot.store with
    ⟨⟨totals, store⟩, failure | _⟩
  · simp only [hscan, movedTo]
  · simp only [hscan, Vault.persist_keptIn, movedTo]

/-- **A deed comes to the same over either ledger.** -/
lemma act_keptIn (d : Deed) : e.act (v.keptIn backend) d = movedTo backend (e.act v d) := by
  cases d with
  | begin settings => rfl
  | load source =>
    simp only [act, carry, load_keptIn]
    rfl
  | follow b => exact e.follow_keptIn v backend b
  | rescan source snapshot => exact e.rescan_keptIn v backend source snapshot
  | persist =>
    simp only [act, carry, persist, Vault.persist_keptIn]
    rfl
  | refuse refusals => rfl
  | tick now => rfl
  | recount => rfl

lemma sights_keptIn (deeds : List Deed) : e.sights (v.keptIn backend) deeds = e.sights v deeds := by
  induction deeds generalizing e v with
  | nil => rfl
  | cons d rest ih =>
    rw [sights, sights, act_keptIn]
    refine congrArg₂ List.cons rfl ?_
    exact ih (e.act v d).1.1 (e.act v d).1.2

/-! ### No ledger denies a write -/

/-- The ledger denied no write: a call that failed on one was refused it. -/
def NotDenied (r : Except Failure Unit) : Prop :=
  ∀ cause, r = .error (.writing cause) → cause = .insertsRefused ∨ cause = .updatesRefused

lemma notDenied_of_kind {failure : Failure} (h : failure.kind ≠ .writing) :
    NotDenied (.error failure) := by
  rintro cause hcause
  cases hcause
  exact absurd rfl h

/-- Persisting asks for what is proper, so it fails only where something is refused. -/
lemma notDenied_persist (t : Totals) : NotDenied (v.persist t).2 := by
  intro cause hcause
  obtain ⟨done, a, -, hrefuse, -⟩ := Vault.persist_eq_error (Prod.ext rfl hcause)
  rw [Vault.refusal?] at hrefuse
  cases a with
  | clock => simp [Switches.refuse?] at hrefuse
  | read keys => simp [Switches.refuse?] at hrefuse
  | insert records =>
    simp only [Switches.refuse?, Option.ite_none_right_eq_some, Option.some.injEq] at hrefuse
    cases hrefuse.2
    exact .inl rfl
  | update records =>
    simp only [Switches.refuse?, Option.ite_none_right_eq_some, Option.some.injEq] at hrefuse
    cases hrefuse.2
    exact .inr rfl

lemma notDenied_load (source : Source) : NotDenied (e.load source v).2 := by
  rcases hload : e.load source v with ⟨e', r⟩
  rcases load_cases hload with ⟨-, rfl | rfl⟩ | ⟨rfl, -⟩
  · exact notDenied_of_kind (by decide)
  · exact notDenied_of_kind (by decide)
  · exact nofun

lemma notDenied_follow (b : Batch) : NotDenied (e.follow v b).2 := by
  unfold follow
  cases e.ready with
  | false => exact notDenied_of_kind (by decide)
  | true =>
    rcases happly : e.totals.applyAll e.tables b.changes with ⟨totals, failure | _⟩
    · refine notDenied_of_kind ?_
      simp [Totals.applyAll_eq_error happly]
    · exact notDenied_persist v totals

lemma notDenied_rescan (source snapshot : Source) :
    NotDenied (e.rescan source snapshot v).2 := by
  rcases hrescan : e.rescan source snapshot v with ⟨⟨e', store, v'⟩, r⟩
  obtain ⟨-, -, ⟨-, -, -, rfl | rfl⟩ | ⟨-, -, -, failure, rfl, hkind⟩ |
    ⟨-, -, -, hpersist, -⟩⟩ := rescan_cases hrescan
  · exact notDenied_of_kind (by decide)
  · exact notDenied_of_kind (by decide)
  · refine notDenied_of_kind ?_
    rcases hkind with hkind | hkind <;> simp [hkind]
  · have hresult := notDenied_persist v e'.totals
    rwa [hpersist] at hresult

lemma notDenied_act (d : Deed) : NotDenied (e.act v d).2 := by
  cases d with
  | load source => exact notDenied_load e v source
  | follow b => exact notDenied_follow e v b
  | rescan source snapshot => exact notDenied_rescan e v source snapshot
  | persist => exact notDenied_persist v e.totals
  | begin _ | refuse _ | tick _ | recount => exact nofun

lemma notDenied_sights (deeds : List Deed) :
    ∀ seen ∈ e.sights v deeds, NotDenied seen.result := by
  induction deeds generalizing e v with
  | nil => exact nofun
  | cons d rest ih =>
    intro seen hseen
    rcases List.mem_cons.1 hseen with rfl | hseen
    · exact notDenied_act e v d
    · exact ih _ _ seen hseen

/-- **An engine cannot tell one ledger from another.** Whatever is done to an engine and to its
vault, it is seen to end alike after every deed over a ledger in memory and over one in a
database: with the same result, the same engine, the same records in the order of their keys,
and the same counts of insertions and updates. For what persisting asks of a vault is proper
when its turn comes: no insertion holds a key that is there or holds one twice, and no update a
key that is not there. So the ledger itself never denies a write. -/
theorem backends_alike (deeds : List Deed) :
    e.sights (v.keptIn .memory) deeds = e.sights (v.keptIn .database) deeds ∧
    (∀ (w : Vault) (t : Totals),
      w.persist t = Vault.answerAll (t.asks w.clock w.ledger.readings) w ∧
        Ask.ProperInTurn (t.asks w.clock w.ledger.readings) w.ledger.readings) ∧
    ∀ seen ∈ e.sights v deeds, NotDenied seen.result := by
  refine ⟨?_, fun w t => ⟨w.persist_eq_answerAll t, t.properInTurn_asks _ _⟩,
    notDenied_sights e v deeds⟩
  rw [sights_keptIn, sights_keptIn]

end Engine

/-- The ledgers do part over a key that is inserted twice in one call. -/
example :
    let twice : List Record := [⟨⟨1, 0⟩, "a"⟩, ⟨⟨2, 0⟩, "a"⟩]
    ({ backend := .memory } : Ledger).insert twice =
        ({ backend := .memory, readings := .ofList [("a", ⟨2, 0⟩)] }, .ok ()) ∧
      ({ backend := .database } : Ledger).insert twice =
        ({ backend := .database }, .error (.writing (.duplicate "a"))) := by
  decide

end TableTotals
