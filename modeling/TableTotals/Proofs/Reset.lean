import TableTotals.Proofs.Range
import TableTotals.Proofs.Standing

/-!
A load as a reset that is done as a whole or not at all.

A load asks for the names of the tables and then for one record after another. `Engine.loadFrom`
is a load that is answered by anyone at all, so any of its reads may fail, with any failure. What
it makes of an engine is settled by the settings and by the answers (`Engine.loadFrom_cases`):
nothing is left of what the engine held before, unless a read failed, and then all of it is.
-/

namespace TableTotals

namespace Engine

variable {e e' : Engine} {r : Replies}

def loadFrom (e : Engine) (r : Replies) : Engine × Except Failure Unit :=
  match r.takeUp e.settings with
  | .error failure => (e, .error failure)
  | .ok (tables, totals) => ({ e with tables, totals, ready := true }, .ok ())

lemma load_eq_loadFrom (e : Engine) (source : Source) (v : Vault) :
    e.load source v = e.loadFrom (replies source v) := by
  unfold load loadFrom
  rcases htake : (replies source v).takeUp e.settings with failure | ⟨tables, totals⟩ <;>
    simp only [recorded_eq, htake]

/-- The engine holds what was read out for it, and nothing else. -/
structure Reset (e : Engine) (names : List String) (r : Replies) : Prop where
  ready : e.ready = true
  tables : e.tables = e.settings.assign names
  recalled : ∀ m name, e.totals.value? m name =
    if e.settings.Covers names m name then some (Clamped.floorZero (r.recorded m name)) else none

/-- What was read out for engines of the same settings makes the same engine of them. -/
lemma Reset.unique {names : List String} (h : e.Reset names r) (h' : e'.Reset names r)
    (hsettings : e'.settings = e.settings) : e' = e := by
  refine ext_fields hsettings ?_ (Totals.ext_value? fun m name => ?_) ?_
  · rw [h.tables, h'.tables, hsettings]
  · rw [h.recalled, h'.recalled, hsettings]
  · rw [h.ready, h'.ready]

lemma loadFrom_cases (e : Engine) (r : Replies) :
    (∃ failure, r.failure? e.settings = some failure ∧ e.loadFrom r = (e, .error failure)) ∨
    r.failure? e.settings = none ∧ ∃ names e', r.names = .ok names ∧
      e.loadFrom r = (e', .ok ()) ∧ e'.settings = e.settings ∧ e'.Reset names r := by
  rcases r.takeUp_cases e.settings with ⟨failure, hsome, htake⟩ |
    ⟨hnone, names, totals, hnames, htake, hvalue⟩
  · exact .inl ⟨failure, hsome, by simp only [loadFrom, htake]⟩
  · let e' := { e with tables := e.settings.assign names, totals, ready := true }
    have hreset : e'.Reset names r := ⟨rfl, rfl, hvalue⟩
    exact .inr ⟨hnone, names, e', hnames, by simp only [loadFrom, htake, e'], rfl, hreset⟩

/-- **A load resets an engine as a whole or not at all.** If a read fails, the first that does is
what the load reports, and the engine is exactly as before. If none does, the engine holds what was
read out, and any engine of its settings would have become the same, itself among them when it is
loaded again. The vault is left as it is in either case. -/
theorem load_resets (e : Engine) (r : Replies) :
    (∀ failure, r.failure? e.settings = some failure → e.loadFrom r = (e, .error failure)) ∧
    (r.failure? e.settings = none → ∃ names e', r.names = .ok names ∧
      e'.settings = e.settings ∧ e'.Reset names r ∧
      ∀ other : Engine, other.settings = e.settings → other.loadFrom r = (e', .ok ())) ∧
    ∀ source v, e.carry (.load source v) =
      (((e.loadFrom (replies source v)).1, v), (e.loadFrom (replies source v)).2) := by
  refine ⟨fun failure hfailure => ?_, fun hnone => ?_, fun source v => ?_⟩
  · rcases e.loadFrom_cases r with ⟨failure', hsome, hload⟩ | ⟨hnone, -⟩
    · rw [hsome] at hfailure
      cases hfailure
      exact hload
    · rw [hnone] at hfailure
      cases hfailure
  · rcases e.loadFrom_cases r with ⟨failure, hsome, -⟩ |
      ⟨-, names, e', hnames, -, hsettings, hreset⟩
    · rw [hsome] at hnone
      cases hnone
    refine ⟨names, e', hnames, hsettings, hreset, fun other hother => ?_⟩
    rcases other.loadFrom_cases r with ⟨failure, hsome, -⟩ |
      ⟨-, names', e'', hnames', hload, hsettings', hreset'⟩
    · rw [hother, hnone] at hsome
      cases hsome
    · rw [hnames] at hnames'
      cases hnames'
      rw [hload, hreset.unique hreset' (by rw [hsettings', hother, hsettings])]
  · simp only [carry, load_eq_loadFrom]

/-- An engine whose totals were not written: a count that has been recorded as another one, the
count of a table that has gone, and sizes of which nothing is recorded. -/
def unflushed : Engine where
  settings := Settings.countersOnly.watching "k" (.sized .openKeys)
  tables := .ofList [("k", .sized .openKeys), ("old", .counted)]
  totals :=
    ((((∅ : Totals).set .count "k" 5).set .count "old" 9).set .unreplicated "k" 70).set
      .replicated "k" 210
  ready := true

/-- Two tables, one of them listed twice; the count of the other is recorded as a negative one. -/
def sparse : Replies where
  names := .ok ["m", "k", "m"]
  record key := .ok (if key = "kCount" then some ⟨⟨-4, 0⟩, key⟩
    else if key = "mCount" then some ⟨⟨3, 0⟩, key⟩ else none)

/-- The third of four records is not read out, and then the fourth would not be either. -/
def sparseBroken : Replies where
  names := sparse.names
  record key :=
    if key = "kUnReplicatedDataSize" then .error (.reading .recordRefused)
    else if key = "kReplicatedDataSize" then .error (.internal .notDatabase)
    else sparse.record key

/-- The load that breaks off leaves the engine as it was, and the next one resets it; a third
changes nothing. -/
theorem load_resets_unflushed :
    unflushed.loadFrom sparseBroken = (unflushed, .error (.reading .recordRefused)) ∧
    ∃ e', unflushed.loadFrom sparse = (e', .ok ()) ∧ e'.loadFrom sparse = (e', .ok ()) ∧
      e'.tables.keys = ["k", "m"] ∧ e'.totals.count? "k" = some 0 ∧
      e'.totals.count? "m" = some 3 ∧ e'.totals.count? "old" = none ∧
      e'.totals.extent? "k" = some ⟨0, 0⟩ := by
  obtain ⟨hbroken, -, -⟩ := unflushed.load_resets sparseBroken
  obtain ⟨-, hwhole, -⟩ := unflushed.load_resets sparse
  obtain ⟨names, e', -, hsettings, -, hany⟩ := hwhole (by decide +kernel)
  have hload := hany unflushed rfl
  obtain rfl : (unflushed.loadFrom sparse).1 = e' := congrArg Prod.fst hload
  exact ⟨hbroken _ (by decide +kernel), _, hload, hany _ hsettings, by decide +kernel,
    by decide +kernel, by decide +kernel, by decide +kernel, by decide +kernel⟩

end Engine

end TableTotals
