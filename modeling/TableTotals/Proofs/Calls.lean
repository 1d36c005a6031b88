import TableTotals.Executor
import TableTotals.Proofs.Rescan

/-!
Calls of an engine, and what they do to totals that follow the store.

How a call went tells what it left. A rescan that took up its tables and then scanned every one of
them has seeded the engine anew (`Call.reseeds`). A scan that broke off, or a change that could
not be sized, leaves totals that are partly of one time and partly of another (`Call.spoils`).
Every other call has applied exactly the changes that it was given, and a failure to record them
is made good by the next call that succeeds.
-/

namespace TableTotals

def Job.changes : Job → List Change
  | .follow batch => batch.changes
  | .rescan => []

structure Call where
  job : Job
  /-- Whether the engine took up its tables and the recorded totals anew. -/
  loaded : Bool
  result : Except Failure Unit
  deriving DecidableEq

namespace Call

/-- The call stopped amid its changes or its tables. -/
def spoils (c : Call) : Bool :=
  match c.result with
  | .error failure => failure.kind = .scan || failure.kind = .sizing
  | .ok () => false

/-- The call scanned every table. -/
def reseeds (c : Call) : Bool := c.loaded && !c.spoils

lemma spoils_of_kind {c : Call} {failure : Failure} (h : c.result = .error failure)
    (hkind : failure.kind = .scan ∨ failure.kind = .sizing) : c.spoils = true := by
  rw [spoils, h]
  simpa using hkind

lemma not_spoils {c : Call}
    (h : c.result = .ok () ∨ ∃ failure, c.result = .error failure ∧ failure.OfVault) :
    c.spoils = false := by
  rcases h with hok | ⟨failure, hfails, ⟨cause, rfl⟩ | ⟨cause, rfl⟩⟩
  · rw [spoils, hok]
  · simp [spoils, hfails, Failure.kind]
  · simp [spoils, hfails, Failure.kind]

end Call

def Engine.call (e : Engine) (site : Site) (job : Job) : Call where
  job
  loaded :=
    match job with
    | .rescan => (e.load site.source site.vault).2.isOk
    | .follow _ => false
  result := (e.attempt site job).2

namespace Totals

variable {tables : SortedMap String Watch} {t t' : Totals} {failure : Failure}

lemma applyAll_eq_error {xs : List Change} (h : t.applyAll tables xs = (t', .error failure)) :
    failure.kind = .sizing := by
  induction xs generalizing t with
  | nil => cases h
  | cons c rest ih =>
    simp only [applyAll] at h
    split at h
    · exact ih h
    next w hw =>
      split at h
      next e he =>
        cases h
        obtain ⟨-, s, entry, -, hsize⟩ := apply_eq_error he
        exact Watch.extent_eq_error (w := .sized s) hsize
      · exact ih h

end Totals

namespace Engine

variable {e e' : Engine} {site site' : Site} {job : Job} {r : Except Failure Unit}

/-- **What following a batch comes to.** A change could not be sized; or all of them were
applied, and it is left to persist the totals. -/
lemma follow_cases {v v' : Vault} {b : Batch} (hready : e.ready = true)
    (h : e.follow v b = ((e', v'), r)) :
    e'.settings = e.settings ∧ e'.tables = e.tables ∧ e'.ready = true ∧
    ((v' = v ∧ ∃ failure, r = .error failure ∧ failure.kind = .sizing) ∨
      (e.totals.applyAll e.tables b.changes = (e'.totals, .ok ()) ∧
        v.persist e'.totals = (v', r))) := by
  simp only [follow, hready, Bool.not_true, Bool.false_eq_true, if_false] at h
  rcases happly : e.totals.applyAll e.tables b.changes with ⟨totals, failure | _⟩
  · rw [happly] at h
    cases h
    exact ⟨rfl, rfl, rfl, .inl ⟨rfl, failure, rfl, Totals.applyAll_eq_error happly⟩⟩
  · rw [happly] at h
    cases h
    exact ⟨rfl, rfl, rfl, .inr ⟨rfl, rfl⟩⟩

lemma rescanAt_eq (h : e.rescanAt site = ((e', site'), r)) :
    e.rescan site.source site.source site.vault =
      ((e', site'.source.store, site'.vault), r) ∧
      site'.source.outages = site.source.outages := by
  unfold rescanAt at h
  rcases hrescan : e.rescan site.source site.source site.vault with ⟨⟨e₁, store, v⟩, r₁⟩
  rw [hrescan] at h
  cases h
  exact ⟨rfl, rfl⟩

/-- No call writes to the store, and none changes what the engine watches for. -/
lemma attempt_source (h : e.attempt site job = ((e', site'), r)) :
    site'.source = site.source ∧ e'.settings = e.settings := by
  cases job with
  | rescan =>
    obtain ⟨hrescan, hout⟩ := rescanAt_eq h
    obtain ⟨hstore, hsettings, -⟩ := rescan_cases hrescan
    refine ⟨?_, hsettings⟩
    cases hs : site.source
    cases hs' : site'.source
    simp_all
  | follow b =>
    unfold attempt followAt at h
    rcases hfollow : e.follow site.vault b with ⟨⟨e₁, v⟩, r₁⟩
    simp only [hfollow] at h
    cases h
    refine ⟨rfl, ?_⟩
    cases hready : e.ready with
    | false =>
      simp only [follow, hready, Bool.not_false, if_true] at hfollow
      cases hfollow
      rfl
    | true => exact (follow_cases hready hfollow).1

lemma persist_result {v v' : Vault} {t : Totals} (h : v.persist t = (v', r)) :
    r = .ok () ∨ ∃ failure, r = .error failure ∧ failure.OfVault := by
  rcases r with failure | _
  · exact .inr ⟨failure, rfl, Vault.persist_failure h⟩
  · exact .inl rfl

/-- **What a rescan comes to as a call.** It has changed nothing, or was broken off, or scanned
every table. -/
theorem rescan_call (h : e.attempt site .rescan = ((e', site'), r)) :
    ((e.call site .rescan).loaded = false ∧ (e.call site .rescan).spoils = false ∧
      e' = e ∧ site'.vault = site.vault) ∨
    ((e.call site .rescan).loaded = true ∧ (e.call site .rescan).spoils = true ∧
      e'.Mixed site.source.store.names site.source site.vault ∧ site'.vault = site.vault) ∨
    ((e.call site .rescan).loaded = true ∧ (e.call site .rescan).spoils = false ∧
      e'.Mixed site.source.store.names site.source site.vault ∧
      e'.Seeded site.source.store.names site.source site.vault ∧
        site.vault.persist e'.totals = (site'.vault, r)) := by
  have hresult : (e.call site .rescan).result = r := by rw [call, h]
  obtain ⟨hrescan, -⟩ := rescanAt_eq h
  obtain ⟨-, -, ⟨hload, he, hv, hr⟩ | ⟨hload, hmixed, hv, failure, rfl, hkind⟩ |
    ⟨hload, hmixed, hseeded, hpersist, hr⟩⟩ := rescan_cases hrescan
  · left
    rcases hr with rfl | rfl
    · exact ⟨by simp [call, hload, Except.isOk, Except.toBool], by simp [Call.spoils, hresult,
        Failure.kind], he, hv⟩
    · exact ⟨by simp [call, hload, Except.isOk, Except.toBool], by simp [Call.spoils, hresult,
        Failure.kind], he, hv⟩
  · right; left
    exact ⟨by simp [call, hload, Except.isOk, Except.toBool], Call.spoils_of_kind hresult hkind,
      hmixed, hv⟩
  · right; right
    rw [← hresult] at hr
    exact ⟨by simp [call, hload, Except.isOk, Except.toBool], Call.not_spoils hr, hmixed, hseeded,
      hpersist⟩

/-- A rescan has changed nothing of the engine, or it has taken up its tables. -/
lemma rescan_taken (h : e.attempt site .rescan = ((e', site'), r)) :
    ((e.call site .rescan).loaded = false ∧ e' = e) ∨
      ((e.call site .rescan).loaded = true ∧
        e'.Mixed site.source.store.names site.source site.vault) := by
  rcases rescan_call h with ⟨hloaded, -, he, -⟩ | ⟨hloaded, -, hmixed, -⟩ |
    ⟨hloaded, -, hmixed, -⟩
  · exact .inl ⟨hloaded, he⟩
  · exact .inr ⟨hloaded, hmixed⟩
  · exact .inr ⟨hloaded, hmixed⟩

lemma loaded_of_ok (h : e.attempt site .rescan = ((e', site'), .ok ())) :
    (e.call site .rescan).loaded = true := by
  have hload : (e.load site.source site.vault).2 = .ok () := by
    obtain ⟨-, -, ⟨hload, -⟩ | ⟨hload, -⟩ | ⟨hload, -⟩⟩ := rescan_cases (rescanAt_eq h).1
    all_goals exact hload
  simp [call, hload, Except.isOk, Except.toBool]

/-- **What following a batch comes to as a call.** It stopped at a change, or applied them all. -/
theorem follow_call {b : Batch} (hready : e.ready = true)
    (h : e.attempt site (.follow b) = ((e', site'), r)) :
    e'.ready = true ∧ e'.tables = e.tables ∧
    ((e.call site (.follow b)).spoils = true ∨
      ((e.call site (.follow b)).spoils = false ∧
        e.totals.applyAll e.tables b.changes = (e'.totals, .ok ()) ∧
        site.vault.persist e'.totals = (site'.vault, r))) := by
  have hresult : (e.call site (.follow b)).result = r := by rw [call, h]
  unfold attempt followAt at h
  rcases hfollow : e.follow site.vault b with ⟨⟨e₁, v⟩, r₁⟩
  simp only [hfollow] at h
  cases h
  obtain ⟨-, htables, hready', ⟨-, failure, rfl, hkind⟩ | ⟨happly, hpersist⟩⟩ :=
    follow_cases hready hfollow
  · exact ⟨hready', htables, .inl (Call.spoils_of_kind hresult (.inr hkind))⟩
  · have hr := persist_result hpersist
    rw [← hresult] at hr
    exact ⟨hready', htables, .inr ⟨Call.not_spoils hr, happly, hpersist⟩⟩

end Engine

end TableTotals
