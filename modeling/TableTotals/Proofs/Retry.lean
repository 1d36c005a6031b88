import TableTotals.Proofs.Range

/-!
Persisting totals again after it failed.

Persisting that fails has granted an initial part of what it asks for, and nothing else. Only
keys of totals are written, so whatever some attempts have left, the next one that is refused
nothing writes over all of it, and leaves the ledger that it would have left without them. What
an attempt inserted is there for the next one to update: over all attempts a key is inserted
once at most (`Vault.Attempted`).
-/

namespace TableTotals

namespace Ledger

variable {records : List Record} {l l₁ : Ledger}

/-- What differs under keys that are written does not last. -/
lemma foldl_write_eq {a b : SortedMap String Reading}
    (h : ∀ key, key ∉ records.map Record.key → a.get? key = b.get? key) :
    records.foldl write a = records.foldl write b := by
  induction records generalizing a b with
  | nil => exact SortedMap.ext_get? fun key => h key (by simp)
  | cons r rest ih =>
    rw [List.foldl_cons, List.foldl_cons]
    refine ih fun key hkey => ?_
    rw [get?_write, get?_write]
    split
    · rfl
    next hne => exact h key (by simp [hne, hkey])

lemma newKeys_congr {keys keys' : List String} (h : ∀ key, key ∈ keys ↔ key ∈ keys') :
    l.newKeys keys = l.newKeys keys' := by
  have hsame : keys.toFinset = keys'.toFinset := by
    ext key
    simp [h key]
  rw [newKeys, newKeys, hsame]

lemma newKeys_foldl_write {all : List Record} (h : l₁.readings = records.foldl write l.readings)
    (hsub : ∀ r ∈ records, r.key ∈ all.map Record.key) :
    l.newKeys (records.map Record.key) + l₁.newKeys (all.map Record.key) =
      l.newKeys (all.map Record.key) := by
  rw [← newKeys_append h all]
  refine newKeys_congr fun key => ?_
  rw [List.map_append, List.mem_append, List.mem_map]
  constructor
  · rintro (⟨r, hr, rfl⟩ | hkey)
    · exact hsub r hr
    · exact hkey
  · exact .inr

lemma newKeys_eq_zero (h : ∀ r ∈ records, l.readings.get? r.key ≠ none) :
    l.newKeys (records.map Record.key) = 0 := by
  rw [newKeys, Finset.card_eq_zero, Finset.filter_eq_empty_iff]
  intro key hkey hnone
  obtain ⟨r, hr, rfl⟩ := List.mem_map.1 (List.mem_toFinset.1 hkey)
  exact h r hr (record?_eq_none.1 hnone)

lemma newKeys_eq_length (hnodup : (records.map Record.key).Nodup)
    (hfresh : ∀ r ∈ records, l.readings.get? r.key = none) :
    l.newKeys (records.map Record.key) = records.length := by
  rw [newKeys_of_nodup hnodup, List.filter_eq_self.2]
  intro r hr
  simpa [record?_eq_none] using hfresh r hr

end Ledger

namespace Vault

variable {v v' v₁ : Vault} {t : Totals}

/-! ### What asks that were granted leave -/

/-- A proper ask counts as insertions the keys that it makes no longer new. -/
lemma insertions_grant {a : Ask} {all : List Record} (h : a.Proper v.ledger.readings)
    (hsub : ∀ r ∈ a.records, r.key ∈ all.map Record.key) :
    (v.grant a).inserted + (v.grant a).ledger.newKeys (all.map Record.key) =
      v.inserted + v.ledger.newKeys (all.map Record.key) := by
  have hsplit := Ledger.newKeys_foldl_write (readings_grant v a) hsub
  cases a with
  | clock => rfl
  | read keys => rfl
  | insert records =>
    have hnew : v.ledger.newKeys (records.map Record.key) = records.length :=
      Ledger.newKeys_eq_length h.1 h.2
    have hcount : (v.grant (.insert records)).inserted = v.inserted + records.length := rfl
    simp only [Ask.records] at hsplit
    omega
  | update records =>
    have hnone : v.ledger.newKeys (records.map Record.key) = 0 := Ledger.newKeys_eq_zero h
    have hcount : (v.grant (.update records)).inserted = v.inserted := rfl
    simp only [Ask.records] at hsplit
    omega

lemma insertions_grantAll {asks : List Ask} {all : List Record}
    (h : Ask.ProperInTurn asks v.ledger.readings)
    (hsub : ∀ a ∈ asks, ∀ r ∈ a.records, r.key ∈ all.map Record.key) :
    (v.grantAll asks).inserted + (v.grantAll asks).ledger.newKeys (all.map Record.key) =
      v.inserted + v.ledger.newKeys (all.map Record.key) := by
  induction asks generalizing v with
  | nil => rfl
  | cons a rest ih =>
    have hrest : Ask.ProperInTurn rest (v.grant a).ledger.readings := by
      rw [readings_grant]
      exact h.2
    rw [grantAll_cons, ih hrest fun b hb => hsub b (by simp [hb])]
    exact insertions_grant h.1 (hsub a (by simp))

/-! ### Attempts -/

/-- The vault after some attempts to persist totals: no other record has changed, and what was
inserted is no longer new. -/
structure Attempted (v : Vault) (t : Totals) (v' : Vault) : Prop where
  backend : v'.ledger.backend = v.ledger.backend
  others : ∀ key, key ∉ t.keys → v'.ledger.readings.get? key = v.ledger.readings.get? key
  insertions : v'.inserted + v'.ledger.newKeys t.keys = v.inserted + v.ledger.newKeys t.keys

lemma Attempted.refl (v : Vault) (t : Totals) : v.Attempted t v := ⟨rfl, fun _ _ => rfl, rfl⟩

lemma Attempted.trans (h : v.Attempted t v₁) (h₁ : v₁.Attempted t v') : v.Attempted t v' where
  backend := h₁.backend.trans h.backend
  others key hkey := (h₁.others key hkey).trans (h.others key hkey)
  insertions := h₁.insertions.trans h.insertions

lemma attempted_persist (v : Vault) (t : Totals) : v.Attempted t (v.persist t).1 := by
  obtain ⟨done, rest, hsplit, hleft⟩ := v.persist_grants t
  have hkeys := t.map_key_allRecords v.clock
  have hmem : ∀ a ∈ done, ∀ r ∈ a.records, r.key ∈ (t.allRecords v.clock).map Record.key := by
    intro a ha r hr
    have hask : a ∈ t.asks v.clock v.ledger.readings := by
      rw [hsplit]
      exact List.mem_append_left rest ha
    exact List.mem_map_of_mem (Totals.mem_of_mem_asks hask hr)
  have hproper := t.properInTurn_asks v.clock v.ledger.readings
  rw [hsplit] at hproper
  have hgranted : v.Attempted t (v.grantAll done) := by
    refine ⟨(v.wrote_grantAll done).backend, fun key hkey => ?_, ?_⟩
    · refine get?_grantAll fun a ha r hr hr' => hkey ?_
      rw [← hkeys, ← hr']
      exact hmem a ha r hr
    · rw [← hkeys]
      exact insertions_grantAll hproper.of_append hmem
  rcases hleft with hleft | hleft
  · rwa [hleft]
  · rw [hleft]
    exact ⟨hgranted.backend, hgranted.others, hgranted.insertions⟩

def amid (v : Vault) (now : Moment) (refusals : Refusals) : Vault :=
  { v with clock := now, refusals }

lemma attempted_amid (v : Vault) (t : Totals) (now : Moment) (refusals : Refusals) :
    v.Attempted t (v.amid now refusals) := ⟨rfl, fun _ _ => rfl, rfl⟩

/-- The vault after totals were persisted at some moments, with refusals of its own each time and
whatever came of it. -/
def attempt (v : Vault) (t : Totals) (tries : List (Moment × Refusals)) : Vault :=
  tries.foldl (fun v x => ((v.amid x.1 x.2).persist t).1) v

lemma attempted_attempt (v : Vault) (t : Totals) (tries : List (Moment × Refusals)) :
    v.Attempted t (v.attempt t tries) := by
  induction tries generalizing v with
  | nil => exact .refl v t
  | cons x rest ih =>
    exact ((attempted_amid v t x.1 x.2).trans (attempted_persist _ t)).trans (ih _)

/-- **Attempts leave no trace.** Once totals are persisted and nothing is refused, the ledger and
the number of insertions are as if all attempts before had not been made. -/
lemma Attempted.persist_eq (h : v.Attempted t v') (now : Moment) :
    ∃ w w', (v.amid now {}).persist t = (w, .ok ()) ∧ (v'.amid now {}).persist t = (w', .ok ()) ∧
      w'.ledger = w.ledger ∧ w'.inserted = w.inserted := by
  obtain ⟨w, hw, hups⟩ := persist_eq_upserted (v := v.amid now {}) rfl t
  obtain ⟨w', hw', hups'⟩ := persist_eq_upserted (v := v'.amid now {}) rfl t
  have hreadings : w'.ledger.readings = w.ledger.readings := by
    rw [hups.wrote.readings, hups'.wrote.readings]
    refine Ledger.foldl_write_eq fun key hkey => h.others key ?_
    rwa [t.map_key_allRecords] at hkey
  have hbackend : w'.ledger.backend = w.ledger.backend := by
    rw [hups.wrote.backend, hups'.wrote.backend]
    exact h.backend
  refine ⟨w, w', hw, hw', Ledger.ext_readings hbackend hreadings, ?_⟩
  rw [hups.counts.1, hups'.counts.1]
  exact h.insertions

end Vault

namespace Engine

lemma carry_persist (e : Engine) (v : Vault) :
    e.carry (.persist v) = ((e, (v.persist e.totals).1), (v.persist e.totals).2) := rfl

/-- **Persisting that failed is made good by persisting again.** It leaves the engine as it was,
and in the vault just what the asks have written that come before the first one that is refused
when its turn comes, each of them granted as a whole. Let the same totals be tried again however
often and whatever comes of it: once nothing is refused persisting succeeds, and the ledger it
leaves is the one it would have left had none of that been tried. No key is inserted twice on the
way. -/
theorem persist_made_good {e e' : Engine} {v v' : Vault} {failure : Failure}
    (h : e.carry (.persist v) = ((e', v'), .error failure)) :
    e' = e ∧
    (∃ done a, First v.Refuses (e.totals.asks v.clock v.ledger.readings) done a ∧
      v.refusal? done a = some failure ∧ v' = (v.grantAll done).switched ∧
      ∀ key, (∀ b ∈ done, ∀ r ∈ b.records, r.key ≠ key) →
        v'.ledger.record? key = v.ledger.record? key) ∧
    ∀ (tries : List (Moment × Refusals)) (now : Moment), ∃ w w',
      (v.amid now {}).persist e.totals = (w, .ok ()) ∧
      ((v'.attempt e.totals tries).amid now {}).persist e.totals = (w', .ok ()) ∧
      w'.ledger = w.ledger ∧ w'.inserted = w.inserted := by
  simp only [carry_persist, Prod.mk.injEq] at h
  obtain ⟨⟨hengine, hvault⟩, hresult⟩ := h
  have hpersist : v.persist e.totals = (v', .error failure) := Prod.ext hvault hresult
  obtain ⟨done, a, hfirst, hrefusal, rfl⟩ := Vault.persist_eq_error hpersist
  refine ⟨hengine.symm, ⟨done, a, hfirst, hrefusal, rfl, fun key hkey => ?_⟩, ?_⟩
  · have hsame := Vault.get?_grantAll (v := v) hkey
    rw [Ledger.record?, Ledger.record?]
    exact congrArg _ hsame
  · intro tries now
    have hattempt : v.Attempted e.totals (v.grantAll done).switched := by
      have hattempted := v.attempted_persist e.totals
      rwa [hpersist] at hattempted
    exact (hattempt.trans (Vault.attempted_attempt _ _ tries)).persist_eq now

/-- Two totals that share a key, in a database that has records of another one and of something
else. Inserts are refused from the last measure on: four keys of the measures before it have been
inserted by then, and one was updated. One more attempt is foiled by the clock, and another one
by an update. -/
theorem persist_made_good_halfSeeded :
    let e : Engine := { settings := .countersOnly, totals := Vault.sharingKey }
    let v : Vault := { Vault.halfSeeded with refusals := .upTo 8 { inserts := true } }
    let v' := (v.persist e.totals).1
    let tries : List (Moment × Refusals) :=
      [(5, { clock := true }), (6, .upTo 3 { updates := true })]
    e.carry (.persist v) = ((e, v'), .error (.writing .insertsRefused)) ∧
    (v'.inserted, v'.updated) = (4, 1) ∧ v'.ledger.record? "other" = v.ledger.record? "other" ∧
    ∃ w w', (v.amid 7 {}).persist e.totals = (w, .ok ()) ∧
      ((v'.attempt e.totals tries).amid 7 {}).persist e.totals = (w', .ok ()) ∧
      w'.ledger = w.ledger ∧ w'.inserted = w.inserted := by
  intro e v v' tries
  have hfails : (v.persist e.totals).2 = .error (.writing .insertsRefused) := by decide +kernel
  have hcarry : e.carry (.persist v) = ((e, v'), .error (.writing .insertsRefused)) := by
    rw [carry_persist, hfails]
  obtain ⟨-, -, hagain⟩ := persist_made_good hcarry
  exact ⟨hcarry, by decide +kernel, by decide +kernel, hagain tries 7⟩

end Engine

end TableTotals
