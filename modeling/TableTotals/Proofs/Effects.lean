import TableTotals.Proofs.Misfit
import TableTotals.Proofs.Retry

/-!
Changes that are handed over one way or another.

A total depends on the effects that changes have on its own table, and on nothing else: not on
the changes of other tables between them, and not on how all of them are cut into batches
(`Totals.value?_applyAll`). Every batch writes all the totals that there are, and no total goes
away, so what the last batch writes covers whatever the batches before it have left
(`Engine.Followed`). Two series of changes with the same effects on each watched table therefore
end in the same totals, and in the same ledger if the last batch of either is handed over at the
same moment.
-/

namespace TableTotals

namespace Change

/-- The change bears on no total: its table is not watched, or it does not say enough. -/
def Idle (c : Change) (tables : SortedMap String Watch) : Prop :=
  ∀ w, tables.get? c.table = some w → ¬c.Effective w

variable {c : Change} {tables : SortedMap String Watch}

lemma idle_of_unwatched (h : tables.get? c.table = none) : c.Idle tables := by
  intro w hw
  rw [h] at hw
  cases hw

lemma idle_of_no_value (h : c.value = none) : c.Idle tables := by
  intro w _ heffective
  simp only [Effective, h] at heffective
  split at heffective <;> simp_all

lemma idle_of_other {name : String} (h : c.action = .other name) : c.Idle tables := by
  intro w _ heffective
  simp [Effective, h] at heffective

lemma idle_of_update (h : c.action = .update) (hw : tables.get? c.table = some .counted) :
    c.Idle tables := by
  intro w hw' heffective
  obtain rfl : Watch.counted = w := Option.some.inj (hw.symm.trans hw')
  simp only [Effective, h] at heffective
  split at heffective <;> simp_all [Watch.tracksSize, Watch.sizer?]

end Change

namespace Totals

variable {t t' : Totals} {w : Watch} {c : Change} {tables : SortedMap String Watch}
  {xs ys before after : List Change} {table : String}

/-- Changes with the same effects on each watched table come to the same. -/
lemma applyAll_eq_of_effects {t₂ : Totals} (h : t.applyAll tables xs = (t', .ok ()))
    (h₂ : t.applyAll tables ys = (t₂, .ok ()))
    (heffects : ∀ p ∈ tables.entries, effectsOn p.1 p.2 xs = effectsOn p.1 p.2 ys) :
    t' = t₂ := by
  refine ext_value? fun m table => ?_
  rcases hw : tables.get? table with _ | w
  · have huntouched : ∀ zs : List Change, ∀ c ∈ zs, c.table = table →
        ∀ w, tables.get? table = some w → ¬c.Effective w := by simp [hw]
    rw [value?_applyAll_of_untouched h (huntouched xs),
      value?_applyAll_of_untouched h₂ (huntouched ys)]
  · rw [value?_applyAll h hw, value?_applyAll h₂ hw,
      heffects (table, w) (SortedMap.mem_entries.2 hw)]

/-! Changes that move nothing. -/

lemma applyAll_of_idle (h : c.Idle tables) (t : Totals) :
    t.applyAll tables (before ++ c :: after) = t.applyAll tables (before ++ after) := by
  have hskip : ∀ t : Totals, t.applyAll tables (c :: after) = t.applyAll tables after := by
    intro t
    rcases hw : tables.get? c.table with _ | w
    · simp only [applyAll, hw]
    · simp only [applyAll, hw, apply_of_not_effective (h w hw)]
  rw [applyAll_append, applyAll_append]
  simp only [hskip]

lemma count?_applyAll_of_updates {r : Except Failure Unit}
    (h : t.applyAll tables xs = (t', r)) (hupdates : ∀ c ∈ xs, c.action = .update)
    (table : String) : t'.count? table = t.count? table := by
  refine applyAll_keeps (P := fun u => u.count? table = t.count? table) h ?_ rfl
  intro c hc w _ t₁ t₂ happly hsame
  have hstays : t₂.count? table = t₁.count? table := by
    unfold count?
    rw [value?_apply happly, if_neg]
    rintro ⟨-, -, -, hcount⟩
    exact hcount (hupdates c hc) rfl
  exact hstays.trans hsame

/-! No total goes away. -/

lemma mem_keys {key : String} :
    key ∈ t.keys ↔ ∃ m table, (t.value? m table).isSome ∧ m.key table = key := by
  unfold keys
  rw [List.mem_flatMap]
  constructor
  · rintro ⟨m, -, hkey⟩
    obtain ⟨table, htable, rfl⟩ := List.mem_map.1 hkey
    exact ⟨m, table, SortedMap.mem_keys.1 htable, rfl⟩
  · rintro ⟨m, table, htable, rfl⟩
    exact ⟨m, m.mem_all, List.mem_map.2 ⟨table, SortedMap.mem_keys.2 htable, rfl⟩⟩

lemma mem_keys_applyAll {r : Except Failure Unit} (h : t.applyAll tables xs = (t', r))
    {key : String} (hkey : key ∈ t.keys) : key ∈ t'.keys := by
  refine applyAll_keeps (P := fun u => key ∈ u.keys) h ?_ hkey
  intro c _ w _ t₁ t₂ happly hkey
  obtain ⟨m, table, hsome, rfl⟩ := mem_keys.1 hkey
  refine mem_keys.2 ⟨m, table, ?_, rfl⟩
  rw [value?_apply happly]
  split
  · rfl
  · exact hsome

end Totals

/-! ### Batches -/

/-- A batch that is handed over at some moment, and what the vault refuses then. -/
structure Delivery where
  now : Moment
  batch : Batch
  refusals : Refusals := {}

def changesOf (xs : List Delivery) : List Change := xs.flatMap (·.batch.changes)

lemma changesOf_cons (x : Delivery) (rest : List Delivery) :
    changesOf (x :: rest) = x.batch.changes ++ changesOf rest := List.flatMap_cons

namespace Engine

def followEach : List Delivery → Engine → Vault → (Engine × Vault) × Except Failure Unit
  | [], e, v => ((e, v), .ok ())
  | x :: rest, e, v =>
    match e.follow (v.amid x.now x.refusals) x.batch with
    | ((e, v), .error failure) => ((e, v), .error failure)
    | ((e, v), .ok ()) => followEach rest e v

/-- Batches were followed to their end: all their changes were applied, and what is recorded is
what was before, with the totals written over it as of the last moment. -/
structure Followed (e : Engine) (v : Vault) (xs : List Delivery) (e' : Engine) (v' : Vault) :
    Prop where
  settings : e'.settings = e.settings
  tables : e'.tables = e.tables
  ready : e'.ready = true
  applied : e.totals.applyAll e.tables (changesOf xs) = (e'.totals, .ok ())
  backend : v'.ledger.backend = v.ledger.backend
  readings : v'.ledger.readings =
    match xs.getLast? with
    | none => v.ledger.readings
    | some x => (e'.totals.allRecords x.now).foldl Ledger.write v.ledger.readings

variable {e e' e₂ : Engine} {v v' v₂ : Vault} {xs ys : List Delivery}

/-- What a batch has left does not show in what the batches after it leave. -/
lemma Followed.cons {x : Delivery} {rest : List Delivery} {e₁ : Engine} {v₁ : Vault}
    (hready : e.ready = true)
    (hfollow : e.follow (v.amid x.now x.refusals) x.batch = ((e₁, v₁), .ok ()))
    (h : e₁.Followed v₁ rest e' v') : e.Followed v (x :: rest) e' v' := by
  obtain ⟨hsettings, htables, hready₁, ⟨-, failure, hfails, -⟩ | ⟨happly, hpersist⟩⟩ :=
    follow_cases hready hfollow
  · cases hfails
  have hwrote := Vault.persist_eq_ok hpersist
  have happlied := h.applied
  rw [htables] at happlied
  refine ⟨h.settings.trans hsettings, h.tables.trans htables, h.ready, ?_,
    h.backend.trans hwrote.backend, ?_⟩
  · rw [changesOf_cons, Totals.applyAll_append, happly]
    exact happlied
  have hreadings := h.readings
  rcases hlast : rest.getLast? with _ | y
  · -- it is the last batch
    obtain rfl := List.getLast?_eq_none_iff.1 hlast
    have htotals : e₁.totals = e'.totals := congrArg Prod.fst happlied
    rw [hreadings, ← htotals]
    exact hwrote.readings
  · have hcons : (x :: rest).getLast? = some y := by rw [List.getLast?_cons, hlast]; rfl
    rw [hcons, hreadings, hlast]
    refine Ledger.foldl_write_eq fun key hkey => ?_
    rw [hwrote.readings]
    refine Ledger.get?_foldl_write_of_ne _ fun r hr hrkey => hkey ?_
    rw [Totals.map_key_allRecords]
    refine Totals.mem_keys_applyAll happlied ?_
    rw [← e₁.totals.map_key_allRecords (v.amid x.now x.refusals).clock, ← hrkey]
    exact List.mem_map.2 ⟨r, hr, rfl⟩

/-- **What following batches to their end comes to.** -/
lemma followed_of_ok (hready : e.ready = true) (h : followEach xs e v = ((e', v'), .ok ())) :
    e.Followed v xs e' v' := by
  induction xs generalizing e v with
  | nil =>
    cases h
    exact ⟨rfl, rfl, hready, rfl, rfl, rfl⟩
  | cons x rest ih =>
    rcases hfollow : e.follow (v.amid x.now x.refusals) x.batch with ⟨⟨e₁, v₁⟩, failure | _⟩
    · simp [followEach, hfollow] at h
    · simp only [followEach, hfollow] at h
      obtain ⟨-, -, hready₁, -⟩ := follow_cases hready hfollow
      exact .cons hready hfollow (ih hready₁ h)

lemma followEach_of_fits (hready : e.ready = true) (hrefusals : ∀ x ∈ xs, x.refusals = {})
    (hfits : ∀ c ∈ changesOf xs, ¬c.Misfits e.tables) (v : Vault) :
    ∃ e' v', followEach xs e v = ((e', v'), .ok ()) := by
  induction xs generalizing e v with
  | nil => exact ⟨e, v, rfl⟩
  | cons x rest ih =>
    simp only [changesOf_cons, List.mem_append] at hfits
    obtain ⟨totals, -, hfollow⟩ :=
      follow_of_fits hready (fun c hc => hfits c (.inl hc)) (v.amid x.now x.refusals)
    obtain ⟨v₁, hpersist, -⟩ := Vault.persist_eq_upserted (v := v.amid x.now x.refusals)
      (hrefusals x (by simp)) totals
    rw [hpersist] at hfollow
    simp only [followEach, hfollow]
    exact ih (e := { e with totals }) hready (fun y hy => hrefusals y (by simp [hy]))
      (fun c hc => hfits c (.inr hc)) v₁

/-- Batches that have the same effects, and of which the last ones are handed over at the same
moment, end alike. -/
lemma Followed.alike {e₂' : Engine} {v₂' : Vault} (h : e.Followed v xs e' v')
    (h₂ : e.Followed v₂ ys e₂' v₂') (hledger : v₂.ledger = v.ledger)
    (hlast : xs.getLast?.map Delivery.now = ys.getLast?.map Delivery.now)
    (heffects : ∀ p ∈ e.tables.entries,
      effectsOn p.1 p.2 (changesOf xs) = effectsOn p.1 p.2 (changesOf ys)) :
    e₂' = e' ∧ v₂'.ledger = v'.ledger := by
  have htotals := Totals.applyAll_eq_of_effects h.applied h₂.applied heffects
  refine ⟨?_, Ledger.ext_readings ?_ ?_⟩
  · have hsettings := h₂.settings.trans h.settings.symm
    have htables := h₂.tables.trans h.tables.symm
    have hready := h₂.ready.trans h.ready.symm
    cases e'
    cases e₂'
    simp_all
  · rw [h₂.backend, h.backend, hledger]
  · rw [h₂.readings, h.readings, hledger, htotals]
    rcases hx : xs.getLast? with _ | x <;> rcases hy : ys.getLast? with _ | y <;>
      simp [hx, hy] at hlast
    · rfl
    · simp [hlast]

/-- **Only effects count.** Let two series of batches be followed by one engine from one ledger,
and let them have the same effects on each watched table, in the same order. However they are cut
and however the changes of different tables are mixed in them, if both are followed to their end
and the last batches are handed over at the same moment, the engine and the ledger end alike. A
series of which every change can be applied is followed to its end where nothing is refused, and
each total of a watched table is moved by one after another of the effects on that table. A
change of a table that is not watched, one without a value, one that is not followed, and an
update where entries are only counted can stand anywhere in a batch and make no difference at
all. Updates never change a count, however a batch of them ends. -/
theorem follow_by_effects (e : Engine) (hready : e.ready = true) :
    (∀ (xs ys : List Delivery) {v v₂ v' v₂' : Vault} {e' e₂' : Engine},
      v₂.ledger = v.ledger → xs.getLast?.map Delivery.now = ys.getLast?.map Delivery.now →
      (∀ p ∈ e.tables.entries,
        effectsOn p.1 p.2 (changesOf xs) = effectsOn p.1 p.2 (changesOf ys)) →
      followEach xs e v = ((e', v'), .ok ()) → followEach ys e v₂ = ((e₂', v₂'), .ok ()) →
      e₂' = e' ∧ v₂'.ledger = v'.ledger) ∧
    (∀ (xs : List Delivery) (v : Vault), (∀ x ∈ xs, x.refusals = {}) →
      (∀ c ∈ changesOf xs, ¬c.Misfits e.tables) →
      ∃ e' v', followEach xs e v = ((e', v'), .ok ()) ∧
        ∀ table w, e.tables.get? table = some w → ∀ m, e'.totals.value? m table =
          (effectsOn table w (changesOf xs)).foldl (m.moved w) (e.totals.value? m table)) ∧
    (∀ (v : Vault) (b : Batch) (before : List Change) (c : Change) (after : List Change),
      (e.tables.get? c.table = none ∨ c.value = none ∨ (∃ name, c.action = .other name) ∨
        (c.action = .update ∧ e.tables.get? c.table = some .counted)) →
      e.follow v { b with changes := before ++ c :: after } =
        e.follow v { b with changes := before ++ after }) ∧
    (∀ (v : Vault) (b : Batch), (∀ c ∈ b.changes, c.action = .update) →
      ∀ table, (e.follow v b).1.1.totals.count? table = e.totals.count? table) := by
  refine ⟨fun xs ys _ _ _ _ _ _ hledger hlast heffects h h₂ => ?_,
    fun xs v hrefusals hfits => ?_, ?_, ?_⟩
  · exact (followed_of_ok hready h).alike (followed_of_ok hready h₂) hledger hlast heffects
  · obtain ⟨e', v', h⟩ := followEach_of_fits hready hrefusals hfits v
    have happlied := (followed_of_ok hready h).applied
    exact ⟨e', v', h, fun table w hw m => Totals.value?_applyAll happlied hw m⟩
  · intro v b before c after hkind
    have hidle : c.Idle e.tables := by
      rcases hkind with hunwatched | hvalue | ⟨name, hother⟩ | ⟨hupdate, hcounted⟩
      · exact Change.idle_of_unwatched hunwatched
      · exact Change.idle_of_no_value hvalue
      · exact Change.idle_of_other hother
      · exact Change.idle_of_update hupdate hcounted
    simp only [follow, Totals.applyAll_of_idle hidle]
  · intro v b hupdates table
    simp only [follow, hready, Bool.not_true, Bool.false_eq_true, if_false]
    split <;> exact Totals.count?_applyAll_of_updates ‹_› hupdates table

def sevenBytes (action : Action) : Change :=
  ⟨"k", action, [7], some (.key (.sample "" (.copies 3) [7])), none⟩

/-- Two batches, and one in which the changes of either table come first that came last there. An
update is added, and a change of a table that is not watched. -/
theorem follow_by_effects_mixed :
    let v : Vault := { ledger := { backend := .database }, clock := 0 }
    let xs : List Delivery := [⟨3, { changes := [counting 1, sevenBytes .put] }, {}⟩,
      ⟨5, { changes := [sevenBytes .delete, sevenBytes .put, counting 2] }, {}⟩]
    let ys : List Delivery := [⟨5, { changes := [sevenBytes .put, sevenBytes .delete,
      ⟨"x", .delete, [1], some (.raw []), none⟩, counting 3, sevenBytes .put,
      ⟨"c", .update, [2], some (.raw []), some (.raw [])⟩, counting 4] }, {}⟩]
    countingAndSizing.ready = true ∧ ∃ e' v' v₂', e'.totals.count? "c" = some 2 ∧
      e'.totals.extent? "k" = some ⟨7, 21⟩ ∧
      followEach xs countingAndSizing v = ((e', v'), .ok ()) ∧
      followEach ys countingAndSizing v = ((e', v₂'), .ok ()) ∧ v₂'.ledger = v'.ledger := by
  intro v xs ys
  have hready : countingAndSizing.ready = true := rfl
  obtain ⟨halike, hgoes, -⟩ := follow_by_effects countingAndSizing hready
  obtain ⟨e', v', h, -⟩ := hgoes xs v (by decide +kernel) (by decide +kernel)
  obtain ⟨e₂', v₂', h₂, -⟩ := hgoes ys v (by decide +kernel) (by decide +kernel)
  obtain ⟨rfl, hledger⟩ := halike xs ys rfl rfl (by decide +kernel) h h₂
  have hcount : (followEach xs countingAndSizing v).1.1.totals.count? "c" = some 2 := by
    decide +kernel
  have hextent : (followEach xs countingAndSizing v).1.1.totals.extent? "k" = some ⟨7, 21⟩ := by
    decide +kernel
  rw [h] at hcount hextent
  exact ⟨hready, e₂', v', v₂', hcount, hextent, h, h₂, hledger⟩

end Engine

end TableTotals
