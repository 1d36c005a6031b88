import TableTotals.Proofs.Depot

/-!
What the totals of an engine are worth after its calls.

`Standing.after` judges by how a call ended. A scan of every table sets the totals right, and a
success records them. Totals are lost to a batch that stopped amid its changes, and to a rescan
that broke off while what is recorded was out of date; while it was not, the rescan only took up
again what the engine held (`Engine.Mixed.unchanged`). `Engine.Stands` says what the judgement
means, and every call keeps it (`Engine.Stands.attempt`).
-/

namespace TableTotals

inductive Standing where
  /-- They follow the store, and they are recorded. -/
  | recorded
  /-- They follow the store, but what is recorded is out of date. -/
  | unrecorded
  /-- They may be anything. -/
  | lost
  deriving DecidableEq, Repr

namespace Standing

/-- What the totals are worth after a call. A rescan that breaks off leaves the recorded totals
where it has not scanned. -/
def after (standing : Standing) (c : Call) : Standing :=
  if c.reseeds then if c.result.isOk then recorded else unrecorded
  else
    match standing, c.job with
    | lost, _ => lost
    | recorded, .rescan => recorded
    | unrecorded, .rescan => if c.spoils then lost else unrecorded
    | _, .follow _ => if c.spoils then lost else if c.result.isOk then recorded else unrecorded

/-- What the totals are worth after some calls, none of which any scan went before. -/
def afterAll (calls : List Call) : Standing := calls.foldl after lost

lemma after_ok {standing : Standing} {c : Call} (hok : c.result = .ok ())
    (hloaded : c.job = .rescan → c.loaded = true) (h : standing.after c ≠ lost) :
    standing.after c = recorded := by
  obtain ⟨job, loaded, result⟩ := c
  obtain rfl : result = .ok () := hok
  cases loaded with
  | true => rfl
  | false =>
    cases job with
    | rescan => cases hloaded rfl
    | follow batch =>
      cases standing with
      | recorded => rfl
      | unrecorded => rfl
      | lost => exact absurd rfl h

end Standing

def Totals.RecordedIn (t : Totals) (v : Vault) : Prop :=
  ∀ m name x, t.value? m name = some x →
    ∃ r, v.ledger.record? (m.key name) = some r ∧ r.value = x

/-- No sized table is named like another one with `Un` behind, so no two totals share a key. -/
def Settings.Unshadowed (s : Settings) : Prop :=
  ∀ name ∈ s.sizedTables, name ++ "Un" ∉ s.sizedTables

instance (s : Settings) : Decidable s.Unshadowed :=
  inferInstanceAs (Decidable (∀ name ∈ s.sizedTables, name ++ "Un" ∉ s.sizedTables))

/-- A total that was persisted has its record, as of the moment at which persisting began, where no
two totals share a key. -/
lemma Totals.Proper.record?_persist {t : Totals} {settings : Settings} {names : List String}
    {v v' : Vault} (h : t.Proper settings names) (hpersist : v.persist t = (v', .ok ()))
    (hclash : settings.Unshadowed) {m : Measure} {name : String} {x : Int64}
    (hx : t.value? m name = some x) :
    v'.ledger.record? (m.key name) =
      some { key := m.key name, value := x, updatedAt := v.clock } := by
  have hsized : ∀ {m name x}, m ≠ .count → t.value? m name = some x →
      name ∈ settings.sizedTables := by
    intro m name x hm hx
    exact (Settings.covers_size hm).1 ((h.covered m name).1 (by rw [hx]; rfl))
  have hlast : m = .unreplicated → t.value? .replicated (name ++ "Un") = none := by
    rintro rfl
    cases hr : t.value? .replicated (name ++ "Un") with
    | none => rfl
    | some y => exact absurd (hsized (by decide) hr) (hclash name (hsized (by decide) hx))
  rw [Ledger.record?, Vault.readings_persist hpersist hx hlast]
  rfl

lemma Totals.Proper.recordedIn {t : Totals} {settings : Settings} {names : List String}
    {v v' : Vault} (h : t.Proper settings names) (hpersist : v.persist t = (v', .ok ()))
    (hclash : settings.Unshadowed) : t.RecordedIn v' :=
  fun _ _ _ hx => ⟨_, h.record?_persist hpersist hclash hx, rfl⟩

lemma Totals.RecordedIn.recorded_eq {t : Totals} {v : Vault} (h : t.RecordedIn v) {m : Measure}
    {name : String} {x : Int64} (hx : t.value? m name = some x) : v.recorded m name = x := by
  obtain ⟨r, hr, rfl⟩ := h m name x hx
  rw [Ledger.record?] at hr
  obtain ⟨reading, hreading, rfl⟩ := Option.map_eq_some_iff.1 hr
  rw [Vault.recorded, hreading]
  rfl

lemma Totals.RecordedIn.recall_eq {t : Totals} {settings : Settings} {names : List String}
    {v : Vault} (h : t.RecordedIn v) (hproper : t.Proper settings names) (m : Measure)
    (name : String) :
    (if settings.Covers names m name then some (Clamped.floorZero (v.recorded m name)) else none) =
      t.value? m name := by
  by_cases hcovers : settings.Covers names m name
  · obtain ⟨x, hx⟩ := Option.isSome_iff_exists.1 ((hproper.covered m name).2 hcovers)
    rw [if_pos hcovers, hx, h.recorded_eq hx,
      Clamped.floorZero_of_nonneg (hproper.nonneg m name x hx)]
  · rw [if_neg hcovers, eq_comm, ← Option.not_isSome_iff_eq_none]
    exact fun hsome => hcovers ((hproper.covered m name).1 hsome)

lemma Engine.ext_fields {e e' : Engine} (hsettings : e'.settings = e.settings)
    (htables : e'.tables = e.tables) (htotals : e'.totals = e.totals)
    (hready : e'.ready = e.ready) : e' = e := by
  cases e
  cases e'
  simp_all

/-- A rescan that breaks off changes nothing, if the totals were the tallies and were recorded. -/
lemma Engine.Mixed.unchanged {e e' : Engine} {source : Source} {v : Vault}
    (h : e'.Mixed source.store.names source v) (hsettings : e'.settings = e.settings)
    (hf : e.Follows [] source.store)
    (hb : source.store.Bounded (e.settings.assign source.store.names))
    (hrecorded : e.totals.RecordedIn v) : e' = e := by
  have htotals : e'.totals = e.totals := by
    refine Totals.ext_value? fun m name => ?_
    rcases h.cases m name with hrecall | ⟨hname, hkeeps, found, hscan, hvalue⟩
    · rw [hrecall, hsettings, hrecorded.recall_eq hf.proper]
    · rw [hsettings] at hkeeps hscan
      obtain ⟨tbl, htbl, hpursues⟩ := (hf.pursues name hname).pursued
      have hw : (e.settings.assign source.store.names).get? name =
          some (e.settings.watchOf name) := Settings.get?_assign_eq_some.2 ⟨hname, rfl⟩
      have hfound := (Totals.agrees_iff_scanned htbl (fun m => hb.tally_le hw htbl) hscan).1
        hpursues.agrees
      rw [hvalue, hfound m hkeeps]
  have htables : e'.tables = e.tables := by rw [h.tables, hf.tables, hsettings]
  have hready : e'.ready = e.ready := by rw [h.ready, hf.ready]
  exact Engine.ext_fields hsettings htables htotals hready

namespace Engine

/-- The totals of an engine are worth what the standing says, with some changes still to be
applied. -/
structure Stands (e : Engine) (standing : Standing) (late : List Change) (d : Depot) : Prop where
  follows : standing ≠ .lost → e.Follows late d.store
  recorded : standing = .recorded → e.totals.RecordedIn d.site.vault

namespace Stands

variable {e e' : Engine} {standing : Standing} {late before : List Change} {d : Depot}
  {site : Site} {job : Job} {r : Except Failure Unit}

lemma of_lost : e.Stands .lost late d := ⟨fun h => absurd rfl h, nofun⟩

/-- Totals that follow the store and were left to be persisted are recorded after a success. -/
lemma of_persist (hf : e.Follows late { d with site }.store)
    (hclash : e.settings.Unshadowed) {v : Vault} (hpersist : v.persist e.totals = (site.vault, r)) :
    e.Stands (if r.isOk then .recorded else .unrecorded) late { d with site } := by
  refine ⟨fun _ => hf, fun hrec => ?_⟩
  rcases r with failure | _
  · cases hrec
  · exact hf.proper.recordedIn hpersist hclash

/-- What happens from outside leaves what the totals are worth, with what it recorded now to be
applied as well. -/
lemma after (h : e.Stands standing (before ++ d.feed.pending) d) (x : Happening)
    (hb : (d.after x).Bounded e.settings) :
    e.Stands standing (before ++ (d.after x).feed.pending) (d.after x) := by
  refine ⟨fun hlost => (h.follows hlost).after x hb, fun hrec => ?_⟩
  have hrecorded := h.recorded hrec
  cases x with
  | put table key entry fits => exact hrecorded
  | delete table key => exact hrecorded
  | switch outages refusals => exact hrecorded
  | tick now => exact hrecorded

lemma of_same (h : e.Stands standing late d) (hsource : site.source = d.site.source)
    (hvault : site.vault = d.site.vault) : e.Stands standing late { d with site } := by
  have hstore : (Depot.store { d with site }) = d.store := by
    rw [Depot.store, hsource]
    rfl
  constructor
  case follows =>
    intro hlost
    rw [hstore]
    exact h.follows hlost
  case recorded =>
    intro hrec
    rw [hvault]
    exact h.recorded hrec

lemma rescan (h : e.Stands standing [] d) (ha : e.attempt d.site .rescan = ((e', site), r))
    (hb : d.Bounded e.settings) (hclash : e.settings.Unshadowed) :
    e'.Stands (standing.after (e.call d.site .rescan)) [] { d with site } := by
  obtain ⟨hsource, hsettings⟩ := attempt_source ha
  have hjob : (e.call d.site .rescan).job = .rescan := rfl
  have hresult : (e.call d.site .rescan).result = r := by rw [call, ha]
  rcases rescan_call ha with ⟨hloaded, hspoils, rfl, hvault⟩ |
    ⟨hloaded, hspoils, hmixed, hvault⟩ | ⟨hloaded, hspoils, -, hseeded, hpersist⟩
  · -- nothing was taken up
    have hafter : standing.after (e'.call d.site .rescan) = standing := by
      cases standing <;> simp [Standing.after, Call.reseeds, hjob, hloaded, hspoils]
    rw [hafter]
    exact h.of_same hsource hvault
  · -- the rescan was broken off
    cases standing with
    | recorded =>
      have hafter : Standing.recorded.after (e.call d.site .rescan) = .recorded := by
        simp [Standing.after, Call.reseeds, hjob, hloaded, hspoils]
      rw [hafter]
      obtain rfl := hmixed.unchanged hsettings (h.follows (by decide)) hb (h.recorded rfl)
      exact h.of_same hsource hvault
    | lost | unrecorded =>
      simp only [Standing.after, Call.reseeds, hjob, hloaded, hspoils, Bool.not_true,
        Bool.and_false, Bool.false_eq_true, if_false, if_true]
      exact of_lost
  · -- every table was scanned
    simp only [Standing.after, Call.reseeds, hloaded, hspoils, hresult, Bool.not_false,
      Bool.and_self, if_true]
    rw [← hsettings] at hb hclash
    have hf : e'.Follows [] d.store := hseeded.follows hb
    refine of_persist ?_ hclash hpersist
    rw [Depot.store, hsource]
    exact hf

lemma follow {b : Batch} (h : e.Stands standing (b.changes ++ late) d)
    (ha : e.attempt d.site (.follow b) = ((e', site), r)) (hclash : e.settings.Unshadowed) :
    e'.Stands (standing.after (e.call d.site (.follow b))) late { d with site } := by
  obtain ⟨hsource, hsettings⟩ := attempt_source ha
  have hjob : (e.call d.site (.follow b)).job = .follow b := rfl
  have hseeds : (e.call d.site (.follow b)).reseeds = false := rfl
  have hresult : (e.call d.site (.follow b)).result = r := by rw [call, ha]
  by_cases hlost : standing = .lost
  · subst hlost
    simp only [Standing.after, hseeds, Bool.false_eq_true, if_false]
    exact of_lost
  have hf := h.follows hlost
  obtain ⟨hready, htables, hspoils | ⟨hspoils, happly, hpersist⟩⟩ := follow_call hf.ready ha
  · have hafter : standing.after (e.call d.site (.follow b)) = .lost := by
      cases standing <;> simp [Standing.after, hseeds, hjob, hspoils]
    rw [hafter]
    exact of_lost
  · have hafter : standing.after (e.call d.site (.follow b)) =
        if r.isOk then .recorded else .unrecorded := by
      cases standing
      · simp [Standing.after, hseeds, hjob, hspoils, hresult]
      · simp [Standing.after, hseeds, hjob, hspoils, hresult]
      · exact absurd rfl hlost
    rw [hafter]
    rw [← hsettings] at hclash
    refine of_persist ?_ hclash hpersist
    rw [Depot.store, hsource]
    exact hf.applied hready htables hsettings happly

/-- **A call changes what the totals are worth as it is judged**, if nothing but its own changes
is outstanding when tables are scanned. -/
theorem attempt (h : e.Stands standing (job.changes ++ late) d)
    (ha : e.attempt d.site job = ((e', site), r)) (hb : d.Bounded e.settings)
    (hclash : e.settings.Unshadowed) (hscan : job = .rescan → late = []) :
    e'.Stands (standing.after (e.call d.site job)) late { d with site } := by
  cases job with
  | rescan =>
    obtain rfl := hscan rfl
    exact h.rescan ha hb hclash
  | follow b => exact h.follow ha hclash

end Stands

end Engine

end TableTotals
