import TableTotals.Engine
import TableTotals.Proofs.Change
import TableTotals.Proofs.Persist

/-!
What an engine takes up when it is loaded.

The counts of a load follow the names of the tables that there are, and its sizes the settings,
whether or not there are such tables; `Settings.Covers` says which totals that makes. What there
is to take up is a matter of the settings and of what the reads are answered alone
(`Replies.takeUp_cases`), whoever answers them; a source and a vault are one way to
(`Engine.recorded_eq`). `Engine.load_cases` says everything that a load can come to.
-/

namespace TableTotals

namespace Settings

lemma get?_assign (s : Settings) (names : List String) (name : String) :
    (s.assign names).get? name = if name ∈ names then some (s.watchOf name) else none :=
  SortedMap.get?_ofList_map names s.watchOf name

lemma get?_assign_eq_some {s : Settings} {names : List String} {name : String} {w : Watch} :
    (s.assign names).get? name = some w ↔ name ∈ names ∧ s.watchOf name = w := by
  rw [get?_assign]
  by_cases hname : name ∈ names <;> simp [hname]

lemma mem_keys_assign {s : Settings} {names : List String} {name : String} :
    name ∈ (s.assign names).keys ↔ name ∈ names := by
  rw [SortedMap.mem_keys, get?_assign]
  by_cases hname : name ∈ names <;> simp [hname]

lemma mem_sizedTables {s : Settings} {name : String} :
    name ∈ s.sizedTables ↔ (s.watchOf name).tracksSize = true := by
  have hiff : name ∈ s.sizedTables ↔ ∃ w, s.watches.get? name = some w ∧ w.tracksSize = true := by
    simp [sizedTables, SortedMap.mem_entries]
  rw [hiff, watchOf, SortedMap.getD]
  cases s.watches.get? name with
  | none => simp [Watch.tracksSize, Watch.sizer?]
  | some w => simp

/-- There is a total of a measure of a table after a load. -/
def Covers (s : Settings) (names : List String) (m : Measure) (name : String) : Prop :=
  (s.watchOf name).Keeps m ∧ (m = .count → name ∈ names)

instance (s : Settings) (names : List String) (m : Measure) (name : String) :
    Decidable (s.Covers names m name) := inferInstanceAs (Decidable (_ ∧ _))

lemma covers_count {s : Settings} {names : List String} {name : String} :
    s.Covers names .count name ↔ name ∈ names := by
  simp [Covers, Watch.keeps_count]

lemma covers_size {s : Settings} {names : List String} {m : Measure} {name : String}
    (hm : m ≠ .count) : s.Covers names m name ↔ name ∈ s.sizedTables := by
  simp [Covers, hm, Watch.Keeps, mem_sizedTables]

def asked (s : Settings) (names : List String) : List (Measure × String) :=
  (s.assign names).keys.map (Measure.count, ·) ++
    s.sizedTables.flatMap fun name => [(.unreplicated, name), (.replicated, name)]

lemma mem_asked {s : Settings} {names : List String} {m : Measure} {name : String} :
    (m, name) ∈ s.asked names ↔ s.Covers names m name := by
  cases m with
  | count => simp [asked, mem_keys_assign, covers_count]
  | unreplicated | replicated => simp [asked, covers_size]

end Settings

lemma Totals.value?_empty (m : Measure) (table : String) :
    (∅ : Totals).value? m table = none := by
  cases m <;> rfl

lemma Totals.value?_setExtent (t : Totals) (table table' : String) (x : Extent) (m : Measure) :
    (t.setExtent table x).value? m table' =
      if m ≠ .count ∧ table' = table then some (Clamped.floorZero (Totals.portion 0 x m))
      else t.value? m table' := by
  cases m <;> simp [Totals.setExtent, Totals.value?_set, Totals.portion]

/-! ### Reading -/

/-- What the reads of a load are answered: the names of the tables, and the record of each key. -/
structure Replies where
  names : Except Failure (List String)
  record : String → Except Failure (Option Record)

namespace Replies

variable (r : Replies)

def value (m : Measure) (table : String) : Except Failure Int64 :=
  (fun record => (record.map (·.value)).getD 0) <$> r.record (m.key table)

def refusal? (x : Measure × String) : Option Failure :=
  match r.record (x.1.key x.2) with
  | .error failure => some failure
  | .ok _ => none

def recorded (m : Measure) (table : String) : Int64 :=
  match r.record (m.key table) with
  | .error _ => 0
  | .ok record => (record.map (·.value)).getD 0

def readAll : List (Measure × String) → Totals → Except Failure Totals
  | [], t => .ok t
  | (m, table) :: rest, t => do
    let n ← r.value m table
    readAll rest (t.set m table n)

def takeUp (s : Settings) : Except Failure (SortedMap String Watch × Totals) := do
  let names ← r.names
  let totals ← r.readAll (s.asked names) ∅
  return (s.assign names, totals)

/-- The first failure of the reads of a load, if any of them fails. -/
def failure? (s : Settings) : Option Failure :=
  match r.names with
  | .error failure => some failure
  | .ok names => (s.asked names).findSome? r.refusal?

lemma readAll_append (xs ys : List (Measure × String)) (t : Totals) :
    r.readAll (xs ++ ys) t = r.readAll xs t >>= r.readAll ys := by
  induction xs generalizing t with
  | nil => rfl
  | cons x rest ih =>
    simp only [List.cons_append, readAll]
    rcases r.value x.1 x.2 with failure | n
    · rfl
    · exact ih _

/-- **Reads go on up to the first that fails.** If none does, the totals that were asked for are as
they are recorded, and no other total has changed. -/
lemma readAll_cases (xs : List (Measure × String)) (t : Totals) :
    (∃ failure, xs.findSome? r.refusal? = some failure ∧ r.readAll xs t = .error failure) ∨
    xs.findSome? r.refusal? = none ∧ ∃ t', r.readAll xs t = .ok t' ∧
      ∀ m name, t'.value? m name =
        if (m, name) ∈ xs then some (Clamped.floorZero (r.recorded m name))
        else t.value? m name := by
  induction xs generalizing t with
  | nil => exact .inr ⟨rfl, t, rfl, by simp⟩
  | cons x rest ih =>
    obtain ⟨m₁, table⟩ := x
    rcases hx : r.record (m₁.key table) with failure | record
    · left
      refine ⟨failure, by simp [refusal?, hx], ?_⟩
      simp only [readAll, value, hx]
      rfl
    have hrefusal : r.refusal? (m₁, table) = none := by simp only [refusal?, hx]
    have hread : r.readAll ((m₁, table) :: rest) t =
        r.readAll rest (t.set m₁ table (r.recorded m₁ table)) := by
      simp only [readAll, value, recorded, hx]
      rfl
    rw [List.findSome?_cons, hrefusal, hread]
    rcases ih (t.set m₁ table (r.recorded m₁ table)) with hfails | ⟨hnone, t', ht', hvalue⟩
    · exact .inl hfails
    · refine .inr ⟨hnone, t', ht', fun m name => ?_⟩
      rw [hvalue, Totals.value?_set]
      by_cases hrest : (m, name) ∈ rest
      · simp [hrest]
      · by_cases hfirst : m = m₁ ∧ name = table
        · obtain ⟨rfl, rfl⟩ := hfirst
          simp
        · simp [hrest, hfirst]

/-- **What there is to take up** is settled by the replies and the settings: the first failure, or
the tables of the names that were read and every total that is asked for as it is recorded. -/
lemma takeUp_cases (s : Settings) :
    (∃ failure, r.failure? s = some failure ∧ r.takeUp s = .error failure) ∨
    r.failure? s = none ∧ ∃ names totals, r.names = .ok names ∧
      r.takeUp s = .ok (s.assign names, totals) ∧
      ∀ m name, totals.value? m name =
        if s.Covers names m name then some (Clamped.floorZero (r.recorded m name)) else none := by
  rcases hnames : r.names with failure | names
  · left
    refine ⟨failure, by simp only [failure?, hnames], ?_⟩
    simp only [takeUp, hnames]
    rfl
  rcases r.readAll_cases (s.asked names) ∅ with ⟨failure, hsome, hread⟩ |
    ⟨hnone, totals, hread, hvalue⟩
  · left
    refine ⟨failure, by simp only [failure?, hnames, hsome], ?_⟩
    simp only [takeUp, hnames, bind, Except.bind, hread]
  · right
    refine ⟨by simp only [failure?, hnames, hnone], names, totals, rfl, ?_, fun m name => ?_⟩
    · simp only [takeUp, hnames, bind, Except.bind, hread]
      rfl
    · simp only [hvalue, Settings.mem_asked, Totals.value?_empty]

end Replies

/-! ### Loading -/

namespace Engine

def replies (source : Source) (v : Vault) : Replies := ⟨source.names, v.fetch⟩

variable (source : Source) (v : Vault)

lemma recallCounts_eq (names : List String) (t : Totals) :
    v.recallCounts names t = (replies source v).readAll (names.map (Measure.count, ·)) t := by
  induction names generalizing t with
  | nil => rfl
  | cons name rest ih =>
    simp only [Vault.recallCounts, List.map_cons, Replies.readAll, ih]
    rfl

lemma recallExtents_eq (names : List String) (t : Totals) :
    v.recallExtents names t = (replies source v).readAll
      (names.flatMap fun name => [(.unreplicated, name), (.replicated, name)]) t := by
  induction names generalizing t with
  | nil => rfl
  | cons name rest ih =>
    simp only [Vault.recallExtents, List.flatMap_cons, List.cons_append, List.nil_append,
      Replies.readAll, ih]
    rfl

/-- What there is to take up is read from the source and the vault. -/
lemma recorded_eq (s : Settings) : recorded s source v = (replies source v).takeUp s := by
  simp only [recorded, Replies.takeUp, Settings.asked, Replies.readAll_append,
    recallCounts_eq source v, recallExtents_eq source v, bind_assoc]
  rfl

lemma refusal?_replies (x : Measure × String) :
    (replies source v).refusal? x =
      if x.1.key x.2 ∈ v.refusals.records then some (.reading .recordRefused) else none := by
  by_cases h : x.1.key x.2 ∈ v.refusals.records <;>
    simp [Replies.refusal?, replies, Vault.fetch, h]

lemma recorded_replies {m : Measure} {name : String}
    (h : m.key name ∉ v.refusals.records) :
    (replies source v).recorded m name = v.recorded m name := by
  simp only [Replies.recorded, replies, Vault.fetch, if_neg h, Vault.recorded, Ledger.record?,
    Option.map_map]
  rfl

lemma failure?_eq_some {s : Settings} {failure : Failure}
    (h : (replies source v).failure? s = some failure) :
    failure = .internal .namesRefused ∨ failure = .reading .recordRefused := by
  unfold Replies.failure? at h
  split at h
  next hnames =>
    left
    simp only [replies, Source.names] at hnames
    split at hnames <;> cases hnames
    cases h
    rfl
  · right
    obtain ⟨x, -, hx⟩ := List.exists_of_findSome?_eq_some h
    rw [refusal?_replies] at hx
    split at hx <;> cases hx
    rfl

lemma failure?_eq_none {s : Settings} {names : List String}
    (hnames : (replies source v).names = .ok names)
    (h : (replies source v).failure? s = none) :
    names = source.store.names ∧
      ∀ m name, s.Covers names m name → m.key name ∉ v.refusals.records := by
  constructor
  · simp only [replies, Source.names] at hnames
    split at hnames <;> cases hnames
    rfl
  · intro m name hcovers hrefused
    simp only [Replies.failure?, hnames, List.findSome?_eq_none_iff] at h
    have hread := h (m, name) (Settings.mem_asked.2 hcovers)
    rw [refusal?_replies, if_pos hrefused] at hread
    cases hread

lemma recorded_cases (s : Settings) :
    (∃ failure, recorded s source v = .error failure ∧
      (failure = .internal .namesRefused ∨ failure = .reading .recordRefused)) ∨
    ∃ totals, recorded s source v = .ok (s.assign source.store.names, totals) ∧
      ∀ m name, (s.Covers source.store.names m name →
          m.key name ∉ v.refusals.records) ∧
        totals.value? m name = if s.Covers source.store.names m name then
          some (Clamped.floorZero (v.recorded m name)) else none := by
  rw [recorded_eq]
  rcases (replies source v).takeUp_cases s with ⟨failure, hsome, htake⟩ |
    ⟨hnone, names, totals, hnames, htake, hvalue⟩
  · exact .inl ⟨failure, htake, failure?_eq_some source v hsome⟩
  · obtain ⟨rfl, hunrefused⟩ := failure?_eq_none source v hnames hnone
    refine .inr ⟨totals, htake, fun m name => ⟨hunrefused m name, ?_⟩⟩
    rw [hvalue]
    split
    next hcovers => rw [recorded_replies source v (hunrefused m name hcovers)]
    · rfl

/-- The engine holds what a load makes it hold: tables with some names, and every total that is
asked for as it was recorded. -/
structure Loaded (e : Engine) (names : List String) (v : Vault) : Prop where
  ready : e.ready = true
  tables : e.tables = e.settings.assign names
  recalled : ∀ m name, e.totals.value? m name =
    if e.settings.Covers names m name then some (Clamped.floorZero (v.recorded m name)) else none

/-- **What a load comes to.** It fails and changes nothing; or the tables and the recorded totals
are taken up, and no record that was asked for was refused. -/
theorem load_cases {e e' : Engine} {source : Source} {v : Vault} {r : Except Failure Unit}
    (h : e.load source v = (e', r)) :
    (e' = e ∧ (r = .error (.internal .namesRefused) ∨ r = .error (.reading .recordRefused))) ∨
    (r = .ok () ∧ e'.settings = e.settings ∧ e'.Loaded source.store.names v ∧
      ∀ m name, e.settings.Covers source.store.names m name →
        m.key name ∉ v.refusals.records) := by
  unfold load at h
  rcases recorded_cases source v e.settings with ⟨failure, hrec, hfailure⟩ | ⟨totals, hrec, hvalue⟩
  · rw [hrec] at h
    cases h
    refine .inl ⟨rfl, ?_⟩
    rcases hfailure with rfl | rfl
    · exact .inl rfl
    · exact .inr rfl
  · rw [hrec] at h
    cases h
    refine .inr ⟨rfl, rfl, ?_, fun m name => (hvalue m name).1⟩
    exact ⟨rfl, rfl, fun m name => (hvalue m name).2⟩

end Engine

end TableTotals
