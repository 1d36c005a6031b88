import Mathlib.Algebra.BigOperators.Group.List.Basic
import TableTotals.Proofs.Redundancy
import TableTotals.Proofs.Tally

/-!
The exact sizes of entries, and what a scan finds of them.

On the way from the parts of a key to the totals of a table sizes may stop five times: where parts
are added up, where redundancy is applied, where versions are added up, where a word becomes a
statistic, and where entries are added up. Each of these stops at a bound no lower than the last
one, so the totals are the exact ones stopped once (`Cursor.summarize_eq_ok`). In particular they do
not depend on the order in which anything is added up: lists that match one to one in any order
(`Matched`) have the same exact sums.
-/

namespace TableTotals

/-- Two lists match one to one, in whatever order. -/
def Matched {α β : Type} (r : α → β → Prop) (xs : List α) (ys : List β) : Prop :=
  ∃ zs, xs.Perm zs ∧ List.Forall₂ r zs ys

namespace Matched

variable {α β : Type} {r : α → β → Prop} {xs : List α} {ys : List β}

lemma sum_eq {f : α → Nat} {g : β → Nat} (h : Matched r xs ys)
    (hfg : ∀ x y, r x y → f x = g y) : (xs.map f).sum = (ys.map g).sum := by
  obtain ⟨zs, hperm, hpairs⟩ := h
  rw [(hperm.map f).sum_eq]
  clear hperm
  induction hpairs with
  | nil => rfl
  | cons hxy _ ih =>
    rw [List.map_cons, List.map_cons, List.sum_cons, List.sum_cons, hfg _ _ hxy, ih]

lemma forall_of_forall {p : α → Prop} {q : β → Prop} (h : Matched r xs ys)
    (hpq : ∀ x y, r x y → p x → q y) (hp : ∀ x ∈ xs, p x) : ∀ y ∈ ys, q y := by
  obtain ⟨zs, hperm, hpairs⟩ := h
  have hzs : ∀ z ∈ zs, p z := fun z hz => hp z (hperm.mem_iff.2 hz)
  clear hperm
  induction hpairs with
  | nil => simp
  | cons hxy _ ih =>
    rw [List.forall_mem_cons] at hzs ⊢
    exact ⟨hpq _ _ hxy hzs.1, ih hzs.2⟩

end Matched

def StoredKey.Rearranged (k k' : StoredKey) : Prop :=
  k.redundancy = k'.redundancy ∧ k.parts.Perm k'.parts

namespace StoredKey

variable {k k' : StoredKey}

lemma Rearranged.exactData_eq (h : k.Rearranged k') : k.exactData = k'.exactData :=
  (h.2.map _).sum_eq

lemma Rearranged.exactStored_eq (h : k.Rearranged k') : k.exactStored = k'.exactStored := by
  rw [exactStored, exactStored, h.1, h.exactData_eq]

end StoredKey

namespace Entry

def versions : Entry → List StoredKey
  | key k => [k]
  | deleted versions => versions
  | raw _ => []

def exactData (e : Entry) : Nat := (e.versions.map (·.exactData)).sum

def exactStored (e : Entry) : Nat := (e.versions.map (·.exactStored)).sum

/-- An entry of the same versions, in whatever order, with their parts in whatever order. -/
inductive Rearranged : Entry → Entry → Prop
  | key {k k' : StoredKey} (h : k.Rearranged k') : Rearranged (.key k) (.key k')
  | deleted {ks ks' : List StoredKey} (h : Matched StoredKey.Rearranged ks ks') :
    Rearranged (.deleted ks) (.deleted ks')
  | raw (bytes : List UInt8) : Rearranged (.raw bytes) (.raw bytes)

def worth (e : Entry) : Measure → Nat
  | .count => 1
  | .unreplicated => e.exactData
  | .replicated => e.exactStored

variable {e e' : Entry}

namespace Rearranged

lemma shape_eq (h : e.Rearranged e') : e.shape = e'.shape := by
  cases h <;> rfl

lemma versions (h : e.Rearranged e') : Matched StoredKey.Rearranged e.versions e'.versions := by
  cases h with
  | key h => exact ⟨_, .refl _, .cons h .nil⟩
  | deleted h => exact h
  | raw => exact ⟨[], .nil, .nil⟩

lemma worth_eq (h : e.Rearranged e') (m : Measure) : e.worth m = e'.worth m := by
  cases m with
  | count => rfl
  | unreplicated => exact h.versions.sum_eq fun _ _ hk => hk.exactData_eq
  | replicated => exact h.versions.sum_eq fun _ _ hk => hk.exactStored_eq

end Rearranged

lemma sizes?_eq_some (h : e.shape ≠ .raw) : ∃ t, e.sizes? = some t ∧
    t.1.toNat = min e.exactData maxWord ∧ t.2.toNat = min e.exactStored maxWord := by
  cases e with
  | key k =>
    refine ⟨_, rfl, ?_, ?_⟩
    · simp [exactData, versions, StoredKey.toNat_dataSize]
    · simp [exactStored, versions, StoredKey.toNat_storedSize]
  | deleted ks => exact ⟨_, rfl, toNat_totalSize ks⟩
  | raw bytes => exact absurd rfl h

end Entry

/-- A sizer finds what an entry of its shape adds to each measure, stopped at the largest
statistic. -/
lemma Sizer.size?_eq_some {s : Sizer} {e : Entry} (h : e.shape = s.shape) :
    ∃ x, s.size? e = some x ∧
      ∀ m : Measure, m.weigh (some x) = (min (e.worth m) maxSigned.toNat : Nat) := by
  have hraw : e.shape ≠ .raw := by
    rw [h]
    cases s <;> decide
  obtain ⟨t, ht, hdata, hstored⟩ := e.sizes?_eq_some hraw
  refine ⟨.ofWords t.1 t.2, by rw [size?, if_pos h, ht]; rfl, fun m => ?_⟩
  cases m with
  | count => rfl
  | unreplicated =>
    show (Clamped.ofWord t.1).toInt = (min e.exactData maxSigned.toNat : Nat)
    rw [Clamped.toInt_ofWord, hdata]
    simp only [maxWord, maxSigned]
    omega
  | replicated =>
    show (Clamped.ofWord t.2).toInt = (min e.exactStored maxSigned.toNat : Nat)
    rw [Clamped.toInt_ofWord, hstored]
    simp only [maxWord, maxSigned]
    omega

lemma Summary.ext_value {s s' : Summary} (h : ∀ m, (s.value m).toInt = (s'.value m).toInt) :
    s = s' := by
  obtain ⟨n, u, r⟩ := s
  obtain ⟨n', u', r'⟩ := s'
  obtain rfl : n = n' := Int64.toInt_inj.1 (h .count)
  obtain rfl : u = u' := Int64.toInt_inj.1 (h .unreplicated)
  obtain rfl : r = r' := Int64.toInt_inj.1 (h .replicated)
  rfl

namespace Cursor

variable {s : Sizer} {es : List Entry}

/-- The cells of the cursor's table are these entries, from the first cell on. -/
def Holds (c : Cursor) (es : List Entry) : Prop :=
  List.Forall₂ (fun cell e => Wire.decode c.layout cell.2 = .ok e) c.cells es

/-- Cells of a sizer's shape can all be sized, and weigh what their entries add, each stopped at the
largest statistic. -/
lemma weighed_of_decode {layout : Shape} {cells : List (List UInt8 × List UInt8)}
    (h : List.Forall₂ (fun cell e => Wire.decode layout cell.2 = .ok e) cells es)
    (hshape : ∀ e ∈ es, e.shape = s.shape) :
    (∀ p ∈ cells, (Table.extent? layout (.sized s) p.2).isSome) ∧
    ∀ m : Measure, (cells.map fun p => m.weigh (Table.extent? layout (.sized s) p.2)).sum =
      ((es.map fun e => min (e.worth m) maxSigned.toNat).sum : Nat) := by
  induction h with
  | nil => simp
  | @cons cell e cells es hdecode _ ih =>
    rw [List.forall_mem_cons] at hshape
    obtain ⟨hsound, hsum⟩ := ih hshape.2
    obtain ⟨x, hx, hweigh⟩ := Sizer.size?_eq_some hshape.1
    have hcell : Table.extent? layout (.sized s) cell.2 = some x := by
      rw [Table.extent?_of_decode hdecode]
      exact hx
    refine ⟨?_, fun m => ?_⟩
    · rw [List.forall_mem_cons, hcell]
      exact ⟨rfl, hsound⟩
    · rw [List.map_cons, List.map_cons, List.sum_cons, List.sum_cons, hcell, hweigh, hsum,
        Int.natCast_add]

/-- **A walk finds exact totals, stopped once at the largest statistic**, on every table whose
entries are of the sizer's shape. -/
lemma summarize_eq_ok {c : Cursor} (hbudget : c.budget = none) (hcells : c.Holds es)
    (hshape : ∀ e ∈ es, e.shape = s.shape) (label : String) :
    ∃ found, (c.summarize (.sized s) label).2 = .ok found ∧
      ∀ m, (found.value m).toInt = min maxSigned ((es.map (·.worth m)).sum : Nat) := by
  obtain ⟨hsound, hweigh⟩ := weighed_of_decode hcells hshape
  obtain ⟨found, hfound⟩ := fold_tallyEntry_ok (c := c.rewind) .zero hbudget hsound
  refine ⟨found, hfound, fun m => ?_⟩
  obtain ⟨-, hvalue⟩ := fold_tallyEntry hfound (by simp)
  have htally : c.rewind.aheadTally (.sized s) m =
    ((es.map fun e => min (e.worth m) maxSigned.toNat).sum : Nat) := hweigh m
  have hstop := min_sum_map_min (es.map (·.worth m)) maxSigned.toNat
  rw [List.map_map] at hstop
  rw [hvalue, Summary.value_zero, Int.zero_add, htally]
  simp only [maxSigned, Function.comp_def] at hstop ⊢
  omega

/-- **The totals of a scan are the exact totals, stopped once.** Whatever stops on the way, a walk
over entries of the sizer's shape finds how many there are, the sum of all parts of all their
versions, and the sum of what each version stores for the exact sum of its parts, each in unbounded
integers and then stopped at the largest statistic. So it finds the same of entries, versions and
parts in whatever order they stand. -/
theorem summarize_exact {c : Cursor} (hbudget : c.budget = none) (hcells : c.Holds es)
    (hshape : ∀ e ∈ es, e.shape = s.shape) (label : String) :
    ∃ found, (c.summarize (.sized s) label).2 = .ok found ∧
      found.count.toInt = min maxSigned es.length ∧
      found.extent.unreplicated.toInt = min maxSigned
        ((es.map fun e => (e.versions.map fun k => (k.parts.map (·.toNat)).sum).sum).sum : Nat) ∧
      found.extent.replicated.toInt = min maxSigned
        ((es.map fun e => (e.versions.map fun k =>
          k.redundancy.exactSize (k.parts.map (·.toNat)).sum).sum).sum : Nat) ∧
      ∀ (c' : Cursor) (es' : List Entry) (label' : String), c'.budget = none → c'.Holds es' →
        Matched Entry.Rearranged es es' → (c'.summarize (.sized s) label').2 = .ok found := by
  obtain ⟨found, hfound, hvalue⟩ := summarize_eq_ok hbudget hcells hshape label
  refine ⟨found, hfound, ?_, ?_, ?_, fun c' es' label' hbudget' hcells' hmatched => ?_⟩
  · have hone : (es.map (·.worth .count)).sum = es.length := by simp [Entry.worth]
    rw [← hone]
    exact hvalue .count
  · exact hvalue .unreplicated
  · exact hvalue .replicated
  · have hshape' : ∀ e ∈ es', e.shape = s.shape :=
      hmatched.forall_of_forall (fun _ _ he hs => he.shape_eq ▸ hs) hshape
    obtain ⟨found', hfound', hvalue'⟩ := summarize_eq_ok hbudget' hcells' hshape' label'
    have hsame : found' = found := Summary.ext_value fun m => by
      rw [hvalue, hvalue', hmatched.sum_eq fun _ _ he => he.worth_eq m]
    rw [hfound', hsame]

/-- The versions of a deleted key: one whose parts are longer than any word but are kept in no copy,
and one in stripes that are longer than any word. -/
def bulkyVersions : List StoredKey :=
  [.sample "a" (.copies 0) [0xffff_ffff_ffff_ffff, 9],
    .sample "b" (.striped 255 2 0x8000_0000_0000_0000) [5, 7]]

/-- The same versions in the other order, one with its parts in the other order. -/
def bulkyVersionsTurned : List StoredKey :=
  [.sample "b" (.striped 255 2 0x8000_0000_0000_0000) [5, 7],
    .sample "a" (.copies 0) [9, 0xffff_ffff_ffff_ffff]]

def plainVersions : List StoredKey := [.sample "c" (.copies 3) [1, 2]]

def pastDeleted (first second : List StoredKey) : Cursor :=
  ⟨"d", .deleted, [([1], Wire.listBytes Wire.keyBytes first),
    ([2], Wire.listBytes Wire.keyBytes second)], [], none⟩

/-- The data of the first key stops at the largest word, and with the rest at the largest statistic.
What is stored of it all is exact. Both totals are the same of the turned table. -/
theorem summarize_exact_bulky :
    let es := [Entry.deleted bulkyVersions, .deleted plainVersions]
    let c := pastDeleted bulkyVersions plainVersions
    (c.budget = none ∧ c.Holds es ∧ ∀ e ∈ es, e.shape = Sizer.deletedKeys.shape) ∧
    ∃ found, (c.summarize (.sized .deletedKeys) "d").2 = .ok found ∧
      found.count.toInt = 2 ∧ found.extent.unreplicated.toInt = maxSigned ∧
      found.extent.replicated.toInt = 45 ∧
      ((pastDeleted plainVersions bulkyVersionsTurned).summarize (.sized .deletedKeys) "e").2 =
        .ok found := by
  intro es c
  have hholds : c.Holds es := .cons (by decide +kernel) (.cons (by decide +kernel) .nil)
  have hshape : ∀ e ∈ es, e.shape = Sizer.deletedKeys.shape := by decide
  obtain ⟨found, hfound, hcount, hdata, hstored, hturned⟩ :=
    summarize_exact (s := .deletedKeys) rfl hholds hshape "d"
  have hmatched : Matched Entry.Rearranged es
      [.deleted plainVersions, .deleted bulkyVersionsTurned] := by
    have hplain : Matched StoredKey.Rearranged plainVersions plainVersions :=
      ⟨_, .refl _, .cons ⟨rfl, .refl _⟩ .nil⟩
    have hbulky : Matched StoredKey.Rearranged bulkyVersions bulkyVersionsTurned :=
      ⟨_, .swap _ _ _, .cons ⟨rfl, .refl _⟩ (.cons ⟨rfl, .swap _ _ _⟩ .nil)⟩
    exact ⟨_, .swap _ _ _, .cons (.deleted hplain) (.cons (.deleted hbulky) .nil)⟩
  refine ⟨⟨rfl, hholds, hshape⟩, found, hfound, hcount, hdata.trans (by decide +kernel),
    hstored.trans (by decide +kernel), ?_⟩
  exact hturned _ _ "e" rfl (.cons (by decide +kernel) (.cons (by decide +kernel) .nil)) hmatched

end Cursor

end TableTotals
