import TableTotals.SortedMap

/-!
What a lookup sees of each operation on a sorted map, and that lookups are all there is to
see: `get?_insert` and `get?_erase` say what the two writing operations change, `ext_get?`
that maps with the same lookups are equal.
-/

namespace TableTotals.SortedMap

universe u v

variable {κ : Type u} {ν : Type v} [Ord κ]

@[simp] theorem find_nil (k : κ) : find k ([] : List (κ × ν)) = none := rfl

@[simp] theorem get?_empty (k : κ) : (∅ : SortedMap κ ν).get? k = none := rfl

@[simp] theorem entries_empty : (∅ : SortedMap κ ν).entries = [] := rfl

theorem ascending_keys (m : SortedMap κ ν) : m.keys.Pairwise (compare · · = .lt) :=
  List.pairwise_map.2 m.ascending

variable [Std.LawfulEqOrd κ]

theorem nodup_keys (m : SortedMap κ ν) : m.keys.Nodup := by
  rw [keys, List.nodup_iff_pairwise_ne, List.pairwise_map]
  refine m.ascending.imp fun h => ?_
  intro he
  rw [he, Std.ReflOrd.compare_self] at h
  cases h

variable [DecidableEq κ]

theorem find_cons (k k' : κ) (x : ν) (rest : List (κ × ν)) :
    find k ((k', x) :: rest) = if k = k' then some x else find k rest := by
  simp [find]

theorem find_place (k k' : κ) (x : ν) (pairs : List (κ × ν)) :
    find k' (place k x pairs) = if k' = k then some x else find k' pairs := by
  induction pairs with
  | nil => simp [place, find_cons]
  | cons q rest ih =>
    obtain ⟨j, y⟩ := q
    simp only [place]
    split
    · simp [find_cons]
    next hk =>
      cases Std.compare_eq_iff_eq.1 hk
      by_cases h : k' = k <;> simp [find_cons, h]
    next hk =>
      have hne : k ≠ j := by
        rintro rfl
        simp [Std.ReflOrd.compare_self] at hk
      simp only [find_cons, ih]
      by_cases h : k' = k
      · subst h; simp [hne]
      · simp [h]

@[simp] theorem get?_insert [Std.TransOrd κ] (m : SortedMap κ ν) (k k' : κ) (x : ν) :
    (m.insert k x).get? k' = if k' = k then some x else m.get? k' :=
  find_place k k' x m.entries

theorem find_filter_ne (k k' : κ) (pairs : List (κ × ν)) :
    find k' (pairs.filter (compare k ·.1 ≠ .eq)) = if k' = k then none else find k' pairs := by
  induction pairs with
  | nil => simp
  | cons q rest ih =>
    obtain ⟨j, y⟩ := q
    by_cases hk : k = j
    · subst hk
      simp only [ne_eq, Std.ReflOrd.compare_self, not_true_eq_false, decide_false,
        Bool.false_eq_true, not_false_eq_true, List.filter_cons_of_neg, find_cons] at ih ⊢
      rw [ih]
      by_cases h : k' = k <;> simp [h]
    · have hc : compare k j ≠ .eq := fun h => hk (Std.compare_eq_iff_eq.1 h)
      rw [List.filter_cons_of_pos (by simpa using hc), find_cons, ih, find_cons]
      by_cases h : k' = k
      · subst h; simp [hk]
      · simp [h]

@[simp] theorem get?_erase (m : SortedMap κ ν) (k k' : κ) :
    (m.erase k).get? k' = if k' = k then none else m.get? k' :=
  find_filter_ne k k' m.entries

theorem mem_of_find {k : κ} {x : ν} {pairs : List (κ × ν)} (h : find k pairs = some x) :
    (k, x) ∈ pairs := by
  induction pairs with
  | nil => simp at h
  | cons q rest ih =>
    obtain ⟨j, y⟩ := q
    rw [find_cons] at h
    split at h
    · simp_all
    · exact List.mem_cons_of_mem _ (ih h)

theorem find_of_mem {k : κ} {x : ν} {pairs : List (κ × ν)} (hs : Ascending pairs)
    (h : (k, x) ∈ pairs) : find k pairs = some x := by
  induction pairs with
  | nil => simp at h
  | cons q rest ih =>
    obtain ⟨j, y⟩ := q
    obtain ⟨hlow, hrest⟩ := List.pairwise_cons.1 hs
    rw [find_cons]
    rcases List.mem_cons.1 h with h | h
    · simp_all
    · have hlt := hlow _ h
      rw [if_neg, ih hrest h]
      rintro rfl
      simp [Std.ReflOrd.compare_self] at hlt

/-- The pairs of a map are exactly what its lookups find. -/
theorem mem_entries {m : SortedMap κ ν} {k : κ} {x : ν} :
    (k, x) ∈ m.entries ↔ m.get? k = some x :=
  ⟨find_of_mem m.ascending, mem_of_find⟩

theorem mem_keys {m : SortedMap κ ν} {k : κ} : k ∈ m.keys ↔ (m.get? k).isSome := by
  rw [Option.isSome_iff_exists]
  simp [keys, mem_entries]

variable [Std.TransOrd κ]

theorem entries_ext {a b : List (κ × ν)} (ha : Ascending a) (hb : Ascending b)
    (h : ∀ k, find k a = find k b) : a = b := by
  induction a generalizing b with
  | nil =>
    cases b with
    | nil => rfl
    | cons q rest =>
      obtain ⟨j, y⟩ := q
      simpa [find_cons] using h j
  | cons p as ih =>
    cases b with
    | nil =>
      obtain ⟨i, x⟩ := p
      simpa [find_cons] using h i
    | cons q bs =>
      obtain ⟨i, x⟩ := p
      obtain ⟨j, y⟩ := q
      obtain ⟨hi, has⟩ := List.pairwise_cons.1 ha
      obtain ⟨hj, hbs⟩ := List.pairwise_cons.1 hb
      have hij : i = j := by
        by_cases hne : i = j
        · exact hne
        · have h1 : find i bs = some x := by simpa [find_cons, hne] using (h i).symm
          have h2 : find j as = some y := by
            simpa [find_cons, Ne.symm hne] using h j
          have l1 := hj _ (mem_of_find h1)
          have l2 := hi _ (mem_of_find h2)
          have := Std.TransCmp.lt_trans l1 l2
          simp [Std.ReflOrd.compare_self] at this
      subst hij
      have hxy : x = y := by simpa [find_cons] using h i
      subst hxy
      rw [ih has hbs]
      intro k
      by_cases hk : k = i
      · subst hk
        have n1 : find k as = none := by
          cases hf : find k as with
          | none => rfl
          | some z => simpa [Std.ReflOrd.compare_self] using hi _ (mem_of_find hf)
        have n2 : find k bs = none := by
          cases hf : find k bs with
          | none => rfl
          | some z => simpa [Std.ReflOrd.compare_self] using hj _ (mem_of_find hf)
        rw [n1, n2]
      · simpa [find_cons, hk] using h k

/-- Two maps that answer every lookup alike are equal. -/
theorem ext_get? {a b : SortedMap κ ν} (h : ∀ k, a.get? k = b.get? k) : a = b := by
  cases a with
  | mk as ha =>
    cases b with
    | mk bs hb =>
      have := entries_ext ha hb h
      subst this
      rfl

end TableTotals.SortedMap
