import Mathlib.Algebra.Ring.Int.Defs
import Mathlib.Tactic.Common
import TableTotals.SortedMap.Lemmas

/-!
Sums over the pairs of a sorted map, and maps that are written pair after pair.

A write changes a sum by what it writes less what it writes over (`sum_insert`, `sum_erase`),
so a running total of the pairs can be kept without looking at the others.
-/

namespace TableTotals.SortedMap

universe u v w

variable {κ : Type u} {ν : Type v} [Ord κ]

/-- What a function makes of all pairs together. -/
def sum (m : SortedMap κ ν) (f : κ × ν → Int) : Int := (m.entries.map f).sum

/-- What a function makes of the pair of a key, and zero where there is none. -/
def part (m : SortedMap κ ν) (f : κ × ν → Int) (k : κ) : Int :=
  match m.get? k with
  | some x => f (k, x)
  | none => 0

@[simp] lemma sum_empty (f : κ × ν → Int) : (∅ : SortedMap κ ν).sum f = 0 := rfl

lemma sum_nonneg {m : SortedMap κ ν} {f : κ × ν → Int} (h : ∀ p, 0 ≤ f p) : 0 ≤ m.sum f := by
  unfold sum
  induction m.entries with
  | nil => simp
  | cons p rest ih =>
    have hp := h p
    simp only [List.map_cons, List.sum_cons]
    omega

lemma sum_one (m : SortedMap κ ν) : m.sum (fun _ => 1) = m.size := by
  unfold sum size
  induction m.entries with
  | nil => rfl
  | cons p rest ih =>
    simp only [List.map_cons, List.sum_cons, List.length_cons, ih]
    omega

variable [Std.LawfulEqOrd κ] [DecidableEq κ]

lemma find_eq_none_of_lt {k : κ} {pairs : List (κ × ν)}
    (h : ∀ p ∈ pairs, compare k p.1 = .lt) : find k pairs = none := by
  cases hf : find k pairs with
  | none => rfl
  | some x => simpa [Std.ReflOrd.compare_self] using h _ (mem_of_find hf)

lemma find_eq_none_of_ascending {k : κ} {x : ν} {pairs : List (κ × ν)}
    (h : Ascending ((k, x) :: pairs)) : find k pairs = none :=
  find_eq_none_of_lt (List.pairwise_cons.1 h).1

/-- A removal takes away what it removes. -/
theorem sum_erase (m : SortedMap κ ν) (f : κ × ν → Int) (k : κ) :
    (m.erase k).sum f = m.sum f - m.part f k := by
  obtain ⟨pairs, hasc⟩ := m
  show ((pairs.filter (compare k ·.1 ≠ .eq)).map f).sum =
    (pairs.map f).sum - (match find k pairs with | some y => f (k, y) | none => 0)
  induction pairs with
  | nil => simp
  | cons q rest ih =>
    obtain ⟨j, y⟩ := q
    have hrest := ih (List.pairwise_cons.1 hasc).2
    by_cases hk : k = j
    · subst hk
      rw [find_eq_none_of_ascending hasc] at hrest
      simp only [List.filter_cons, Std.ReflOrd.compare_self, ne_eq, not_true_eq_false,
        decide_false, Bool.false_eq_true, if_false, List.map_cons, List.sum_cons, find_cons,
        if_true] at hrest ⊢
      omega
    · have hc : compare k j ≠ .eq := fun h => hk (Std.compare_eq_iff_eq.1 h)
      rw [List.filter_cons_of_pos (by simpa using hc), find_cons, if_neg hk]
      simp only [List.map_cons, List.sum_cons]
      omega

variable [Std.TransOrd κ]

/-- Where a pair is put before all others, its key was not there. -/
lemma find_eq_none_of_head_gt {k : κ} {p : κ × ν} {pairs : List (κ × ν)}
    (h : Ascending (p :: pairs)) (hk : compare k p.1 = .lt) : find k (p :: pairs) = none := by
  refine find_eq_none_of_lt fun q hq => ?_
  rcases List.mem_cons.1 hq with rfl | hq
  · exact hk
  · exact Std.TransCmp.lt_trans hk ((List.pairwise_cons.1 h).1 q hq)

/-- A write adds what it writes and takes away what it writes over. -/
theorem sum_insert (m : SortedMap κ ν) (f : κ × ν → Int) (k : κ) (x : ν) :
    (m.insert k x).sum f = m.sum f + f (k, x) - m.part f k := by
  obtain ⟨pairs, hasc⟩ := m
  show ((place k x pairs).map f).sum =
    (pairs.map f).sum + f (k, x) - (match find k pairs with | some y => f (k, y) | none => 0)
  induction pairs with
  | nil => simp [place]
  | cons q rest ih =>
    obtain ⟨j, y⟩ := q
    simp only [place]
    split
    next hk =>
      rw [find_eq_none_of_head_gt hasc hk]
      simp only [List.map_cons, List.sum_cons]
      omega
    next hk =>
      cases Std.compare_eq_iff_eq.1 hk
      simp only [List.map_cons, List.sum_cons, find_cons, if_true]
      omega
    next hk =>
      have hne : k ≠ j := by
        rintro rfl
        simp [Std.ReflOrd.compare_self] at hk
      have := ih (List.pairwise_cons.1 hasc).2
      simp only [List.map_cons, List.sum_cons, find_cons, hne, if_false]
      omega

omit [DecidableEq κ] in
/-- Keys that ascend are settled by which keys there are. -/
lemma eq_of_ascending {a b : List κ} (ha : a.Pairwise (compare · · = .lt))
    (hb : b.Pairwise (compare · · = .lt)) (h : ∀ k, k ∈ a ↔ k ∈ b) : a = b := by
  have hne : ∀ {i j : κ}, compare i j = .lt → i ≠ j := by
    rintro i _ hlt rfl
    simp [Std.ReflOrd.compare_self] at hlt
  have hperm : a.Perm b := (List.perm_ext_iff_of_nodup (ha.imp hne) (hb.imp hne)).2 h
  refine hperm.eq_of_pairwise (fun i j _ _ hij hji => ?_) ha hb
  exact absurd rfl (hne (Std.TransCmp.lt_trans hij hji))

lemma mem_before_iff {m : SortedMap κ ν} {before after : List (κ × ν)} {k j : κ} {x y : ν}
    (h : m.entries = before ++ (k, x) :: after) :
    (j, y) ∈ before ↔ m.get? j = some y ∧ compare j k = .lt := by
  have hasc := m.ascending
  rw [h] at hasc
  obtain ⟨-, htail, hcross⟩ := List.pairwise_append.1 hasc
  constructor
  · intro hmem
    have hall : (j, y) ∈ m.entries := by simp [h, hmem]
    have hlt : compare j k = .lt := hcross (j, y) hmem (k, x) (by simp)
    exact ⟨mem_entries.1 hall, hlt⟩
  · rintro ⟨hget, hlt⟩
    have hmem := mem_entries.2 hget
    rw [h, List.mem_append, List.mem_cons] at hmem
    rcases hmem with hmem | heq | hafter
    · exact hmem
    · cases heq
      simp [Std.ReflOrd.compare_self] at hlt
    · have hgt : compare k j = .lt := (List.pairwise_cons.1 htail).1 _ hafter
      simpa [Std.ReflOrd.compare_self] using Std.TransCmp.lt_trans hlt hgt

/-! ### Maps written one pair after another -/

section Writes

variable {α : Type w} {f : α → κ} {g : α → ν}

lemma get?_foldl_insert_of_ne {xs : List α} {k : κ} (h : ∀ a ∈ xs, f a ≠ k)
    (m : SortedMap κ ν) :
    (xs.foldl (fun m a => m.insert (f a) (g a)) m).get? k = m.get? k := by
  induction xs generalizing m with
  | nil => rfl
  | cons a rest ih =>
    have ha : k ≠ f a := fun he => h a (by simp) he.symm
    rw [List.foldl_cons, ih fun b hb => h b (by simp [hb]), get?_insert, if_neg ha]

lemma get?_foldl_insert_of_mem {xs : List α} {a : α} (ha : a ∈ xs)
    (h : ∀ b ∈ xs, f b = f a → g b = g a) (m : SortedMap κ ν) :
    (xs.foldl (fun m a => m.insert (f a) (g a)) m).get? (f a) = some (g a) := by
  induction xs generalizing m a with
  | nil => simp at ha
  | cons b rest ih =>
    rw [List.foldl_cons]
    by_cases hrest : ∃ c ∈ rest, f c = f a
    · obtain ⟨c, hc, hkey⟩ := hrest
      have hval := h c (by simp [hc]) hkey
      rw [← hkey, ← hval]
      refine ih hc (fun d hd hdc => ?_) _
      rw [h d (by simp [hd]) (hdc.trans hkey), hval]
    · have hb : f a = f b := by
        rcases List.mem_cons.1 ha with rfl | ha
        · rfl
        · exact absurd ⟨a, ha, rfl⟩ hrest
      rw [get?_foldl_insert_of_ne fun c hc he => hrest ⟨c, hc, he⟩, get?_insert, if_pos hb,
        h b (by simp) hb.symm]

end Writes

lemma get?_ofList_map (keys : List κ) (f : κ → ν) (k : κ) :
    (ofList (keys.map fun j => (j, f j))).get? k = if k ∈ keys then some (f k) else none := by
  rw [ofList]
  by_cases hk : k ∈ keys
  · rw [if_pos hk]
    refine get?_foldl_insert_of_mem (f := Prod.fst) (g := Prod.snd) (a := (k, f k)) ?_ ?_ _
    · exact List.mem_map.2 ⟨k, hk, rfl⟩
    · intro b hb hbk
      obtain ⟨j, -, rfl⟩ := List.mem_map.1 hb
      exact congrArg f hbk
  · rw [if_neg hk]
    refine get?_foldl_insert_of_ne (f := Prod.fst) (g := Prod.snd) ?_ _
    intro b hb hbk
    obtain ⟨j, hj, rfl⟩ := List.mem_map.1 hb
    exact hk (hbk ▸ hj)

end TableTotals.SortedMap
