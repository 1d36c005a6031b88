import Mathlib.Algebra.Order.Ring.Nat
import Mathlib.Tactic.Ring
import TableTotals.Entry

/-!
Stored sizes against exact ones, and how they grow with the data.

A stored size is computed in words, and every step may stop at the largest word: the length of the
stripe that the data is divided by, and each product and sum behind it. The result is nevertheless
the exact size, stopped once (`Redundancy.toNat_storedSize`). Where the length of a stripe has to
stop, the data is no longer than one stripe, and the parity of so little data is the same for every
stripe that holds it (`firstChunks_of_le`).

The exact size in its turn is the data, and parity for every byte that lies in the first chunk of
its stripe. Those bytes are counted by `Redundancy.firstChunks`. More data never has fewer of them
(`firstChunks_mono`), nor more of them than bytes (`firstChunks_le`), and two pieces of data have no
more of them end to end than apart (`firstChunks_add_le`). So does the exact size grow, and with it
what is stored (`Redundancy.storedSize_lawful`).
-/

namespace TableTotals

/-! ### Stopping once and stopping on the way -/

lemma min_min_mul (a b M : Nat) : min (min a M * b) M = min (a * b) M := by
  rcases Nat.le_total a M with h | h
  · rw [Nat.min_eq_left h]
  rcases Nat.eq_zero_or_pos b with rfl | hb
  · simp
  · have hstop : M ≤ M * b := Nat.le_mul_of_pos_right M hb
    have hmore : M * b ≤ a * b := Nat.mul_le_mul_right b h
    rw [Nat.min_eq_right h]
    omega

lemma min_sum_map_min (xs : List Nat) (M : Nat) :
    min (xs.map (min · M)).sum M = min xs.sum M := by
  induction xs with
  | nil => rfl
  | cons x rest ih =>
    simp only [List.map_cons, List.sum_cons]
    omega

namespace Capped

lemma toNat_min (a b : UInt64) : (min a b).toNat = min a.toNat b.toNat := by
  show (if a ≤ b then a else b).toNat = _
  split
  next h => rw [Nat.min_eq_left (UInt64.le_iff_toNat_le.1 h)]
  next h =>
    rw [UInt64.le_iff_toNat_le] at h
    rw [Nat.min_eq_right (by omega)]

lemma toNat_le (a : UInt64) : a.toNat ≤ maxWord := by
  have := a.toNat_lt
  simp only [maxWord]
  omega

lemma toNat_foldl_add {α : Type} (f : α → UInt64) (xs : List α) (a : UInt64) :
    (xs.foldl (fun t x => add t (f x)) a).toNat =
      min (a.toNat + (xs.map fun x => (f x).toNat).sum) maxWord := by
  induction xs generalizing a with
  | nil =>
    have := toNat_le a
    simp only [List.foldl_nil, List.map_nil, List.sum_nil]
    omega
  | cons x rest ih =>
    rw [List.foldl_cons, ih, toNat_add, List.map_cons, List.sum_cons]
    omega

end Capped

namespace Redundancy

/-! ### The bytes in first chunks -/

/-- How many of `n` bytes lie in the first chunk of their stripe. -/
def firstChunks (stripe chunk n : Nat) : Nat := n / stripe * chunk + min chunk (n % stripe)

section FirstChunks

variable {stripe chunk : Nat}

/-- Every stripe that is full has a whole first chunk, and the rest has what it fills of one. The
rest may be a full stripe itself. -/
lemma firstChunks_mul_add (hpos : 0 < stripe) (hchunk : chunk ≤ stripe) (q : Nat) {r : Nat}
    (hr : r ≤ stripe) : firstChunks stripe chunk (q * stripe + r) = q * chunk + min chunk r := by
  rcases Nat.lt_or_eq_of_le hr with hlt | rfl
  · have hdiv : (q * stripe + r) / stripe = q := by
      rw [Nat.mul_comm, Nat.mul_add_div hpos, Nat.div_eq_of_lt hlt, Nat.add_zero]
    have hmod : (q * stripe + r) % stripe = r := by
      rw [Nat.mul_comm, Nat.mul_add_mod, Nat.mod_eq_of_lt hlt]
    rw [firstChunks, hdiv, hmod]
  · have hnext : q * r + r = (q + 1) * r := by ring
    rw [firstChunks, hnext, Nat.mul_div_cancel _ hpos, Nat.mul_mod_left, Nat.min_eq_left hchunk,
      Nat.min_zero, Nat.add_zero, Nat.add_mul, Nat.one_mul]

/-- Data that fits a stripe fills its first chunk first, however long the stripe is. -/
lemma firstChunks_of_le (hpos : 0 < stripe) (hchunk : chunk ≤ stripe) {n : Nat} (h : n ≤ stripe) :
    firstChunks stripe chunk n = min chunk n := by
  simpa using firstChunks_mul_add hpos hchunk 0 h

/-- A stripe that stops at the most that data can be is as good as the stripe itself. -/
lemma firstChunks_min (hpos : 0 < stripe) (hchunk : chunk ≤ stripe) {n M : Nat} (hM : chunk ≤ M)
    (hn : n ≤ M) : firstChunks (min stripe M) chunk n = firstChunks stripe chunk n := by
  rcases Nat.le_total stripe M with h | h
  · rw [Nat.min_eq_left h]
  rw [Nat.min_eq_right h, firstChunks_of_le hpos hchunk (hn.trans h)]
  rcases Nat.eq_zero_or_pos M with rfl | hM'
  · obtain rfl : n = 0 := by omega
    simp [firstChunks]
  · exact firstChunks_of_le hM' hM hn

lemma exists_stripes (hpos : 0 < stripe) (n : Nat) : ∃ q r, r < stripe ∧ n = q * stripe + r :=
  ⟨n / stripe, n % stripe, Nat.mod_lt n hpos, by rw [Nat.mul_comm, Nat.div_add_mod]⟩

lemma firstChunks_le (hpos : 0 < stripe) (hchunk : chunk ≤ stripe) (n : Nat) :
    firstChunks stripe chunk n ≤ n := by
  obtain ⟨q, r, hr, rfl⟩ := exists_stripes hpos n
  have hfull : q * chunk ≤ q * stripe := Nat.mul_le_mul_left q hchunk
  rw [firstChunks_mul_add hpos hchunk q hr.le]
  omega

/-- **More data has no fewer bytes in first chunks.** Either the new data stays in the stripe where
the old data ends, or that stripe has a whole first chunk by now. -/
lemma firstChunks_mono (hpos : 0 < stripe) (hchunk : chunk ≤ stripe) {a b : Nat} (h : a ≤ b) :
    firstChunks stripe chunk a ≤ firstChunks stripe chunk b := by
  obtain ⟨p, r, hr, rfl⟩ := exists_stripes hpos a
  obtain ⟨q, s, hs, rfl⟩ := exists_stripes hpos b
  rw [firstChunks_mul_add hpos hchunk p hr.le, firstChunks_mul_add hpos hchunk q hs.le]
  have hpq : p ≤ q := by
    by_contra hlt
    have hnext : (q + 1) * stripe ≤ p * stripe := Nat.mul_le_mul_right stripe (by omega)
    rw [Nat.add_mul, Nat.one_mul] at hnext
    omega
  rcases Nat.lt_or_eq_of_le hpq with hlt | rfl
  · have hnext : (p + 1) * chunk ≤ q * chunk := Nat.mul_le_mul_right chunk hlt
    rw [Nat.add_mul, Nat.one_mul] at hnext
    omega
  · omega

/-- **Data laid end to end has no more bytes in first chunks than apart.** Behind the full stripes
of the two pieces their rests fill one first chunk where they had two; or they fill a stripe, and
the new rest reaches less far into the next one than either of them reached. -/
lemma firstChunks_add_le (hpos : 0 < stripe) (hchunk : chunk ≤ stripe) (a b : Nat) :
    firstChunks stripe chunk (a + b) ≤
      firstChunks stripe chunk a + firstChunks stripe chunk b := by
  obtain ⟨p, r, hr, rfl⟩ := exists_stripes hpos a
  obtain ⟨q, s, hs, rfl⟩ := exists_stripes hpos b
  rw [firstChunks_mul_add hpos hchunk p hr.le, firstChunks_mul_add hpos hchunk q hs.le]
  rcases Nat.le_total (r + s) stripe with hfits | hover
  · -- the rests fit one stripe
    have hsum : p * stripe + r + (q * stripe + s) = (p + q) * stripe + (r + s) := by ring
    rw [hsum, firstChunks_mul_add hpos hchunk _ hfits, Nat.add_mul]
    omega
  · -- the rests fill a stripe and begin another
    have hsum : p * stripe + r + (q * stripe + s) = (p + q + 1) * stripe + (r + s - stripe) := by
      rw [Nat.add_mul, Nat.add_mul, Nat.one_mul]
      omega
    have hrest : r + s - stripe ≤ stripe := by omega
    rw [hsum, firstChunks_mul_add hpos hchunk _ hrest, Nat.add_mul, Nat.add_mul, Nat.one_mul]
    omega

end FirstChunks

variable {data parity : UInt8} {chunk : UInt64}

/-! ### Stored sizes are exact -/

lemma degenerate_iff : Degenerate data chunk ↔ data.toNat = 0 ∨ chunk.toNat = 0 := by
  simp only [Degenerate, ← UInt8.toNat_inj, ← UInt64.toNat_inj, UInt8.toNat_zero,
    UInt64.toNat_zero]

lemma stripe_pos (h : ¬Degenerate data chunk) :
    0 < data.toNat * chunk.toNat ∧ chunk.toNat ≤ data.toNat * chunk.toNat := by
  rw [degenerate_iff] at h
  have hdata : 0 < data.toNat := by omega
  have hchunk : 0 < chunk.toNat := by omega
  exact ⟨Nat.mul_pos hdata hchunk, Nat.le_mul_of_pos_left _ hdata⟩

lemma toNat_stripe (data : UInt8) (chunk : UInt64) :
    (Capped.mul data.toUInt64 chunk).toNat = min (data.toNat * chunk.toNat) maxWord := by
  rw [Capped.toNat_mul, UInt8.toNat_toUInt64]

lemma exactSize_striped (h : ¬Degenerate data chunk) (n : Nat) :
    (striped data parity chunk).exactSize n =
      n + parity.toNat * firstChunks (data.toNat * chunk.toNat) chunk.toNat n := by
  rw [exactSize, if_neg h, firstChunks]

lemma toNat_parityBytes (h : ¬Degenerate data chunk) (n : UInt64) :
    (parityBytes data parity chunk n).toNat =
      min (parity.toNat * firstChunks (data.toNat * chunk.toNat) chunk.toNat n.toNat) maxWord := by
  obtain ⟨hpos, hchunk⟩ := stripe_pos h
  -- the length that is divided by may have stopped, and makes no difference then
  rw [← firstChunks_min hpos hchunk (Capped.toNat_le chunk) (Capped.toNat_le n), ← toNat_stripe,
    firstChunks]
  simp only [parityBytes, Capped.toNat_add, Capped.toNat_mul, Capped.toNat_min,
    UInt8.toNat_toUInt64, UInt64.toNat_div, UInt64.toNat_mod, min_min_mul]
  generalize n.toNat / _ = full
  generalize min chunk.toNat _ = lead
  have hsum : parity.toNat * (full * chunk.toNat + lead) =
      full * parity.toNat * chunk.toNat + lead * parity.toNat := by ring
  rw [hsum]
  omega

/-- **A stored size is the exact size, stopped once at the largest word.** -/
theorem toNat_storedSize (r : Redundancy) (n : UInt64) :
    (r.storedSize n).toNat = min (r.exactSize n.toNat) maxWord := by
  cases r with
  | copies factor => rw [storedSize, exactSize, Capped.toNat_mul, UInt8.toNat_toUInt64]
  | striped data parity chunk =>
    by_cases h : Degenerate data chunk
    · rw [storedSize, exactSize, if_pos h, if_pos h, Nat.min_eq_left (Capped.toNat_le n)]
    · rw [storedSize, if_neg h, exactSize_striped h, Capped.toNat_add, toNat_parityBytes h]
      omega

/-- **What is stored for `n` bytes is exact until it stops at the largest word**, though the length
of a stripe and every step behind it may have to stop earlier. Copies store the data so many times.
Stripes store it with parity for the first chunk of every full stripe and for what the rest fills of
one; the length by which they divide is never zero. Stripes that can hold nothing store the data. -/
theorem storedSize_exact (n : UInt64) :
    (∀ factor, ((copies factor).storedSize n).toNat = min maxWord (n.toNat * factor.toNat)) ∧
    (∀ data parity chunk, 0 < data → 0 < chunk →
      0 < Capped.mul data.toUInt64 chunk ∧
      ((striped data parity chunk).storedSize n).toNat =
        min maxWord (n.toNat + parity.toNat *
          (n.toNat / (data.toNat * chunk.toNat) * chunk.toNat +
            min chunk.toNat (n.toNat % (data.toNat * chunk.toNat))))) ∧
    ∀ data parity chunk, data = 0 ∨ chunk = 0 → (striped data parity chunk).storedSize n = n := by
  refine ⟨fun factor => ?_, fun data parity chunk hdata hchunk => ?_,
    fun data parity chunk h => ?_⟩
  · rw [toNat_storedSize, exactSize, Nat.min_comm]
  · rw [UInt8.lt_iff_toNat_lt, UInt8.toNat_zero] at hdata
    rw [UInt64.lt_iff_toNat_lt, UInt64.toNat_zero] at hchunk
    have h : ¬Degenerate data chunk := by
      rw [degenerate_iff]
      omega
    refine ⟨?_, ?_⟩
    · have hpos := (stripe_pos h).1
      rw [UInt64.lt_iff_toNat_lt, toNat_stripe, UInt64.toNat_zero]
      simp only [maxWord]
      omega
    · rw [toNat_storedSize, exactSize_striped h, Nat.min_comm, firstChunks]
  · exact if_pos h

/-- Stripes longer than any word, and data that ends in the second chunk of one. -/
theorem storedSize_exact_longStripe :
    (0 : UInt8) < 255 ∧ (0 : UInt64) < 0x1000_0000_0000_0000 ∧
    maxWord < 255 * 0x1000_0000_0000_0000 ∧
    0 < Capped.mul 255 0x1000_0000_0000_0000 ∧
    ((striped 255 2 0x1000_0000_0000_0000).storedSize 0x1000_0000_0000_0007).toNat =
      3 * 0x1000_0000_0000_0000 + 7 ∧
    (striped 0 2 0x1000_0000_0000_0000).storedSize 7 = 7 := by
  obtain ⟨hpos, hsize⟩ := (storedSize_exact 0x1000_0000_0000_0007).2.1 255 2 0x1000_0000_0000_0000
    (by decide) (by decide)
  have hnone := (storedSize_exact 7).2.2 0 2 0x1000_0000_0000_0000 (.inl rfl)
  exact ⟨by decide, by decide, by decide, hpos, hsize.trans (by decide +kernel), hnone⟩

/-- A full stripe, and two chunks of another one, which has parity for the longer of them. -/
example : (striped 3 2 0x10_0000).storedSize (5 * 0x10_0000) = 9 * 0x10_0000 := by decide +kernel

/-! ### Growth -/

lemma le_exactSize_striped (data parity : UInt8) (chunk : UInt64) (n : Nat) :
    n ≤ (striped data parity chunk).exactSize n := by
  by_cases h : Degenerate data chunk
  · rw [exactSize, if_pos h]
  · rw [exactSize_striped h]
    omega

/-- Either nothing is stored of any data, or all of it is. -/
lemma exactSize_eq_zero_or_le (r : Redundancy) :
    (∀ n, r.exactSize n = 0) ∨ ∀ n, n ≤ r.exactSize n := by
  cases r with
  | copies factor =>
    rcases Nat.eq_zero_or_pos factor.toNat with h | h
    · exact .inl fun n => by rw [exactSize, h, Nat.mul_zero]
    · exact .inr fun n => Nat.le_mul_of_pos_right n h
  | striped data parity chunk => exact .inr (le_exactSize_striped data parity chunk)

lemma exactSize_zero (r : Redundancy) : r.exactSize 0 = 0 := by
  cases r with
  | copies factor => rw [exactSize, Nat.zero_mul]
  | striped data parity chunk =>
    rw [exactSize]
    split
    · rfl
    · simp

lemma exactSize_mono (r : Redundancy) {a b : Nat} (h : a ≤ b) : r.exactSize a ≤ r.exactSize b := by
  cases r with
  | copies factor => exact Nat.mul_le_mul_right _ h
  | striped data parity chunk =>
    by_cases hd : Degenerate data chunk
    · rwa [exactSize, exactSize, if_pos hd, if_pos hd]
    · obtain ⟨hpos, hchunk⟩ := stripe_pos hd
      rw [exactSize_striped hd, exactSize_striped hd]
      exact Nat.add_le_add h (Nat.mul_le_mul_left _ (firstChunks_mono hpos hchunk h))

lemma exactSize_add_le (r : Redundancy) (a b : Nat) :
    r.exactSize (a + b) ≤ r.exactSize a + r.exactSize b := by
  cases r with
  | copies factor => exact (Nat.add_mul a b _).le
  | striped data parity chunk =>
    by_cases hd : Degenerate data chunk
    · simp only [exactSize, if_pos hd, Nat.le_refl]
    · obtain ⟨hpos, hchunk⟩ := stripe_pos hd
      have hfirst := Nat.mul_le_mul_left parity.toNat (firstChunks_add_le hpos hchunk a b)
      rw [Nat.mul_add] at hfirst
      simp only [exactSize_striped hd]
      omega

lemma exactSize_sum_le (r : Redundancy) (xs : List Nat) :
    r.exactSize xs.sum ≤ (xs.map r.exactSize).sum := by
  induction xs with
  | nil => exact r.exactSize_zero.le
  | cons x rest ih =>
    have := r.exactSize_add_le x rest.sum
    simp only [List.sum_cons, List.map_cons]
    omega

lemma exactSize_striped_le (data parity : UInt8) (chunk : UInt64) (n : Nat) :
    (striped data parity chunk).exactSize n ≤ (1 + parity.toNat) * n := by
  by_cases h : Degenerate data chunk
  · rw [exactSize, if_pos h, Nat.add_mul, Nat.one_mul]
    exact Nat.le_add_right _ _
  · obtain ⟨hpos, hchunk⟩ := stripe_pos h
    have hfirst := firstChunks_le hpos hchunk n
    calc (striped data parity chunk).exactSize n
        = n + parity.toNat * firstChunks (data.toNat * chunk.toNat) chunk.toNat n :=
          exactSize_striped h n
      _ ≤ n + parity.toNat * n := Nat.add_le_add_left (Nat.mul_le_mul_left _ hfirst) n
      _ = (1 + parity.toNat) * n := by ring

lemma min_exactSize_min (r : Redundancy) (n : Nat) :
    min (r.exactSize (min n maxWord)) maxWord = min (r.exactSize n) maxWord := by
  rcases Nat.le_total n maxWord with h | h
  · rw [Nat.min_eq_left h]
  rw [Nat.min_eq_right h]
  rcases r.exactSize_eq_zero_or_le with hzero | hle
  · rw [hzero, hzero]
  · have hstop := hle maxWord
    have hmore := r.exactSize_mono h
    omega

end Redundancy

/-! ### Keys -/

namespace StoredKey

def exactData (k : StoredKey) : Nat := (k.parts.map UInt64.toNat).sum

def exactStored (k : StoredKey) : Nat := k.redundancy.exactSize k.exactData

lemma toNat_dataSize (k : StoredKey) : k.dataSize.toNat = min k.exactData maxWord := by
  have h := Capped.toNat_foldl_add id k.parts 0
  rw [UInt64.toNat_zero, Nat.zero_add] at h
  exact h

lemma toNat_storedSize (k : StoredKey) : k.storedSize.toNat = min k.exactStored maxWord := by
  calc k.storedSize.toNat
      = min (k.redundancy.exactSize k.dataSize.toNat) maxWord :=
        k.redundancy.toNat_storedSize k.dataSize
    _ = min (k.redundancy.exactSize (min k.exactData maxWord)) maxWord := by rw [toNat_dataSize]
    _ = min k.exactStored maxWord := k.redundancy.min_exactSize_min k.exactData

/-- Keys that hold the data of one key among them, or more, store no less than the one key does in
the same way. -/
lemma exactStored_le_sum {k : StoredKey} {ks : List StoredKey}
    (hks : ∀ k' ∈ ks, k'.redundancy = k.redundancy)
    (h : k.exactData ≤ (ks.map (·.exactData)).sum) :
    k.exactStored ≤ (ks.map (·.exactStored)).sum := by
  have hmap : (ks.map (·.exactData)).map k.redundancy.exactSize = ks.map (·.exactStored) := by
    rw [List.map_map]
    refine List.map_congr_left fun k' hk' => ?_
    rw [exactStored, hks k' hk']
    rfl
  calc k.exactStored
      ≤ k.redundancy.exactSize (ks.map (·.exactData)).sum := k.redundancy.exactSize_mono h
    _ ≤ ((ks.map (·.exactData)).map k.redundancy.exactSize).sum :=
        k.redundancy.exactSize_sum_le _
    _ = (ks.map (·.exactStored)).sum := by rw [hmap]

end StoredKey

namespace Entry

lemma totalSize_eq (keys : List StoredKey) :
    totalSize keys = (keys.foldl (fun t k => Capped.add t k.dataSize) 0,
      keys.foldl (fun t k => Capped.add t k.storedSize) 0) := by
  suffices h : ∀ u v : UInt64,
      keys.foldl (fun t k => (Capped.add t.1 k.dataSize, Capped.add t.2 k.storedSize)) (u, v) =
        (keys.foldl (fun t k => Capped.add t k.dataSize) u,
          keys.foldl (fun t k => Capped.add t k.storedSize) v) from h 0 0
  induction keys with
  | nil => exact fun u v => rfl
  | cons k rest ih => exact fun u v => ih _ _

/-- **The totals of keys are exact until they stop at the largest word**, whatever stopped on the
way there. -/
lemma toNat_totalSize (keys : List StoredKey) :
    (totalSize keys).1.toNat = min (keys.map (·.exactData)).sum maxWord ∧
    (totalSize keys).2.toNat = min (keys.map (·.exactStored)).sum maxWord := by
  have hdata := Capped.toNat_foldl_add (·.dataSize) keys 0
  have hstored := Capped.toNat_foldl_add (·.storedSize) keys 0
  simp only [StoredKey.toNat_dataSize, StoredKey.toNat_storedSize] at hdata hstored
  rw [← min_sum_map_min, ← min_sum_map_min (keys.map _), List.map_map, List.map_map, totalSize_eq]
  rw [UInt64.toNat_zero, Nat.zero_add] at hdata hstored
  exact ⟨hdata, hstored⟩

end Entry

namespace Redundancy

/-- **More data is never stored in less**, and data in one piece never in more than in two. Stripes
store all of the data, and at most one more time for each chunk of parity. So keys that hold the
data of one key among them, or more, are never reported to store less than the one key. -/
theorem storedSize_lawful (r : Redundancy) :
    (∀ a b, a ≤ b → r.storedSize a ≤ r.storedSize b) ∧
    (∀ a b : UInt64, a.toNat + b.toNat ≤ maxWord →
      (r.storedSize (a + b)).toNat ≤ (r.storedSize a).toNat + (r.storedSize b).toNat) ∧
    (∀ data parity chunk n, n ≤ (striped data parity chunk).storedSize n ∧
      ((striped data parity chunk).storedSize n).toNat ≤ (1 + parity.toNat) * n.toNat) ∧
    ∀ (k : StoredKey) (ks : List StoredKey), k.redundancy = r → (∀ k' ∈ ks, k'.redundancy = r) →
      k.exactData ≤ (ks.map (·.exactData)).sum → k.storedSize ≤ (Entry.totalSize ks).2 := by
  refine ⟨fun a b h => ?_, fun a b h => ?_, fun data parity chunk n => ⟨?_, ?_⟩,
    fun k ks hk hks h => ?_⟩
  · rw [UInt64.le_iff_toNat_le] at h ⊢
    have := r.exactSize_mono h
    rw [toNat_storedSize, toNat_storedSize]
    omega
  · have hsum : (a + b).toNat = a.toNat + b.toNat := by
      rw [UInt64.toNat_add, Nat.mod_eq_of_lt]
      simp only [maxWord] at h
      omega
    have := r.exactSize_add_le a.toNat b.toNat
    rw [toNat_storedSize, toNat_storedSize, toNat_storedSize, hsum]
    omega
  · rw [UInt64.le_iff_toNat_le, toNat_storedSize]
    have hall := le_exactSize_striped data parity chunk n.toNat
    have hword := Capped.toNat_le n
    omega
  · have := exactSize_striped_le data parity chunk n.toNat
    rw [toNat_storedSize]
    omega
  · subst hk
    have hexact := StoredKey.exactStored_le_sum hks h
    rw [UInt64.le_iff_toNat_le, StoredKey.toNat_storedSize, (Entry.toNat_totalSize ks).2]
    omega

/-- The data of one key ends in its second stripe. Two keys that share it end in their first. -/
theorem storedSize_lawful_pieces :
    let r := striped 3 2 4
    let key (n : UInt64) : StoredKey := .sample "k" r [n]
    ((10 : UInt64) ≤ 13 ∧ r.storedSize 10 ≤ r.storedSize 13) ∧
    (7 + 8 ≤ maxWord ∧
      (r.storedSize (7 + 8)).toNat ≤ (r.storedSize 7).toNat + (r.storedSize 8).toNat) ∧
    (key 15).storedSize ≤ (Entry.totalSize [key 7, key 8]).2 := by
  obtain ⟨hmono, hadd, -, hkeys⟩ := storedSize_lawful (striped 3 2 4)
  exact ⟨⟨by decide, hmono 10 13 (by decide)⟩, ⟨by decide, hadd 7 8 (by decide)⟩,
    hkeys _ _ rfl (by decide) (by decide)⟩

end Redundancy

end TableTotals
