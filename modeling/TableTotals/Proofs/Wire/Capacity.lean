import Mathlib.Algebra.Order.BigOperators.Group.List
import Mathlib.Algebra.Order.Group.Nat
import TableTotals.Proofs.Wire.Shortest

/-!
What some bytes have room for.

A form tells at its front how much is to follow, and may claim as much as a word can say. What is
read is bounded by the bytes that are there all the same. No form is shorter than its texts, a byte
for each part, and six bytes for each key, and what is read has a form that is no longer than the
bytes it was read from (`noLonger_of_decode`). A list that claims more members than the bytes have
room for is broken off as soon as they are used up, since every member takes some of them
(`Decoder.many_run_min`).
-/

namespace TableTotals

def StoredKey.textSize (k : StoredKey) : Nat :=
  k.volume.utf8ByteSize + k.bucket.utf8ByteSize + k.name.utf8ByteSize

def StoredKey.leastSize (k : StoredKey) : Nat := 6 + k.parts.length + k.textSize

/-- The keys in an entry: the one that it is, or every version that it keeps. -/
def Entry.keys : Entry → List StoredKey
  | .key k => [k]
  | .deleted versions => versions
  | .raw _ => []

lemma StoredKey.sum_leastSize (keys : List StoredKey) :
    (keys.map leastSize).sum =
      6 * keys.length + (keys.map (·.parts.length)).sum + (keys.map textSize).sum := by
  induction keys with
  | nil => rfl
  | cons k rest ih =>
    simp only [List.map_cons, List.sum_cons, List.length_cons, ih, leastSize]
    omega

namespace Wire

/-! ### Forms -/

lemma lt_length_textBytes (s : String) : s.utf8ByteSize < (textBytes s).length := by
  have hlen : s.toByteArray.data.toList.length = s.utf8ByteSize := rfl
  have hpos := Decoder.length_varint_pos s.utf8ByteSize
  simp only [textBytes, List.length_append, hlen]
  omega

lemma two_le_length_redundancyBytes (r : Redundancy) : 2 ≤ (redundancyBytes r).length := by
  cases r with
  | copies factor =>
    have hpos := Decoder.length_varint_pos 0
    simp only [redundancyBytes, List.length_append, List.length_singleton]
    omega
  | striped data parity chunk =>
    simp only [redundancyBytes, List.length_append, List.length_cons, List.length_nil]
    omega

lemma lt_length_listBytes {α : Type} {member : α → List UInt8} {least : α → Nat}
    (h : ∀ x, least x ≤ (member x).length) (xs : List α) :
    (xs.map least).sum < (listBytes member xs).length := by
  have hpos := Decoder.length_varint_pos xs.length
  have hmembers : (xs.map least).sum ≤ (xs.map fun x => (member x).length).sum :=
    List.sum_le_sum fun x _ => h x
  rw [listBytes, List.length_append, List.length_flatMap]
  omega

lemma leastSize_le_length_keyBytes (k : StoredKey) : k.leastSize ≤ (keyBytes k).length := by
  have hvolume := lt_length_textBytes k.volume
  have hbucket := lt_length_textBytes k.bucket
  have hname := lt_length_textBytes k.name
  have hredundancy := two_le_length_redundancyBytes k.redundancy
  have hparts : (k.parts.map fun _ => 1).sum <
      (listBytes (fun n => varint n.toNat) k.parts).length :=
    lt_length_listBytes (fun n => Nat.succ_le_of_lt (Decoder.length_varint_pos n.toNat)) k.parts
  simp only [List.map_const', List.sum_replicate, Nat.nsmul_eq_mul, Nat.mul_one] at hparts
  simp only [StoredKey.leastSize, StoredKey.textSize, keyBytes, List.length_append]
  omega

lemma sum_leastSize_le_of_decode {layout : Shape} {bytes : List UInt8} {e : Entry}
    (h : decode layout bytes = .ok e) : (e.keys.map StoredKey.leastSize).sum ≤ bytes.length := by
  obtain ⟨-, form, hencode, hform⟩ := noLonger_of_decode h
  refine Nat.le_trans ?_ hform.length_le
  cases e with
  | key k =>
    cases layout <;> simp only [encode, reduceCtorEq, Except.ok.injEq] at hencode
    subst hencode
    simpa [Entry.keys] using leastSize_le_length_keyBytes k
  | deleted versions =>
    cases layout <;> simp only [encode, reduceCtorEq, Except.ok.injEq] at hencode
    subst hencode
    exact Nat.le_of_lt (lt_length_listBytes leastSize_le_length_keyBytes versions)
  | raw bytes => exact Nat.zero_le _

/-! ### Lists that claim too much -/

namespace Decoder

variable {α : Type} {d : Decoder α} {k : Nat}

lemma many_add (d : Decoder α) (m n : Nat) :
    many d (m + n) = do
      let xs ← many d m
      let ys ← many d n
      return xs ++ ys := by
  induction m with
  | zero => simp [many]
  | succ m ih => simp [many, Nat.succ_add, ih]

/-- A list breaks off where its first members do, however many were to follow. -/
lemma many_run_of_error {m n : Nat} {bytes : List UInt8} {fault : WireFault}
    (h : (many d m).run bytes = .error fault) (hle : m ≤ n) :
    (many d n).run bytes = .error fault := by
  obtain ⟨more, rfl⟩ := Nat.exists_eq_add_of_le hle
  rw [many_add, StateT.run_bind, h]
  rfl

lemma spends_many_least (h : d.Spends fun _ u => k ≤ u.length) (n : Nat) :
    (many d n).Spends fun _ u => n * k ≤ u.length := by
  induction n with
  | zero => exact spends_pure (by simp)
  | succ n ih =>
    rw [many]
    refine h.bind fun x u hx => ih.bind fun xs v hxs => spends_pure ?_
    simp only [List.append_nil, List.length_append, Nat.succ_mul]
    omega

/-- **No more members are looked at than the bytes have room for, and one more**, however many a
list claims. -/
lemma many_run_min (h : d.Spends fun _ u => k ≤ u.length) (hk : 0 < k) (n : Nat)
    (bytes : List UInt8) :
    (many d n).run bytes = (many d (min n (bytes.length / k + 1))).run bytes := by
  rcases Nat.lt_or_ge (bytes.length / k + 1) n with hlt | hle
  · rw [Nat.min_eq_right (Nat.le_of_lt hlt)]
    rcases hrun : (many d (bytes.length / k + 1)).run bytes with fault | ⟨xs, rest⟩
    · exact many_run_of_error hrun (Nat.le_of_lt hlt)
    · -- so many members take more bytes than there are
      obtain ⟨u, hu, hlen⟩ := spends_many_least h _ _ _ _ hrun
      have hbytes : u.length ≤ bytes.length := by rw [hu, List.length_append]; omega
      have hroom : bytes.length < (bytes.length / k + 1) * k := Nat.lt_mul_of_div_lt (by omega) hk
      omega
  · rw [Nat.min_eq_left hle]

lemma spends_word_least : word.Spends fun _ u => 1 ≤ u.length :=
  spends_word.imp fun n _ hform => Nat.le_trans (length_varint_pos n.toNat) hform.length_le

lemma spends_key_least : key.Spends fun _ u => 6 ≤ u.length := by
  refine spends_key.imp fun k u hform => ?_
  have hlen := hform.2.length_le
  have hleast := leastSize_le_length_keyBytes k
  simp only [StoredKey.leastSize] at hleast
  omega

lemma take_run_of_lt {n : Nat} {bytes : List UInt8} (h : bytes.length < n) :
    (take n).run bytes = .error .ended := by
  show (if bytes.length < n then _ else _) = _
  rw [if_pos h]

lemma take_run_min (n : Nat) (bytes : List UInt8) :
    (take n).run bytes = (take (min n (bytes.length + 1))).run bytes := by
  rcases Nat.lt_or_ge (bytes.length + 1) n with hlt | hle
  · rw [take_run_of_lt (by omega), take_run_of_lt (by omega)]
  · rw [Nat.min_eq_left hle]

end Decoder

lemma decode_cases (layout : Shape) (bytes : List UInt8) :
    (∃ e, decode layout bytes = .ok e) ∨
      ∃ fault, layout = .key ∧ decode layout bytes = .error (.malformedKey fault) ∨
        layout = .deleted ∧ decode layout bytes = .error (.malformedDeleted fault) := by
  cases layout with
  | key =>
    rcases hfront : Decoder.key.front bytes with fault | k
    · exact .inr ⟨fault, .inl ⟨rfl, by rw [decode, hfront]; rfl⟩⟩
    · exact .inl ⟨.key k, by rw [decode, hfront]; rfl⟩
  | deleted =>
    rcases hfront : (Decoder.list .key).front bytes with fault | versions
    · exact .inr ⟨fault, .inr ⟨rfl, by rw [decode, hfront]; rfl⟩⟩
    · exact .inl ⟨.deleted versions, by rw [decode, hfront]; rfl⟩
  | raw => exact .inl ⟨.raw bytes, rfl⟩

/-- **What is read is bounded by the bytes that are there.** Any bytes are read as an entry, whose
keys take six bytes each, a byte for each of their parts and the bytes of their texts, all within
the bytes that there are; or it is reported of them that they are malformed. Whatever number of
parts, of versions or of letters they claim, no more of them are looked at than there can be in
the bytes that are left, and one more. -/
theorem decode_within_bytes (layout : Shape) (bytes : List UInt8) :
    ((∃ e, decode layout bytes = .ok e ∧
        6 * e.keys.length + (e.keys.map (·.parts.length)).sum +
          (e.keys.map StoredKey.textSize).sum ≤ bytes.length) ∨
      ∃ fault, layout = .key ∧ decode layout bytes = .error (.malformedKey fault) ∨
        layout = .deleted ∧ decode layout bytes = .error (.malformedDeleted fault)) ∧
    ∀ (n : Nat) (rest : List UInt8),
      (Decoder.many .word n).run rest = (Decoder.many .word (min n (rest.length + 1))).run rest ∧
      (Decoder.many .key n).run rest = (Decoder.many .key (min n (rest.length / 6 + 1))).run rest ∧
      (Decoder.take n).run rest = (Decoder.take (min n (rest.length + 1))).run rest := by
  refine ⟨(decode_cases layout bytes).imp_left ?_, fun n rest => ⟨?_, ?_, ?_⟩⟩
  · rintro ⟨e, he⟩
    refine ⟨e, he, ?_⟩
    rw [← StoredKey.sum_leastSize]
    exact sum_leastSize_le_of_decode he
  · simpa using Decoder.many_run_min Decoder.spends_word_least (by omega) n rest
  · exact Decoder.many_run_min Decoder.spends_key_least (by omega) n rest
  · exact Decoder.take_run_min n rest

/-- A key without texts and parts takes six bytes. -/
example : decode .key [0, 0, 0, 0, 1, 0] = .ok (.key ⟨"", "", "", .copies 1, []⟩) := by
  decide +kernel

/-- As many versions are claimed as a word can say. -/
example : decode .deleted (List.replicate 9 0xff ++ [0x01] ++ [0, 0, 0, 0, 1, 0]) =
    .error (.malformedDeleted .ended) := by
  decide +kernel

end Wire

end TableTotals
