import Mathlib.Algebra.Ring.Nat
import Mathlib.Tactic.Common
import TableTotals.Wire.Entry

/-!
Reading back what was written: a table finds in the bytes of an entry that very entry, whatever
follows them (`decode_append`).

Each decoder is shown to read the form of a value off the front of the bytes and to leave
whatever follows it (`Decoder.Reads`). Forms are put one behind the other and so are their
decoders, so `Reads.bind` carries the whole argument from single bytes up to deleted keys.
-/

namespace TableTotals.Wire

namespace Decoder

variable {α β : Type}

/-- The decoder reads a value off some bytes, whatever follows them. -/
def Reads (d : Decoder α) (bytes : List UInt8) (x : α) : Prop :=
  ∀ rest, d.run (bytes ++ rest) = .ok (x, rest)

lemma Reads.pure (x : α) : Reads (Pure.pure x) [] x := fun _ => rfl

lemma Reads.bind {d : Decoder α} {f : α → Decoder β} {u v : List UInt8} {x : α} {y : β}
    (h : d.Reads u x) (hf : (f x).Reads v y) : (d >>= f).Reads (u ++ v) y := by
  intro rest
  rw [List.append_assoc, StateT.run_bind, h]
  exact hf rest

lemma Reads.bind_nil {d : Decoder α} {f : α → Decoder β} {u : List UInt8} {x : α} {y : β}
    (h : d.Reads u x) (hf : (f x).Reads [] y) : (d >>= f).Reads u y := by
  simpa using h.bind hf

lemma Reads.map {d : Decoder α} {bytes : List UInt8} {x : α} (f : α → β) (h : d.Reads bytes x) :
    (f <$> d).Reads bytes (f x) := by
  intro rest
  rw [StateT.run_map, h]
  rfl

lemma reads_byte (b : UInt8) : byte.Reads [b] b := fun _ => rfl

lemma reads_take (bytes : List UInt8) : (take bytes.length).Reads bytes bytes := by
  intro rest
  have hlen : ¬(bytes ++ rest).length < bytes.length := by simp
  show (if (bytes ++ rest).length < bytes.length then _ else _) = _
  rw [if_neg hlen, List.splitAt_eq, List.take_left, List.drop_left]

lemma toNat_toUInt8 {n : Nat} (h : n < 256) : n.toUInt8.toNat = n := by
  simp [Nat.mod_eq_of_lt h]

lemma reads_groups_last {last room n : Nat} (hn : n < 128) (h : room = 0 → n ≤ last) :
    (groups last (room + 1)).Reads [n.toUInt8] n := by
  have hb : n.toUInt8.toNat = n := toNat_toUInt8 (by omega)
  rw [groups]
  refine (reads_byte _).bind_nil ?_
  rw [hb, if_pos hn, if_neg (by omega)]
  exact Reads.pure n

lemma reads_groups_more {last room low high : Nat} {bytes : List UInt8} (hlow : low < 128)
    (h : (groups last room).Reads bytes high) :
    (groups last (room + 1)).Reads ((low + 128).toUInt8 :: bytes) (low + 128 * high) := by
  have hb : (low + 128).toUInt8.toNat = low + 128 := toNat_toUInt8 (by omega)
  rw [groups, ← List.singleton_append]
  refine Reads.bind (reads_byte _) ?_
  rw [hb, if_neg (by omega), Nat.add_sub_cancel]
  exact h.bind_nil (Reads.pure _)

/-- Each group but the last takes seven bits off the number, and the last one has room for what
is then left. -/
lemma reads_groups (last room n : Nat) (hlast : last < 128) (h : n < 128 ^ room * (last + 1)) :
    (groups last (room + 1)).Reads (varint n) n := by
  induction room generalizing n with
  | zero =>
    have hn : n ≤ last := by omega
    rw [varint, if_pos (by omega)]
    exact reads_groups_last (by omega) fun _ => hn
  | succ room ih =>
    rw [varint]
    by_cases hn : n < 128
    · rw [if_pos hn]
      exact reads_groups_last hn (by omega)
    · have hhigh : n / 128 < 128 ^ room * (last + 1) := by
        rw [Nat.div_lt_iff_lt_mul (by omega)]
        calc n < 128 ^ (room + 1) * (last + 1) := h
          _ = 128 ^ room * (last + 1) * 128 := by rw [Nat.pow_succ]; ac_rfl
      rw [if_neg hn]
      have := reads_groups_more (Nat.mod_lt n (by omega)) (ih (n / 128) hhigh)
      rwa [Nat.mod_add_div] at this

lemma reads_word_number {n : Nat} (h : n ≤ maxWord) : (number .bits64).Reads (varint n) n :=
  reads_groups 1 9 n (by omega) (by simp only [maxWord] at h; omega)

lemma reads_tag {n : Nat} (h : n < 2 ^ 32) : (number .bits32).Reads (varint n) n :=
  reads_groups 15 4 n (by omega) (by omega)

lemma reads_word (n : UInt64) : word.Reads (varint n.toNat) n := by
  have h : n.toNat ≤ maxWord := by have := n.toNat_lt; simp only [maxWord]; omega
  simpa [word] using (reads_word_number h).map UInt64.ofNat

lemma fromUTF8?_toByteArray (s : String) : String.fromUTF8? s.toByteArray = some s := by
  rw [String.fromUTF8?, dif_pos s.isValidUTF8]
  rfl

lemma reads_text {s : String} (h : s.utf8ByteSize ≤ maxWord) : text.Reads (textBytes s) s := by
  refine Reads.bind (reads_word_number h) ?_
  refine (reads_take s.toByteArray.data.toList).bind_nil ?_
  simp only [Array.toArray_toList]
  rw [fromUTF8?_toByteArray]
  exact Reads.pure s

lemma reads_many {d : Decoder α} {form : α → List UInt8} (xs : List α)
    (h : ∀ x ∈ xs, d.Reads (form x) x) : (many d xs.length).Reads (xs.flatMap form) xs := by
  induction xs with
  | nil => exact Reads.pure []
  | cons x xs ih =>
    have hxs := ih fun y hy => h y (by simp [hy])
    rw [List.flatMap_cons, List.length_cons, many]
    exact (h x (by simp)).bind (hxs.bind_nil (Reads.pure _))

lemma reads_list {d : Decoder α} {form : α → List UInt8} (xs : List α)
    (hlen : xs.length ≤ maxWord) (h : ∀ x ∈ xs, d.Reads (form x) x) :
    (list d).Reads (listBytes form xs) xs :=
  (reads_word_number hlen).bind (reads_many xs h)

lemma reads_redundancy (r : Redundancy) : redundancy.Reads (redundancyBytes r) r := by
  cases r with
  | copies factor =>
    refine (reads_tag (by omega)).bind ?_
    exact (reads_byte factor).bind_nil (Reads.pure _)
  | striped data parity chunk =>
    rw [redundancyBytes, List.append_assoc]
    refine (reads_tag (by omega)).bind ?_
    exact (reads_byte data).bind ((reads_byte parity).bind ((reads_word chunk).bind_nil
      (Reads.pure _)))

lemma reads_key {k : StoredKey} (h : k.Fits) : key.Reads (keyBytes k) k := by
  obtain ⟨hvolume, hbucket, hname, hparts⟩ := h
  simp only [keyBytes, List.append_assoc]
  exact (reads_text hvolume).bind ((reads_text hbucket).bind ((reads_text hname).bind
    ((reads_redundancy k.redundancy).bind
      ((reads_list k.parts hparts fun n _ => reads_word n).bind_nil (Reads.pure _)))))

lemma Reads.front_eq {d : Decoder α} {bytes : List UInt8} {x : α} (h : d.Reads bytes x)
    (rest : List UInt8) : d.front (bytes ++ rest) = .ok x := by
  rw [front, h]
  rfl

end Decoder

/-- An entry ends where its bytes end: whatever follows them is left alone, but where an entry is
all the bytes there are. -/
lemma decode_append {layout : Shape} {e : Entry} {bytes : List UInt8} (hraw : layout ≠ .raw)
    (hfits : e.Fits) (h : encode layout e = .ok bytes) (rest : List UInt8) :
    decode layout (bytes ++ rest) = .ok e := by
  cases e with
  | key k =>
    cases layout <;> simp only [encode, reduceCtorEq, Except.ok.injEq] at h
    have hread : Decoder.key.Reads (keyBytes k) k := Decoder.reads_key hfits
    rw [← h, decode, hread.front_eq]
    rfl
  | deleted versions =>
    cases layout <;> simp only [encode, reduceCtorEq, Except.ok.injEq] at h
    have hread : (Decoder.list .key).Reads (listBytes keyBytes versions) versions :=
      Decoder.reads_list versions hfits.1 fun k hk => Decoder.reads_key (hfits.2 k hk)
    rw [← h, decode, hread.front_eq]
    rfl
  | raw bytes =>
    cases layout <;> simp only [encode, reduceCtorEq] at h
    exact absurd rfl hraw

/-- An entry is read back from its bytes. -/
theorem decode_encode {layout : Shape} {e : Entry} {bytes : List UInt8} (hfits : e.Fits)
    (h : encode layout e = .ok bytes) : decode layout bytes = .ok e := by
  by_cases hraw : layout = .raw
  · subst hraw
    cases e <;> simp only [encode, reduceCtorEq, Except.ok.injEq] at h
    rw [← h]
    rfl
  · simpa using decode_append hraw hfits h []

lemma encode_of_shape {layout : Shape} {e : Entry} (h : e.shape = layout) :
    ∃ bytes, encode layout e = .ok bytes := by
  subst h
  cases e <;> exact ⟨_, rfl⟩

lemma encode_of_mismatch {layout : Shape} {e : Entry} (h : e.shape ≠ layout) :
    encode layout e = .error (.mismatch e.shape layout) := by
  cases e <;> cases layout <;> first | rfl | exact absurd rfl h

/-- **Decoding undoes encoding, whatever follows.** A table refuses an entry if and only if it is
of another shape than the table's layout. The bytes of any other entry whose lengths are words are
read back as that very entry. Keys and deleted keys are read off the front of whatever bytes begin
with theirs; raw bytes have no end of their own. -/
theorem decode_undoes_encode (layout : Shape) (e : Entry) :
    (∀ cause, encode layout e = .error cause ↔
      e.shape ≠ layout ∧ cause = .mismatch e.shape layout) ∧
    (e.shape = layout → e.Fits → ∃ bytes, encode layout e = .ok bytes ∧
      decode layout bytes = .ok e ∧
      (layout ≠ .raw → ∀ rest, decode layout (bytes ++ rest) = .ok e)) := by
  constructor
  · intro cause
    by_cases hshape : e.shape = layout
    · obtain ⟨bytes, hbytes⟩ := encode_of_shape hshape
      simp [hbytes, hshape]
    · simp [encode_of_mismatch hshape, hshape, eq_comm]
  · intro hshape hfits
    obtain ⟨bytes, hbytes⟩ := encode_of_shape hshape
    refine ⟨bytes, hbytes, decode_encode hfits hbytes, fun hraw rest => ?_⟩
    exact decode_append hraw hfits hbytes rest

/-- Two versions of a deleted key: one in stripes of the largest chunks, with texts of more than a
byte a letter, an empty name and parts of every length of number, and one without parts. -/
def assortedVersions : Entry :=
  let longest := 0xffff_ffff_ffff_ffff
  .deleted [⟨"том", "桶", "", .striped 6 3 longest, [0, 127, 128, longest]⟩,
    .sample "k" (.copies 255) []]

/-- Bytes that would go on with a number, and do not end it, follow the versions. -/
theorem decode_undoes_encode_assorted :
    assortedVersions.shape = .deleted ∧ assortedVersions.Fits ∧
    encode .key assortedVersions = .error (.mismatch .deleted .key) ∧
    ∃ bytes, encode .deleted assortedVersions = .ok bytes ∧
      decode .deleted (bytes ++ [0xff, 0x80]) = .ok assortedVersions := by
  have hshape : assortedVersions.shape = .deleted := rfl
  have hfits : assortedVersions.Fits := by decide +kernel
  have hrefused := (decode_undoes_encode .key assortedVersions).1 (.mismatch .deleted .key)
  obtain ⟨bytes, hbytes, -, hrest⟩ :=
    (decode_undoes_encode .deleted assortedVersions).2 hshape hfits
  refine ⟨hshape, hfits, hrefused.2 ⟨by decide, rfl⟩, bytes, hbytes, ?_⟩
  exact hrest (by decide) [0xff, 0x80]

end TableTotals.Wire
