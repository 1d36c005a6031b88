import TableTotals.Proofs.Wire.RoundTrip

/-!
Bytes that end too soon.

The form of a value tells at its front how long the rest of it is, so no form begins with another
one. Wherever a form is cut off, inside a number, inside a text or between two members of a list,
its decoder runs out of bytes and gives no other reason (`Decoder.Needs`). As with reading, what
holds of two decoders holds of one behind the other (`Needs.bind`): a cut falls into the bytes of
the first, which is then the one that runs out, or the first reads its value and the cut falls
into the bytes of the second.
-/

namespace TableTotals.Wire

namespace Decoder

variable {α β : Type}

/-- The decoder needs all of some bytes: where only a beginning of them is there, it runs out. -/
def Needs (d : Decoder α) (bytes : List UInt8) : Prop :=
  ∀ p, p <+: bytes → p ≠ bytes → d.run p = .error .ended

/-- A beginning of two runs of bytes ends inside the first, or has all of it. -/
lemma prefix_append_cases {p u v : List UInt8} (h : p <+: u ++ v) :
    (p <+: u ∧ p ≠ u) ∨ ∃ q, q <+: v ∧ p = u ++ q := by
  by_cases hu : u <+: p
  · obtain ⟨q, rfl⟩ := hu
    exact .inr ⟨q, (List.prefix_append_right_inj u).1 h, rfl⟩
  · have hp : p <+: u :=
      (List.prefix_or_prefix_of_prefix h (List.prefix_append u v)).resolve_right hu
    refine .inl ⟨hp, ?_⟩
    rintro rfl
    exact hu (List.prefix_refl p)

lemma needs_nil (d : Decoder α) : d.Needs [] :=
  fun _ hp hne => absurd (List.prefix_nil.1 hp) hne

lemma Needs.bind {d : Decoder α} {f : α → Decoder β} {u v : List UInt8} {x : α}
    (h : d.Needs u) (hread : d.Reads u x) (hf : (f x).Needs v) : (d >>= f).Needs (u ++ v) := by
  intro p hp hne
  rw [StateT.run_bind]
  rcases prefix_append_cases hp with ⟨hpu, hpne⟩ | ⟨q, hq, rfl⟩
  · rw [h p hpu hpne]
    rfl
  · have hqne : q ≠ v := fun heq => hne (by rw [heq])
    rw [hread q]
    exact hf q hq hqne

/-- Whatever is made of the last value that is read, it comes too late. -/
lemma Needs.bind_nil {d : Decoder α} {f : α → Decoder β} {u : List UInt8} (h : d.Needs u) :
    (d >>= f).Needs u := by
  intro p hp hne
  rw [StateT.run_bind, h p hp hne]
  rfl

lemma Needs.map {d : Decoder α} {u : List UInt8} (f : α → β) (h : d.Needs u) :
    (f <$> d).Needs u := by
  intro p hp hne
  rw [StateT.run_map, h p hp hne]
  rfl

/-! ### Decoder by decoder -/

lemma needs_byte (b : UInt8) : byte.Needs [b] := by
  intro p hp hne
  have hlen : p.length ≠ 1 := fun heq => hne (hp.eq_of_length heq)
  have hle : p.length ≤ 1 := hp.length_le
  obtain rfl : p = [] := List.length_eq_zero_iff.1 (by omega)
  rfl

lemma needs_take (bytes : List UInt8) : (take bytes.length).Needs bytes := by
  intro p hp hne
  have hlen : p.length ≠ bytes.length := fun heq => hne (hp.eq_of_length heq)
  have hle : p.length ≤ bytes.length := hp.length_le
  have hshort : p.length < bytes.length := by omega
  show (if p.length < bytes.length then _ else _) = _
  rw [if_pos hshort]

/-- A number is cut off before its last group, which is the one that does not say that another
one follows. -/
lemma needs_groups (last room n : Nat) (h : n < 128 ^ (room + 1)) :
    (groups last (room + 1)).Needs (varint n) := by
  induction room generalizing n with
  | zero =>
    have hn : n < 128 := by omega
    rw [varint, if_pos hn, groups]
    exact (needs_byte _).bind_nil
  | succ room ih =>
    rw [varint]
    by_cases hn : n < 128
    · rw [if_pos hn, groups]
      exact (needs_byte _).bind_nil
    · have hhigh : n / 128 < 128 ^ (room + 1) := by
        rw [Nat.div_lt_iff_lt_mul (by omega), ← Nat.pow_succ]
        exact h
      have hb : (n % 128 + 128).toUInt8.toNat = n % 128 + 128 := toNat_toUInt8 (by omega)
      rw [if_neg hn, groups, ← List.singleton_append]
      refine (needs_byte _).bind (reads_byte _) ?_
      rw [hb, if_neg (by omega)]
      exact (ih (n / 128) hhigh).bind_nil

lemma needs_word_number {n : Nat} (h : n ≤ maxWord) : (number .bits64).Needs (varint n) :=
  needs_groups 1 9 n (by simp only [maxWord] at h; omega)

lemma needs_tag {n : Nat} (h : n < 2 ^ 32) : (number .bits32).Needs (varint n) :=
  needs_groups 15 4 n (by omega)

lemma needs_word (n : UInt64) : word.Needs (varint n.toNat) := by
  have h : n.toNat ≤ maxWord := by have := n.toNat_lt; simp only [maxWord]; omega
  exact (needs_word_number h).map UInt64.ofNat

/-- A text that is cut off is too short before it is looked at as text, so a cut inside a letter
is no exception. -/
lemma needs_text {s : String} (h : s.utf8ByteSize ≤ maxWord) : text.Needs (textBytes s) :=
  (needs_word_number h).bind (reads_word_number h)
    (needs_take s.toByteArray.data.toList).bind_nil

lemma needs_many {d : Decoder α} {form : α → List UInt8} (xs : List α)
    (hread : ∀ x ∈ xs, d.Reads (form x) x) (h : ∀ x ∈ xs, d.Needs (form x)) :
    (many d xs.length).Needs (xs.flatMap form) := by
  induction xs with
  | nil => exact needs_nil _
  | cons x xs ih =>
    have hxs := ih (fun y hy => hread y (by simp [hy])) (fun y hy => h y (by simp [hy]))
    rw [List.flatMap_cons, List.length_cons, many]
    exact (h x (by simp)).bind (hread x (by simp)) hxs.bind_nil

lemma needs_list {d : Decoder α} {form : α → List UInt8} (xs : List α)
    (hlen : xs.length ≤ maxWord) (hread : ∀ x ∈ xs, d.Reads (form x) x)
    (h : ∀ x ∈ xs, d.Needs (form x)) : (list d).Needs (listBytes form xs) :=
  (needs_word_number hlen).bind (reads_word_number hlen) (needs_many xs hread h)

lemma needs_redundancy (r : Redundancy) : redundancy.Needs (redundancyBytes r) := by
  cases r with
  | copies factor =>
    exact (needs_tag (by omega)).bind (reads_tag (by omega)) (needs_byte factor).bind_nil
  | striped data parity chunk =>
    rw [redundancyBytes, List.append_assoc]
    refine (needs_tag (by omega)).bind (reads_tag (by omega)) ?_
    exact (needs_byte data).bind (reads_byte data)
      ((needs_byte parity).bind (reads_byte parity) (needs_word chunk).bind_nil)

lemma needs_key {k : StoredKey} (h : k.Fits) : key.Needs (keyBytes k) := by
  obtain ⟨hvolume, hbucket, hname, hparts⟩ := h
  have hlist : (list word).Needs (listBytes (fun n => varint n.toNat) k.parts) :=
    needs_list k.parts hparts (fun n _ => reads_word n) fun n _ => needs_word n
  simp only [keyBytes, List.append_assoc]
  exact (needs_text hvolume).bind (reads_text hvolume)
    ((needs_text hbucket).bind (reads_text hbucket)
      ((needs_text hname).bind (reads_text hname)
        ((needs_redundancy k.redundancy).bind (reads_redundancy k.redundancy) hlist.bind_nil)))

lemma needs_versions {versions : List StoredKey} (h : (Entry.deleted versions).Fits) :
    (list key).Needs (listBytes keyBytes versions) :=
  needs_list versions h.1 (fun k hk => reads_key (h.2 k hk)) fun k hk => needs_key (h.2 k hk)

lemma Needs.front_eq {d : Decoder α} {bytes p : List UInt8} (h : d.Needs bytes)
    (hp : p <+: bytes) (hne : p ≠ bytes) : d.front p = .error .ended := by
  rw [front, h p hp hne]
  rfl

end Decoder

/-- **Truncation is always detected.** The bytes of a key, and those of a deleted key, are read
back, but no proper beginning of them is read as anything, the empty one included: what is
reported of each is that the bytes ended. -/
theorem truncation_detected :
    (∀ k : StoredKey, k.Fits → ∃ bytes, encode .key (.key k) = .ok bytes ∧
      decode .key bytes = .ok (.key k) ∧
      ∀ p, p <+: bytes → p ≠ bytes → decode .key p = .error (.malformedKey .ended)) ∧
    (∀ versions : List StoredKey, (Entry.deleted versions).Fits →
      ∃ bytes, encode .deleted (.deleted versions) = .ok bytes ∧
        decode .deleted bytes = .ok (.deleted versions) ∧
        ∀ p, p <+: bytes → p ≠ bytes → decode .deleted p = .error (.malformedDeleted .ended)) := by
  constructor
  · intro k hfits
    have hencode : encode .key (.key k) = .ok (keyBytes k) := rfl
    refine ⟨keyBytes k, hencode, decode_encode hfits hencode, fun p hp hne => ?_⟩
    rw [decode, (Decoder.needs_key hfits).front_eq hp hne]
    rfl
  · intro versions hfits
    have hencode : encode .deleted (.deleted versions) = .ok (listBytes keyBytes versions) := rfl
    refine ⟨_, hencode, decode_encode hfits hencode, fun p hp hne => ?_⟩
    rw [decode, (Decoder.needs_versions hfits).front_eq hp hne]
    rfl

/-- The form of two versions of a deleted key, cut off anywhere: between the two, inside the
letters of `том`, inside the ten groups of the longest number. -/
theorem truncation_detected_assorted :
    assortedVersions.Fits ∧ ∃ bytes, encode .deleted assortedVersions = .ok bytes ∧
      bytes.length = 57 ∧
      ∀ n < bytes.length, decode .deleted (bytes.take n) = .error (.malformedDeleted .ended) := by
  have hfits : assortedVersions.Fits := by decide +kernel
  have hlength : (encode .deleted assortedVersions).map List.length = .ok 57 := by decide +kernel
  obtain ⟨bytes, hbytes, -, hcut⟩ := truncation_detected.2 _ hfits
  have hlen : bytes.length = 57 := by
    rw [show encode .deleted assortedVersions = .ok bytes from hbytes] at hlength
    simpa [Except.map] using hlength
  refine ⟨hfits, bytes, hbytes, hlen, fun n hn => hcut _ (List.take_prefix n bytes) ?_⟩
  intro heq
  have := congrArg List.length heq
  rw [List.length_take] at this
  omega

end TableTotals.Wire
