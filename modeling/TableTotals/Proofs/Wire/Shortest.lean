import TableTotals.Proofs.Wire.RoundTrip

/-!
The form that is written is the shortest one.

A number may be read from more groups than it needs, and bytes that are left over are ignored, so
many runs of bytes are read as one value. Of all of them the form that is written is the shortest,
and no other one is as short (`reencode_shortest`). It is enough to look at the bytes that each
decoder spends on a value (`Decoder.Spends`): those of a number are no fewer than the number's
shortest form, and are that form if they are no more (`NoLonger`), and runs of bytes that are put
one behind the other compare like their parts (`NoLonger.append`).
-/

namespace TableTotals.Wire

/-- Some bytes are other ones, or fewer. -/
def NoLonger (u v : List UInt8) : Prop := u = v ∨ u.length < v.length

namespace NoLonger

variable {u u' v v' : List UInt8}

lemma refl (u : List UInt8) : NoLonger u u := .inl rfl

lemma length_le (h : NoLonger u v) : u.length ≤ v.length := by
  rcases h with rfl | h
  · exact Nat.le_refl _
  · exact Nat.le_of_lt h

lemma eq_of_length (h : NoLonger u v) (hlen : u.length = v.length) : u = v := by
  rcases h with rfl | h
  · rfl
  · omega

lemma append (h : NoLonger u v) (h' : NoLonger u' v') : NoLonger (u ++ u') (v ++ v') := by
  have hle := h.length_le
  have hle' := h'.length_le
  rcases h with rfl | h
  · rcases h' with rfl | h'
    · exact .refl _
    · exact .inr (by simp only [List.length_append]; omega)
  · exact .inr (by simp only [List.length_append]; omega)

lemma append_right (h : NoLonger u v) (rest : List UInt8) : NoLonger u (v ++ rest) := by
  have hrest : NoLonger [] rest := by
    cases rest with
    | nil => exact .refl []
    | cons b rest => exact .inr (by simp)
  simpa using h.append hrest

end NoLonger

namespace Decoder

variable {α β : Type}

/-- Whatever value the decoder reads, it stands so to the bytes that the decoder took for it. -/
def Spends (d : Decoder α) (spent : α → List UInt8 → Prop) : Prop :=
  ∀ bytes x rest, d.run bytes = .ok (x, rest) → ∃ u, bytes = u ++ rest ∧ spent x u

section Rules

variable {d : Decoder α} {f : α → Decoder β} {P : α → List UInt8 → Prop}
  {Q : β → List UInt8 → Prop}

lemma spends_pure {x : α} (h : P x []) : (Pure.pure x : Decoder α).Spends P := by
  rintro bytes y rest heq
  cases heq
  exact ⟨[], rfl, h⟩

lemma spends_throw (fault : WireFault) : (throw fault : Decoder α).Spends P := by
  rintro bytes y rest heq
  cases heq

lemma Spends.bind (h : d.Spends P) (hf : ∀ x u, P x u → (f x).Spends fun y v => Q y (u ++ v)) :
    (d >>= f).Spends Q := by
  rintro bytes y rest heq
  rw [StateT.run_bind] at heq
  rcases hd : d.run bytes with fault | ⟨x, mid⟩
  · rw [hd] at heq
    cases heq
  · rw [hd] at heq
    obtain ⟨u, rfl, hx⟩ := h bytes x mid hd
    obtain ⟨v, rfl, hy⟩ := hf x u hx mid y rest heq
    exact ⟨u ++ v, (List.append_assoc u v rest).symm, hy⟩

lemma Spends.imp {P' : α → List UInt8 → Prop} (h : d.Spends P) (himp : ∀ x u, P x u → P' x u) :
    d.Spends P' := by
  rintro bytes x rest heq
  obtain ⟨u, hu, hx⟩ := h bytes x rest heq
  exact ⟨u, hu, himp x u hx⟩

lemma Spends.map {g : α → β} (h : d.Spends fun x u => Q (g x) u) : (g <$> d).Spends Q := by
  rintro bytes y rest heq
  rw [StateT.run_map] at heq
  rcases hd : d.run bytes with fault | ⟨x, mid⟩
  · rw [hd] at heq
    cases heq
  · rw [hd] at heq
    cases heq
    exact h bytes x mid hd

end Rules

/-! ### Decoder by decoder -/

lemma spends_byte : byte.Spends fun b u => u = [b] := by
  rintro (_ | ⟨b, bytes⟩) x rest heq
  · cases heq
  · cases heq
    exact ⟨[b], rfl, rfl⟩

lemma spends_take (n : Nat) : (take n).Spends fun bytes u => u = bytes ∧ bytes.length = n := by
  intro bytes x rest heq
  replace heq : (if bytes.length < n then .error .ended else .ok (bytes.splitAt n)) =
    (.ok (x, rest) : Except WireFault _) := heq
  split at heq
  · cases heq
  next hlen =>
    rw [List.splitAt_eq] at heq
    cases heq
    exact ⟨bytes.take n, (List.take_append_drop n bytes).symm, rfl,
      List.length_take_of_le (by omega)⟩

lemma varint_of_lt {b : UInt8} (h : b.toNat < 128) : varint b.toNat = [b] := by
  rw [varint, if_pos h]
  simp

lemma length_varint_pos (n : Nat) : 0 < (varint n).length := by
  rw [varint]
  split <;> simp

/-- A group that says that another one follows is the first of the shortest form, unless the
groups that follow it come to nothing. -/
lemma noLonger_more {b : UInt8} {high : Nat} {u : List UInt8} (hb : 128 ≤ b.toNat)
    (h : NoLonger (varint high) u) : NoLonger (varint (b.toNat - 128 + 128 * high)) ([b] ++ u) := by
  have hlt : b.toNat < 256 := b.toNat_lt
  have hu : 0 < u.length := Nat.lt_of_lt_of_le (length_varint_pos high) h.length_le
  rw [varint]
  split
  · exact .inr (by simp only [List.length_append, List.length_singleton]; omega)
  next hbig =>
    have hlow : (b.toNat - 128 + 128 * high) % 128 + 128 = b.toNat := by omega
    have hhigh : (b.toNat - 128 + 128 * high) / 128 = high := by omega
    have hbyte : b.toNat.toUInt8 = b := by simp
    rw [hlow, hhigh, hbyte]
    exact (NoLonger.refl [b]).append h

/-- A number takes as many groups as it needs at least, and is within the room that it has. -/
lemma spends_groups (last room : Nat) :
    (groups last (room + 1)).Spends fun n u =>
      n < 128 ^ room * (last + 1) ∧ NoLonger (varint n) u := by
  induction room with
  | zero =>
    rw [groups]
    refine spends_byte.bind fun b u hu => ?_
    subst hu
    split
    next hb =>
      split
      · exact spends_throw _
      next hlast =>
        refine spends_pure ⟨by omega, ?_⟩
        rw [varint_of_lt hb]
        exact .refl [b]
    · exact Spends.bind (spends_throw _) (P := fun _ _ => False) fun _ _ hno => hno.elim
  | succ room ih =>
    have hroom : 128 ^ (room + 1) * (last + 1) = 128 * (128 ^ room * (last + 1)) := by
      rw [Nat.pow_succ]; ac_rfl
    have hpos : 0 < 128 ^ room * (last + 1) :=
      Nat.mul_pos (Nat.pow_pos (by omega)) (Nat.succ_pos last)
    rw [groups]
    refine spends_byte.bind fun b u hu => ?_
    subst hu
    split
    next hb =>
      rw [if_neg (by omega)]
      refine spends_pure ⟨by omega, ?_⟩
      rw [varint_of_lt hb]
      exact .refl [b]
    next hb =>
      have hlt : b.toNat < 256 := b.toNat_lt
      refine ih.bind fun high u hhigh => spends_pure ⟨by omega, ?_⟩
      simpa using noLonger_more (by omega) hhigh.2

lemma spends_word_number :
    (number .bits64).Spends fun n u => n ≤ maxWord ∧ NoLonger (varint n) u := by
  refine (spends_groups 1 9).imp fun n u h => ⟨?_, h.2⟩
  have hn := h.1
  simp only [maxWord]
  omega

lemma spends_tag : (number .bits32).Spends fun n u => NoLonger (varint n) u :=
  (spends_groups 15 4).imp fun _ _ h => h.2

lemma spends_word : word.Spends fun n u => NoLonger (varint n.toNat) u := by
  refine (spends_word_number.imp fun n u h => ?_).map
  have hn : n < UInt64.size := by
    have := h.1
    simp only [maxWord] at this
    simp only [UInt64.size]
    omega
  rw [UInt64.toNat_ofNat_of_lt' hn]
  exact h.2

lemma toByteArray_of_fromUTF8? {bytes : ByteArray} {s : String}
    (h : String.fromUTF8? bytes = some s) : s.toByteArray = bytes := by
  unfold String.fromUTF8? at h
  split at h
  · cases h
    rfl
  · cases h

lemma spends_text :
    text.Spends fun s u => s.utf8ByteSize ≤ maxWord ∧ NoLonger (textBytes s) u := by
  refine spends_word_number.bind fun n u hn => ?_
  refine (spends_take n).bind fun bytes v hv => ?_
  obtain ⟨rfl, hlen⟩ := hv
  split
  next s hs =>
    have hbytes : s.toByteArray.data.toList = v := by rw [toByteArray_of_fromUTF8? hs]
    have hsize : s.utf8ByteSize = n := by
      rw [← hlen, ← hbytes]
      rfl
    refine spends_pure ⟨hsize ▸ hn.1, ?_⟩
    simp only [textBytes, hbytes, hlen, List.append_nil]
    exact hn.2.append (.refl v)
  · exact spends_throw _

lemma spends_many {d : Decoder α} {form : α → List UInt8} {P : α → Prop}
    (h : d.Spends fun x u => P x ∧ NoLonger (form x) u) (n : Nat) :
    (many d n).Spends fun xs u =>
      xs.length = n ∧ (∀ x ∈ xs, P x) ∧ NoLonger (xs.flatMap form) u := by
  induction n with
  | zero => exact spends_pure ⟨rfl, by simp, .refl []⟩
  | succ n ih =>
    rw [many]
    refine h.bind fun x u hx => ih.bind fun xs v hxs => ?_
    refine spends_pure ⟨by simp [hxs.1], ?_, ?_⟩
    · simpa using ⟨hx.1, hxs.2.1⟩
    · simpa using hx.2.append hxs.2.2

lemma spends_list {d : Decoder α} {form : α → List UInt8} {P : α → Prop}
    (h : d.Spends fun x u => P x ∧ NoLonger (form x) u) :
    (list d).Spends fun xs u =>
      (xs.length ≤ maxWord ∧ ∀ x ∈ xs, P x) ∧ NoLonger (listBytes form xs) u := by
  refine spends_word_number.bind fun n u hn => (spends_many h n).imp fun xs v hxs => ?_
  obtain ⟨rfl, hall, hform⟩ := hxs
  exact ⟨⟨hn.1, hall⟩, hn.2.append hform⟩

lemma spends_redundancy : redundancy.Spends fun r u => NoLonger (redundancyBytes r) u := by
  refine spends_tag.bind fun tag u htag => ?_
  split
  · refine spends_byte.bind fun factor v hv => spends_pure ?_
    subst hv
    simpa [redundancyBytes] using htag.append (.refl [factor])
  · refine spends_byte.bind fun data v hv => spends_byte.bind fun parity v' hv' => ?_
    subst hv hv'
    refine spends_word.bind fun chunk w hw => spends_pure ?_
    simpa [redundancyBytes] using htag.append ((NoLonger.refl [data, parity]).append hw)
  · exact spends_throw _

lemma spends_key : key.Spends fun k u => k.Fits ∧ NoLonger (keyBytes k) u := by
  have hparts : (list word).Spends fun parts u => (parts.length ≤ maxWord ∧ ∀ n ∈ parts, True) ∧
      NoLonger (listBytes (fun n : UInt64 => varint n.toNat) parts) u :=
    spends_list (spends_word.imp fun _ _ h => ⟨trivial, h⟩)
  refine spends_text.bind fun volume u₁ hvolume => ?_
  refine spends_text.bind fun bucket u₂ hbucket => ?_
  refine spends_text.bind fun name u₃ hname => ?_
  refine spends_redundancy.bind fun redundancy u₄ hredundancy => ?_
  refine hparts.bind fun parts u₅ hparts => spends_pure ⟨?_, ?_⟩
  · exact ⟨hvolume.1, hbucket.1, hname.1, hparts.1.1⟩
  · have hform := hvolume.2.append (hbucket.2.append (hname.2.append
      (hredundancy.append hparts.2)))
    simpa [keyBytes] using hform

lemma Spends.front {d : Decoder α} {form : α → List UInt8} {P : α → Prop}
    (h : d.Spends fun x u => P x ∧ NoLonger (form x) u) {bytes : List UInt8} {x : α}
    (hfront : d.front bytes = .ok x) : P x ∧ NoLonger (form x) bytes := by
  unfold Decoder.front at hfront
  rcases hd : d.run bytes with fault | ⟨y, rest⟩
  · rw [hd] at hfront
    cases hfront
  · rw [hd] at hfront
    cases hfront
    obtain ⟨u, rfl, hx, hform⟩ := h bytes y rest hd
    exact ⟨hx, hform.append_right rest⟩

end Decoder

/-- What is read as an entry has the table's layout, lengths that are words, and a form that is no
longer than what it was read from. -/
lemma noLonger_of_decode {layout : Shape} {e : Entry} {bytes : List UInt8}
    (h : decode layout bytes = .ok e) :
    e.Fits ∧ ∃ form, encode layout e = .ok form ∧ NoLonger form bytes := by
  cases layout with
  | key =>
    rcases hfront : Decoder.key.front bytes with fault | k
    · rw [decode, hfront] at h
      cases h
    · rw [decode, hfront] at h
      cases h
      obtain ⟨hfits, hform⟩ := Decoder.spends_key.front hfront
      exact ⟨hfits, keyBytes k, rfl, hform⟩
  | deleted =>
    rcases hfront : (Decoder.list .key).front bytes with fault | versions
    · rw [decode, hfront] at h
      cases h
    · rw [decode, hfront] at h
      cases h
      obtain ⟨hfits, hform⟩ := (Decoder.spends_list Decoder.spends_key).front hfront
      exact ⟨hfits, listBytes keyBytes versions, rfl, hform⟩
  | raw =>
    cases h
    exact ⟨trivial, bytes, rfl, .refl bytes⟩

/-- **What is written is the shortest form.** Whatever bytes an entry is read from, it can be
written in a table of the same layout, and it is read back from what is written. Of all bytes that
the entry is read from none are fewer, and none are as few but these. -/
theorem reencode_shortest {layout : Shape} {bytes : List UInt8} {e : Entry}
    (h : decode layout bytes = .ok e) :
    ∃ form, encode layout e = .ok form ∧ decode layout form = .ok e ∧
      ∀ other, decode layout other = .ok e →
        form.length ≤ other.length ∧ (form.length = other.length → form = other) := by
  obtain ⟨hfits, form, hencode, -⟩ := noLonger_of_decode h
  refine ⟨form, hencode, decode_encode hfits hencode, fun other hother => ?_⟩
  obtain ⟨-, form', hencode', hform⟩ := noLonger_of_decode hother
  obtain rfl : form = form' := Except.ok.inj (hencode.symm.trans hencode')
  exact ⟨hform.length_le, hform.eq_of_length⟩

/-- The bytes of a key in which the lengths of two texts, the number of the redundancy, the length
of the list of parts and a part have more groups than they need, as many as there may be in two of
these, and behind which other bytes are left over. -/
def wastefulBytes : List UInt8 :=
  [0x83, 0x00, 0x76, 0x6f, 0x6c] ++ [0x01, 0x62] ++ [0x80, 0x00] ++
    [0x81, 0x80, 0x80, 0x80, 0x00, 0x06, 0x03] ++ (List.replicate 9 0xff ++ [0x01]) ++
    [0x82, 0x00] ++ (List.replicate 9 0x80 ++ [0x00]) ++ [0x07] ++ [0xff, 0x01]

theorem reencode_shortest_wasteful :
    let e : Entry := .key ⟨"vol", "b", "", .striped 6 3 0xffff_ffff_ffff_ffff, [0, 7]⟩
    decode .key wastefulBytes = .ok e ∧ wastefulBytes.length = 41 ∧
      ∃ form, encode .key e = .ok form ∧ form.length = 23 ∧ decode .key form = .ok e ∧
        ∀ other, decode .key other = .ok e → form.length = other.length → form = other := by
  intro e
  have hdecode : decode .key wastefulBytes = .ok e := by decide +kernel
  have hlength : (encode .key e).map List.length = .ok 23 := by decide +kernel
  obtain ⟨form, hencode, hread, hshortest⟩ := reencode_shortest hdecode
  have hlen : form.length = 23 := by
    rw [hencode] at hlength
    simpa [Except.map] using hlength
  exact ⟨hdecode, by decide, form, hencode, hlen, hread,
    fun other hother => (hshortest other hother).2⟩

end TableTotals.Wire
