import NothingDNS.Storage.Wal
/-!
# The frames of a segment file

The reading head and the bounding head meet the rules of `Frames`: they look at one
frame only, they recognise what `encodeEntry` writes within the size limits
(`Readable`), they stop at a frame cut short, and whatever the first accepts the
second accepts too.
-/

namespace NothingDNS.Storage

open List

open BigEndian

def Readable (max : Nat) (e : WALEntry) : Prop := e.data.length ≤ max ∧ e.data.length ≤ MaxSegmentSize

instance (max : Nat) (e : WALEntry) : Decidable (Readable max e) := inferInstanceAs (Decidable (_ ∧ _))

/-! ## What `encodeEntry` writes -/

section Encode

variable (e : WALEntry) (rest : List UInt8)

@[simp] theorem length_encodeEntry : (encodeEntry e).length = WALHeaderSize + e.data.length := by
  simp only [encodeEntry, payload, length_append, length_cons, length_encode, WALHeaderSize]
  omega

theorem encodeEntry_take_four : (encodeEntry e).take 4 = encode 4 (Crc32.checksum (payload e)).toNat :=
  take_left' (length_encode 4 _)

theorem encodeEntry_drop_four : (encodeEntry e).drop 4 = payload e := drop_left' (length_encode 4 _)

theorem encodeEntry_drop_five : (encodeEntry e).drop 5 = encode 4 e.data.length ++ e.data := by
  rw [show (5 : Nat) = 4 + 1 from rfl, ← drop_drop, encodeEntry_drop_four]
  rfl

theorem encodeEntry_drop_header : (encodeEntry e).drop WALHeaderSize = e.data := by
  rw [show WALHeaderSize = 5 + 4 from rfl, ← drop_drop, encodeEntry_drop_five]
  exact drop_left' (length_encode 4 _)

theorem encodeEntry_type : (encodeEntry e).getD 4 0 = e.type := by
  have h : ((encodeEntry e).drop 4).getD 0 0 = e.type := by
    rw [encodeEntry_drop_four]
    rfl
  simpa using h

end Encode

theorem bodyLength_of_isPrefix {p bs : List UInt8} (h : p <+: bs) (hp : WALHeaderSize ≤ p.length) :
    bodyLength p = bodyLength bs := by
  obtain ⟨t, rfl⟩ := h
  simp only [WALHeaderSize] at hp
  have hlen : 4 ≤ (p.drop 5).length := by
    rw [length_drop]
    omega
  rw [bodyLength, bodyLength, drop_append_of_le_length (by omega), take_append_of_le_length hlen]

theorem bodyLength_encodeEntry {e : WALEntry} (h : e.data.length ≤ MaxSegmentSize) :
    bodyLength (encodeEntry e) = e.data.length := by
  rw [bodyLength, encodeEntry_drop_five, take_left' (length_encode 4 _)]
  exact decode_encode_of_lt (h.trans_lt (by decide))

theorem decodeEntry_encodeEntry {e : WALEntry} (h : e.data.length ≤ MaxSegmentSize) :
    decodeEntry (encodeEntry e) = .ok e := by
  have hsm : decode ((encodeEntry e).take 4) = (Crc32.checksum ((encodeEntry e).drop 4)).toNat := by
    rw [encodeEntry_take_four, encodeEntry_drop_four]
    exact decode_encode_of_lt (UInt32.toNat_lt _)
  rw [decodeEntry, bodyLength_encodeEntry h, length_encodeEntry, if_neg (by omega), if_neg (not_not.2 hsm),
    if_neg (by omega), if_neg (by omega), encodeEntry_type, encodeEntry_drop_header, take_length]

section Heads

variable {max : Nat}

theorem readHead_eq_some {bs : List UInt8} {e : WALEntry} {n : Nat} :
    readHead max bs = some (e, n) ↔ WALHeaderSize ≤ bs.length ∧ bodyLength bs ≤ max ∧
      n = WALHeaderSize + bodyLength bs ∧ n ≤ bs.length ∧ decodeEntry (bs.take n) = .ok e := by
  unfold readHead
  split_ifs with h1 h2 h3
  · simp only [false_iff]
    omega
  · simp only [false_iff]
    omega
  · simp only [false_iff]
    omega
  · cases hd : decodeEntry (bs.take (WALHeaderSize + bodyLength bs)) with
    | error err =>
      simp only [reduceCtorEq, false_iff]
      rintro ⟨-, -, rfl, -, hok⟩
      rw [hd] at hok
      cases hok
    | ok e' =>
      simp only [Option.some.injEq, Prod.mk.injEq]
      constructor
      · rintro ⟨rfl, rfl⟩
        exact ⟨not_lt.1 h1, not_lt.1 h2, rfl, not_lt.1 h3, hd⟩
      · rintro ⟨-, -, rfl, -, hok⟩
        rw [hd] at hok
        cases hok
        exact ⟨rfl, rfl⟩

theorem boundHead_eq_some {bs : List UInt8} {u : Unit} {n : Nat} :
    boundHead bs = some (u, n) ↔ WALHeaderSize ≤ bs.length ∧ bodyLength bs ≤ MaxSegmentSize ∧
      n = WALHeaderSize + bodyLength bs ∧ n ≤ bs.length := by
  unfold boundHead
  split_ifs with h1 h2 h3
  · simp only [false_iff]
    omega
  · simp only [false_iff]
    omega
  · simp only [false_iff]
    omega
  · simp only [Option.some.injEq, Prod.mk.injEq, true_and]
    omega

theorem readHead_sound : Frames.Sound (readHead max) := by
  intro bs e n h
  obtain ⟨-, -, hn, hle, -⟩ := readHead_eq_some.1 h
  exact ⟨by rw [hn, WALHeaderSize]; omega, hle⟩

theorem boundHead_sound : Frames.Sound boundHead := by
  intro bs u n h
  obtain ⟨-, -, hn, hle⟩ := boundHead_eq_some.1 h
  exact ⟨by rw [hn, WALHeaderSize]; omega, hle⟩

theorem readHead_local : Frames.Local (readHead max) := by
  intro bs e n rest h
  obtain ⟨hh, hmx, hn, hle, hok⟩ := readHead_eq_some.1 h
  have hlen : (bs.take n).length = n := length_take_of_le hle
  have hb : bodyLength (bs.take n ++ rest) = bodyLength bs := by
    rw [← bodyLength_of_isPrefix (List.take_prefix n bs) (by omega)]
    exact (bodyLength_of_isPrefix (List.prefix_append _ _) (by omega)).symm
  refine readHead_eq_some.2 ⟨?_, hb ▸ hmx, by rw [hb, hn], ?_, ?_⟩
  · rw [length_append]
    omega
  · rw [length_append]
    omega
  · rw [take_left' hlen, hok]

theorem readHead_refines : Frames.Refines (readHead max) boundHead := by
  intro bs e n h
  obtain ⟨hh, -, hn, hle, hok⟩ := readHead_eq_some.1 h
  have hlen : (bs.take n).length = n := length_take_of_le hle
  have hb := bodyLength_of_isPrefix (List.take_prefix n bs) (by omega)
  refine ⟨(), boundHead_eq_some.2 ⟨hh, ?_, hn, hle⟩⟩
  unfold decodeEntry at hok
  split_ifs at hok with h1 h2 h3 h4
  omega

theorem readHead_encodes : Frames.Encodes (readHead max) encodeEntry (Readable max) := by
  intro e rest h
  have hb : bodyLength (encodeEntry e ++ rest) = e.data.length := by
    rw [← bodyLength_encodeEntry h.2]
    exact (bodyLength_of_isPrefix (List.prefix_append _ _) (by simp)).symm
  refine readHead_eq_some.2 ⟨by simp; omega, hb ▸ h.1, ?_, by simp, ?_⟩
  · rw [hb, length_encodeEntry]
  · rw [take_left]
    exact decodeEntry_encodeEntry h.2

theorem readHead_torn : Frames.Torn (readHead max) encodeEntry (Readable max) := by
  intro e p h hp hlt
  cases hh : readHead max p with
  | none => rfl
  | some f =>
    obtain ⟨hhd, -, hn, hle, -⟩ := readHead_eq_some.1 hh
    rw [bodyLength_of_isPrefix hp hhd, bodyLength_encodeEntry h.2, ← length_encodeEntry] at hn
    omega

end Heads

end NothingDNS.Storage
