import NothingDNS.Raft.Storage
/-!
# Snapshot files are read back

`readSnapshot` returns what `writeSnapshot` wrote, with or without a key, as long
as the snapshot stays within the reader's limits and a plain file cannot be taken
for an encrypted one: the layouts are told apart by the first octet, which in a
plain file is the top of the index.
-/

namespace NothingDNS.Raft

open List BigEndian

def Fits (snap : Snapshot) : Prop :=
  snap.lastIndex < 0xE0 * 2 ^ 56 ∧ snap.lastTerm < 2 ^ 64 ∧ snap.data.bytes.length ≤ maxSnapshotDataBytes

instance (snap : Snapshot) : Decidable (Fits snap) := inferInstanceAs (Decidable (_ ∧ _))

def Snapshot.body (snap : Snapshot) : SnapshotBody := ⟨snap.lastIndex, snap.lastTerm, snap.data.bytes⟩

variable {snap : Snapshot}

theorem length_writePlainSnapshot (snap : Snapshot) :
    (writePlainSnapshot snap).length = 44 + snap.data.bytes.length := by
  simp only [writePlainSnapshot, length_append, length_encode]
  omega

theorem plain_drop_sixteen (snap : Snapshot) : (writePlainSnapshot snap).drop 16 =
    encode 8 snap.lastIndex ++ (encode 8 snap.lastTerm ++ (encode 8 snap.data.bytes.length ++
      (snap.data.bytes ++ encode 4 0))) := by
  rw [writePlainSnapshot, show (16 : Nat) = 8 + 8 from rfl, ← drop_drop,
    drop_left' (length_encode _ _), drop_left' (length_encode _ _)]

theorem plain_drop_data (snap : Snapshot) : (writePlainSnapshot snap).drop 40 = snap.data.bytes ++ encode 4 0 := by
  rw [show (40 : Nat) = 16 + (8 + (8 + 8)) from rfl, ← drop_drop, plain_drop_sixteen, ← drop_drop, drop_left'
    (length_encode _ _), ← drop_drop, drop_left' (length_encode _ _), drop_left' (length_encode _ _)]

theorem readPlainSnapshot_writePlainSnapshot (h : Fits snap) :
    readPlainSnapshot (writePlainSnapshot snap) = some snap.body := by
  obtain ⟨hix, htr, hd⟩ := h
  have hi' : decode (encode 8 snap.lastIndex) = snap.lastIndex := decode_encode_of_lt (lt_trans hix (by decide))
  have ht' : decode (encode 8 snap.lastTerm) = snap.lastTerm := decode_encode_of_lt (lt_of_lt_of_eq htr (by norm_num))
  have hlen' : decode (encode 8 snap.data.bytes.length) = snap.data.bytes.length :=
    decode_encode_of_lt (lt_of_le_of_lt hd (by decide))
  have h24 : (writePlainSnapshot snap).drop 24 = encode 8 snap.lastTerm ++
      (encode 8 snap.data.bytes.length ++ (snap.data.bytes ++ encode 4 0)) := by
    rw [show (24 : Nat) = 16 + 8 from rfl, ← drop_drop, plain_drop_sixteen, drop_left' (length_encode _ _)]
  have h32 : (writePlainSnapshot snap).drop 32 =
      encode 8 snap.data.bytes.length ++ (snap.data.bytes ++ encode 4 0) := by
    rw [show (32 : Nat) = 24 + 8 from rfl, ← drop_drop, h24, drop_left' (length_encode _ _)]
  have hcn : (writePlainSnapshot snap).drop (40 + snap.data.bytes.length) = encode 4 0 := by
    rw [← drop_drop, plain_drop_data, drop_left]
  have hsz : ¬ (writePlainSnapshot snap).length < 40 := by
    rw [length_writePlainSnapshot]
    omega
  have hrm : ¬ ((writePlainSnapshot snap).drop 40).length < snap.data.bytes.length + 4 := by
    rw [plain_drop_data, length_append, length_encode]
    omega
  unfold readPlainSnapshot
  rw [if_neg hsz]
  simp only [h32, take_left' (length_encode _ _), hlen', if_neg (not_lt.2 hd), if_neg hrm, hcn]
  have hmm : decode ((encode 4 0).take 4) = 0 := by decide
  rw [hmm, if_neg (by decide), readMembership, if_neg (by decide)]
  rw [plain_drop_sixteen, take_left' (length_encode _ _), h24, take_left' (length_encode _ _),
    plain_drop_data, take_left, hi', ht']
  rfl

theorem readSnapshot_writeSnapshot (key : Option Sealing) (h : Fits snap) :
    readSnapshot key (writeSnapshot key snap) = some snap.body := by
  cases key with
  | none =>
    have hh : UInt8.ofNat (snap.lastIndex / 256 ^ 7) ≠ encryptedSnapshotMagic := by
      have hlt : snap.lastIndex / 256 ^ 7 < 0xE0 := Nat.div_lt_of_lt_mul (lt_of_lt_of_eq h.1 (by norm_num))
      intro heq
      have := congrArg UInt8.toNat heq
      simp only [encryptedSnapshotMagic, UInt8.toNat_ofNat', UInt8.reduceToNat] at this
      omega
    have hcn : ∃ rest, writePlainSnapshot snap = UInt8.ofNat (snap.lastIndex / 256 ^ 7) :: rest :=
      ⟨_, by rw [writePlainSnapshot, encode_succ 7, cons_append]⟩
    obtain ⟨rest, hrs⟩ := hcn
    rw [writeSnapshot, hrs, readSnapshot, if_neg hh, ← hrs]
    exact readPlainSnapshot_writePlainSnapshot h
  | some k =>
    have hn := k.length_nonce (writePlainSnapshot snap)
    have hs := k.length_seal (k.nonce (writePlainSnapshot snap)) (writePlainSnapshot snap)
    have hve : (encode 2 encryptedSnapshotVersion ++ (k.nonce (writePlainSnapshot snap) ++
        k.gcmSeal (k.nonce (writePlainSnapshot snap)) (writePlainSnapshot snap))).take 2 =
          encode 2 encryptedSnapshotVersion := take_left' (length_encode _ _)
    have hd : (encode 2 encryptedSnapshotVersion ++ (k.nonce (writePlainSnapshot snap) ++
        k.gcmSeal (k.nonce (writePlainSnapshot snap)) (writePlainSnapshot snap))).drop 2 =
          k.nonce (writePlainSnapshot snap) ++
            k.gcmSeal (k.nonce (writePlainSnapshot snap)) (writePlainSnapshot snap) :=
      drop_left' (length_encode _ _)
    have hct : (encode 2 encryptedSnapshotVersion ++ (k.nonce (writePlainSnapshot snap) ++
        k.gcmSeal (k.nonce (writePlainSnapshot snap)) (writePlainSnapshot snap))).drop 14 =
          k.gcmSeal (k.nonce (writePlainSnapshot snap)) (writePlainSnapshot snap) := by
      rw [show (14 : Nat) = 2 + 12 from rfl, ← drop_drop, hd]
      exact drop_left' hn
    rw [writeSnapshot]
    simp only [cons_append, nil_append, append_assoc]
    rw [readSnapshot, if_pos rfl]
    have hvr : ¬ decode (encode 2 encryptedSnapshotVersion) ≠ encryptedSnapshotVersion := by decide
    rw [if_neg, hve, if_neg hvr, hct, if_neg, hd, take_left' hn, k.open_seal]
    · rw [Option.bind_some]
      exact readPlainSnapshot_writePlainSnapshot h
    · rw [hs, length_writePlainSnapshot]
      have := h.2.2
      unfold maxSnapshotDataBytes at this ⊢
      omega
    · simp only [length_append, length_encode, hn, snapAeadNonceLen]
      omega

end NothingDNS.Raft
