import NothingDNS.Raft.Types
import NothingDNS.Lib.BigEndian
import NothingDNS.Lib.Crc32
/-!
# The write-ahead log file (`wal.go`)

A record is CRC32(4), Index(8), Term(8), CmdLen(8), the command, Type(1); the checksum covers everything after itself.
An entry's `Commitment` is not written.
-/

namespace NothingDNS.Raft

open List BigEndian

def walMagic : Bytes := [0x52, 0x57, 0x41, 0x4C, 0x01, 0x00, 0x00, 0x00]
def maxWALCommandBytes : Nat := 64 * 1024 * 1024
def walRecordHeaderSize : Nat := 28

def walPayload (e : Entry) : Bytes :=
  encode 8 e.index ++ (encode 8 e.term ++ (encode 8 e.command.length ++ (e.command ++ [e.type])))

def encodeWALEntry (e : Entry) : Bytes :=
  encode 4 (Crc32.checksum (walPayload e)).toNat ++ walPayload e

def records (es : List Entry) : Bytes := es.flatMap encodeWALEntry

/-- One turn of the reading loop on a non-empty rest of the file. -/
inductive RecordRead where
  /-- The record is cut short (`truncateTail`). -/
  | torn
  /-- `ErrWALCorrupt`. -/
  | corrupt
  | intact (e : Entry) (size : Nat)
deriving DecidableEq

def readRecord (bs : Bytes) : RecordRead :=
  if bs.length < walRecordHeaderSize then .torn
  else
    let wantCRC := decode (bs.take 4)
    let cmdLen := decode ((bs.drop 20).take 8)
    if maxWALCommandBytes < cmdLen then .corrupt
    else if (bs.drop 28).length < cmdLen + 1 then .torn
    else
      let body := (bs.drop 28).take (cmdLen + 1)
      let crc := Crc32.update (Crc32.checksum ((bs.drop 4).take 24)) body
      if crc.toNat ≠ wantCRC then .corrupt
      else .intact
        { index := decode ((bs.drop 4).take 8), term := decode ((bs.drop 12).take 8),
          command := body.take cmdLen, type := body.getD cmdLen 0 }
        (walRecordHeaderSize + cmdLen + 1)

/-- The entries read and the number of torn bytes at the end; `none` is an error. Every turn takes
at least one byte, so a fuel of the file's length is enough. -/
def readRecords : Nat → Bytes → Option (List Entry × Nat)
  | _, [] => some ([], 0)
  | 0, bs => some ([], bs.length)
  | fuel + 1, bs => match readRecord bs with
    | .torn => some ([], bs.length)
    | .corrupt => none
    | .intact e size => (readRecords fuel (bs.drop size)).map fun r => (e :: r.1, r.2)

def readAll (file : Bytes) : Option (List Entry × Nat) :=
  if file = [] then some ([], 0)
  else if file.take 8 ≠ walMagic then none
  else readRecords file.length (file.drop 8)

/-! ## Files from before the checksum -/

/-- Index(8), Term(8), CmdLen(8), the command, Type(1); a record cut short ends the log. -/
def readLegacy : Nat → Bytes → Option (List Entry)
  | 0, _ => some []
  | fuel + 1, bs =>
    if bs.length < 24 then some []
    else
      let cmdLen := decode ((bs.drop 16).take 8)
      if maxWALCommandBytes < cmdLen then none
      else if (bs.drop 24).length < cmdLen + 1 then some []
      else (readLegacy fuel (bs.drop (24 + cmdLen + 1))).map fun es =>
        { index := decode (bs.take 8), term := decode ((bs.drop 8).take 8),
          command := (bs.drop 24).take cmdLen, type := (bs.drop 24).getD cmdLen 0 } :: es

/-- The file's content after `NewWAL` opened it; `none` is an error. -/
def newWAL (file : Bytes) : Option Bytes :=
  if file = [] then some walMagic
  else if file.take 8 = walMagic then some file
  else (readLegacy file.length file).map fun es => walMagic ++ records es

/-- What the file format can hold: the integers are `uint64`s, the command is not longer than the
reader accepts, and there is no commitment to lose. -/
def Storable (e : Entry) : Prop :=
  e.index < 2 ^ 64 ∧ e.term < 2 ^ 64 ∧ e.command.length ≤ maxWALCommandBytes ∧ e.commitment = 0

instance (e : Entry) : Decidable (Storable e) := inferInstanceAs (Decidable (_ ∧ _))

@[simp] theorem length_encodeWALEntry (e : Entry) :
    (encodeWALEntry e).length = walRecordHeaderSize + e.command.length + 1 := by
  simp only [encodeWALEntry, walPayload, walRecordHeaderSize, length_append, length_encode, length_singleton]
  omega

section record

variable (e : Entry) (rest : Bytes)

theorem record_take_four : (encodeWALEntry e ++ rest).take 4 = encode 4 (Crc32.checksum (walPayload e)).toNat := by
  rw [encodeWALEntry, append_assoc]
  exact take_left' (length_encode _ _)

theorem record_drop_four : (encodeWALEntry e ++ rest).drop 4 = walPayload e ++ rest := by
  rw [encodeWALEntry, append_assoc]
  exact drop_left' (length_encode _ _)

theorem record_drop_twelve : (encodeWALEntry e ++ rest).drop 12 =
    encode 8 e.term ++ (encode 8 e.command.length ++ (e.command ++ [e.type])) ++ rest := by
  rw [show (12 : Nat) = 4 + 8 from rfl, ← drop_drop, record_drop_four, walPayload, append_assoc]
  exact drop_left' (length_encode _ _)

theorem record_drop_twenty : (encodeWALEntry e ++ rest).drop 20 =
    encode 8 e.command.length ++ (e.command ++ [e.type]) ++ rest := by
  rw [show (20 : Nat) = 12 + 8 from rfl, ← drop_drop, record_drop_twelve, append_assoc]
  exact drop_left' (length_encode _ _)

theorem record_drop_header : (encodeWALEntry e ++ rest).drop 28 = e.command ++ [e.type] ++ rest := by
  rw [show (28 : Nat) = 20 + 8 from rfl, ← drop_drop, record_drop_twenty, append_assoc]
  exact drop_left' (length_encode _ _)

end record

theorem decode_encode_uint64 {x : Nat} (h : x < 2 ^ 64) : decode (encode 8 x) = x :=
  decode_encode_of_lt (lt_of_lt_of_eq h (by norm_num))

theorem Storable.length_lt {e : Entry} (h : Storable e) : e.command.length < 2 ^ 64 :=
  lt_of_le_of_lt h.2.2.1 (by decide)

theorem readRecord_encodeWALEntry {e : Entry} (h : Storable e) (rest : Bytes) :
    readRecord (encodeWALEntry e ++ rest) = .intact e (encodeWALEntry e).length := by
  have hlen : ¬ (encodeWALEntry e ++ rest).length < walRecordHeaderSize := by
    rw [length_append, length_encodeWALEntry]
    omega
  have hcm : decode (((encodeWALEntry e ++ rest).drop 20).take 8) = e.command.length := by
    rw [record_drop_twenty, append_assoc, take_left' (length_encode _ _), decode_encode_uint64 h.length_lt]
  have hb : ((encodeWALEntry e ++ rest).drop 28).take (e.command.length + 1) = e.command ++ [e.type] := by
    rw [record_drop_header]
    exact take_left' (by simp)
  have hh : ((encodeWALEntry e ++ rest).drop 4).take 24 =
      encode 8 e.index ++ (encode 8 e.term ++ encode 8 e.command.length) := by
    rw [record_drop_four, walPayload]
    simp only [append_assoc]
    rw [← append_assoc (encode 8 e.term), ← append_assoc (encode 8 e.index)]
    exact take_left' (by simp)
  have hcr : (Crc32.update (Crc32.checksum (((encodeWALEntry e ++ rest).drop 4).take 24))
      (e.command ++ [e.type])).toNat = decode ((encodeWALEntry e ++ rest).take 4) := by
    rw [hh, record_take_four, Crc32.checksum, Crc32.update_append,
      decode_encode_of_lt (lt_of_lt_of_eq (UInt32.toNat_lt _) (by norm_num))]
    simp only [walPayload, append_assoc, Crc32.checksum]
  have hix : decode (((encodeWALEntry e ++ rest).drop 4).take 8) = e.index := by
    rw [record_drop_four, walPayload, append_assoc, take_left' (length_encode _ _), decode_encode_uint64 h.1]
  have htr : decode (((encodeWALEntry e ++ rest).drop 12).take 8) = e.term := by
    rw [record_drop_twelve, append_assoc, take_left' (length_encode _ _), decode_encode_uint64 h.2.1]
  have hfl : ¬ ((encodeWALEntry e ++ rest).drop 28).length < e.command.length + 1 := by
    rw [record_drop_header]
    simp
  unfold readRecord
  rw [if_neg hlen]
  simp only [hcm, if_neg (not_lt.2 h.2.2.1), if_neg hfl, hb, ne_eq, hcr, not_true_eq_false,
    if_false, hix, htr, length_encodeWALEntry]
  obtain ⟨i, t, c, ty, cm⟩ := e
  have h0 : cm = 0 := h.2.2.2
  simp [h0]

theorem readRecord_of_short {e : Entry} (h : Storable e) {p : Bytes} (hp : p <+: encodeWALEntry e)
    (hlt : p.length < (encodeWALEntry e).length) : readRecord p = .torn := by
  unfold readRecord
  by_cases hh : p.length < walRecordHeaderSize
  · rw [if_pos hh]
  rw [if_neg hh]
  obtain ⟨tail, htl⟩ := hp
  have hcm : decode ((p.drop 20).take 8) = e.command.length := by
    have h20 : (p.drop 20).take 8 = ((encodeWALEntry e ++ []).drop 20).take 8 := by
      rw [append_nil, ← htl, drop_append, take_append, show 20 - p.length = 0 by
        unfold walRecordHeaderSize at hh; omega]
      rw [length_drop, show 8 - (p.length - 20) = 0 by unfold walRecordHeaderSize at hh; omega]
      simp
    rw [h20, record_drop_twenty, append_assoc, take_left' (length_encode _ _), decode_encode_uint64 h.length_lt]
  rw [length_encodeWALEntry] at hlt
  simp only [hcm, if_neg (not_lt.2 h.2.2.1), length_drop]
  rw [if_pos]
  unfold walRecordHeaderSize at hlt
  omega

@[simp] theorem records_nil : records [] = [] := rfl

@[simp] theorem records_cons (e : Entry) (es : List Entry) : records (e :: es) = encodeWALEntry e ++ records es := rfl

@[simp] theorem records_append (es fs : List Entry) : records (es ++ fs) = records es ++ records fs := by
  simp [records]

theorem readRecords_isPrefix : ∀ {es : List Entry} {p : Bytes} {f : Nat}, (∀ e ∈ es, Storable e) →
    p <+: records es → p.length ≤ f → ∃ k tail, k ≤ es.length ∧ p = records (es.take k) ++ tail ∧
      readRecords f p = some (es.take k, tail.length) ∧ ∀ j ≤ es.length, (records (es.take j)).length ≤ p.length → j ≤ k
  | [], p, fuel, _, hp, _ => by
    obtain rfl : p = [] := prefix_nil.1 hp
    exact ⟨0, [], le_rfl, rfl, by simp [readRecords], fun j hj _ => hj⟩
  | e :: es, [], fuel, _, _, _ => by
    refine ⟨0, [], Nat.zero_le _, rfl, by simp [readRecords], fun j hj hlen => ?_⟩
    cases j with
    | zero => exact le_rfl
    | succ j =>
      rw [take_succ_cons, records_cons, length_append, length_encodeWALEntry] at hlen
      simp only [length_nil] at hlen
      omega
  | e :: es, b :: p, 0, _, _, hf => absurd hf (by simp)
  | e :: es, b :: p, fuel + 1, hs, hp, hf => by
    have he : Storable e := hs e mem_cons_self
    by_cases hlt : (b :: p).length < (encodeWALEntry e).length
    · -- the first record is cut
      have hpe : b :: p <+: encodeWALEntry e := prefix_of_prefix_length_le hp (prefix_append _ _) (le_of_lt hlt)
      refine ⟨0, b :: p, Nat.zero_le _, rfl, ?_, fun j hj hlen => ?_⟩
      · rw [readRecords, readRecord_of_short he hpe hlt]
        · rfl
        · simp
      · cases j with
        | zero => exact le_rfl
        | succ j =>
          rw [take_succ_cons, records_cons, length_append] at hlen
          omega
    -- the first record is whole
    obtain ⟨q, hq⟩ : encodeWALEntry e <+: b :: p := prefix_of_prefix_length_le (prefix_append _ _) hp (not_lt.1 hlt)
    have hq' : q <+: records es := by
      rw [← hq, records_cons] at hp
      exact (prefix_append_right_inj _).1 hp
    have hlen : (b :: p).length = (encodeWALEntry e).length + q.length := by rw [← hq, length_append]
    have hpos := length_encodeWALEntry e
    obtain ⟨k, tail, hk, hqk, hrd, hmx⟩ := readRecords_isPrefix (f := fuel)
      (fun x hx => hs x (mem_cons_of_mem _ hx)) hq' (by omega)
    refine ⟨k + 1, tail, Nat.succ_le_succ hk, ?_, ?_, fun j hj hjl => ?_⟩
    · rw [← hq, hqk, take_succ_cons, records_cons, append_assoc]
    · rw [readRecords, ← hq, readRecord_encodeWALEntry he]
      · simp [hrd]
      · simp
    · cases j with
      | zero => exact Nat.zero_le _
      | succ j =>
        rw [take_succ_cons, records_cons, length_append, hlen] at hjl
        exact Nat.succ_le_succ (hmx j (Nat.le_of_succ_le_succ hj) (by omega))

/-- **Recovery of the file.** If a file holds at least the records of `lo` and is cut somewhere in
the records of `hi`, it reads as the entries between that are complete, plus a torn tail. -/
theorem readAll_isPrefix {lo hi : List Entry} {file : Bytes} (hs : ∀ e ∈ hi, Storable e) (hlo : lo <+: hi)
    (h₁ : walMagic ++ records lo <+: file) (h₂ : file <+: walMagic ++ records hi) :
    ∃ mid tail, lo <+: mid ∧ mid <+: hi ∧ file = walMagic ++ records mid ++ tail ∧
      readAll file = some (mid, tail.length) := by
  obtain ⟨p, rfl⟩ : walMagic <+: file := (prefix_append _ _).trans h₁
  rw [prefix_append_right_inj] at h₁ h₂
  obtain ⟨k, tail, hk, hp, hrd, hmx⟩ := readRecords_isPrefix (f := (walMagic ++ p).length) hs h₂
    (by rw [length_append]; omega)
  refine ⟨hi.take k, tail, ?_, List.take_prefix _ _, by rw [append_assoc, ← hp], ?_⟩
  · have hlk : lo = hi.take lo.length := prefix_iff_eq_take.1 hlo
    have := hmx lo.length hlo.length_le (by rw [← hlk]; exact h₁.length_le)
    rw [hlk]
    exact take_prefix_take_left (by omega)
  · rw [readAll, if_neg (by simp [walMagic]), if_neg (by simp [walMagic])]
    exact hrd

theorem readAll_records {es : List Entry} (hs : ∀ e ∈ es, Storable e) :
    readAll (walMagic ++ records es) = some (es, 0) := by
  obtain ⟨mid, tail, h1, h2, hfl, hrd⟩ := readAll_isPrefix hs (prefix_refl es)
    (prefix_refl _) (prefix_refl _)
  obtain rfl : es = mid := h1.eq_of_length_le h2.length_le
  have htl : tail = [] := by
    have hlen := congrArg length hfl
    exact length_eq_zero_iff.1 (by simpa using hlen)
  rw [hrd, htl]
  rfl

theorem newWAL_of_magic {file : Bytes} (h : walMagic <+: file) : newWAL file = some file := by
  obtain ⟨p, rfl⟩ := h
  rw [newWAL, if_neg (by simp [walMagic]), if_pos (by simp [walMagic])]

end NothingDNS.Raft
