import NothingDNS.Raft.WalCorruption
import NothingDNS.Lib.Run
/-!
# The log file as a list of entries

Sequences of calls on a log, from a new file or one of the older format, whose records are the payloads alone. Opening
a cut file does not cut off the torn record, reading does: a record written in between lies behind torn octets and is
lost (`written_behind_torn`).
-/

namespace NothingDNS.Raft

open List BigEndian

inductive WalCall where
  | write (e : Entry)
  | truncateAfter (keepThrough : Nat)
  | compactBefore (through : Nat)
  | readAll
  | reopen
deriving DecidableEq

def WalCall.run (file : Bytes) : WalCall → Option Bytes
  | .write e => some (file ++ encodeWALEntry e)
  | .truncateAfter k => (Raft.readAll file).map fun r => walMagic ++ records (r.1.filter (·.index ≤ k))
  | .compactBefore k => (Raft.readAll file).map fun r => walMagic ++ records (r.1.filter (k < ·.index))
  | .readAll => (Raft.readAll file).map fun r => file.take (file.length - r.2)
  | .reopen => newWAL file

def WalCall.onList (es : List Entry) : WalCall → List Entry
  | .write e => es ++ [e]
  | .truncateAfter k => es.filter (·.index ≤ k)
  | .compactBefore k => es.filter (k < ·.index)
  | .readAll | .reopen => es

def WalCall.Storable (c : WalCall) : Prop := ∀ e, c = .write e → Raft.Storable e

/-! ## Files of the older format -/

theorem readLegacy_payloads : ∀ {es : List Entry} {n : Nat}, (∀ e ∈ es, Storable e) →
    (es.flatMap walPayload).length ≤ n → readLegacy n (es.flatMap walPayload) = some es
  | [], n, _, _ => by cases n <;> rfl
  | e :: es, 0, _, hn => by simp [walPayload] at hn
  | e :: es, n + 1, hs, hn => by
    have he := hs e mem_cons_self
    have hlen : ((e :: es).flatMap walPayload).length = 25 + e.command.length + (es.flatMap walPayload).length := by
      simp only [flatMap_cons, walPayload, length_append, length_encode, length_singleton]
      omega
    have ih := @readLegacy_payloads es n (fun x hx => hs x (mem_cons_of_mem _ hx)) (by omega)
    have hd : ∀ k, ((e :: es).flatMap walPayload).drop k =
        (encodeWALEntry e ++ es.flatMap walPayload).drop (k + 4) := by
      intro k
      rw [flatMap_cons, ← record_drop_four, drop_drop, Nat.add_comm]
    have hcm : decode ((((e :: es).flatMap walPayload).drop 16).take 8) = e.command.length := by
      rw [hd, record_drop_twenty, append_assoc, take_left' (length_encode _ _), decode_encode_uint64 he.length_lt]
    have hrs : ((e :: es).flatMap walPayload).drop (24 + e.command.length + 1) = es.flatMap walPayload := by
      rw [hd, show 24 + e.command.length + 1 + 4 = 28 + (e.command.length + 1) by omega, ← drop_drop,
        record_drop_header, drop_left' (by simp)]
    rw [readLegacy, if_neg (by omega)]
    simp only [hcm, if_neg (not_lt.2 he.2.2.1), hrs, ih, length_drop, hlen]
    rw [if_neg (by omega), hd, hd, record_drop_header, record_drop_twelve, append_assoc,
      take_left' (length_encode _ _), decode_encode_uint64 he.2.1]
    rw [flatMap_cons, walPayload, append_assoc, take_left' (length_encode _ _), decode_encode_uint64 he.1]
    obtain ⟨i, t, c, ty, cm⟩ := e
    have h0 : cm = 0 := he.2.2.2
    simp [h0]

variable {es : List Entry} {calls : List WalCall} {file : Bytes}

theorem WalCall.run_records (hs : ∀ e ∈ es, Raft.Storable e) {c : WalCall} (hc : c.Storable) :
    c.run (walMagic ++ records es) = some (walMagic ++ records (c.onList es)) ∧ ∀ e ∈ c.onList es, Raft.Storable e := by
  have hfl : ∀ p : Entry → Bool, ∀ e ∈ es.filter p, Raft.Storable e := fun p e he => hs e (mem_filter.1 he).1
  cases c with
  | write e =>
    refine ⟨by simp [run, onList], forall_mem_append.2 ⟨hs, ?_⟩⟩
    exact forall_mem_singleton.2 (hc e rfl)
  | truncateAfter | compactBefore => exact ⟨by rw [run, readAll_records hs]; rfl, hfl _⟩
  | readAll => exact ⟨by rw [run, readAll_records hs]; exact congrArg some take_length, hs⟩
  | reopen => exact ⟨newWAL_of_magic (prefix_append _ _), hs⟩

theorem exec_records : ∀ {calls : List WalCall} {es : List Entry}, (∀ e ∈ es, Storable e) → (∀ c ∈ calls, c.Storable) →
    Run.exec WalCall.run (walMagic ++ records es) calls = some (walMagic ++ records (calls.foldl WalCall.onList es)) ∧
      ∀ e ∈ calls.foldl WalCall.onList es, Storable e
  | [], es, hs, _ => ⟨rfl, hs⟩
  | c :: calls, es, hs, hc => by
    obtain ⟨hrn, hs'⟩ := WalCall.run_records hs (hc c mem_cons_self)
    rw [Run.exec, hrn, foldl_cons]
    exact exec_records hs' fun c' hc' => hc c' (mem_cons_of_mem _ hc')

/-- The records of the first `k` entries, and no more, lie before the octet `n` of the file. -/
def Complete (es : List Entry) (n k : Nat) : Prop :=
  k ≤ es.length ∧ 8 + (records (es.take k)).length ≤ n ∧ ∀ j ≤ es.length, 8 + (records (es.take j)).length ≤ n → j ≤ k

theorem reopen_cut (hs : ∀ e ∈ es, Storable e) {n : Nat} (hn : 8 ≤ n) : ∃ k, Complete es n k ∧
    Run.exec WalCall.run ((walMagic ++ records es).take n) [.reopen, .readAll] =
      some (walMagic ++ records (es.take k)) := by
  obtain ⟨n, rfl⟩ : ∃ m, n = walMagic.length + m := ⟨n - 8, by simp only [walMagic, length_cons, length_nil]; omega⟩
  rw [take_length_add_append]
  obtain ⟨k, tail, hk, hp, hrd, hmx⟩ := readRecords_isPrefix (f := (walMagic ++ (records es).take n).length) hs
    (List.take_prefix n _) (by rw [length_append]; omega)
  have hmg : walMagic.length = 8 := rfl
  have hlen := congrArg length hp
  rw [length_append, length_take] at hlen
  refine ⟨k, ⟨hk, by omega, fun j hj h => hmx j hj ?_⟩, ?_⟩
  · obtain ⟨t, ht⟩ : records (es.take j) <+: records es := ⟨records (es.drop j), by rw [← records_append, take_append_drop]⟩
    rw [length_take, ← ht, length_append]
    omega
  · have hall : readAll (walMagic ++ (records es).take n) = some (es.take k, tail.length) := by
      rw [readAll, if_neg (by simp [walMagic]), if_neg (by simp [walMagic])]
      exact hrd
    rw [Run.exec, WalCall.run, newWAL_of_magic (prefix_append _ _)]
    simp only [Run.exec, WalCall.run, hall, Option.map_some]
    rw [hp, ← append_assoc, length_append, Nat.add_sub_cancel, take_left]

/-- **The log is a list of entries**, after any calls on a new file or a file of the older format; and
wherever the file is cut, once it is opened and read again it is the list of the entries before the cut. -/
theorem wal_is_list (hs : ∀ e ∈ es, Storable e) (hmagic : (es.flatMap walPayload).take 8 ≠ walMagic)
    (hc : ∀ c ∈ calls, c.Storable) :
    ∃ file, Run.exec WalCall.run (es.flatMap walPayload) (.reopen :: calls) = some file ∧
      readAll file = some (calls.foldl WalCall.onList es, 0) ∧
      ∀ n, 8 ≤ n → ∃ k, Complete (calls.foldl WalCall.onList es) n k ∧ ∀ later : List WalCall,
        (∀ c ∈ later, c.Storable) → ∃ file', Run.exec WalCall.run (file.take n) (.reopen :: .readAll :: later) = some file' ∧
          readAll file' = some (later.foldl WalCall.onList ((calls.foldl WalCall.onList es).take k), 0) := by
  have hop : newWAL (es.flatMap walPayload) = some (walMagic ++ records es) := by
    unfold newWAL
    split
    next hnil =>
      cases es with
      | nil => rfl
      | cons e es => simp [walPayload] at hnil
    · rw [readLegacy_payloads hs le_rfl]
      rfl
  obtain ⟨hrn, hs'⟩ := exec_records hs hc
  refine ⟨_, by rw [Run.exec, WalCall.run, hop]; exact hrn, readAll_records hs', fun n hn => ?_⟩
  obtain ⟨k, hk, hct⟩ := reopen_cut hs' hn
  refine ⟨k, hk, fun later hl => ?_⟩
  obtain ⟨hrn', hs''⟩ := exec_records (fun e he => hs' e (mem_of_mem_take he)) hl
  exact ⟨_, Run.exec_append hct hrn', readAll_records hs''⟩

theorem wal_is_list_one : ∃ file, Run.exec WalCall.run [] [.reopen, .write setSeven] = some file ∧
    readAll file = some ([setSeven], 0) := by
  obtain ⟨file, hrn, hrd, -⟩ := @wal_is_list [] [.write setSeven] (by simp) (by decide)
    (by simp [WalCall.Storable, Storable, setSeven, maxWALCommandBytes])
  exact ⟨file, hrn, hrd⟩

/-- A record is cut to one octet, the file is opened, and the next entry is written and read. -/
theorem written_behind_torn : ∃ file, Run.exec WalCall.run [] [.reopen, .write setSeven] = some file ∧
      Run.exec WalCall.run (file.take 9) [.reopen, .write setSeven, .readAll] = none := by
  refine ⟨_, rfl, ?_⟩
  decide +kernel

end NothingDNS.Raft
