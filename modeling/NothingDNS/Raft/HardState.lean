import NothingDNS.Raft.NodeSpec
import NothingDNS.Lib.BigEndian
/-!
# The hard state file (`hardstate.go`)

`raft-hardstate.bin` holds `currentTerm` and `votedFor` and is replaced as a
whole: temporary file, fsync, rename, directory fsync (`hardstate.go:95-149`).
A save that returned nil is durable. One that failed before the rename changed
nothing; after one that failed at the directory fsync a crash may bring back
either content.
-/

namespace NothingDNS.Raft

open List

open BigEndian

def hardStateMagic : Nat := 0x52485354
def maxHardStateVotedForLen : Nat := 256

/-- `writeHardState` (`hardstate.go:151-174`): magic(4), term(8), length(2), `votedFor`. -/
def writeHardState (hs : HardState) : Option Bytes :=
  if maxHardStateVotedForLen < hs.votedFor.length then none
  else some (encode 4 hardStateMagic ++ (encode 8 hs.currentTerm ++ (encode 2 hs.votedFor.length ++ hs.votedFor)))

/-- `loadHardState` (`hardstate.go:41-78`) on the file's content; `none` in place of a file is a
fresh start, `none` as the result is an error. -/
def loadHardState : Option Bytes → Option HardState
  | none => some ⟨0, []⟩
  | some file =>
    if file.length < 14 then none
    else if decode (file.take 4) ≠ hardStateMagic then none
    else
      let currentTerm := decode ((file.drop 4).take 8)
      let votedLen := decode ((file.drop 12).take 2)
      if votedLen = 0 then some ⟨currentTerm, []⟩
      else if maxHardStateVotedForLen < votedLen then none
      else if (file.drop 14).length < votedLen then none
      else some ⟨currentTerm, (file.drop 14).take votedLen⟩

theorem loadHardState_writeHardState {hs : HardState} {file : Bytes}
    (h : writeHardState hs = some file) (ht : hs.currentTerm < 2 ^ 64) : loadHardState (some file) = some hs := by
  unfold writeHardState at h
  split at h
  · cases h
  rename_i hlen
  have hlen : hs.votedFor.length ≤ 256 := not_lt.1 hlen
  simp only [Option.some.injEq] at h
  have hmg : decode (encode 4 hardStateMagic) = hardStateMagic := decode_encode_of_lt (by decide)
  have htr : decode (encode 8 hs.currentTerm) = hs.currentTerm :=
    decode_encode_of_lt (lt_of_lt_of_eq ht (by norm_num))
  have hvt : decode (encode 2 hs.votedFor.length) = hs.votedFor.length := decode_encode_of_lt (by omega)
  have h4 : file.take 4 = encode 4 hardStateMagic := by
    rw [← h]; exact take_left' (length_encode _ _)
  have h8 : (file.drop 4).take 8 = encode 8 hs.currentTerm := by
    rw [← h, drop_left' (length_encode _ _)]
    exact take_left' (length_encode _ _)
  have h12 : file.drop 12 = encode 2 hs.votedFor.length ++ hs.votedFor := by
    rw [← h, show (12 : Nat) = 4 + 8 from rfl, ← drop_drop, drop_left' (length_encode _ _)]
    exact drop_left' (length_encode _ _)
  have h14 : file.drop 14 = hs.votedFor := by
    rw [show (14 : Nat) = 12 + 2 from rfl, ← drop_drop, h12]
    exact drop_left' (length_encode _ _)
  have hsz : ¬ file.length < 14 := by
    rw [← h]; simp only [length_append, length_encode]; omega
  simp only [loadHardState, hsz, if_false, h4, hmg, ne_eq, not_true_eq_false, h8, htr, h12,
    take_left' (length_encode _ _), hvt, h14, lt_irrefl, take_length]
  split
  next hz =>
    rw [← length_eq_zero_iff.1 hz]
  · rfl

inductive SaveOutcome where
  | saved
  /-- An error before the rename. -/
  | failed
  /-- The directory fsync after the rename failed. -/
  | renamed
deriving DecidableEq

structure HardDisk where
  /-- The content known to be durable. -/
  stable : Option Bytes
  /-- Contents renamed into place since, not known to be durable. -/
  pending : List Bytes
  /-- How the coming saves end; after the last one they succeed. -/
  outcomes : List SaveOutcome

namespace HardDisk

open List

def contents (d : HardDisk) : List (Option Bytes) := d.stable :: d.pending.map some

/-- From `hardstate.go:97-149`. -/
def saveHardState (d : HardDisk) (hs : HardState) : HardDisk × Bool :=
  match writeHardState hs with
  | none => (d, false)
  | some file => match d.outcomes with
    | .failed :: rest => ({ d with outcomes := rest }, false)
    | .renamed :: rest => ({ d with pending := d.pending ++ [file], outcomes := rest }, false)
    | .saved :: rest => (⟨some file, [], rest⟩, true)
    | [] => (⟨some file, [], []⟩, true)

theorem saveHardState_cases (d : HardDisk) (hs : HardState) :
    ∃ file, writeHardState hs = some file ∧ (d.saveHardState hs).2 = true ∧
        (d.saveHardState hs).1.contents = [some file] ∨
      (d.saveHardState hs).2 = false ∧ ∀ c ∈ (d.saveHardState hs).1.contents, c ∈ d.contents ∨
        c = some file ∧ writeHardState hs = some file := by
  unfold saveHardState
  cases hw : writeHardState hs with
  | none => exact ⟨[], .inr ⟨rfl, fun c hc => .inl hc⟩⟩
  | some file =>
    refine ⟨file, ?_⟩
    rcases ho : d.outcomes with _ | ⟨_ | _ | _, rest⟩
    · exact .inl ⟨rfl, rfl, rfl⟩
    · exact .inl ⟨rfl, rfl, rfl⟩
    · exact .inr ⟨rfl, fun c hc => .inl hc⟩
    · refine .inr ⟨rfl, fun c hc => ?_⟩
      simp only [contents, map_append, map_cons, map_nil, mem_cons, mem_append, not_mem_nil, or_false] at hc ⊢
      tauto

end HardDisk

/-- A host whose hard state lives on a `HardDisk`; everything else is `B`'s. -/
def Host.withHardDisk {R : Type} (B : Host R) : Host (HardDisk × R) where
  saveHardState d hs := (((d.1.saveHardState hs).1, d.2), (d.1.saveHardState hs).2)
  write d e := ((d.1, (B.write d.2 e).1), (B.write d.2 e).2)
  sync d := ((d.1, (B.sync d.2).1), (B.sync d.2).2)
  truncateAfter d i := ((d.1, (B.truncateAfter d.2 i).1), (B.truncateAfter d.2 i).2)
  compactBefore d i := ((d.1, (B.compactBefore d.2 i).1), (B.compactBefore d.2 i).2)
  restore d p := ((d.1, (B.restore d.2 p).1), (B.restore d.2 p).2)
  saveSnapshot d s := ((d.1, (B.saveSnapshot d.2 s).1), (B.saveSnapshot d.2 s).2)
  onSnapshotInstalled d i := (d.1, B.onSnapshotInstalled d.2 i)

end NothingDNS.Raft
