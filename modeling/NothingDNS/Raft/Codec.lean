import NothingDNS.Raft.Types
import NothingDNS.Lib.Reader
/-!
# The messages on the wire (`internal/cluster/raft/encoding.go:174-640`)

Every decoder checks each length against the octets left before it reads that many, so it never reads past
its input (`within_decodeNative`), and it gives back what the encoder wrote (`decodeNative_encodeNative`).
-/

namespace NothingDNS.Raft

open List BigEndian Reader

/-- The texts start with the name of the message, which is the decoder's. -/
inductive DecodeError where
  | short (len : Nat)
  | overflow (len : Nat)
  | truncated
  | entryHeader
  | entryCount (count possible remaining : Nat)
  | entryOverflow (i : Nat)
  | command (i : Nat)
deriving DecidableEq

def field (w : Nat) (s : Bytes) : Bytes := encode w s.length ++ s

def flag (b : Bool) : Bytes := encode 1 b.toNat

def encodeVoteRequest (v : VoteRequest) : Bytes :=
  encode 8 v.term ++ (field 4 v.candidateID ++ (encode 8 v.lastLogIndex ++ encode 8 v.lastLogTerm))

def encodeVoteResponse (v : VoteResponse) : Bytes :=
  encode 8 v.term ++ (flag v.voteGranted ++ field 4 v.sender)

def encodeEntry (e : Entry) : Bytes :=
  encode 8 e.index ++ (encode 8 e.term ++ (encode 1 e.type.toNat ++ (field 4 e.command ++ encode 8 e.commitment)))

def encodeEntrySlice (entries : List Entry) : Bytes := encode 4 entries.length ++ entries.flatMap encodeEntry

def encodeAppendRequest (a : AppendRequest) : Bytes :=
  encode 8 a.term ++ (field 4 a.leaderID ++ (encode 8 a.prevLogIndex ++ (encode 8 a.prevLogTerm ++
    (field 4 (encodeEntrySlice a.entries) ++ encode 8 a.leaderCommit))))

def encodeAppendResponse (a : AppendResponse) : Bytes :=
  encode 8 a.term ++ (flag a.success ++ (field 4 a.sender ++ (encode 8 a.matchIndex ++ encode 8 a.commitment)))

def encodeSnapshotRequest (s : SnapshotRequest) : Bytes :=
  encode 8 s.term ++ (field 4 s.leaderID ++ (field 8 s.data.bytes ++ (encode 8 s.lastIndex ++ encode 8 s.lastTerm)))

def encodeSnapshotResponse (s : SnapshotResponse) : Bytes := encode 8 s.term ++ flag s.success

/-- A field after its length, which is compared with what is left. -/
def takeField (w : Nat) : Reader DecodeError Bytes := do
  let len ← uint w
  need len fun _ => .overflow len
  Reader.octets len

def takeFlag : Reader DecodeError Bool := return (← uint 1) == 1

/-- From `encoding.go:242-266`. -/
def decodeVoteRequest : Reader DecodeError VoteRequest := do
  need 28 .short
  let term ← uint 8
  let candidateID ← takeField 4
  need 16 fun _ => .truncated
  let lastLogIndex ← uint 8
  let lastLogTerm ← uint 8
  return { term, candidateID, lastLogIndex, lastLogTerm }

/-- From `encoding.go:292-308`. -/
def decodeVoteResponse : Reader DecodeError VoteResponse := do
  need 13 .short
  let term ← uint 8
  let voteGranted ← takeFlag
  let sender ← takeField 4
  return { term, voteGranted, sender }

def decodeEntries : Nat → Nat → Reader DecodeError (List Entry)
  | 0, _ => return []
  | count + 1, i => do
    need 25 fun _ => .entryOverflow i
    let index ← uint 8
    let term ← uint 8
    let type ← uint 1
    let cmdLen ← uint 4
    need (cmdLen + 8) fun _ => .command i
    let command ← Reader.octets cmdLen
    let commitment ← uint 8
    let entries ← decodeEntries count (i + 1)
    return { index, term, command, type := UInt8.ofNat type, commitment } :: entries

/-- From `encoding.go:550-596`. -/
def decodeEntrySlice : Reader DecodeError (List Entry) := do
  need 4 fun _ => .entryHeader
  let count ← uint 4
  refuse (· % 2 ^ 32 / 25 < count) fun left => .entryCount count (left % 2 ^ 32 / 25) left
  decodeEntries count 0

/-- The decoder of the entries reads the slice that holds them. -/
def decodeAppendRequest : Reader DecodeError AppendRequest := do
  need 36 .short
  let term ← uint 8
  let leaderID ← takeField 4
  need 20 fun _ => .truncated
  let prevLogIndex ← uint 8
  let prevLogTerm ← uint 8
  let slice ← takeField 4
  let entries ← inside decodeEntrySlice slice
  need 8 fun _ => .truncated
  let leaderCommit ← uint 8
  return { term, leaderID, prevLogIndex, prevLogTerm, entries, leaderCommit }

/-- From `encoding.go:420-443`. -/
def decodeAppendResponse : Reader DecodeError AppendResponse := do
  need 21 .short
  let term ← uint 8
  let success ← takeFlag
  let sender ← takeField 4
  need 16 fun _ => .truncated
  let matchIndex ← uint 8
  let commitment ← uint 8
  return { term, success, sender, matchIndex, commitment }

/-- The history variable of the payload is not on the wire. -/
def decodeSnapshotRequest : Reader DecodeError SnapshotRequest := do
  need 20 .short
  let term ← uint 8
  let leaderID ← takeField 4
  need 8 fun _ => .truncated
  let bytes ← takeField 8
  need 16 fun _ => .truncated
  let lastIndex ← uint 8
  let lastTerm ← uint 8
  return { term, leaderID, data := ⟨bytes, []⟩, lastIndex, lastTerm }

def decodeSnapshotResponse : Reader DecodeError SnapshotResponse := do
  need 9 .short
  let term ← uint 8
  let success ← takeFlag
  return { term, success }

/-- From `encoding.go:177-195`. -/
def encodeNative : Msg → Bytes
  | .voteReq v => encodeVoteRequest v
  | .voteResp v => encodeVoteResponse v
  | .appendReq a => encodeAppendRequest a
  | .appendResp a => encodeAppendResponse a
  | .snapReq s => encodeSnapshotRequest s
  | .snapResp _ s => encodeSnapshotResponse s

/-- The argument `msg` gives the type to decode. -/
def decodeNative : Msg → Reader DecodeError Msg
  | .voteReq _ => .voteReq <$> decodeVoteRequest
  | .voteResp _ => .voteResp <$> decodeVoteResponse
  | .appendReq _ => .appendReq <$> decodeAppendRequest
  | .appendResp _ => .appendResp <$> decodeAppendResponse
  | .snapReq _ => .snapReq <$> decodeSnapshotRequest
  | .snapResp req _ => .snapResp req <$> decodeSnapshotResponse

/-- What a target of the message's type holds once the message is decoded into it, `none` for a target of another type.
The history variable of a snapshot's payload and the request a response belongs to are not on the wire. -/
def Msg.filled : Msg → Msg → Option Msg
  | .voteReq _, .voteReq v => some (.voteReq v)
  | .voteResp _, .voteResp v => some (.voteResp v)
  | .appendReq _, .appendReq a => some (.appendReq a)
  | .appendResp _, .appendResp a => some (.appendResp a)
  | .snapReq _, .snapReq s => some (.snapReq { s with data := ⟨s.data.bytes, []⟩ })
  | .snapResp req _, .snapResp _ s => some (.snapResp req s)
  | _, _ => none

/-- Terms and indices are 64 bits wide, and lengths fit their fields. -/
def Entry.Sized (e : Entry) : Prop :=
  e.index < 256 ^ 8 ∧ e.term < 256 ^ 8 ∧ e.command.length < 256 ^ 4 ∧ e.commitment < 256 ^ 8

def Msg.Sized : Msg → Prop
  | .voteReq v => v.term < 256 ^ 8 ∧ v.candidateID.length < 256 ^ 4 ∧ v.lastLogIndex < 256 ^ 8 ∧
      v.lastLogTerm < 256 ^ 8
  | .voteResp v => v.term < 256 ^ 8 ∧ v.sender.length < 256 ^ 4
  | .appendReq a => a.term < 256 ^ 8 ∧ a.leaderID.length < 256 ^ 4 ∧ a.prevLogIndex < 256 ^ 8 ∧
      a.prevLogTerm < 256 ^ 8 ∧ (encodeEntrySlice a.entries).length < 256 ^ 4 ∧ a.leaderCommit < 256 ^ 8 ∧
      ∀ e ∈ a.entries, e.Sized
  | .appendResp a => a.term < 256 ^ 8 ∧ a.sender.length < 256 ^ 4 ∧ a.matchIndex < 256 ^ 8 ∧
      a.commitment < 256 ^ 8
  | .snapReq s => s.term < 256 ^ 8 ∧ s.leaderID.length < 256 ^ 4 ∧ s.data.bytes.length < 256 ^ 8 ∧
      s.lastIndex < 256 ^ 8 ∧ s.lastTerm < 256 ^ 8
  | .snapResp _ s => s.term < 256 ^ 8

variable {α : Type} {rest : Bytes} {s : Bytes} {w n : Nat} {f : Bytes → Reader DecodeError α}

theorem takeField_field (h : s.length < 256 ^ w) : (takeField w >>= f) (field w s ++ rest) = f s rest := by
  simp only [takeField, field, bind_assoc, append_assoc]
  rw [uint_encode h, need_bind (by simp), octets_append]

theorem takeFlag_flag (b : Bool) (f : Bool → Reader DecodeError α) : (takeFlag >>= f) (flag b ++ rest) = f b rest := by
  unfold takeFlag
  rw [bind_assoc]
  cases b <;> exact uint_encode (by decide) _

theorem length_entries (entries : List Entry) : 29 * entries.length ≤ (entries.flatMap encodeEntry).length := by
  induction entries with
  | nil => exact Nat.zero_le _
  | cons e entries ih =>
    simp only [flatMap_cons, encodeEntry, field, length_append, length_encode, length_cons]
    omega

theorem decodeEntries_encode {entries : List Entry} (h : ∀ e ∈ entries, e.Sized) (i : Nat) :
    decodeEntries entries.length i (entries.flatMap encodeEntry ++ rest) = some (.ok (entries, rest)) := by
  induction entries generalizing i with
  | nil => rfl
  | cons e entries ih =>
    obtain ⟨⟨h1, h2, h3, h4⟩, hs⟩ := forall_mem_cons.1 h
    have hty : e.type.toNat < 256 ^ 1 := e.type.toNat_lt
    simp only [length_cons, decodeEntries, flatMap_cons, encodeEntry, field, append_assoc]
    rw [need_bind (by simp; omega), uint_encode h1, uint_encode h2, uint_encode hty, uint_encode h3,
      need_bind (by simp), octets_append, uint_encode h4]
    show (decodeEntries _ _ _ >>= _ : ExceptT _ Option _) = _
    rw [ih hs, UInt8.ofNat_toNat]
    rfl

theorem decodeEntrySlice_encode {entries : List Entry} (h : ∀ e ∈ entries, e.Sized)
    (hlen : (encodeEntrySlice entries).length < 256 ^ 4) :
    decodeEntrySlice (encodeEntrySlice entries) = some (.ok (entries, [])) := by
  have hmn := length_entries entries
  rw [encodeEntrySlice, length_append, length_encode] at hlen
  have hcn : entries.length < 256 ^ 4 := by omega
  unfold decodeEntrySlice encodeEntrySlice
  rw [need_bind (by simp), uint_encode hcn, refuse_bind, if_neg]
  · simpa using @decodeEntries_encode [] entries h 0
  · rw [Nat.mod_eq_of_lt (by omega)]
    omega

theorem inside_entrySlice {entries : List Entry} (h : ∀ e ∈ entries, e.Sized)
    (hlen : (encodeEntrySlice entries).length < 256 ^ 4) (f : List Entry → Reader DecodeError α) :
    (inside decodeEntrySlice (encodeEntrySlice entries) >>= f) rest = f entries rest :=
  inside_bind (decodeEntrySlice_encode h hlen) f

/-- Every decoder gives back what was written, with anything behind it. -/
theorem decodeNative_encodeNative {target m m' : Msg} (h : m.Sized) (hf : target.filled m = some m') (rest : Bytes) :
    decodeNative target (encodeNative m ++ rest) = some (.ok (m', rest)) := by
  -- the decoder is run on what was written, field by field; targets of another type are not filled
  cases target <;> cases m <;> cases hf <;> refine map_ok ?_ _ <;> simp only [Msg.Sized] at h <;>
    (try casesm* _ ∧ _) <;>
    simp (disch := first | assumption | simp [field, flag, encodeEntrySlice] <;> omega) only [encodeNative, append_assoc,
      need_bind, uint_encode, takeFlag_flag, takeField_field, inside_entrySlice, encodeVoteRequest, decodeVoteRequest,
      encodeVoteResponse, decodeVoteResponse, encodeAppendRequest, decodeAppendRequest, encodeAppendResponse,
      decodeAppendResponse, encodeSnapshotRequest, decodeSnapshotRequest, encodeSnapshotResponse,
      decodeSnapshotResponse] <;> rfl

/-! ## Reads stay inside the input -/

theorem within_takeField (hw : w ≤ n) (h : ∀ s, Within 0 (f s)) : Within n (takeField w >>= f) := by
  unfold takeField
  simp only [bind_assoc]
  refine Within.uint hw fun len => Within.need (Within.octets le_rfl fun s => ?_)
  rw [Nat.sub_self]
  exact h s

theorem within_takeFlag {f : Bool → Reader DecodeError α} (h1 : 1 ≤ n) (h : ∀ b, Within (n - 1) (f b)) :
    Within n (takeFlag >>= f) := by
  unfold takeFlag
  rw [bind_assoc]
  exact Within.uint h1 fun x => h _

theorem within_decodeEntries (count i : Nat) : Within n (decodeEntries count i) := by
  induction count generalizing i n with
  | zero => exact Within.pure _
  | succ count ih =>
    refine Within.need ?_
    iterate 3 refine Within.uint (by decide) fun _ => ?_
    refine Within.uint (by decide) fun cmdLen => Within.need (Within.octets (by omega) fun command => ?_)
    exact Within.uint (by omega) fun commitment => (ih (i + 1)).bind fun entries => Within.pure _

theorem within_decodeEntrySlice : Within n decodeEntrySlice :=
  Within.need (Within.uint le_rfl fun count => Within.refuse fun data _ _ =>
    within_decodeEntries count 0 data (Nat.zero_le _))

/-- Each check leaves at least the octets that are read before the next one. -/
theorem within_decodeNative (m : Msg) : Within 0 (decodeNative m) := by
  cases m <;> refine Within.map ?_ _ <;> simp only [decodeVoteRequest, decodeVoteResponse, decodeAppendRequest,
    decodeAppendResponse, decodeSnapshotRequest, decodeSnapshotResponse] <;> repeat' with_reducible first
    | exact Within.pure _
    | refine Within.need ?_
    | refine Within.uint (by decide) fun _ => ?_
    | refine within_takeFlag (by decide) fun _ => ?_
    | refine within_takeField (by decide) fun slice => ?_
    | refine (Within.inside within_decodeEntrySlice slice).bind fun _ => ?_

/-- **The RPC codec round trip**: whatever a target of the message's type holds, decoding into it gives the message; and
no decoder reads outside its input. -/
theorem native_codec :
    (∀ target m m' : Msg, m.Sized → target.filled m = some m' → decodeNative target (encodeNative m) = some (.ok (m', []))) ∧
    (∀ m data, decodeNative m data ≠ none) ∧ ∀ data, decodeEntrySlice data ≠ none := by
  refine ⟨fun target m m' h hf => ?_, fun m data => within_decodeNative m data (Nat.zero_le _), fun data =>
    within_decodeEntrySlice (n := 0) data (Nat.zero_le _)⟩
  simpa using decodeNative_encodeNative h hf []

theorem native_codec_append : let m : Msg := .appendReq ⟨1, [65], 0, 0, [⟨1, 1, [7], entryNormal, 0⟩], 0⟩
    decodeNative (.appendReq ⟨9, [66], 3, 2, [], 8⟩) (encodeNative m) = some (.ok (m, [])) := by
  intro m
  exact native_codec.1 _ m _ (by simp [m, Msg.Sized, Entry.Sized, encodeEntrySlice, encodeEntry, field]) rfl

end NothingDNS.Raft
