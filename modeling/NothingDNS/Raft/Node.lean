import NothingDNS.Raft.Types
/-!
# One Raft node (`state.go`, `handlers.go`, `replication.go`)

Every critical section of `n.mu` is one function on `Node`. A function that can
fail returns the node together with `true` for a nil error; the node it returns
after a failure is whatever the source leaves behind.
-/

namespace NothingDNS.Raft.Node

variable {D : Type} (H : Host D)

/-! ## Log index helpers (`state.go:467-520`) -/

def lastIndex (n : Node D) : Nat := n.lastSnapshot + n.log.length

/-- `entryTerm` (`state.go:475-486`); `none` is `ok = false`. -/
def entryTerm (n : Node D) (i : Nat) : Option Nat :=
  if i = 0 then some 0
  else if i = n.lastSnapshot then some n.lastSnapshotTerm
  else if i < n.lastSnapshot ∨ n.lastIndex < i then none
  else n.log[i - n.lastSnapshot - 1]?.map Entry.term

def entriesFrom (n : Node D) (start : Nat) : List Entry :=
  let start := if start ≤ n.lastSnapshot then n.lastSnapshot + 1 else start
  n.log.drop (start - n.lastSnapshot - 1)

def truncateFrom (n : Node D) (idx : Nat) : Node D :=
  if idx ≤ n.lastSnapshot + 1 then { n with log := [] }
  else { n with log := n.log.take (idx - n.lastSnapshot - 1) }

def lastLogInfo (n : Node D) : Nat × Nat :=
  (n.lastIndex, (n.entryTerm n.lastIndex).getD 0)

def quorumSize (n : Node D) : Nat := (n.peers.length + 1) / 2 + 1

def held (n : Node D) : List Entry := n.snapshotBytes.covers ++ n.log

/-- The entry a node holds at a 1-based index, in its log or under its snapshot. -/
def entryAt (n : Node D) (k : Nat) : Option Entry := if k = 0 then none else n.held[k - 1]?

/-- The entry in the node's log at a 1-based index above its snapshot. -/
def logAt (n : Node D) (k : Nat) : Option Entry :=
  if k ≤ n.lastSnapshot then none else n.log[k - n.lastSnapshot - 1]?

/-! ## Terms and votes (`state.go:10-52`) -/

/-- From `state.go:12-21`. -/
def setVotedForLocked (n : Node D) (v : NodeID) : Node D × Bool :=
  if v = n.votedFor then (n, true)
  else
    let (disk, ok) := H.saveHardState n.disk ⟨n.currentTerm, v⟩
    if ok then ({ n with disk := disk, votedFor := v }, true) else ({ n with disk := disk }, false)

/-- From `state.go:27-38`. -/
def advanceTermLocked (n : Node D) (t : Nat) : Node D × Bool :=
  if t ≤ n.currentTerm then (n, true)
  else
    let (disk, ok) := H.saveHardState n.disk ⟨t, []⟩
    if ok then ({ n with disk := disk, currentTerm := t, state := .follower, votedFor := [] }, true)
    else ({ n with disk := disk }, false)

def isLogUpToDate (n : Node D) (candidateLastIndex : Nat) (candidateLastTerm : Nat) : Bool :=
  let (lastIndex, lastTerm) := n.lastLogInfo
  if lastTerm ≠ candidateLastTerm then lastTerm < candidateLastTerm
  else lastIndex ≤ candidateLastIndex

/-- From `handlers.go:10-76`. -/
def handleVoteRequest (n : Node D) (req : VoteRequest) : Node D × VoteResponse :=
  if req.term < n.currentTerm then (n, ⟨n.currentTerm, false, n.id⟩)
  else
    let (n, ok) := n.advanceTermLocked H req.term
    if !ok then (n, ⟨n.currentTerm, false, n.id⟩)
    else if (n.votedFor = [] ∨ n.votedFor = req.candidateID) ∧
        n.isLogUpToDate req.lastLogIndex req.lastLogTerm then
      let (n, ok) := n.setVotedForLocked H req.candidateID
      if !ok then (n, ⟨n.currentTerm, false, n.id⟩)
      else ({ n with electionReset := true }, ⟨n.currentTerm, true, n.id⟩)
    else (n, ⟨n.currentTerm, false, n.id⟩)

/-! ## The log on disk (`state.go:603-632`) -/

/-- The write loop and the final `Sync` of `persistEntriesLocked`. -/
def writeEntries (disk : D) : List Entry → D × Bool
  | [] => H.sync disk
  | e :: es =>
    let (disk, ok) := H.write disk e
    if ok then writeEntries disk es else (disk, false)

/-- From `state.go:603-618`. -/
def persistEntriesLocked (n : Node D) (entries : List Entry) : Node D × Bool :=
  if entries = [] then (n, true)
  else
    let (disk, ok) := writeEntries H n.disk entries
    ({ n with disk := disk }, ok)

def persistTruncateLocked (n : Node D) (keepThrough : Nat) : Node D × Bool :=
  let (disk, ok) := H.truncateAfter n.disk keepThrough
  ({ n with disk := disk }, ok)

/-! ## AppendEntries (`handlers.go:97-209`) -/

/-- The reconciliation loop (`handlers.go:157-178`): the node with its new log, `toAppend`, and
`keepThrough` when the log was truncated. `idx` is `PrevLogIndex + 1 + j`. -/
def reconcile (n : Node D) (idx : Nat) : List Entry → Node D × List Entry × Option Nat
  | [] => (n, [], none)
  | e :: es =>
    if idx ≤ n.lastSnapshot then reconcile n (idx + 1) es
    else if idx ≤ n.lastIndex then
      if (n.entryTerm idx).getD 0 ≠ e.term then
        ({ n with log := (n.truncateFrom idx).log ++ (e :: es) }, e :: es, some (idx - 1))
      else reconcile n (idx + 1) es
    else ({ n with log := n.log ++ (e :: es) }, e :: es, none)

/-- Lines 184-191: the truncation, then the appended entries. -/
def persistReconciled (n : Node D) (toAppend : List Entry) (keepThrough : Option Nat) : Node D × Bool :=
  match keepThrough with
  | none => n.persistEntriesLocked H toAppend
  | some k =>
    let (n, ok) := n.persistTruncateLocked H k
    if ok then n.persistEntriesLocked H toAppend else (n, false)

def advanceFollowerCommit (n : Node D) (req : AppendRequest) : Node D :=
  let newCommit := min req.leaderCommit (req.prevLogIndex + req.entries.length)
  if n.commitIndex < newCommit then { n with commitIndex := newCommit } else n

/-- Lines 154-208: `PrevLog` matches. -/
def appendMatched (n : Node D) (req : AppendRequest) : Node D × AppendResponse :=
  let (n, toAppend, keepThrough) := n.reconcile (req.prevLogIndex + 1) req.entries
  let (n, ok) := n.persistReconciled H toAppend keepThrough
  if !ok then (n, { term := n.currentTerm, success := false, sender := n.id })
  else
    (n.advanceFollowerCommit req,
      { term := n.currentTerm, success := true, sender := n.id, matchIndex := req.prevLogIndex + req.entries.length })

/-- Lines 130-149: the consistency check at `PrevLogIndex`. -/
def appendChecked (n : Node D) (req : AppendRequest) : Node D × AppendResponse :=
  let refused : AppendResponse := { term := n.currentTerm, success := false, sender := n.id }
  if n.lastIndex < req.prevLogIndex then (n, { refused with matchIndex := n.lastIndex })
  else if n.lastSnapshot < req.prevLogIndex ∧ n.entryTerm req.prevLogIndex ≠ some req.prevLogTerm then
    let (n, ok) := (n.truncateFrom req.prevLogIndex).persistTruncateLocked H (req.prevLogIndex - 1)
    if !ok then (n, refused) else (n, { refused with matchIndex := req.prevLogIndex - 1 })
  else n.appendMatched H req

/-- Lines 118-127: the sender leads the node's term. -/
def acceptLeader (n : Node D) (leaderID : NodeID) : Node D :=
  { n with
    state := .follower
    leaderID := if leaderID = [] then n.leaderID else leaderID
    electionReset := true }

/-- `appendEntriesLocked`, the body of `HandleAppendRequest` (`handlers.go:97-209`, `263-267`). -/
def appendEntriesLocked (n : Node D) (req : AppendRequest) : Node D × AppendResponse :=
  if req.term < n.currentTerm then (n, { term := n.currentTerm, success := false, sender := n.id })
  else
    let stale := n.currentTerm
    let (n, ok) := n.advanceTermLocked H req.term
    if !ok then (n, { term := stale, success := false, sender := n.id })
    else (n.acceptLeader req.leaderID).appendChecked H req

/-! ## Snapshots installed from a leader (`handlers.go:273-333`) -/

/-- Lines 316-331. The WAL compaction's error is logged and dropped. -/
def installSnapshot (n : Node D) (req : SnapshotRequest) : Node D :=
  { n with
    lastSnapshot := req.lastIndex
    lastSnapshotTerm := req.lastTerm
    lastApplied := req.lastIndex
    commitIndex := req.lastIndex
    log := []
    snapshotBytes := req.data
    disk := H.onSnapshotInstalled (H.compactBefore n.disk req.lastIndex).1 req.lastIndex }

/-- From `handlers.go:273-333`. -/
def handleSnapshotRequest (n : Node D) (req : SnapshotRequest) : Node D × SnapshotResponse :=
  if req.term < n.currentTerm then (n, ⟨n.currentTerm, false⟩)
  else
    let (n, ok) := n.advanceTermLocked H req.term
    if !ok then (n, ⟨n.currentTerm, false⟩)
    else if req.lastIndex ≤ n.lastSnapshot ∨ req.lastIndex ≤ n.commitIndex then
      (n, ⟨n.currentTerm, true⟩)
    else if req.data.bytes = [] then (n.installSnapshot H req, ⟨n.currentTerm, true⟩)
    else
      let (disk, ok) := H.restore n.disk req.data
      if !ok then ({ n with disk := disk }, ⟨n.currentTerm, false⟩)
      else (({ n with disk := disk } : Node D).installSnapshot H req, ⟨n.currentTerm, true⟩)

/-! ## Leader bookkeeping (`state.go:396-430`, `handlers.go:336-384`, `replication.go`) -/

/-- The test inside the loop of `maybeAdvanceCommitIndex` (`state.go:403-423`). -/
def replicated (n : Node D) (i : Nat) : Bool :=
  n.lastSnapshot < i ∧ n.entryTerm i = some n.currentTerm ∧
    n.quorumSize ≤ 1 + (n.peers.filter fun p => i ≤ n.matchIndex p).length

/-- From `state.go:396-430`. -/
def maybeAdvanceCommitIndex (n : Node D) : Node D :=
  if n.state ≠ .leader then n
  else
    let newCommit := (List.range' (n.commitIndex + 1) (n.lastIndex - n.commitIndex)).foldl
      (fun c i => if n.replicated i then i else c) n.commitIndex
    if n.commitIndex < newCommit then { n with commitIndex := newCommit } else n

/-- From `handlers.go:336-384`. -/
def handleAppendResponse (n : Node D) (resp : AppendResponse) : Node D :=
  if n.state ≠ .leader then n
  else if n.currentTerm < resp.term then
    let (n, ok) := n.advanceTermLocked H resp.term
    if ok then n else { n with state := .follower }
  else if resp.term ≠ n.currentTerm then n
  else if resp.success then
    let m := max resp.matchIndex (n.matchIndex resp.sender)
    ({ n with
      matchIndex := Function.update n.matchIndex resp.sender m
      nextIndex := Function.update n.nextIndex resp.sender (m + 1) } : Node D).maybeAdvanceCommitIndex
  else
    let hintNext := resp.matchIndex + 1
    let next := n.nextIndex resp.sender
    if hintNext < next then { n with nextIndex := Function.update n.nextIndex resp.sender hintNext }
    else if 1 < next then { n with nextIndex := Function.update n.nextIndex resp.sender (next - 1) }
    else n

/-- The tail of `sendInstallSnapshot` (`replication.go:234-270`): the follower's answer to `req`. -/
def handleSnapshotResponse (n : Node D) (peer : NodeID) (req : SnapshotRequest) (resp : SnapshotResponse) : Node D :=
  let n := { n with snapshotInFlight := Function.update n.snapshotInFlight peer false }
  if n.currentTerm < resp.term then { (n.advanceTermLocked H resp.term).1 with state := .follower }
  else if !resp.success then n
  else if n.state = .leader ∧ n.currentTerm = req.term then
    { n with
      matchIndex := Function.update n.matchIndex peer (max req.lastIndex (n.matchIndex peer))
      nextIndex := Function.update n.nextIndex peer (max (req.lastIndex + 1) (n.nextIndex peer)) }
  else n

/-- `ProposeEntry` (`replication.go:19-58`); `none` is an error. -/
def proposeEntry (n : Node D) (command : Bytes) (type : EntryType) : Node D × Option Nat :=
  if n.state ≠ .leader then (n, none)
  else
    let e : Entry := { index := n.lastIndex + 1, term := n.currentTerm, command, type }
    let (m, ok) := ({ n with log := n.log ++ [e] } : Node D).persistEntriesLocked H [e]
    if !ok then ({ m with log := n.log }, none)
    else (m.maybeAdvanceCommitIndex, some e.index)

/-- From `replication.go:128-151`. -/
def buildAppendRequestLocked (n : Node D) (peer : NodeID) (term : Nat) : Option AppendRequest :=
  let nextIdx := max (n.nextIndex peer) 1
  let prevLogIndex := nextIdx - 1
  if prevLogIndex < n.lastSnapshot then none
  else (n.entryTerm prevLogIndex).map fun prevLogTerm =>
    { term, leaderID := n.id, prevLogIndex, prevLogTerm, entries := n.entriesFrom nextIdx,
      leaderCommit := n.commitIndex }

/-- `replicateTo` together with the in-flight guard of `sendInstallSnapshot`
(`replication.go:156-182`, `217-232`). -/
def replicateTo (n : Node D) (peer : NodeID) (term : Nat) : Node D × Option Msg :=
  if n.state ≠ .leader ∨ n.currentTerm ≠ term then (n, none)
  else match n.buildAppendRequestLocked peer term with
    | some req => (n, some (.appendReq req))
    | none =>
      if 0 < n.lastSnapshot ∧ n.snapshotBytes.bytes ≠ [] ∧ n.snapshotInFlight peer = false then
        ({ n with snapshotInFlight := Function.update n.snapshotInFlight peer true },
          some (.snapReq ⟨term, n.id, n.snapshotBytes, n.lastSnapshot, n.lastSnapshotTerm⟩))
      else (n, none)

/-! ## Snapshots the node takes itself (`integration.go:290-325`, `replication.go:189-210`) -/

/-- The first critical section of `takeSnapshot`: `idx` is the `appliedIndex` it reads and `bytes`
what the snapshot function returns. -/
def takeSnapshot (n : Node D) (idx : Nat) (bytes : Bytes) : Option Snapshot :=
  if n.state = .leader ∧ n.lastSnapshot < idx ∧ idx ≠ 0 then
    (n.entryTerm idx).map fun term => ⟨idx, term, bytes, n.held.take idx⟩
  else none

/-- From `replication.go:189-210`. -/
def installLeaderSnapshot (n : Node D) (snap : Snapshot) : Node D :=
  if snap.lastIndex ≤ n.lastSnapshot ∨ n.lastIndex < snap.lastIndex then n
  else
    { n with
      log := n.log.drop (snap.lastIndex - n.lastSnapshot)
      lastSnapshot := snap.lastIndex
      lastSnapshotTerm := snap.lastTerm
      snapshotBytes := snap.data
      disk := (H.compactBefore n.disk snap.lastIndex).1 }

end NothingDNS.Raft.Node
