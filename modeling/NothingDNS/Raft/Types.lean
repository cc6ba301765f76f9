import Mathlib.Algebra.Group.Nat.Defs
import Mathlib.Logic.Function.Basic
import Mathlib.Data.List.Basic
import Mathlib.Order.Lattice
import Mathlib.Tactic.Common
/-!
# Raft data model (`internal/cluster/raft/types.go`)

`Term` and `Index` (`types.go:41-45`) are naturals. Terms are `uint64` counters: the only arithmetic on them is
`currentTerm + 1`, kept with its wrap-around in `nextTerm`.
-/

namespace NothingDNS.Raft

abbrev NodeID := List UInt8
abbrev Bytes := List UInt8

instance : LawfulBEq NodeID := inferInstance

/-- `EntryType` is an open `uint8` (`types.go:86-94`): any byte travels through encoding and WAL. -/
abbrev EntryType := UInt8

def entryNormal : EntryType := 0
def entryNoOp : EntryType := 1

def nextTerm (t : Nat) : Nat := (t + 1) % 2 ^ 64

inductive State where
  | follower
  | candidate
  | leader
deriving DecidableEq

structure Entry where
  index : Nat
  term : Nat
  command : Bytes
  type : EntryType
  commitment : Nat := 0
deriving DecidableEq

/-- The pair that must survive a restart (`hardstate.go:22-25`). -/
structure HardState where
  currentTerm : Nat
  votedFor : NodeID
deriving DecidableEq

structure VoteRequest where
  term : Nat
  candidateID : NodeID
  lastLogIndex : Nat
  lastLogTerm : Nat
deriving DecidableEq

structure VoteResponse where
  term : Nat
  voteGranted : Bool
  sender : NodeID
deriving DecidableEq

structure AppendRequest where
  term : Nat
  leaderID : NodeID
  prevLogIndex : Nat
  prevLogTerm : Nat
  entries : List Entry
  leaderCommit : Nat
deriving DecidableEq

structure AppendResponse where
  term : Nat
  success : Bool
  sender : NodeID
  matchIndex : Nat := 0
  commitment : Nat := 0
deriving DecidableEq

/-- A serialised state machine. `covers` is a history variable: the entries whose effect the bytes
stand for. It travels with the bytes and no function branches on it. -/
structure Payload where
  bytes : Bytes
  covers : List Entry
deriving DecidableEq

structure SnapshotRequest where
  term : Nat
  leaderID : NodeID
  data : Payload
  lastIndex : Nat
  lastTerm : Nat
deriving DecidableEq

structure SnapshotResponse where
  term : Nat
  success : Bool
deriving DecidableEq

/-- The snapshot `takeSnapshot` hands to the snapshotter and then to `installLeaderSnapshot`
(`integration.go:318-323`). -/
structure Snapshot where
  lastIndex : Nat
  lastTerm : Nat
  data : Payload
deriving DecidableEq

/-- An RPC body on the wire. A snapshot response is handled by the goroutine that still holds its
request (`replication.go:234-270`), so the pair travels together. -/
inductive Msg where
  | voteReq (req : VoteRequest)
  | voteResp (resp : VoteResponse)
  | appendReq (req : AppendRequest)
  | appendResp (resp : AppendResponse)
  | snapReq (req : SnapshotRequest)
  | snapResp (req : SnapshotRequest) (resp : SnapshotResponse)
deriving DecidableEq

structure Send where
  dest : NodeID
  msg : Msg
deriving DecidableEq

/-- Everything a node calls while it holds its lock. `true` stands for a nil error. -/
structure Host (D : Type) where
  saveHardState : D → HardState → D × Bool
  write : D → Entry → D × Bool
  sync : D → D × Bool
  truncateAfter : D → Nat → D × Bool
  compactBefore : D → Nat → D × Bool
  restore : D → Payload → D × Bool
  saveSnapshot : D → Snapshot → D × Bool
  onSnapshotInstalled : D → Nat → D

/-- A node with neither data directory nor persister nor state machine. -/
def Host.inMemory : Host Unit where
  saveHardState _ _ := ((), true)
  write _ _ := ((), true)
  sync _ := ((), true)
  truncateAfter _ _ := ((), true)
  compactBefore _ _ := ((), true)
  restore _ _ := ((), true)
  saveSnapshot _ _ := ((), true)
  onSnapshotInstalled _ _ := ()

inductive Pc where
  /-- Top of `run`, about to read `n.state`. -/
  | top
  | follower
  /-- Entered `runCandidate`, the self-vote not cast yet. -/
  | candidate
  /-- In the `select` of `runCandidate`. `voters` is a history variable: the `From` of every vote
  counted so far. -/
  | collecting (term : Nat) (voteCount : Nat) (voters : List NodeID)
  /-- About to take the lock in `becomeFollower`. -/
  | steppingDown (term : Nat)
  /-- About to take the lock in `becomeLeader`; `voters` as in `collecting`. -/
  | winning (term : Nat) (voters : List NodeID)
  /-- Between the lock of `becomeLeader` and that of the no-op `Propose`. -/
  | elected
  | leader
deriving DecidableEq

/-- `takeSnapshot` between its critical sections (`integration.go:290-325`). -/
inductive SnapshotTask where
  | idle
  | captured (snap : Snapshot)
  | saved (snap : Snapshot)
deriving DecidableEq

def SnapshotTask.pending : SnapshotTask → Option Snapshot
  | .idle => none
  | .captured snap | .saved snap => some snap

structure Node (D : Type) where
  id : NodeID
  /-- Keys of the `peers` map. -/
  peers : List NodeID
  currentTerm : Nat
  votedFor : NodeID
  log : List Entry
  state : State
  commitIndex : Nat
  lastApplied : Nat
  lastSnapshot : Nat
  lastSnapshotTerm : Nat
  leaderID : NodeID
  nextIndex : NodeID → Nat
  matchIndex : NodeID → Nat
  snapshotInFlight : NodeID → Bool
  snapshotBytes : Payload
  /-- Whether a token sits in `electionResetCh`, a channel with one slot. -/
  electionReset : Bool
  voteRespCh : List VoteResponse
  appendRespCh : List AppendResponse
  pc : Pc
  snapshotTask : SnapshotTask
  disk : D

/-- `NewNode` on an empty data directory (`types.go:336-388`). -/
def newNode {D : Type} (id : NodeID) (peers : List NodeID) (disk : D) : Node D where
  id := id
  peers := peers
  currentTerm := 0
  votedFor := []
  log := []
  state := .follower
  commitIndex := 0
  lastApplied := 0
  lastSnapshot := 0
  lastSnapshotTerm := 0
  leaderID := []
  nextIndex := fun _ => 0
  matchIndex := fun _ => 0
  snapshotInFlight := fun _ => false
  snapshotBytes := ⟨[], []⟩
  electionReset := false
  voteRespCh := []
  appendRespCh := []
  pc := .top
  snapshotTask := .idle
  disk := disk

theorem if_not_true {α : Type} {a b : α} : (if !true then a else b) = b := rfl

end NothingDNS.Raft
