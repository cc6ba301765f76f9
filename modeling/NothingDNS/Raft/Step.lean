import NothingDNS.Raft.Node
/-!
# One step of a node

A node moves by critical sections: the run-loop goroutine (`state.go:76-334`), the RPC handlers, the goroutines that
carry RPC answers back, `ProposeEntry`, the replication goroutines and the snapshot loop. `Node.step` performs one of
them and returns the messages it sends.
-/

namespace NothingDNS.Raft

inductive Event where
  /-- `run` reads `n.state` and enters the loop of that state (`state.go:93-104`). -/
  | dispatch
  | electionTimeout
  | electionReset
  /-- The self-vote and the vote broadcast (`state.go:164-188`). -/
  | startCandidate
  /-- The candidate receives from `voteRespCh` (`state.go:220-233`). -/
  | collectVote
  | becomeFollower
  | becomeLeader
  /-- The `Propose(nil, EntryNoOp)` at the end of `becomeLeader`. -/
  | proposeNoOp
  /-- A heartbeat tick; the sends it starts are `replicateTo` events. -/
  | heartbeat
  | collectAppend
  | voteRequest (sender : NodeID) (req : VoteRequest)
  | appendRequest (sender : NodeID) (req : AppendRequest)
  | snapshotRequest (sender : NodeID) (req : SnapshotRequest)
  /-- A vote response arrives: `sendVoteRequest` pushes it to `voteRespCh` (`handlers.go:462-467`). -/
  | voteResponse (sender : NodeID) (resp : VoteResponse)
  /-- As above for `appendRespCh` (`handlers.go:490-494`). -/
  | appendResponse (sender : NodeID) (resp : AppendResponse)
  | snapshotResponse (peer : NodeID) (req : SnapshotRequest) (resp : SnapshotResponse)
  /-- A snapshot RPC to `peer` fails or times out: the in-flight mark goes. -/
  | snapshotFailed (peer : NodeID)
  | replicateTo (peer : NodeID) (term : Nat)
  | propose (command : Bytes) (type : EntryType)
  | takeSnapshot (appliedIndex : Nat) (bytes : Bytes)
  /-- `snapshotter.Save`; its error is logged and dropped (`integration.go:318-322`). -/
  | saveSnapshot
  | installLeaderSnapshot

/-- Capacity of `voteRespCh` and `appendRespCh` (`types.go:361-362`). -/
def respChCap : Nat := 10

namespace Node

variable {D : Type} (H : Host D)

def trySend {α : Type} (ch : List α) (x : α) : List α :=
  if ch.length < respChCap then ch ++ [x] else ch

/-- `broadcastVoteRequest` (`replication.go:86-104`). -/
def voteRequests (n : Node D) : List Send :=
  n.peers.map fun p => ⟨p, .voteReq ⟨n.currentTerm, n.id, n.lastLogInfo.1, n.lastLogInfo.2⟩⟩

/-- The election timeout of `runFollower` (`state.go:141-149`) and `runCandidate` (`:200-209`);
`failed` is what the node keeps when the new term cannot be persisted. -/
def electionTimeout (n : Node D) (failed : Node D → Node D) : Node D :=
  let (m, ok) := n.advanceTermLocked H (nextTerm n.currentTerm)
  if ok then { m with state := .candidate, pc := .top } else { failed m with pc := .top }

def startCandidate (n : Node D) : Node D × List Send :=
  let (m, ok) := n.setVotedForLocked H n.id
  if !ok then ({ m with state := .follower, pc := .top }, [])
  else
    ({ m with
      pc := if m.quorumSize ≤ 1 then .winning m.currentTerm [] else .collecting m.currentTerm 1 [] },
      m.voteRequests)

/-- A vote response taken from `voteRespCh` (`state.go:221-233`). The response's own term is only
compared with a greater one, and its `From` is not looked at. -/
def collectVote (n : Node D) (term : Nat) (voteCount : Nat) (voters : List NodeID) (resp : VoteResponse) : Node D :=
  if term < resp.term then { n with pc := .steppingDown resp.term }
  else if resp.voteGranted then
    if n.quorumSize ≤ voteCount + 1 then { n with pc := .winning term (resp.sender :: voters) }
    else { n with pc := .collecting term (voteCount + 1) (resp.sender :: voters) }
  else n

def becomeFollower (n : Node D) (term : Nat) : Node D :=
  if n.currentTerm < term then { (n.advanceTermLocked H term).1 with pc := .top }
  else { n with state := .follower, pc := .top }

/-- The critical section of `becomeLeader` (`state.go:312-322`). The term the node was elected in
is not compared with `currentTerm`. -/
def becomeLeader (n : Node D) : Node D :=
  { n with
    state := .leader
    leaderID := n.id
    nextIndex := fun p => if p ∈ n.peers then n.lastIndex + 1 else n.nextIndex p
    matchIndex := fun p => if p ∈ n.peers then 0 else n.matchIndex p
    pc := .elected }

def dispatchPc : State → Pc
  | .follower => .follower
  | .candidate => .candidate
  | .leader => .leader

def step (n : Node D) : Event → Option (Node D × List Send)
  | .dispatch => if n.pc = .top then some ({ n with pc := dispatchPc n.state }, []) else none
  | .electionTimeout => match n.pc with
    | .follower => some (n.electionTimeout H fun m => m, [])
    | .collecting _ _ _ => some (n.electionTimeout H fun m => { m with state := .follower }, [])
    | _ => none
  | .electionReset =>
    if n.electionReset then match n.pc with
      | .follower => some ({ n with electionReset := false }, [])
      | .collecting _ _ _ =>
        some ({ n with
          electionReset := false
          pc := if n.state = .candidate then n.pc else .top }, [])
      | _ => none
    else none
  | .startCandidate => if n.pc = .candidate then some (n.startCandidate H) else none
  | .collectVote => match n.pc, n.voteRespCh with
    | .collecting term voteCount voters, resp :: rest =>
      some (({ n with voteRespCh := rest } : Node D).collectVote term voteCount voters resp, [])
    | _, _ => none
  | .becomeFollower => match n.pc with
    | .steppingDown term => some (n.becomeFollower H term, [])
    | _ => none
  | .becomeLeader => match n.pc with
    | .winning _ _ => some (n.becomeLeader, [])
    | _ => none
  | .proposeNoOp =>
    if n.pc = .elected then some ({ (n.proposeEntry H [] entryNoOp).1 with pc := .top }, []) else none
  | .heartbeat =>
    if n.pc = .leader then some ({ n with pc := if n.state = .leader then .leader else .top }, [])
    else none
  | .collectAppend => match n.pc, n.appendRespCh with
    | .leader, resp :: rest =>
      some (({ n with appendRespCh := rest } : Node D).handleAppendResponse H resp, [])
    | _, _ => none
  | .voteRequest sender req =>
    let (m, resp) := n.handleVoteRequest H req
    some (m, [⟨sender, .voteResp resp⟩])
  | .appendRequest sender req =>
    let (m, resp) := n.appendEntriesLocked H req
    some (m, [⟨sender, .appendResp resp⟩])
  | .snapshotRequest sender req =>
    let (m, resp) := n.handleSnapshotRequest H req
    some (m, [⟨sender, .snapResp req resp⟩])
  | .voteResponse _ resp => some ({ n with voteRespCh := trySend n.voteRespCh resp }, [])
  | .appendResponse _ resp => some ({ n with appendRespCh := trySend n.appendRespCh resp }, [])
  | .snapshotResponse peer req resp => some (n.handleSnapshotResponse H peer req resp, [])
  | .snapshotFailed peer =>
    some ({ n with snapshotInFlight := Function.update n.snapshotInFlight peer false }, [])
  | .replicateTo peer term =>
    if peer ∈ n.peers then
      let (m, msg) := n.replicateTo peer term
      some (m, msg.toList.map fun msg => ⟨peer, msg⟩)
    else none
  | .propose command type => some ((n.proposeEntry H command type).1, [])
  | .takeSnapshot appliedIndex bytes => match n.snapshotTask, n.takeSnapshot appliedIndex bytes with
    | .idle, some snap => some ({ n with snapshotTask := .captured snap }, [])
    | _, _ => none
  | .saveSnapshot => match n.snapshotTask with
    | .captured snap =>
      some ({ n with disk := (H.saveSnapshot n.disk snap).1, snapshotTask := .saved snap }, [])
    | _ => none
  | .installLeaderSnapshot => match n.snapshotTask with
    | .saved snap => some ({ n.installLeaderSnapshot H snap with snapshotTask := .idle }, [])
    | _ => none

/-- The votes a step gives away, as pairs of term and candidate: the self-vote of `runCandidate`,
and every reply with `VoteGranted`. -/
def votesCast (n : Node D) (ev : Event) (m : Node D) (sends : List Send) : List (Nat × NodeID) :=
  match ev with
  | .startCandidate => if m.pc = .top then [] else [(m.currentTerm, n.id)]
  | .voteRequest _ req => sends.filterMap fun s => match s.msg with
    | .voteResp resp => if resp.voteGranted then some (resp.term, req.candidateID) else none
    | _ => none
  | _ => []

end Node

end NothingDNS.Raft
