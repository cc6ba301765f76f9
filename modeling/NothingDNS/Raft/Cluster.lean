import NothingDNS.Raft.Step
import NothingDNS.Lib.Run
/-!
# A cluster with fixed membership

The members, the network between them, and what has happened so far. Nothing is
ever removed from `net`: delivering a message does not consume it, so a run can
delay, duplicate, reorder and (by never delivering) lose messages at will.
-/

namespace NothingDNS.Raft

structure Envelope where
  sender : NodeID
  dest : NodeID
  msg : Msg
deriving DecidableEq

/-- The node ids of a cluster. An empty `NodeID` is replaced by a generated one before the node is
built (`internal/cluster/cluster.go`), so `""` never names a member. -/
structure Membership where
  ids : List NodeID
  nodup : ids.Nodup
  named : [] ∉ ids

structure History where
  /-- Every `(i, T)` such that `i` has been in state Leader with `currentTerm = T`. -/
  leaders : List (NodeID × Nat)
  /-- Every vote given, as voter, term and candidate. -/
  votes : List (NodeID × Nat × NodeID)

structure Cluster (D : Type) where
  nodes : NodeID → Node D
  net : List Envelope
  hist : History

structure Action where
  node : NodeID
  event : Event

namespace Cluster

variable {D : Type} (H : Host D) (M : Membership)

/-- Every member freshly built by `NewNode`; the peers of a node are the other members. -/
def init (disk : NodeID → D) : Cluster D where
  nodes := fun i => newNode i (M.ids.filter (· ≠ i)) (disk i)
  net := []
  hist := ⟨[], []⟩

def arrival (i : NodeID) : Event → Option Envelope
  | .voteRequest sender req => some ⟨sender, i, .voteReq req⟩
  | .appendRequest sender req => some ⟨sender, i, .appendReq req⟩
  | .snapshotRequest sender req => some ⟨sender, i, .snapReq req⟩
  | .voteResponse sender resp => some ⟨sender, i, .voteResp resp⟩
  | .appendResponse sender resp => some ⟨sender, i, .appendResp resp⟩
  | .snapshotResponse peer req resp => some ⟨peer, i, .snapResp req resp⟩
  | _ => none

/-- What the environment promises: only members move, only sent messages arrive, and the applied
index the snapshot loop reads does not run ahead of the commit index. -/
def enabled (s : Cluster D) (a : Action) : Bool :=
  decide (a.node ∈ M.ids) && (arrival a.node a.event).all (· ∈ s.net) &&
    match a.event with
    | .takeSnapshot appliedIndex _ => decide (appliedIndex ≤ (s.nodes a.node).commitIndex)
    | _ => true

def record (h : History) (i : NodeID) (m : Node D) (votes : List (Nat × NodeID)) : History where
  leaders := if m.state = .leader then (i, m.currentTerm) :: h.leaders else h.leaders
  votes := votes.map (fun v => (i, v.1, v.2)) ++ h.votes

/-- The cluster after node `i` became `m` in event `ev` and sent `sends`. -/
def after (s : Cluster D) (i : NodeID) (ev : Event) (m : Node D) (sends : List Send) : Cluster D where
  nodes := Function.update s.nodes i m
  net := s.net ++ sends.map fun x => ⟨i, x.dest, x.msg⟩
  hist := record s.hist i m ((s.nodes i).votesCast ev m sends)

def step (s : Cluster D) (a : Action) : Option (Cluster D) :=
  if enabled M s a then
    ((s.nodes a.node).step H a.event).map fun r => s.after a.node a.event r.1 r.2
  else none

theorem step_eq_some {s s' : Cluster D} {a : Action} (h : step H M s a = some s') :
    enabled M s a = true ∧ ∃ m sends, (s.nodes a.node).step H a.event = some (m, sends) ∧
      s' = s.after a.node a.event m sends := by
  unfold step at h
  split at h
  · obtain ⟨⟨m, sends⟩, hr, hs⟩ := Option.map_eq_some_iff.1 h
    exact ⟨‹_›, m, sends, hr, hs.symm⟩
  · cases h

theorem leaders_mono {s s' : Cluster D} {a : Action} (h : step H M s a = some s') {l : NodeID × Nat}
    (hl : l ∈ s.hist.leaders) : l ∈ s'.hist.leaders := by
  obtain ⟨-, m, sends, -, rfl⟩ := step_eq_some H M h
  by_cases hm : m.state = .leader <;> simp [after, record, hm, hl]

abbrev runs (disk : NodeID → D) (as : List Action) : Option (Cluster D) :=
  Run.exec (step H M) (init M disk) as

section after
variable (s : Cluster D) (i : NodeID) (ev : Event) (m : Node D) (sends : List Send)

@[simp] theorem after_nodes_self : (s.after i ev m sends).nodes i = m := by
  simp [after]

theorem after_nodes_of_ne {j : NodeID} (h : j ≠ i) : (s.after i ev m sends).nodes j = s.nodes j := by
  simp [after, h]

theorem mem_after_net {e : Envelope} : e ∈ (s.after i ev m sends).net ↔
      e ∈ s.net ∨ (e.sender = i ∧ (⟨e.dest, e.msg⟩ : Send) ∈ sends) := by
  obtain ⟨es, ed, em⟩ := e
  simp only [after, List.mem_append, List.mem_map, Envelope.mk.injEq]
  constructor
  · rintro (h | ⟨x, hx, rfl, rfl, rfl⟩)
    · exact .inl h
    · exact .inr ⟨rfl, hx⟩
  · rintro (h | ⟨rfl, hx⟩)
    · exact .inl h
    · exact .inr ⟨_, hx, rfl, rfl, rfl⟩

theorem mem_after_votes {v : NodeID × Nat × NodeID} : v ∈ (s.after i ev m sends).hist.votes ↔
      v ∈ s.hist.votes ∨ (v.1 = i ∧ v.2 ∈ (s.nodes i).votesCast ev m sends) := by
  obtain ⟨q, t, c⟩ := v
  simp only [after, record, List.mem_append, List.mem_map, Prod.mk.injEq]
  constructor
  · rintro (⟨x, hx, rfl, rfl, rfl⟩ | h)
    · exact .inr ⟨rfl, hx⟩
    · exact .inl h
  · rintro (h | ⟨rfl, hx⟩)
    · exact .inr h
    · exact .inl ⟨_, hx, rfl, rfl, rfl⟩

theorem mem_after_leaders {l : NodeID × Nat} : l ∈ (s.after i ev m sends).hist.leaders ↔
      l ∈ s.hist.leaders ∨ (m.state = .leader ∧ l = (i, m.currentTerm)) := by
  by_cases hm : m.state = .leader <;> simp [after, record, hm, or_comm]

end after

end Cluster

end NothingDNS.Raft
