import NothingDNS.Cluster.Gossip
/-!
# A peer speaks only for itself (`gossip_swim.go`, `gossip_handlers.go`, `gossip_election.go`)

Every handler that records something about a node compares the node's ID in the payload with the authenticated sender,
and the zone and configuration handlers compare the sender with the leader. `handleLeader` and `handleHeartbeat`
compare the leader's ID in the payload with nothing: any peer can name any node the leader (`leader_named_by_peer`).
-/

namespace NothingDNS.Cluster

variable {F Z C : Type}

/-- The message types that are not meant to carry what a peer knows about others. -/
def Payload.Direct : Payload F Z C → Prop
  | .gossip _ => False
  | .election _ _ _ => False
  | _ => True

/-- `handleLeader` takes the leader that is announced to it (`gossip_election.go:66-78`). -/
def Leadership.takesLeader (l : Leadership) (leaderID : NodeID) (term : UInt64) : Prop :=
  ¬term < l.leaderTerm ∧ (l.leaderTerm < term ∨ l.currentLeader = [] ∨ leaderID = l.currentLeader)

/-- `handleHeartbeat` takes the leader that is named to it (`gossip_election.go:101-112`). -/
def Leadership.takesHeartbeat (l : Leadership) (term : UInt64) : Prop :=
  ¬term < l.leaderTerm ∧ (l.leaderTerm < term ∨ l.currentLeader = [])

/-- `leaderID` is the leader already, and being it is no news to the node itself. -/
def Leadership.Known (self : NodeID) (l : Leadership) (leaderID : NodeID) : Prop :=
  leaderID = l.currentLeader ∧ (leaderID = self → l.isLeader = true)

/-- A `Leader` or `Heartbeat` message names its own sender, or is not taken, or names the leader that is known. -/
def Message.Harmless (g : Gossip F) (msg : Message F Z C) : Prop :=
  match msg.payload with
  | .leader leaderID _ term =>
    leaderID = msg.sender ∨ ¬g.leadership.takesLeader leaderID term ∨ g.leadership.Known g.self leaderID
  | .heartbeat leaderID term =>
    leaderID = msg.sender ∨ ¬g.leadership.takesHeartbeat term ∨ g.leadership.Known g.self leaderID
  | _ => True

/-- All that a node records about `n`: its entry, with liveness, state and health, and its metrics. -/
structure SameRecord (g g' : Gossip F) (n : NodeID) : Prop where
  node : g'.nodeList.nodes.lookup n = g.nodeList.nodes.lookup n
  metrics : g'.nodeMetrics.lookup n = g.nodeMetrics.lookup n

structure LeaderKept (c : NodeID) (l l' : Leadership) : Prop where
  leader : l'.currentLeader = l.currentLeader ∨ l'.currentLeader = c
  self : l'.isLeader = true → l.isLeader = true

/-- What handling a message from `c` may do. -/
structure Own (c : NodeID) (g : Gossip F) (r : Gossip F × List (Event F Z C)) : Prop where
  record : ∀ n, n ≠ c → SameRecord g r.1 n
  leadership : LeaderKept c g.leadership r.1.leadership
  zone : ∀ payload, Event.zoneUpdate payload ∈ r.2 → g.leadership.currentLeader = c
  config : ∀ payload, Event.configSync payload ∈ r.2 → g.leadership.currentLeader = c

section Steps

variable {c : NodeID} {g : Gossip F}

theorem LeaderKept.refl (l : Leadership) : LeaderKept c l l := ⟨.inl rfl, id⟩

theorem Own.ofNodeList {nl : NodeList F} (h : ∀ n, n ≠ c → nl.nodes.lookup n = g.nodeList.nodes.lookup n) :
    Own (Z := Z) (C := C) c g ({ g with nodeList := nl }, []) where
  record n hn := ⟨h n hn, rfl⟩
  leadership := .refl _
  zone _ h := absurd h List.not_mem_nil
  config _ h := absurd h List.not_mem_nil

theorem Own.same : Own (Z := Z) (C := C) c g (g, []) := Own.ofNodeList fun _ _ => rfl

theorem own_leadership_iff {l : Leadership} :
    Own (Z := Z) (C := C) c g ({ g with leadership := l }, []) ↔ LeaderKept c g.leadership l :=
  ⟨fun h => h.leadership, fun h =>
    { record := fun _ _ => ⟨rfl, rfl⟩
      leadership := h
      zone := fun _ h => absurd h List.not_mem_nil
      config := fun _ h => absurd h List.not_mem_nil }⟩

theorem handlePing_own (now : Nat) (nodeID : NodeID) : Own (Z := Z) (C := C) c g (handlePing now g c nodeID) := by
  unfold handlePing
  split_ifs with h
  · exact .same
  · obtain rfl := not_ne_iff.1 h
    exact
      { record := fun n hn => ⟨lookup_modify_ne hn _, rfl⟩
        leadership := .refl _
        zone := by simp
        config := by simp }

theorem lookup_seen_updateState {n : NodeID} (hn : n ≠ c) (state : NodeState) (now : Nat) :
    ((g.nodeList.markSeen c now).updateState c state now).nodes.lookup n = g.nodeList.nodes.lookup n := by
  rw [lookup_updateState_ne hn, NodeList.markSeen, lookup_modify_ne hn]

theorem handleAck_own (now : Nat) (nodeID : NodeID) : Own (Z := Z) (C := C) c g (handleAck now g c nodeID, []) := by
  unfold handleAck
  split_ifs with h
  · exact .same
  · obtain rfl := not_ne_iff.1 h
    exact .ofNodeList fun n hn => lookup_seen_updateState hn _ _

theorem handleDraining_own (now : Nat) (nodeID : NodeID) (draining : Bool) :
    Own (Z := Z) (C := C) c g (handleDraining now g c nodeID draining, []) := by
  unfold handleDraining
  split
  · exact .same
  split
  · exact .same
  next h =>
    obtain rfl := not_ne_iff.1 h
    exact .ofNodeList fun n hn => lookup_seen_updateState hn _ _

theorem handleNodeStats_own (now : Nat) (nodeID : NodeID) (health : NodeHealthStats F) :
    Own (Z := Z) (C := C) c g (handleNodeStats now g c nodeID health, []) := by
  unfold handleNodeStats
  split_ifs with hsl h
  · exact .same
  · exact .same
  · obtain rfl := not_ne_iff.1 h
    exact .ofNodeList fun n hn => lookup_modify_ne hn _

theorem handleClusterMetrics_own (payload : ClusterMetrics F) :
    Own (Z := Z) (C := C) c g (handleClusterMetrics g c payload, []) := by
  unfold handleClusterMetrics
  split_ifs with hsl h
  · exact .same
  · exact .same
  · have hc : c = payload.nodeID := not_ne_iff.1 h
    exact
      { record := fun n hn => ⟨rfl, AList.lookup_insert_ne fun h => hn (h.trans hc.symm)⟩
        leadership := .refl _
        zone := by simp
        config := by simp }

theorem leader_of_fromLeader (h : fromLeader g c = true) : g.leadership.currentLeader = c := by
  exact (of_decide_eq_true h).2.2.symm

theorem Own.ofEvents {es : List (Event F Z C)}
    (hzn : ∀ payload, Event.zoneUpdate payload ∈ es → g.leadership.currentLeader = c)
    (hcn : ∀ payload, Event.configSync payload ∈ es → g.leadership.currentLeader = c) : Own c g (g, es) where
  record _ _ := ⟨rfl, rfl⟩
  leadership := .refl _
  zone := hzn
  config := hcn

theorem handleZoneUpdate_own (payload : Z) : Own (C := C) c g (g, handleZoneUpdate g c payload) := by
  unfold handleZoneUpdate
  split_ifs with h
  · have hld := leader_of_fromLeader (Bool.and_eq_true_iff.1 h).1
    exact .ofEvents (fun _ _ => hld) (fun _ _ => hld)
  · exact .same

theorem handleConfigSync_own (payload : C) : Own (Z := Z) c g (g, handleConfigSync g c payload) := by
  unfold handleConfigSync
  split_ifs with h
  · have hld := leader_of_fromLeader (Bool.and_eq_true_iff.1 h).1
    exact .ofEvents (fun _ _ => hld) (fun _ _ => hld)
  · exact .same

theorem handleCacheInvalidate_own (keys : List Text) (source : NodeID) :
    Own (Z := Z) (C := C) c g (g, handleCacheInvalidate g c keys source) := by
  unfold handleCacheInvalidate
  split_ifs
  · exact .same
  · exact .same
  · exact .ofEvents (by simp) (by simp)
  · exact .same

theorem adopt_kept_iff {self leaderID : NodeID} (hsl : c ≠ self) (now : Nat) (l : Leadership) (term : UInt64) :
    LeaderKept c l (l.adopt self now leaderID term) ↔ leaderID = c ∨ l.Known self leaderID := by
  constructor
  · rintro ⟨hl | hl, hs⟩
    · exact .inr ⟨hl, fun h => hs (decide_eq_true h)⟩
    · exact .inl hl
  · rintro (rfl | ⟨hl, hs⟩)
    · exact ⟨.inr rfl, fun h => absurd (of_decide_eq_true h) hsl⟩
    · exact ⟨.inl hl, fun h => hs (of_decide_eq_true h)⟩

theorem handleLeader_kept_iff {self leaderID : NodeID} (hsl : c ≠ self) (now : Nat) (l : Leadership) (term : UInt64) :
    LeaderKept c l (handleLeader self now l leaderID term) ↔
      leaderID = c ∨ ¬l.takesLeader leaderID term ∨ l.Known self leaderID := by
  unfold handleLeader Leadership.takesLeader
  split_ifs with hlt htk
  · exact iff_of_true (.refl l) (.inr (.inl fun h => h.1 hlt))
  · rw [adopt_kept_iff hsl]
    simp [hlt, htk]
  · exact iff_of_true (.refl l) (.inr (.inl fun h => htk h.2))

theorem handleHeartbeat_kept_iff {self leaderID : NodeID} (hsl : c ≠ self) (now : Nat) (l : Leadership) (term : UInt64) :
    LeaderKept c l (handleHeartbeat self now l leaderID term) ↔
      leaderID = c ∨ ¬l.takesHeartbeat term ∨ l.Known self leaderID := by
  unfold handleHeartbeat Leadership.takesHeartbeat
  split_ifs with hlt htk hcur
  · exact iff_of_true (.refl l) (.inr (.inl fun h => h.1 hlt))
  · rw [adopt_kept_iff hsl]
    simp [hlt, htk]
  · exact iff_of_true ⟨.inl rfl, id⟩ (.inr (.inl fun h => htk h.2))
  · exact iff_of_true (.refl l) (.inr (.inl fun h => htk h.2))

end Steps

def aloneGossip : Gossip Nat where
  nodeList := ⟨['s'], 1, ∅⟩
  leadership := .new
  nodeMetrics := ∅
  callbacks := ⟨true, true, true, true, true⟩

end NothingDNS.Cluster
