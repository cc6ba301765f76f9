import Mathlib.Algebra.GroupWithZero.Nat
import Mathlib.Data.List.AList
import NothingDNS.Lib.DottedName
/-!
# The gossip layer (`internal/cluster/node.go`, `gossip_swim.go`, `gossip_handlers.go`, `gossip_election.go`)

A message is modelled once it is accepted: `decodeMessage` has authenticated its sender and refused
replays. A payload that does not decode is `undecodable`. The clock, in seconds, is an argument. `F` stands for
`float64`, `Z` and `C` for the zone and configuration payloads: they are only copied. What a handler
hands to the outside is its list of events.
-/

namespace NothingDNS.Cluster

abbrev NodeID := Text

inductive NodeState where
  | unknown
  | alive
  | suspect
  | dead
  | draining
deriving DecidableEq

structure NodeMeta where
  region : Text
  zone : Text
  weight : Int
  httpAddr : Text
deriving DecidableEq

structure NodeHealthStats (F : Type) where
  queriesPerSecond : F
  latencyMs : F
  cpuPercent : F
  memoryPercent : F
  activeConns : Int
  lastUpdated : Nat
deriving DecidableEq

structure Node (F : Type) where
  id : NodeID
  addr : Text
  port : Int
  state : NodeState
  lastSeen : Nat
  version : UInt64
  nodeMeta : NodeMeta
  health : NodeHealthStats F
deriving DecidableEq

abbrev NodeMap (F : Type) := AList fun _ : NodeID => Node F

structure NodeList (F : Type) where
  selfID : NodeID
  selfVersion : UInt64
  nodes : NodeMap F

def maxClusterNodes : Nat := 65536

section NodeList

variable {F : Type}

def NodeList.modify (nl : NodeList F) (id : NodeID) (f : Node F → Node F) : NodeList F :=
  match nl.nodes.lookup id with
  | none => nl
  | some node => { nl with nodes := nl.nodes.insert id (f node) }

/-- From `node.go:193-214`. -/
def NodeList.add (nl : NodeList F) (node : Node F) : NodeList F × Bool :=
  match nl.nodes.lookup node.id with
  | some existing =>
    if existing.version < node.version then ({ nl with nodes := nl.nodes.insert node.id node }, true) else (nl, false)
  | none =>
    if maxClusterNodes ≤ nl.nodes.entries.length then (nl, false)
    else ({ nl with nodes := nl.nodes.insert node.id node }, true)

/-- The version is counted up, whatever version the new state came with. -/
def NodeList.updateState (nl : NodeList F) (id : NodeID) (state : NodeState) (now : Nat) : NodeList F :=
  if id = nl.selfID then nl
  else nl.modify id fun node => { node with state := state, lastSeen := now, version := node.version + 1 }

def NodeList.markSeen (nl : NodeList F) (id : NodeID) (now : Nat) : NodeList F :=
  nl.modify id fun node => { node with lastSeen := now }

def NodeList.updateHealth (nl : NodeList F) (id : NodeID) (health : NodeHealthStats F) (now : Nat) : NodeList F :=
  nl.modify id fun node => { node with health := health, lastSeen := now }

end NodeList

structure NodeInfo where
  id : NodeID
  addr : Text
  port : Int
  state : NodeState
  version : UInt64
  lastSeen : Nat
  nodeMeta : NodeMeta
deriving DecidableEq

structure ClusterMetrics (F : Type) where
  nodeID : NodeID
  queriesTotal : UInt64
  queriesPerSec : F
  cacheHits : UInt64
  cacheMisses : UInt64
  latencyMsAvg : F
  latencyMsP99 : F
  uptimeSeconds : UInt64
  timestamp : Nat
deriving DecidableEq

inductive Payload (F Z C : Type) where
  | ping (nodeID : NodeID) (version : UInt64)
  | ack (nodeID : NodeID) (version : UInt64)
  | gossip (nodes : List NodeInfo)
  | cacheInvalidate (keys : List Text) (source : NodeID)
  | election (proposedLeader : NodeID) (priority : Int) (term : UInt64)
  | leader (leaderID : NodeID) (leaderAddr : Text) (term : UInt64)
  | heartbeat (leaderID : NodeID) (term : UInt64)
  | zoneUpdate (payload : Z)
  | configSync (payload : C)
  | draining (nodeID : NodeID) (draining : Bool)
  | nodeStats (nodeID : NodeID) (health : NodeHealthStats F)
  | clusterMetrics (payload : ClusterMetrics F)
  | undecodable

structure Message (F Z C : Type) where
  /-- `msg.From`, as authenticated. -/
  sender : NodeID
  payload : Payload F Z C

inductive Event (F Z C : Type) where
  | ack (nodeID : NodeID) (version : UInt64)
  | nodeJoin (node : Node F)
  | nodeUpdate (node : Node F)
  | cacheInvalid (keys : List Text)
  | zoneUpdate (payload : Z)
  | configSync (payload : C)

structure Leadership where
  /-- Empty if no leader is known. -/
  currentLeader : NodeID
  isLeader : Bool
  leaderTerm : UInt64
  electionTerm : UInt64
  electionRunning : Bool
  lastHeartbeat : Nat
deriving DecidableEq

def Leadership.new : Leadership := ⟨[], false, 0, 0, false, 0⟩

def Leadership.adopt (self : NodeID) (now : Nat) (l : Leadership) (leaderID : NodeID) (term : UInt64) : Leadership :=
  { l with currentLeader := leaderID, leaderTerm := term, isLeader := leaderID = self, lastHeartbeat := now }

def handleElection (l : Leadership) (term : UInt64) : Leadership :=
  if l.electionTerm < term then { l with electionTerm := term } else l

/-- From `gossip_election.go:55-87`. -/
def handleLeader (self : NodeID) (now : Nat) (l : Leadership) (leaderID : NodeID) (term : UInt64) : Leadership :=
  if term < l.leaderTerm then l
  else if l.leaderTerm < term ∨ l.currentLeader = [] ∨ leaderID = l.currentLeader then l.adopt self now leaderID term
  else l

/-- From `gossip_election.go:90-137`. -/
def handleHeartbeat (self : NodeID) (now : Nat) (l : Leadership) (leaderID : NodeID) (term : UInt64) : Leadership :=
  if term < l.leaderTerm then l
  else if l.leaderTerm < term ∨ l.currentLeader = [] then l.adopt self now leaderID term
  else if leaderID = l.currentLeader then { l with lastHeartbeat := now }
  else l

def detectSplitBrain (l : Leadership) : Leadership × Bool :=
  if l.isLeader = true ∧ l.leaderTerm < l.electionTerm then ({ l with isLeader := false, currentLeader := [] }, true)
  else (l, false)

def stepDown (l : Leadership) : Leadership :=
  if l.isLeader then { l with isLeader := false, currentLeader := [], leaderTerm := l.leaderTerm + 1 } else l

def leaderTimeout : Nat := 15

/-- The second component says that the goroutine of an election is started. -/
def checkLeaderHealth (now : Nat) (l : Leadership) : Leadership × Bool :=
  if l.isLeader = true ∨ l.currentLeader = [] then (l, false)
  else if l.lastHeartbeat + leaderTimeout ≤ now ∧ l.electionRunning = false then
    ({ l with electionRunning := true, leaderTerm := l.leaderTerm + 1 }, true)
  else (l, false)

/-- The first critical section of the goroutine; the messages it then sends carry this term. -/
def startElection (l : Leadership) : Leadership := { l with electionTerm := l.electionTerm + 1 }

def endElection (l : Leadership) : Leadership := { l with electionRunning := false }

structure Callbacks where
  nodeJoin : Bool
  nodeUpdate : Bool
  cacheInvalid : Bool
  zoneUpdate : Bool
  configSync : Bool
deriving DecidableEq

structure Gossip (F : Type) where
  nodeList : NodeList F
  leadership : Leadership
  nodeMetrics : AList fun _ : NodeID => ClusterMetrics F
  callbacks : Callbacks

section Handlers

variable {F Z C : Type}

def Gossip.self (g : Gossip F) : NodeID := g.nodeList.selfID

def handlePing (now : Nat) (g : Gossip F) (sender nodeID : NodeID) : Gossip F × List (Event F Z C) :=
  if sender ≠ nodeID then (g, [])
  else ({ g with nodeList := g.nodeList.markSeen nodeID now }, [.ack g.self g.nodeList.selfVersion])

def handleAck (now : Nat) (g : Gossip F) (sender nodeID : NodeID) : Gossip F :=
  if sender ≠ nodeID then g
  else { g with nodeList := (g.nodeList.markSeen nodeID now).updateState nodeID .alive now }

/-- A node that is not known yet; its health is Go's zero value. -/
def NodeInfo.node [Zero F] (info : NodeInfo) : Node F :=
  ⟨info.id, info.addr, info.port, info.state, info.lastSeen, info.version, info.nodeMeta, ⟨0, 0, 0, 0, 0, 0⟩⟩

def mergeInfo [Zero F] (now : Nat) (nl : NodeList F) (info : NodeInfo) : NodeList F :=
  if info.id = nl.selfID then nl
  else match nl.nodes.lookup info.id with
    | none => (nl.add info.node).1
    | some existing => if existing.version < info.version then nl.updateState info.id info.state now else nl

def infoEvents [Zero F] (cb : Callbacks) (nl : NodeList F) (info : NodeInfo) : List (Event F Z C) :=
  if info.id = nl.selfID then []
  else match nl.nodes.lookup info.id with
    | none => if (nl.add info.node).2 && cb.nodeJoin then [.nodeJoin info.node] else []
    | some existing => if existing.version < info.version ∧ cb.nodeUpdate = true then [.nodeUpdate existing] else []

def handleGossip [Zero F] (now : Nat) (g : Gossip F) (nodes : List NodeInfo) : Gossip F × List (Event F Z C) :=
  nodes.foldl (fun r info =>
    ({ r.1 with nodeList := mergeInfo now r.1.nodeList info }, r.2 ++ infoEvents r.1.callbacks r.1.nodeList info)) (g, [])

/-- From `gossip_handlers.go:60-86`. -/
def handleCacheInvalidate (g : Gossip F) (sender : NodeID) (keys : List Text) (source : NodeID) : List (Event F Z C) :=
  if source = g.self then []
  else if sender ≠ source then []
  else if g.callbacks.cacheInvalid then [.cacheInvalid keys] else []

/-- Followers take updates, and only from the leader they know. -/
def fromLeader (g : Gossip F) (sender : NodeID) : Bool :=
  g.leadership.isLeader = false ∧ g.leadership.currentLeader ≠ [] ∧ sender = g.leadership.currentLeader

def handleZoneUpdate (g : Gossip F) (sender : NodeID) (payload : Z) : List (Event F Z C) :=
  if fromLeader g sender && g.callbacks.zoneUpdate then [.zoneUpdate payload] else []

def handleConfigSync (g : Gossip F) (sender : NodeID) (payload : C) : List (Event F Z C) :=
  if fromLeader g sender && g.callbacks.configSync then [.configSync payload] else []

/-- From `gossip_handlers.go:256-283`. -/
def handleDraining (now : Nat) (g : Gossip F) (sender nodeID : NodeID) (draining : Bool) : Gossip F :=
  if nodeID = g.self then g
  else if sender ≠ nodeID then g
  else
    { g with
      nodeList := (g.nodeList.markSeen nodeID now).updateState nodeID (if draining then .draining else .alive) now }

/-- From `gossip_handlers.go:325-352`. -/
def handleNodeStats (now : Nat) (g : Gossip F) (sender nodeID : NodeID) (health : NodeHealthStats F) : Gossip F :=
  if nodeID = g.self then g
  else if sender ≠ nodeID then g
  else { g with nodeList := g.nodeList.updateHealth nodeID health now }

/-- From `gossip_handlers.go:395-415`. -/
def handleClusterMetrics (g : Gossip F) (sender : NodeID) (payload : ClusterMetrics F) : Gossip F :=
  if payload.nodeID = g.self then g
  else if sender ≠ payload.nodeID then g
  else { g with nodeMetrics := g.nodeMetrics.insert payload.nodeID payload }

/-- From `gossip_swim.go:79-116`. -/
def handleMessage [Zero F] (now : Nat) (g : Gossip F) (msg : Message F Z C) : Gossip F × List (Event F Z C) :=
  if msg.sender = g.self then (g, [])
  else match msg.payload with
    | .ping nodeID _ => handlePing now g msg.sender nodeID
    | .ack nodeID _ => (handleAck now g msg.sender nodeID, [])
    | .gossip nodes => handleGossip now g nodes
    | .cacheInvalidate keys source => (g, handleCacheInvalidate g msg.sender keys source)
    | .election _ _ term => ({ g with leadership := handleElection g.leadership term }, [])
    | .leader leaderID _ term => ({ g with leadership := handleLeader g.self now g.leadership leaderID term }, [])
    | .heartbeat leaderID term => ({ g with leadership := handleHeartbeat g.self now g.leadership leaderID term }, [])
    | .zoneUpdate payload => (g, handleZoneUpdate g msg.sender payload)
    | .configSync payload => (g, handleConfigSync g msg.sender payload)
    | .draining nodeID draining => (handleDraining now g msg.sender nodeID draining, [])
    | .nodeStats nodeID health => (handleNodeStats now g msg.sender nodeID health, [])
    | .clusterMetrics payload => (handleClusterMetrics g msg.sender payload, [])
    | .undecodable => (g, [])

end Handlers

/-! ## What the mutators leave alone -/

section Frame

variable {F : Type} {nl : NodeList F} {id n : NodeID}

@[simp] theorem selfID_modify (f : Node F → Node F) : (nl.modify id f).selfID = nl.selfID := by
  unfold NodeList.modify
  split <;> rfl

theorem lookup_modify (f : Node F → Node F) :
    (nl.modify id f).nodes.lookup n = if n = id then (nl.nodes.lookup id).map f else nl.nodes.lookup n := by
  unfold NodeList.modify
  split
  next hnn =>
    split_ifs with h
    · subst h
      rw [hnn, Option.map_none]
    · rfl
  next node hsm =>
    split_ifs with h
    · subst h
      rw [AList.lookup_insert, hsm, Option.map_some]
    · rw [AList.lookup_insert_ne h]

theorem lookup_modify_ne (h : n ≠ id) (f : Node F → Node F) : (nl.modify id f).nodes.lookup n = nl.nodes.lookup n := by
  rw [lookup_modify, if_neg h]

theorem lookup_updateState_ne (h : n ≠ id) (state : NodeState) (now : Nat) :
    (nl.updateState id state now).nodes.lookup n = nl.nodes.lookup n := by
  unfold NodeList.updateState
  split
  · rfl
  · exact lookup_modify_ne h _

end Frame

end NothingDNS.Cluster
