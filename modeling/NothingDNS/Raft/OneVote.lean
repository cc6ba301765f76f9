import NothingDNS.Raft.HardState
import NothingDNS.Raft.VoteEffect
import NothingDNS.Lib.Run
/-!
# One vote per term, across restarts

A single node under any requests, responses and timer events, whose saves may fail and which may crash and come
back through `loadHardState`. All votes it gives in a term go to one candidate, provided the self-vote of
`runCandidate` never replaces a vote already given. `runCandidate` does not look: between taking the new term
(`state.go:141-149`) and the self-vote (`state.go:164-165`) a vote request of that term may be granted.

The invariant: whatever a crash may bring back is at least as far as the node's memory.
-/

namespace NothingDNS.Raft

open List Option

/-! ## Saves a step performs -/

/-- `P` relates the host's state to the node's term and vote, and survives what a node does with
the host: a newer term is saved with an empty vote, a vote only where there was none. -/
structure HardClosed {D : Type} (H : Host D) (P : D → Nat → NodeID → Prop) : Prop where
  advance : ∀ {d t v} t', P d t v → t < t' → t' < 2 ^ 64 →
    if (H.saveHardState d ⟨t', []⟩).2 = true then P (H.saveHardState d ⟨t', []⟩).1 t' []
    else P (H.saveHardState d ⟨t', []⟩).1 t v
  vote : ∀ {d t} v, P d t [] → v ≠ [] →
    if (H.saveHardState d ⟨t, v⟩).2 = true then P (H.saveHardState d ⟨t, v⟩).1 t v
    else P (H.saveHardState d ⟨t, v⟩).1 t []
  write : ∀ {d t v} e, P d t v → P (H.write d e).1 t v
  sync : ∀ {d t v}, P d t v → P (H.sync d).1 t v
  truncateAfter : ∀ {d t v} i, P d t v → P (H.truncateAfter d i).1 t v
  compactBefore : ∀ {d t v} i, P d t v → P (H.compactBefore d i).1 t v
  restore : ∀ {d t v} p, P d t v → P (H.restore d p).1 t v
  saveSnapshot : ∀ {d t v} s, P d t v → P (H.saveSnapshot d s).1 t v
  onSnapshotInstalled : ∀ {d t v} i, P d t v → P (H.onSnapshotInstalled d i) t v

def Node.Hard {D : Type} (P : D → Nat → NodeID → Prop) (n : Node D) : Prop :=
  P n.disk n.currentTerm n.votedFor

namespace Node

open List

variable {D : Type} {H : Host D} {P : D → Nat → NodeID → Prop} {n : Node D}

section hard
variable (hP : HardClosed H P)
include hP

variable {t : Nat}

theorem writeEntries_hard {d : D} {v : NodeID} (h : P d t v) (es : List Entry) : P (writeEntries H d es).1 t v := by
  induction es generalizing d with
  | nil => exact hP.sync h
  | cons e es ih =>
    unfold writeEntries
    have hw := hP.write e h
    rcases hs : H.write d e with ⟨d', ok⟩
    rw [hs] at hw
    cases ok
    · exact hw
    · exact ih hw

variable (h : n.Hard P)
include h

theorem advanceTermLocked_hard (ht : t < 2 ^ 64) : (n.advanceTermLocked H t).1.Hard P := by
  unfold advanceTermLocked
  split
  · exact h
  rename_i hlt
  have := hP.advance t h (by omega) ht
  rcases hs : H.saveHardState n.disk ⟨t, []⟩ with ⟨d, ok⟩
  rw [hs] at this
  cases ok <;> simpa [Hard] using this

theorem setVotedForLocked_hard {v : NodeID} (hv : v ≠ []) (hfr : v = n.votedFor ∨ n.votedFor = []) :
    (n.setVotedForLocked H v).1.Hard P := by
  unfold setVotedForLocked
  split
  · exact h
  rename_i hne
  have hnil : n.votedFor = [] := hfr.resolve_left hne
  unfold Hard at h
  rw [hnil] at h
  have := hP.vote v h hv
  rcases hs : H.saveHardState n.disk ⟨n.currentTerm, v⟩ with ⟨d, ok⟩
  rw [hs] at this
  cases ok
  · simpa [Hard, hnil] using this
  · simpa [Hard] using this

theorem handleVoteRequest_hard {req : VoteRequest} (ht : req.term < 2 ^ 64) (hc : req.candidateID ≠ []) :
    (n.handleVoteRequest H req).1.Hard P := by
  unfold handleVoteRequest
  split
  · exact h
  have had := advanceTermLocked_hard hP h ht
  rcases ha : n.advanceTermLocked H req.term with ⟨n1, ok⟩
  rw [ha] at had
  cases ok with
  | false => exact had
  | true =>
    simp only [if_not_true]
    split
    next hg =>
      have hst := setVotedForLocked_hard hP had hc (hg.1.symm.imp Eq.symm fun h => h)
      rcases hs : n1.setVotedForLocked H req.candidateID with ⟨n2, ok⟩
      rw [hs] at hst
      cases ok <;> exact hst
    · exact had

theorem persistEntriesLocked_hard (es : List Entry) : (n.persistEntriesLocked H es).1.Hard P := by
  unfold persistEntriesLocked
  split
  · exact h
  · exact writeEntries_hard hP h es

theorem persistReconciled_hard (es : List Entry) (k : Option Nat) : (n.persistReconciled H es k).1.Hard P := by
  cases k with
  | none => exact persistEntriesLocked_hard hP h es
  | some k =>
    have htr := hP.truncateAfter k h
    rcases hs : H.truncateAfter n.disk k with ⟨d, ok⟩
    rw [hs] at htr
    simp only [persistReconciled, persistTruncateLocked, hs]
    cases ok
    · exact htr
    · exact persistEntriesLocked_hard (n := { n with disk := d }) hP htr es

omit hP in
theorem truncateFrom_hard (i : Nat) : (n.truncateFrom i).Hard P := by
  unfold truncateFrom
  split <;> exact h

omit hP in
theorem reconcile_hard (i : Nat) (es : List Entry) : (n.reconcile i es).1.Hard P := by
  rw [reconcile_fst]
  exact h

theorem appendMatched_hard (req : AppendRequest) : (n.appendMatched H req).1.Hard P := by
  unfold appendMatched
  have hr := reconcile_hard h (req.prevLogIndex + 1) req.entries
  rcases hs : n.reconcile (req.prevLogIndex + 1) req.entries with ⟨n1, es, k⟩
  rw [hs] at hr
  have hp := persistReconciled_hard hP hr es k
  rcases hs' : n1.persistReconciled H es k with ⟨n2, ok⟩
  rw [hs'] at hp
  simp only [hs']
  cases ok
  · exact hp
  · simp only [if_not_true, advanceFollowerCommit]
    split <;> exact hp

theorem appendChecked_hard (req : AppendRequest) : (n.appendChecked H req).1.Hard P := by
  unfold appendChecked
  split
  · exact h
  split
  · have htr := hP.truncateAfter (req.prevLogIndex - 1) (truncateFrom_hard h req.prevLogIndex)
    rcases hs : H.truncateAfter (n.truncateFrom req.prevLogIndex).disk (req.prevLogIndex - 1) with ⟨d, ok⟩
    rw [hs] at htr
    simp only [persistTruncateLocked, hs]
    cases ok <;> exact htr
  · exact appendMatched_hard hP h req

theorem appendEntriesLocked_hard {req : AppendRequest} (ht : req.term < 2 ^ 64) :
    (n.appendEntriesLocked H req).1.Hard P := by
  unfold appendEntriesLocked
  split
  · exact h
  have had := advanceTermLocked_hard hP h ht
  rcases ha : n.advanceTermLocked H req.term with ⟨n1, ok⟩
  rw [ha] at had
  cases ok
  · exact had
  · exact appendChecked_hard (n := n1.acceptLeader req.leaderID) hP had req

theorem installSnapshot_hard (req : SnapshotRequest) : (n.installSnapshot H req).Hard P :=
  hP.onSnapshotInstalled _ (hP.compactBefore _ h)

variable {req : SnapshotRequest}

theorem handleSnapshotRequest_hard (ht : req.term < 2 ^ 64) : (n.handleSnapshotRequest H req).1.Hard P := by
  unfold handleSnapshotRequest
  split
  · exact h
  have had := advanceTermLocked_hard hP h ht
  rcases ha : n.advanceTermLocked H req.term with ⟨n1, ok⟩
  rw [ha] at had
  cases ok
  · exact had
  simp only [if_not_true]
  split
  · exact had
  split
  · exact installSnapshot_hard hP had req
  have hr := hP.restore req.data had
  rcases hs : H.restore n1.disk req.data with ⟨d, ok⟩
  rw [hs] at hr
  simp only [hs]
  cases ok
  · exact hr
  · exact installSnapshot_hard (n := { n1 with disk := d }) hP hr req

omit hP in
theorem maybeAdvanceCommitIndex_hard : n.maybeAdvanceCommitIndex.Hard P := by
  rcases maybeAdvanceCommitIndex_cases n with he | ⟨-, i, -, -, he⟩ <;>
    rw [he] <;> exact h

theorem handleAppendResponse_hard {resp : AppendResponse} (ht : resp.term < 2 ^ 64) :
    (n.handleAppendResponse H resp).Hard P := by
  unfold handleAppendResponse
  split
  · exact h
  split
  · have had := advanceTermLocked_hard hP h ht
    rcases ha : n.advanceTermLocked H resp.term with ⟨n1, ok⟩
    rw [ha] at had
    cases ok <;> exact had
  split
  · exact h
  split
  · exact maybeAdvanceCommitIndex_hard h
  dsimp only
  split
  · exact h
  · split <;> exact h

theorem handleSnapshotResponse_hard {resp : SnapshotResponse} {peer : NodeID}
    (ht : resp.term < 2 ^ 64) : (n.handleSnapshotResponse H peer req resp).Hard P := by
  unfold handleSnapshotResponse
  dsimp only
  split
  · exact advanceTermLocked_hard
      (n := { n with snapshotInFlight := Function.update n.snapshotInFlight peer false }) hP h ht
  split
  · exact h
  split <;> exact h

theorem proposeEntry_hard (command : Bytes) (type : EntryType) : (n.proposeEntry H command type).1.Hard P := by
  unfold proposeEntry
  split
  · exact h
  have hp := persistEntriesLocked_hard
    (n := { n with log := n.log ++ [n.proposed command type] }) hP h [n.proposed command type]
  unfold proposed at hp
  rcases hs : ({ n with log := n.log ++ [n.proposed command type] } : Node D).persistEntriesLocked H
    [n.proposed command type] with ⟨m, ok⟩
  unfold proposed at hs
  rw [hs] at hp
  simp only [hs]
  cases ok
  · exact hp
  · exact maybeAdvanceCommitIndex_hard hp

theorem installLeaderSnapshot_hard (snap : Snapshot) : (n.installLeaderSnapshot H snap).Hard P := by
  unfold installLeaderSnapshot
  split
  · exact h
  · exact hP.compactBefore _ h

theorem electionTimeout_hard {failed : Node D → Node D}
    (hf : ∀ m : Node D, m.Hard P → (failed m).Hard P) : (n.electionTimeout H failed).Hard P := by
  unfold electionTimeout
  have had := advanceTermLocked_hard (t := nextTerm n.currentTerm) hP h (Nat.mod_lt _ (by norm_num))
  rcases ha : n.advanceTermLocked H (nextTerm n.currentTerm) with ⟨m, ok⟩
  rw [ha] at had
  cases ok
  · exact hf m had
  · exact had

theorem becomeFollower_hard (ht : t < 2 ^ 64) : (n.becomeFollower H t).Hard P := by
  unfold becomeFollower
  split
  · exact advanceTermLocked_hard hP h ht
  · exact h

theorem startCandidate_hard (hid : n.id ≠ []) (hfr : n.votedFor = [] ∨ n.votedFor = n.id) :
    (n.startCandidate H).1.Hard P := by
  unfold startCandidate
  have hst := setVotedForLocked_hard hP h hid (hfr.symm.imp Eq.symm fun h => h)
  rcases hs : n.setVotedForLocked H n.id with ⟨m, ok⟩
  rw [hs] at hst
  cases ok <;> exact hst

end hard

/-- The conditions on an event: its terms are `uint64`s, candidates have a name, and a self-vote
replaces no other vote. -/
def votingOk (n : Node D) : Event → Bool
  | .startCandidate => n.votedFor = [] ∨ n.votedFor = n.id
  | .voteRequest _ req => req.candidateID ≠ [] ∧ req.term < 2 ^ 64
  | .appendRequest _ req => req.term < 2 ^ 64
  | .snapshotRequest _ req => req.term < 2 ^ 64
  | .voteResponse _ resp => resp.term < 2 ^ 64
  | .appendResponse _ resp => resp.term < 2 ^ 64
  | .snapshotResponse _ _ resp => resp.term < 2 ^ 64
  | _ => true

/-- Terms waiting in the node's channels are `uint64`s. -/
structure Queued (n : Node D) : Prop where
  votes : ∀ r ∈ n.voteRespCh, r.term < 2 ^ 64
  appends : ∀ r ∈ n.appendRespCh, r.term < 2 ^ 64
  steppingDown : ∀ t, n.pc = .steppingDown t → t < 2 ^ 64

variable {ev : Event} {m : Node D} {sends : List Send}

theorem step_queued (h : n.step H ev = some (m, sends)) (hok : n.votingOk ev = true) (hq : n.Queued) : m.Queued := by
  have he := step_effect h
  refine ⟨fun r hr => ?_, fun r hr => ?_, fun t ht => ?_⟩
  · rcases he.voteRespCh r hr with hr | ⟨sender, rfl⟩
    · exact hq.votes r hr
    · simpa [votingOk] using hok
  · rcases he.appendRespCh r hr with hr | ⟨sender, rfl⟩
    · exact hq.appends r hr
    · simpa [votingOk] using hok
  · rcases he.steppingDown t ht with ht | ⟨r, hr, rfl⟩
    · exact hq.steppingDown t ht
    · exact hq.votes r hr

theorem step_hard (hP : HardClosed H P)
    (h : n.step H ev = some (m, sends)) (hid : n.id ≠ []) (hok : n.votingOk ev = true) (hq : n.Queued)
    (hn : n.Hard P) : m.Hard P := by
  cases ev with simp only [step] at h
  | dispatch | becomeLeader | heartbeat | takeSnapshot =>
    split at h <;> cases h
    exact hn
  | electionTimeout =>
    split at h <;> cases h <;> exact electionTimeout_hard hP hn fun _ h => h
  | electionReset =>
    split at h
    · split at h <;> cases h <;> exact hn
    · cases h
  | startCandidate =>
    split at h
    · simp only [some.injEq] at h
      have := startCandidate_hard hP hn hid (by simpa [votingOk] using hok)
      rwa [h] at this
    · cases h
  | collectVote =>
    split at h <;> cases h
    unfold collectVote
    split
    · exact hn
    split
    · split <;> exact hn
    · exact hn
  | becomeFollower =>
    split at h <;> cases h
    exact becomeFollower_hard hP hn (hq.steppingDown _ ‹_›)
  | proposeNoOp =>
    split at h <;> cases h
    exact proposeEntry_hard hP hn _ _
  | collectAppend =>
    split at h
    next hch =>
      cases h
      refine handleAppendResponse_hard hP ?_ (hq.appends _ (hch ▸ mem_cons_self))
      exact hn
    · cases h
  | voteRequest sender req =>
    cases h
    simp only [votingOk, decide_eq_true_eq] at hok
    exact handleVoteRequest_hard hP hn hok.2 hok.1
  | appendRequest sender req =>
    cases h
    exact appendEntriesLocked_hard hP hn (by simpa [votingOk] using hok)
  | snapshotRequest sender req =>
    cases h
    exact handleSnapshotRequest_hard hP hn (by simpa [votingOk] using hok)
  | snapshotResponse peer req resp =>
    cases h
    exact handleSnapshotResponse_hard hP hn (by simpa [votingOk] using hok)
  | replicateTo peer term =>
    split at h <;> cases h
    unfold replicateTo
    split
    · exact hn
    split
    · exact hn
    split <;> exact hn
  | propose command type =>
    cases h
    exact proposeEntry_hard hP hn _ _
  | saveSnapshot =>
    split at h <;> cases h
    exact hP.saveSnapshot _ hn
  | installLeaderSnapshot =>
    split at h <;> cases h
    exact installLeaderSnapshot_hard hP hn _
  | voteResponse | appendResponse | snapshotFailed =>
    cases h
    exact hn

end Node

/-! ## Memory never runs ahead of the file -/

/-- What the disk would bring back after a crash is at least as far as the term and vote in memory. -/
def Durable {R : Type} (d : HardDisk × R) (t : Nat) (v : NodeID) : Prop :=
  ∀ c ∈ d.1.contents, ∃ hs, loadHardState c = some hs ∧ t ≤ hs.currentTerm ∧
    (hs.currentTerm = t → v ≠ [] → hs.votedFor = v)

theorem durable_save {R : Type} (B : Host R) {d : HardDisk × R} {t : Nat} {v : NodeID} (hs : HardState)
    (h : t < 2 ^ 64 ∧ Durable d t v) (hlt : hs.currentTerm < 2 ^ 64) (hle : t ≤ hs.currentTerm)
    (hvt : hs.currentTerm = t → v ≠ [] → hs.votedFor = v) : if (B.withHardDisk.saveHardState d hs).2 = true then
      hs.currentTerm < 2 ^ 64 ∧ Durable (B.withHardDisk.saveHardState d hs).1 hs.currentTerm hs.votedFor
    else t < 2 ^ 64 ∧ Durable (B.withHardDisk.saveHardState d hs).1 t v := by
  obtain ⟨file, ⟨hw, hok, hc⟩ | ⟨hok, hc⟩⟩ := HardDisk.saveHardState_cases d.1 hs
  · rw [if_pos (show (B.withHardDisk.saveHardState d hs).2 = true from hok)]
    refine ⟨hlt, fun c hmem => ?_⟩
    have hmem : c ∈ (d.1.saveHardState hs).1.contents := hmem
    rw [hc, mem_singleton] at hmem
    exact ⟨_, by rw [hmem]; exact loadHardState_writeHardState hw hlt, le_rfl, fun _ _ => rfl⟩
  rw [if_neg (by rw [Bool.not_eq_true]; exact hok)]
  refine ⟨h.1, fun c hmem => ?_⟩
  rcases hc c hmem with hold | ⟨rfl, hw⟩
  · exact h.2 c hold
  · exact ⟨_, loadHardState_writeHardState hw hlt, hle, hvt⟩

theorem durable_closed {R : Type} (B : Host R) : HardClosed B.withHardDisk fun d t v => t < 2 ^ 64 ∧ Durable d t v where
  advance := fun t' h hlt ht' => durable_save B ⟨t', []⟩ h ht' hlt.le fun heq => absurd heq hlt.ne'
  vote := fun v h _ => durable_save B ⟨_, v⟩ h h.1 le_rfl fun _ hne => absurd rfl hne
  write := fun _ h => h
  sync := fun h => h
  truncateAfter := fun _ h => h
  compactBefore := fun _ h => h
  restore := fun _ h => h
  saveSnapshot := fun _ h => h
  onSnapshotInstalled := fun _ h => h

/-! ## Runs with crashes -/

/-- A node and every vote it has given, as pairs of term and candidate. -/
structure Voter (R : Type) where
  node : Node (HardDisk × R)
  votes : List (Nat × NodeID)

/-- What the rest of the boot sequence finds: snapshot, log, and the host's other state. -/
structure Recovered (R : Type) where
  snapshot : Snapshot
  log : List Entry
  rest : R

inductive Voter.Act (R : Type) where
  | event (ev : Event)
  /-- The process dies, between two critical sections or, before anything is sent, in the course of
  one; `pick` says which of the possible contents the hard state file has afterwards. -/
  | crash (during : Option Event) (pick : Nat) (boot : Recovered R)

namespace Voter

open List

variable {R : Type} (B : Host R)

/-- `NewNode` (`types.go:336-388`), which ignores an error of `loadHardState`, and `bootstrapState`. -/
def restart (n : Node (HardDisk × R)) (file : Option Bytes) (boot : Recovered R) : Node (HardDisk × R) :=
  let hs := (loadHardState file).getD ⟨0, []⟩
  { newNode n.id n.peers (⟨file, [], n.disk.1.outcomes⟩, boot.rest) with
    currentTerm := hs.currentTerm
    votedFor := hs.votedFor
    log := boot.log
    lastSnapshot := boot.snapshot.lastIndex
    lastSnapshotTerm := boot.snapshot.lastTerm
    lastApplied := boot.snapshot.lastIndex
    commitIndex := boot.snapshot.lastIndex
    snapshotBytes := boot.snapshot.data }

def step (v : Voter R) : Act R → Option (Voter R)
  | .event ev => (v.node.step B.withHardDisk ev).map fun r =>
    ⟨r.1, v.node.votesCast ev r.1 r.2 ++ v.votes⟩
  | .crash during pick boot =>
    let dying := match during with
      | none => some v.node
      | some ev => (v.node.step B.withHardDisk ev).map Prod.fst
    dying.bind fun n => (n.disk.1.contents[pick]?).map fun file => ⟨restart n file boot, v.votes⟩

def init (id : NodeID) (peers : List NodeID) (outcomes : List SaveOutcome) (rest : R) : Voter R :=
  ⟨newNode id peers (⟨none, [], outcomes⟩, rest), []⟩

def VotingOk (v : Voter R) : Act R → Prop
  | .event ev => v.node.votingOk ev = true
  | .crash (some ev) _ _ => v.node.votingOk ev = true
  | .crash none _ _ => True

instance (v : Voter R) : ∀ a, Decidable (v.VotingOk a)
  | .event _ => inferInstanceAs (Decidable (_ = _))
  | .crash (some _) _ _ => inferInstanceAs (Decidable (_ = _))
  | .crash none _ _ => .isTrue trivial

structure Inv (id : NodeID) (v : Voter R) : Prop where
  id : v.node.id = id
  queued : v.node.Queued
  hard : v.node.Hard fun d t c => t < 2 ^ 64 ∧ Durable d t c
  /-- A vote is on record in memory for as long as the node stays in the term. -/
  vote : ∀ T c, (T, c) ∈ v.votes → c ≠ [] ∧ T ≤ v.node.currentTerm ∧ (T = v.node.currentTerm → v.node.votedFor = c)
  unique : ∀ T c c', (T, c) ∈ v.votes → (T, c') ∈ v.votes → c = c'

variable {B} {id : NodeID} {v v' : Voter R}

theorem inv_init (peers : List NodeID) (outcomes : List SaveOutcome) (rest : R) :
    Inv id (init id peers outcomes rest) where
  id := rfl
  queued := ⟨by simp [init, newNode], by simp [init, newNode], by simp [init, newNode]⟩
  hard := by
    refine ⟨by simp [init, newNode], fun c hc => ?_⟩
    simp only [init, newNode, HardDisk.contents, map_nil, mem_singleton] at hc
    exact ⟨⟨0, []⟩, by rw [hc]; rfl, le_rfl, fun _ h => absurd rfl h⟩
  vote := by simp [init]
  unique := by simp [init]

variable {m : Node (HardDisk × R)} {ev : Event} {sends : List Send}

theorem cast_ne_nil {n : Node (HardDisk × R)} (hid : n.id ≠ [])
    (hok : n.votingOk ev = true) {T : Nat} {c : NodeID} (hc : (T, c) ∈ n.votesCast ev m sends) : c ≠ [] := by
  cases ev with
  | startCandidate =>
    simp only [Node.votesCast] at hc
    split at hc
    · simp at hc
    simp only [mem_singleton, Prod.mk.injEq] at hc
    rw [hc.2]
    exact hid
  | voteRequest sender req =>
    simp only [Node.votingOk, decide_eq_true_eq] at hok
    simp only [Node.votesCast, mem_filterMap] at hc
    obtain ⟨x, -, hx⟩ := hc
    split at hx
    · split at hx
      · simp only [some.injEq, Prod.mk.injEq] at hx
        rw [← hx.2]
        exact hok.1
      · simp at hx
    · simp at hx
  | _ => simp [Node.votesCast] at hc

theorem inv_event (hid : id ≠ []) (hi : Inv id v) (hok : v.node.votingOk ev = true)
    (h : v.node.step B.withHardDisk ev = some (m, sends)) : Inv id ⟨m, v.node.votesCast ev m sends ++ v.votes⟩ := by
  have he := Node.step_effect h
  have hid' : v.node.id ≠ [] := by rw [hi.id]; exact hid
  have kept : ∀ {T c}, (T, c) ∈ v.votes → T = m.currentTerm → m.votedFor = c := by
    intro T c hv hT
    obtain ⟨hc, hle, hfr⟩ := hi.vote T c hv
    have htr : m.currentTerm = v.node.currentTerm := by
      have := he.term_le
      omega
    have hn : v.node.votedFor = c := hfr (by omega)
    by_contra hne
    rcases he.votedFor htr (by rwa [hn]) with ⟨rfl, hsl⟩ | hnil
    · simp only [Node.votingOk, decide_eq_true_eq] at hok
      rcases hok with hok | hok
      · exact hc (by rw [← hn, hok])
      · exact hne (by rw [hsl, ← hok, hn])
    · exact hc (by rw [← hn, hnil])
  have cast : ∀ {T c}, (T, c) ∈ v.node.votesCast ev m sends → T = m.currentTerm ∧ c = m.votedFor :=
    fun hv => Prod.mk.inj (he.cast _ hv)
  refine ⟨by rw [he.id, hi.id], Node.step_queued h hok hi.queued,
    Node.step_hard (durable_closed B) h hid' hok hi.queued hi.hard, ?_, ?_⟩
  · intro T c hv
    rcases mem_append.1 hv with hv | hv
    · exact ⟨cast_ne_nil hid' hok hv, (cast hv).1.le, fun _ => (cast hv).2.symm⟩
    · obtain ⟨hc, hle, -⟩ := hi.vote T c hv
      exact ⟨hc, hle.trans he.term_le, kept hv⟩
  · intro T c c' hv hv'
    rcases mem_append.1 hv with h1 | h1 <;> rcases mem_append.1 hv' with h2 | h2
    · rw [(cast h1).2, (cast h2).2]
    · rw [(cast h1).2]
      exact kept h2 (cast h1).1
    · rw [(cast h2).2]
      exact (kept h1 (cast h2).1).symm
    · exact hi.unique T c c' h1 h2

theorem inv_restart (hi : Inv id v) {file : Option Bytes} (hf : file ∈ v.node.disk.1.contents)
    (boot : Recovered R) : Inv id ⟨restart v.node file boot, v.votes⟩ := by
  obtain ⟨hs, hld, hle, hvt⟩ := hi.hard.2 file hf
  have htr : hs.currentTerm < 2 ^ 64 := by
    unfold loadHardState at hld
    split at hld
    · cases hld
      norm_num
    have hlt : BigEndian.decode (((‹Bytes›).drop 4).take 8) < 2 ^ 64 :=
      lt_of_lt_of_le (BigEndian.decode_lt _) (le_trans (Nat.pow_le_pow_right (by norm_num)
        (length_take_le _ _)) (by norm_num))
    split at hld
    · cases hld
    split at hld
    · cases hld
    dsimp only at hld
    split at hld
    · cases hld
      exact hlt
    split at hld
    · cases hld
    split at hld <;> cases hld
    exact hlt
  refine ⟨hi.id, ⟨by simp [restart, newNode], by simp [restart, newNode], by simp [restart, newNode]⟩,
    ?_, ?_, hi.unique⟩
  · simp only [Node.Hard, restart, hld, getD_some]
    refine ⟨htr, fun c hc => ?_⟩
    simp only [newNode, HardDisk.contents, map_nil, mem_singleton] at hc
    exact ⟨hs, by rw [hc, hld], le_rfl, fun _ _ => rfl⟩
  · intro T c hv
    obtain ⟨hc, hT, hfr⟩ := hi.vote T c hv
    simp only [restart, hld, getD_some]
    refine ⟨hc, hT.trans hle, fun heq => ?_⟩
    have hnw : T = v.node.currentTerm := by omega
    rw [hvt (by omega) (by rw [hfr hnw]; exact hc), hfr hnw]

theorem inv_step (hid : id ≠ []) (hi : Inv id v) {a : Act R} (hok : v.VotingOk a)
    (h : step B v a = some v') : Inv id v' := by
  cases a with
  | event ev =>
    obtain ⟨⟨m, sends⟩, hs, rfl⟩ := map_eq_some_iff.1 h
    exact inv_event hid hi hok hs
  | crash during pick boot =>
    simp only [step, bind_eq_some_iff, map_eq_some_iff] at h
    obtain ⟨n, hn, file, hfl, rfl⟩ := h
    cases during with
    | none =>
      cases hn
      exact inv_restart hi (mem_of_getElem? hfl) boot
    | some ev =>
      obtain ⟨⟨m, sends⟩, hs, rfl⟩ := map_eq_some_iff.1 hn
      have hi' := inv_event hid hi hok hs
      have hi'' : Inv id ⟨m, v.votes⟩ :=
        { hi' with vote := fun T c hv => hi'.vote T c (mem_append_right _ hv), unique := hi.unique }
      exact inv_restart hi'' (mem_of_getElem? hfl) boot

/-- **One vote per term.** In every run whose self-votes replace no other vote, all votes the node
gives in a term go to one candidate, through failing saves, crashes and restarts. -/
theorem one_vote_per_term {id : NodeID} (hid : id ≠ []) {peers : List NodeID}
    {outcomes : List SaveOutcome} {rest : R} {as : List (Act R)} {v : Voter R}
    (h : Run.exec (step B) (init id peers outcomes rest) as = some v)
    (hok : Run.Meets (step B) VotingOk (init id peers outcomes rest) as) :
    ∀ T c c', (T, c) ∈ v.votes → (T, c') ∈ v.votes → c = c' :=
  (Run.invariant (fun _ _ _ hi hok hs => inv_step hid hi hok hs) as h hok (inv_init peers outcomes rest)).unique

/-- Between the election timeout and the self-vote the node grants its vote of the new term to
`[98]`; the self-vote then goes to `[97]`. -/
def overwrittenVoteRun : List (Act Unit) :=
  [.event .dispatch, .event .electionTimeout, .event (.voteRequest [98] ⟨1, [98], 0, 0⟩),
    .event .dispatch, .event .startCandidate]

theorem two_votes_in_one_term :
    ∃ v, Run.exec (step .inMemory) (init [97] [[98], [99]] [] ()) overwrittenVoteRun = some v ∧
      (1, [98]) ∈ v.votes ∧ (1, [97]) ∈ v.votes :=
  Run.exists_of_any (by decide +kernel)

def restartRun : List (Act Unit) :=
  [.event (.voteRequest [98] ⟨1, [98], 0, 0⟩), .crash none 0 ⟨⟨0, 0, [], []⟩, [], ()⟩,
    .event (.voteRequest [99] ⟨1, [99], 0, 0⟩), .event (.voteRequest [98] ⟨1, [98], 0, 0⟩)]

theorem one_vote_per_term_restart :
    ∃ v, Run.exec (step .inMemory) (init [97] [[98], [99]] [.saved] ()) restartRun = some v ∧
      v.votes = [(1, [98]), (1, [98])] ∧ ∀ T c c', (T, c) ∈ v.votes → (T, c') ∈ v.votes → c = c' := by
  obtain ⟨v, hv, hvt⟩ := Run.exists_of_any (o := Run.exec (step .inMemory) (init [97] [[98], [99]] [.saved] ()) restartRun)
    (P := fun v => v.votes = [(1, [98]), (1, [98])]) (by decide +kernel)
  have hok : Run.Meets (step .inMemory) VotingOk (init [97] [[98], [99]] [.saved] ()) restartRun := by
    decide +kernel
  exact ⟨v, hv, hvt, one_vote_per_term (by decide) hv hok⟩

end Voter

end NothingDNS.Raft
