import NothingDNS.Raft.HeldLog
import NothingDNS.Raft.Election
import NothingDNS.Lib.Consensus.Step
/-!
# A cluster refines the abstract replication protocol

`Refines s A`: `A` has the terms, whole logs, commit indices, votes and leaders of the cluster `s`, and
everything in flight or queued says something true about `A`. Each critical section is matched by abstract steps
of the node that moved (`refines_step`), so every run inherits the invariant of `Consensus.Safety`.

The steps must meet `SafetyOk`: `ElectionOk`, and no snapshot installed over a log that continues past it:
`HandleSnapshotRequest` clears the whole log (`handlers.go:321`), acknowledged entries after `LastIndex`
included.
-/

namespace NothingDNS.Raft

open Consensus

variable {D : Type} {H : Host D} {M : Membership}

/-- A snapshot is installed only where the log does not continue past it. -/
def Node.installOk (n : Node D) : Event → Bool
  | .snapshotRequest _ req =>
    n.currentTerm ≤ req.term → n.lastSnapshot < req.lastIndex → n.commitIndex < req.lastIndex →
      n.lastIndex ≤ req.lastIndex ∨ n.entryTerm req.lastIndex ≠ some req.lastTerm
  | _ => true

section definitions

variable (M) (A : Consensus.State NodeID Entry)

/-- Index `k` lies in what leaders of terms up to `T` have committed. -/
def CommittedBy (T k : Nat) : Prop :=
  k = 0 ∨ ∃ T' i, T' ≤ T ∧ k ≤ i ∧ A.Committed M.ids.toFinset Entry.term T' i

/-- What a message in flight says about the state. -/
def Sound (sender dest : NodeID) : Msg → Prop
  | .voteReq req => req.term ≤ A.term sender ∧
    (A.term sender = req.term → (∀ c, ¬ A.led c req.term) →
      req.lastLogIndex = (A.log sender).length ∧
      req.lastLogTerm = lastTerm Entry.term (A.log sender))
  | .voteResp _ => True
  | .appendReq req => A.led sender req.term ∧ sender ≠ dest ∧
    req.prevLogIndex + req.entries.length ≤ (A.leaderLog req.term).length ∧
    req.entries = ((A.leaderLog req.term).drop req.prevLogIndex).take req.entries.length ∧
    termAt (A.leaderLog req.term) req.prevLogIndex = some req.prevLogTerm ∧
    CommittedBy M A req.term req.leaderCommit
  | .appendResp resp => resp.success = true → resp.matchIndex ≤ A.acked resp.sender resp.term
  | .snapReq req => A.led sender req.term ∧ sender ≠ dest ∧
    req.lastIndex ≤ (A.leaderLog req.term).length ∧
    req.data.covers = (A.leaderLog req.term).take req.lastIndex ∧
    termAt (A.leaderLog req.term) req.lastIndex = some req.lastTerm ∧
    CommittedBy M A req.term req.lastIndex
  | .snapResp req resp => resp.success = true → req.lastIndex ≤ A.acked sender req.term

/-- Node `i` of the abstract state is the node `n`. -/
structure Tracks (i : NodeID) (n : Node D) : Prop where
  term : A.term i = n.currentTerm
  log : A.log i = n.held
  commit : A.commit i = n.commitIndex
  bounded : n.Bounded
  indexed : Indexed n.held
  task : ∀ snap, n.snapshotTask.pending = some snap → snap.data.covers = n.held.take snap.lastIndex ∧
    snap.lastIndex ≤ n.commitIndex ∧ termAt n.held snap.lastIndex = some snap.lastTerm
  resp : ∀ r ∈ n.appendRespCh, r.success = true → r.matchIndex ≤ A.acked r.sender r.term
  leads : n.state = .leader → A.led i n.currentTerm
  matched : n.state = .leader → ∀ p ∈ n.peers, n.matchIndex p ≤ A.acked p n.currentTerm

def LeadersIndexed : Prop := ∀ c T, A.led c T → Indexed (A.leaderLog T)

structure Refines (s : Cluster D) : Prop where
  nodes : ∀ i, Tracks A i (s.nodes i)
  voted : ∀ q T c, A.voted q T c ↔ (q, T, c) ∈ s.hist.votes
  led : ∀ c T, A.led c T ↔ (c, T) ∈ s.hist.leaders
  net : ∀ e ∈ s.net, Sound M A e.sender e.dest e.msg
  indexed : LeadersIndexed A

end definitions

/-! ## What stays true -/

section mono

variable {A A' : Consensus.State NodeID Entry} (h : A.Le A')
include h

theorem CommittedBy.mono {T T' k : Nat} (hc : CommittedBy M A T k) (hT : T ≤ T') : CommittedBy M A' T' k := by
  rcases hc with h0 | ⟨T0, i, hT0, hk, hc⟩
  · exact .inl h0
  · exact .inr ⟨T0, i, hT0.trans hT, hk, h.committed hc⟩

theorem Sound.mono {i j : NodeID} : ∀ {msg : Msg}, Sound M A i j msg → Sound M A' i j msg
  | .voteReq req, hs => by
    refine ⟨hs.1.trans (h.term i), fun htr hun => ?_⟩
    have hA : A.term i = req.term := le_antisymm (htr ▸ h.term i) hs.1
    rw [h.log i (htr.trans hA.symm) (by rwa [htr])]
    exact hs.2 hA fun c hl => hun c (h.led c _ hl)
  | .voteResp _, _ => trivial
  | .appendReq req, ⟨hl, hne, hlen, hes, hp, hc⟩ => by
    have hpre := h.leaderLog i _ hl
    have hag := h.agree hl hlen
    refine ⟨h.led _ _ hl, hne, hlen.trans hpre.length_le, ?_, ?_, hc.mono h le_rfl⟩
    · have := congrArg (List.drop req.prevLogIndex) hag
      simp only [List.drop_take, Nat.add_sub_cancel_left] at this
      rw [← this]
      exact hes
    · rw [← termAt_congr (hag.mono (Nat.le_add_right _ _))]
      exact hp
  | .appendResp resp, hs => fun hok => (hs hok).trans (h.acked _ _)
  | .snapReq req, ⟨hl, hne, hlen, hcv, hls, hc⟩ => by
    have hag := h.agree hl hlen
    exact ⟨h.led _ _ hl, hne, hlen.trans (h.leaderLog i _ hl).length_le, hcv.trans hag,
      termAt_congr hag ▸ hls, hc.mono h le_rfl⟩
  | .snapResp req resp, hs => fun hok => (hs hok).trans (h.acked _ _)

theorem Tracks.of_le {i : NodeID} {n : Node D} (ht : Tracks A i n)
    (hsm : A'.term i = A.term i ∧ A'.log i = A.log i ∧ A'.commit i = A.commit i) : Tracks A' i n where
  term := hsm.1.trans ht.term
  log := hsm.2.1.trans ht.log
  commit := hsm.2.2.trans ht.commit
  bounded := ht.bounded
  indexed := ht.indexed
  task := ht.task
  resp r hr hok := (ht.resp r hr hok).trans (h.acked _ _)
  leads hl := h.led _ _ (ht.leads hl)
  matched hl p hp := (ht.matched hl p hp).trans (h.acked _ _)

end mono

/-- The fields the abstract state reads are the same; the node may have stepped down. -/
structure Node.SameLog (n m : Node D) : Prop where
  term : m.currentTerm = n.currentTerm := by rfl
  log : m.log = n.log := by rfl
  commit : m.commitIndex = n.commitIndex := by rfl
  lastSnapshot : m.lastSnapshot = n.lastSnapshot := by rfl
  lastSnapshotTerm : m.lastSnapshotTerm = n.lastSnapshotTerm := by rfl
  snapshotBytes : m.snapshotBytes = n.snapshotBytes := by rfl
  task : ∀ snap, m.snapshotTask.pending = some snap → n.snapshotTask.pending = some snap := by
    exact fun _ h => h
  resp : ∀ r ∈ m.appendRespCh, r ∈ n.appendRespCh := by exact fun _ h => h
  leads : m.state = .leader → n.state = .leader ∧ m.peers = n.peers ∧ m.matchIndex = n.matchIndex := by
    exact fun h => ⟨h, rfl, rfl⟩

def Node.view (n : Node D) :=
  (n.currentTerm, n.log, n.commitIndex, n.lastSnapshot, n.lastSnapshotTerm, n.snapshotBytes, n.snapshotTask,
    n.appendRespCh)

theorem Node.SameLog.of_view {n m : Node D} (hv : m.view = n.view)
    (hld : m.state = .leader → n.state = .leader ∧ m.peers = n.peers ∧ m.matchIndex = n.matchIndex) : n.SameLog m := by
  simp only [view, Prod.mk.injEq] at hv
  obtain ⟨htr, hlg, hcm, hsn, hsT, hb, hts, hrs⟩ := hv
  refine ⟨htr, hlg, hcm, hsn, hsT, hb, ?_, ?_, hld⟩
  · intro snap hs
    rwa [hts] at hs
  · intro r hr
    rwa [hrs] at hr

theorem Node.SameLog.of_leading {n m : Node D} (hv : m.view = n.view)
    (hl : (m.state, m.peers, m.matchIndex) = (n.state, n.peers, n.matchIndex)) : n.SameLog m := by
  simp only [Prod.mk.injEq] at hl
  exact .of_view hv fun h => ⟨hl.1 ▸ h, hl.2⟩

theorem Tracks.congr {A : Consensus.State NodeID Entry} {i : NodeID} {n m : Node D} (ht : Tracks A i n)
    (h : n.SameLog m) : Tracks A i m := by
  have hh : m.held = n.held := by rw [Node.held, Node.held, h.log, h.snapshotBytes]
  have hb := ht.bounded
  refine ⟨ht.term.trans h.term.symm, ht.log.trans hh.symm, ht.commit.trans h.commit.symm,
    ⟨?_, ?_, ?_⟩, hh ▸ ht.indexed, ?_, fun r hr => ht.resp r (h.resp r hr), ?_, ?_⟩
  · rw [h.snapshotBytes, h.lastSnapshot]
    exact hb.length
  · rw [h.snapshotBytes, h.lastSnapshotTerm]
    exact hb.term
  · rw [h.lastSnapshot, h.commit]
    exact hb.le
  · intro snap hs
    rw [hh, h.commit]
    exact ht.task snap (h.task snap hs)
  · intro hl
    rw [h.term]
    exact ht.leads (h.leads hl).1
  · intro hl p hp
    obtain ⟨hn, hpr, hm⟩ := h.leads hl
    rw [h.term, hm]
    exact ht.matched hn p (hpr ▸ hp)

end NothingDNS.Raft
