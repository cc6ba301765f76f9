import NothingDNS.Raft.Step
/-!
# What each critical section can do to a node

One inversion lemma for each handler: the node afterwards as an explicit update of the node before, whatever the host
answers. A handler that sees a newer term first moves to it, so the lemmas go through `Advanced`, the node after a
successful `advanceTermLocked`.
-/

namespace NothingDNS.Raft.Node

open Option

variable {D : Type} {H : Host D} {n m : Node D}

/-- `m` is `n` after `advanceTermLocked` returned nil for `t`. -/
inductive Advanced (n : Node D) (t : Nat) : Node D → Prop
  | same (h : t ≤ n.currentTerm) : Advanced n t n
  | up (h : n.currentTerm < t) (disk : D) : Advanced n t
      { n with disk := disk, currentTerm := t, state := .follower, votedFor := [] }

theorem advanceTermLocked_cases (H : Host D) (n : Node D) (t : Nat) :
    (∃ m, n.advanceTermLocked H t = (m, true) ∧ Advanced n t m) ∨
      (n.currentTerm < t ∧ ∃ d, n.advanceTermLocked H t = ({ n with disk := d }, false)) := by
  unfold advanceTermLocked
  by_cases ht : t ≤ n.currentTerm
  · exact .inl ⟨n, by rw [if_pos ht], .same ht⟩
  rw [if_neg ht]
  rcases hs : H.saveHardState n.disk ⟨t, []⟩ with ⟨d, ok⟩
  cases ok with
  | true => exact .inl ⟨_, rfl, .up (by omega) d⟩
  | false => exact .inr ⟨by omega, d, rfl⟩

theorem Advanced.term_eq {t : Nat} (h : Advanced n t m) (ht : n.currentTerm ≤ t) : m.currentTerm = t := by
  cases h with
  | same h => omega
  | up => rfl

theorem setVotedForLocked_cases (H : Host D) (n : Node D) (v : NodeID) :
    (∃ d, n.setVotedForLocked H v = ({ n with disk := d, votedFor := v }, true)) ∨
      (∃ d, n.setVotedForLocked H v = ({ n with disk := d }, false)) := by
  unfold setVotedForLocked
  by_cases hv : v = n.votedFor
  · exact .inl ⟨n.disk, by rw [if_pos hv, hv]⟩
  rw [if_neg hv]
  rcases hs : H.saveHardState n.disk ⟨n.currentTerm, v⟩ with ⟨d, ok⟩
  cases ok with
  | true => exact .inl ⟨d, rfl⟩
  | false => exact .inr ⟨d, rfl⟩

theorem handleVoteRequest_cases (H : Host D) (n : Node D) (req : VoteRequest) :
    (∃ d, n.handleVoteRequest H req = ({ n with disk := d }, ⟨n.currentTerm, false, n.id⟩)) ∨
      n.currentTerm ≤ req.term ∧ ∃ n₁, Advanced n req.term n₁ ∧
        ((∃ d, n.handleVoteRequest H req = ({ n₁ with disk := d }, ⟨req.term, false, n.id⟩)) ∨
          (n₁.votedFor = [] ∨ n₁.votedFor = req.candidateID) ∧
          n₁.isLogUpToDate req.lastLogIndex req.lastLogTerm = true ∧
          ∃ d, n.handleVoteRequest H req =
            ({ n₁ with disk := d, votedFor := req.candidateID, electionReset := true }, ⟨req.term, true, n.id⟩)) := by
  unfold handleVoteRequest
  by_cases ht : req.term < n.currentTerm
  · exact .inl ⟨n.disk, by rw [if_pos ht]⟩
  rw [if_neg ht]
  rcases advanceTermLocked_cases H n req.term with ⟨n₁, had, h1⟩ | ⟨_, d, had⟩
  swap
  · exact .inl ⟨d, by rw [had]; rfl⟩
  have htr : n₁.currentTerm = req.term := h1.term_eq (by omega)
  have hid : n₁.id = n.id := by cases h1 <;> rfl
  refine .inr ⟨by omega, n₁, h1, ?_⟩
  rw [had]
  by_cases hg : (n₁.votedFor = [] ∨ n₁.votedFor = req.candidateID) ∧
      n₁.isLogUpToDate req.lastLogIndex req.lastLogTerm = true
  · rcases setVotedForLocked_cases H n₁ req.candidateID with ⟨d, hst⟩ | ⟨d, hst⟩
    · refine .inr ⟨hg.1, hg.2, d, ?_⟩
      simp only [if_not_true]
      rw [if_pos hg, hst]
      simp [htr, hid]
    refine .inl ⟨d, ?_⟩
    simp only [if_not_true]
    rw [if_pos hg, hst]
    simp [htr, hid]
  refine .inl ⟨n₁.disk, ?_⟩
  simp only [if_not_true]
  rw [if_neg hg, ← htr, ← hid]

theorem startCandidate_cases (H : Host D) (n : Node D) :
    (∃ d, n.startCandidate H = ({ n with disk := d, state := .follower, pc := .top }, [])) ∨
      ∃ d pc, (n.quorumSize ≤ 1 ∧ pc = .winning n.currentTerm [] ∨ pc = .collecting n.currentTerm 1 []) ∧
        n.startCandidate H = ({ n with disk := d, votedFor := n.id, pc := pc }, n.voteRequests) := by
  unfold startCandidate
  rcases setVotedForLocked_cases H n n.id with ⟨d, h⟩ | ⟨d, h⟩
  · refine .inr ⟨d, _, ?_, by rw [h]; rfl⟩
    by_cases hq : n.quorumSize ≤ 1
    · exact .inl ⟨hq, if_pos hq⟩
    · exact .inr (if_neg hq)
  · exact .inl ⟨d, by rw [h]; rfl⟩

theorem persistEntriesLocked_fst (H : Host D) (n : Node D) (es : List Entry) :
    ∃ d, (n.persistEntriesLocked H es).1 = { n with disk := d } := by
  unfold persistEntriesLocked
  split
  · exact ⟨n.disk, rfl⟩
  · exact ⟨_, rfl⟩

theorem persistReconciled_fst (H : Host D) (n : Node D) (es : List Entry) (k : Option Nat) :
    ∃ d, (n.persistReconciled H es k).1 = { n with disk := d } := by
  cases k with
  | none => exact persistEntriesLocked_fst H n es
  | some k =>
    unfold persistReconciled persistTruncateLocked
    rcases ht : H.truncateAfter n.disk k with ⟨d, ok⟩
    cases ok with
    | true =>
      obtain ⟨d', hd'⟩ := persistEntriesLocked_fst H { n with disk := d } es
      exact ⟨d', by simpa [ht] using hd'⟩
    | false => exact ⟨d, by simp [ht]⟩

def reconciledLog (n : Node D) (req : AppendRequest) : List Entry :=
  (n.reconcile (req.prevLogIndex + 1) req.entries).1.log

theorem reconcile_fst (n : Node D) (idx : Nat) (es : List Entry) :
    (n.reconcile idx es).1 = { n with log := (n.reconcile idx es).1.log } := by
  induction es generalizing idx with
  | nil => rfl
  | cons e es ih =>
    unfold reconcile
    split
    · exact ih _
    split
    · split
      · rfl
      · exact ih _
    · rfl

/-- The consistency check at `PrevLogIndex` passes. Below the snapshot boundary there is none. -/
structure Consistent (n : Node D) (req : AppendRequest) : Prop where
  le : req.prevLogIndex ≤ n.lastIndex
  term : n.lastSnapshot < req.prevLogIndex → n.entryTerm req.prevLogIndex = some req.prevLogTerm

/-- How an append request ends at a node that accepted its term. -/
inductive Appended (n : Node D) (req : AppendRequest) : Node D → AppendResponse → Prop
  | missing (resp : AppendResponse) (hterm : resp.term = n.currentTerm) (hid : resp.sender = n.id)
      (hs : resp.success = false) : Appended n req n resp
  | conflict (d : D) (resp : AppendResponse) (hterm : resp.term = n.currentTerm)
      (hid : resp.sender = n.id) (hs : resp.success = false)
      (hsnap : n.lastSnapshot < req.prevLogIndex) (hle : req.prevLogIndex ≤ n.lastIndex)
      (hne : n.entryTerm req.prevLogIndex ≠ some req.prevLogTerm) :
      Appended n req { n with disk := d, log := (n.truncateFrom req.prevLogIndex).log } resp
  | unsaved (d : D) (resp : AppendResponse) (hterm : resp.term = n.currentTerm)
      (hid : resp.sender = n.id) (hs : resp.success = false) (hc : Consistent n req) :
      Appended n req { n with disk := d, log := n.reconciledLog req } resp
  | accepted (d : D) (resp : AppendResponse) (hterm : resp.term = n.currentTerm)
      (hid : resp.sender = n.id) (hs : resp.success = true)
      (hm : resp.matchIndex = req.prevLogIndex + req.entries.length) (hc : Consistent n req) :
      Appended n req
        { n with
          disk := d
          log := n.reconciledLog req
          commitIndex := max n.commitIndex (min req.leaderCommit (req.prevLogIndex + req.entries.length)) } resp

theorem appendMatched_spec (H : Host D) {n : Node D} {req : AppendRequest} (hc : Consistent n req) :
    Appended n req (n.appendMatched H req).1 (n.appendMatched H req).2 := by
  unfold appendMatched
  have hlg := reconcile_fst n (req.prevLogIndex + 1) req.entries
  rcases hr : n.reconcile (req.prevLogIndex + 1) req.entries with ⟨n1, es, k⟩
  have hn1 : n1 = { n with log := n.reconciledLog req } := by
    rw [reconciledLog]; simpa only [hr] using hlg
  obtain ⟨d, hd⟩ := persistReconciled_fst H n1 es k
  rcases hp : n1.persistReconciled H es k with ⟨n2, ok⟩
  have hn2 : n2 = { n with disk := d, log := n.reconciledLog req } := by
    rw [hp] at hd
    simp only at hd
    rw [hd, hn1]
  cases ok with
  | false =>
    simp only [hp, hn2]
    exact .unsaved d _ rfl rfl rfl hc
  | true =>
    simp only [hp, hn2, advanceFollowerCommit]
    have hac := Appended.accepted d
      { term := n.currentTerm, success := true, sender := n.id,
        matchIndex := req.prevLogIndex + req.entries.length } rfl rfl rfl rfl hc
    simp only [if_not_true]
    split
    next h =>
      rwa [max_eq_right (le_of_lt h)] at hac
    next h =>
      rwa [max_eq_left (not_lt.1 h)] at hac

theorem appendChecked_spec (H : Host D) (n : Node D) (req : AppendRequest) :
    Appended n req (n.appendChecked H req).1 (n.appendChecked H req).2 := by
  unfold appendChecked
  by_cases hle : n.lastIndex < req.prevLogIndex
  · rw [if_pos hle]
    exact .missing _ rfl rfl rfl
  rw [if_neg hle]
  by_cases hc : n.lastSnapshot < req.prevLogIndex ∧ n.entryTerm req.prevLogIndex ≠ some req.prevLogTerm
  · rw [if_pos hc]
    have htr : ∀ d, ({ n.truncateFrom req.prevLogIndex with disk := d } : Node D) =
        { n with disk := d, log := (n.truncateFrom req.prevLogIndex).log } := by
      intro d; unfold truncateFrom; split <;> rfl
    unfold persistTruncateLocked
    rcases ht : H.truncateAfter (n.truncateFrom req.prevLogIndex).disk (req.prevLogIndex - 1) with ⟨d, ok⟩
    cases ok <;>
    · simp only [htr]
      exact .conflict d _ rfl rfl rfl hc.1 (not_lt.1 hle) hc.2
  rw [if_neg hc]
  refine appendMatched_spec H ⟨not_lt.1 hle, fun h => ?_⟩
  by_contra hne
  exact hc ⟨h, hne⟩

theorem appendEntriesLocked_cases (H : Host D) (n : Node D) (req : AppendRequest) : (∃ d, n.appendEntriesLocked H req =
      ({ n with disk := d }, { term := n.currentTerm, success := false, sender := n.id })) ∨
    n.currentTerm ≤ req.term ∧ ∃ n₁, Advanced n req.term n₁ ∧
      Appended (n₁.acceptLeader req.leaderID) req
        (n.appendEntriesLocked H req).1 (n.appendEntriesLocked H req).2 := by
  unfold appendEntriesLocked
  by_cases ht : req.term < n.currentTerm
  · exact .inl ⟨n.disk, by rw [if_pos ht]⟩
  rw [if_neg ht]
  rcases advanceTermLocked_cases H n req.term with ⟨n₁, had, h1⟩ | ⟨_, d, had⟩
  · refine .inr ⟨by omega, n₁, h1, ?_⟩
    simp only [had, if_not_true]
    exact appendChecked_spec H _ req
  · exact .inl ⟨d, by simp [had]⟩

theorem handleSnapshotRequest_cases (H : Host D) (n : Node D) (req : SnapshotRequest) :
    (∃ d, n.handleSnapshotRequest H req = ({ n with disk := d }, ⟨n.currentTerm, false⟩)) ∨
    n.currentTerm ≤ req.term ∧ ∃ n₁, Advanced n req.term n₁ ∧
      ((req.lastIndex ≤ n₁.lastSnapshot ∨ req.lastIndex ≤ n₁.commitIndex) ∧
          n.handleSnapshotRequest H req = (n₁, ⟨req.term, true⟩) ∨
        n₁.lastSnapshot < req.lastIndex ∧ n₁.commitIndex < req.lastIndex ∧
          ((∃ d, n.handleSnapshotRequest H req = ({ n₁ with disk := d }, ⟨req.term, false⟩)) ∨
            ∃ d, n.handleSnapshotRequest H req =
              (({ n₁ with disk := d } : Node D).installSnapshot H req, ⟨req.term, true⟩))) := by
  unfold handleSnapshotRequest
  by_cases ht : req.term < n.currentTerm
  · exact .inl ⟨n.disk, by rw [if_pos ht]⟩
  rw [if_neg ht]
  rcases advanceTermLocked_cases H n req.term with ⟨n₁, had, h1⟩ | ⟨_, d, had⟩
  swap
  · exact .inl ⟨d, by simp [had]⟩
  have htr : n₁.currentTerm = req.term := h1.term_eq (by omega)
  refine .inr ⟨by omega, n₁, h1, ?_⟩
  simp only [had, if_not_true]
  by_cases hold : req.lastIndex ≤ n₁.lastSnapshot ∨ req.lastIndex ≤ n₁.commitIndex
  · exact .inl ⟨hold, by rw [if_pos hold, htr]⟩
  rw [if_neg hold]
  rw [not_or, not_le, not_le] at hold
  refine .inr ⟨hold.1, hold.2, ?_⟩
  by_cases hd : req.data.bytes = []
  · exact .inr ⟨n₁.disk, by rw [if_pos hd, ← htr]⟩
  rw [if_neg hd]
  rcases hr : H.restore n₁.disk req.data with ⟨d, ok⟩
  cases ok with
  | true => exact .inr ⟨d, by simp [hr, ← htr]⟩
  | false => exact .inl ⟨d, by simp [hr, ← htr]⟩

theorem installLeaderSnapshot_cases (H : Host D) (n : Node D) (snap : Snapshot) : n.installLeaderSnapshot H snap = n ∨
      n.lastSnapshot < snap.lastIndex ∧ snap.lastIndex ≤ n.lastIndex ∧ ∃ d, n.installLeaderSnapshot H snap = { n with
            log := n.log.drop (snap.lastIndex - n.lastSnapshot)
            lastSnapshot := snap.lastIndex
            lastSnapshotTerm := snap.lastTerm
            snapshotBytes := snap.data
            disk := d } := by
  unfold installLeaderSnapshot
  by_cases h : snap.lastIndex ≤ n.lastSnapshot ∨ n.lastIndex < snap.lastIndex
  · exact .inl (if_pos h)
  rw [if_neg h]
  rw [not_or, not_le, not_lt] at h
  exact .inr ⟨h.1, h.2, _, rfl⟩

/-! ## Leader bookkeeping -/

theorem foldl_replicated (n : Node D) (c : Nat) (is : List Nat) :
    is.foldl (fun c i => if n.replicated i then i else c) c = c ∨ ∃ i ∈ is, n.replicated i = true ∧
        is.foldl (fun c i => if n.replicated i then i else c) c = i := by
  refine List.foldlRecOn (motive := fun r => r = c ∨ ∃ i ∈ is, n.replicated i = true ∧ r = i) _ _
    (.inl rfl) fun b hb i hi => ?_
  split_ifs with h
  · exact .inr ⟨i, hi, h, rfl⟩
  · exact hb

theorem maybeAdvanceCommitIndex_cases (n : Node D) : n.maybeAdvanceCommitIndex = n ∨
      n.state = .leader ∧ ∃ i, n.commitIndex < i ∧ n.replicated i = true ∧
        n.maybeAdvanceCommitIndex = { n with commitIndex := i } := by
  unfold maybeAdvanceCommitIndex
  by_cases hs : n.state = .leader
  swap
  · exact .inl (if_pos hs)
  rw [if_neg (not_not_intro hs)]
  rcases foldl_replicated n n.commitIndex
    (List.range' (n.commitIndex + 1) (n.lastIndex - n.commitIndex)) with h | ⟨i, -, hr, h⟩
  · exact .inl (by simp [h])
  by_cases hi : n.commitIndex < i
  · exact .inr ⟨hs, i, hi, hr, by simp [h, hi]⟩
  · exact .inl (by simp [h, hi])

theorem handleAppendResponse_cases (H : Host D) (n : Node D) (resp : AppendResponse) :
    (∃ f, n.handleAppendResponse H resp = { n with nextIndex := f }) ∨
    Advanced n resp.term (n.handleAppendResponse H resp) ∨
    (∃ d, n.handleAppendResponse H resp = { n with disk := d, state := .follower }) ∨
    n.state = .leader ∧ resp.term = n.currentTerm ∧ resp.success = true ∧
      ∃ f, n.handleAppendResponse H resp =
        ({ n with
          matchIndex := Function.update n.matchIndex resp.sender
            (max resp.matchIndex (n.matchIndex resp.sender))
          nextIndex := f } : Node D).maybeAdvanceCommitIndex := by
  unfold handleAppendResponse
  by_cases hs : n.state = .leader
  swap
  · exact .inl ⟨n.nextIndex, by rw [if_pos hs]⟩
  rw [if_neg (not_not_intro hs)]
  by_cases ht : n.currentTerm < resp.term
  · rw [if_pos ht]
    rcases advanceTermLocked_cases H n resp.term with ⟨n1, had, h1⟩ | ⟨_, d, had⟩
    · exact .inr (.inl (by simpa [had] using h1))
    · exact .inr (.inr (.inl ⟨d, by simp [had]⟩))
  rw [if_neg ht]
  by_cases hne : resp.term = n.currentTerm
  swap
  · exact .inl ⟨n.nextIndex, by rw [if_pos hne]⟩
  rw [if_neg (not_not_intro hne)]
  by_cases hok : resp.success = true
  · exact .inr (.inr (.inr ⟨hs, hne, hok, _, by rw [if_pos hok]⟩))
  rw [if_neg hok]
  refine .inl ?_
  dsimp only
  split
  · exact ⟨_, rfl⟩
  split
  · exact ⟨_, rfl⟩
  · exact ⟨n.nextIndex, rfl⟩

theorem handleSnapshotResponse_cases (H : Host D) (n : Node D) (peer : NodeID)
    (req : SnapshotRequest) (resp : SnapshotResponse) :
    ∃ f, n.handleSnapshotResponse H peer req resp = { n with snapshotInFlight := f } ∨
    (∃ n₁, Advanced n resp.term n₁ ∧ n.handleSnapshotResponse H peer req resp =
      { n₁ with snapshotInFlight := f, state := .follower }) ∨
    (∃ d, n.handleSnapshotResponse H peer req resp =
      { n with snapshotInFlight := f, disk := d, state := .follower }) ∨
    n.state = .leader ∧ n.currentTerm = req.term ∧ resp.success = true ∧
      ∃ g, n.handleSnapshotResponse H peer req resp =
        { n with
          snapshotInFlight := f
          matchIndex := Function.update n.matchIndex peer (max req.lastIndex (n.matchIndex peer))
          nextIndex := g } := by
  refine ⟨Function.update n.snapshotInFlight peer false, ?_⟩
  unfold handleSnapshotResponse
  by_cases ht : n.currentTerm < resp.term
  · rcases hs : H.saveHardState n.disk ⟨resp.term, []⟩ with ⟨d, ok⟩
    cases ok with
    | true => exact .inr (.inl ⟨_, .up ht d, by simp [ht, advanceTermLocked, hs, not_le.2 ht]⟩)
    | false => exact .inr (.inr (.inl ⟨d, by simp [ht, advanceTermLocked, hs, not_le.2 ht]⟩))
  by_cases hok : resp.success = true
  swap
  · exact .inl (by simp [ht, hok])
  by_cases hl : n.state = .leader ∧ n.currentTerm = req.term
  · refine .inr (.inr (.inr ⟨hl.1, hl.2, hok, Function.update n.nextIndex peer
      (max (req.lastIndex + 1) (n.nextIndex peer)), ?_⟩))
    rw [if_neg ht, hok]
    exact if_pos hl
  · exact .inl (by simp [ht, hok, hl])

def proposed (n : Node D) (command : Bytes) (type : EntryType) : Entry :=
  { index := n.lastIndex + 1, term := n.currentTerm, command, type }

theorem proposeEntry_cases (H : Host D) (n : Node D) (command : Bytes) (type : EntryType) :
    (∃ d, n.proposeEntry H command type = ({ n with disk := d }, none)) ∨
    n.state = .leader ∧ ∃ d, n.proposeEntry H command type =
      (({ n with disk := d, log := n.log ++ [n.proposed command type] } : Node D).maybeAdvanceCommitIndex,
        some (n.lastIndex + 1)) := by
  unfold proposeEntry
  by_cases hs : n.state = .leader
  swap
  · exact .inl ⟨n.disk, by rw [if_pos hs]⟩
  rw [if_neg (not_not_intro hs)]
  obtain ⟨d, hd⟩ := persistEntriesLocked_fst H
    { n with log := n.log ++ [n.proposed command type] } [n.proposed command type]
  rcases hp : ({ n with log := n.log ++ [n.proposed command type] } : Node D).persistEntriesLocked H
    [n.proposed command type] with ⟨m, ok⟩
  rw [hp] at hd
  simp only at hd
  unfold proposed at hp
  cases ok with
  | true => exact .inr ⟨hs, d, by simp only [hp, hd]; rfl⟩
  | false => exact .inl ⟨d, by simp only [hp, hd]; rfl⟩

theorem buildAppendRequestLocked_eq_some {peer : NodeID} {term : Nat} {req : AppendRequest}
    (h : n.buildAppendRequestLocked peer term = some req) : req.term = term ∧
      n.lastSnapshot ≤ req.prevLogIndex ∧ n.entryTerm req.prevLogIndex = some req.prevLogTerm ∧
      req.entries = n.entriesFrom (req.prevLogIndex + 1) ∧ req.leaderCommit = n.commitIndex := by
  unfold buildAppendRequestLocked at h
  dsimp only at h
  split at h
  · cases h
  obtain ⟨t, ht, rfl⟩ := map_eq_some_iff.1 h
  refine ⟨rfl, not_lt.1 ‹_›, ht, ?_, rfl⟩
  rw [Nat.sub_add_cancel (le_max_right _ _)]

theorem replicateTo_cases (n : Node D) (peer : NodeID) (term : Nat) :
    ∃ f, (n.replicateTo peer term).1 = { n with snapshotInFlight := f } ∧
      ∀ msg, (n.replicateTo peer term).2 = some msg → n.state = .leader ∧ n.currentTerm = term ∧
        ((∃ req, n.buildAppendRequestLocked peer term = some req ∧ msg = .appendReq req) ∨
          msg = .snapReq ⟨term, n.id, n.snapshotBytes, n.lastSnapshot, n.lastSnapshotTerm⟩) := by
  unfold replicateTo
  by_cases hst : n.state ≠ .leader ∨ n.currentTerm ≠ term
  · rw [if_pos hst]
    exact ⟨n.snapshotInFlight, rfl, nofun⟩
  rw [if_neg hst]
  rw [not_or, not_not, not_not] at hst
  cases hb : n.buildAppendRequestLocked peer term with
  | some req =>
    refine ⟨n.snapshotInFlight, rfl, fun msg h => ⟨hst.1, hst.2, .inl ⟨req, rfl, ?_⟩⟩⟩
    exact (some.inj h).symm
  | none =>
    dsimp only
    split
    · exact ⟨_, rfl, fun msg h => ⟨hst.1, hst.2, .inr (some.inj h).symm⟩⟩
    · exact ⟨n.snapshotInFlight, rfl, nofun⟩

theorem takeSnapshot_eq_some {idx : Nat} {bytes : Bytes} {snap : Snapshot}
    (h : n.takeSnapshot idx bytes = some snap) : snap.lastIndex = idx ∧ n.lastSnapshot < idx ∧
      n.entryTerm idx = some snap.lastTerm ∧ snap.data.covers = n.held.take idx := by
  unfold takeSnapshot at h
  split at h
  next hc =>
    obtain ⟨t, ht, rfl⟩ := map_eq_some_iff.1 h
    exact ⟨rfl, hc.2.1, ht, rfl⟩
  · cases h

end NothingDNS.Raft.Node
