import NothingDNS.Raft.NodeSpec
/-!
# What a step does to terms, votes and candidacies

Most events are `Quiet`: they may move the node to a newer term and let it step down, and touch nothing else that an
election reads.
-/

namespace NothingDNS.Raft

open List

/-- The candidacy the run loop is pursuing: its term and the voters counted so far. -/
def Pc.ballot : Pc → Option (Nat × List NodeID)
  | .collecting term _ voters => some (term, voters)
  | .winning term voters => some (term, voters)
  | _ => none

/-- `voteCount` is the number of counted voters plus the self-vote, and a won candidacy has reached
the quorum. -/
def Pc.Tallied (quorum : Nat) : Pc → Prop
  | .collecting _ voteCount voters => voteCount = voters.length + 1
  | .winning _ voters => quorum ≤ voters.length + 1
  | _ => True

def Pc.idle : Pc → Bool
  | .top | .follower | .candidate | .elected | .leader => true
  | _ => false

variable {pc : Pc}

theorem Pc.ballot_of_idle (h : pc.idle = true) : pc.ballot = none := by
  cases pc <;> trivial

theorem Pc.tallied_of_ballot_none {q : Nat} (h : pc.ballot = none) : pc.Tallied q := by
  cases pc <;> trivial

def Msg.isVote : Msg → Bool
  | .voteReq _ | .voteResp _ => true
  | _ => false

def Msg.refuses : Msg → Bool
  | .voteResp resp => !resp.voteGranted
  | _ => false

namespace Node

variable {D : Type} {H : Host D} {n m n₁ : Node D} {ev : Event} {sends : List Send}

structure Effect (n : Node D) (ev : Event) (m : Node D) (sends : List Send) : Prop where
  id : m.id = n.id
  peers : m.peers = n.peers
  term_le : n.currentTerm ≤ m.currentTerm
  /-- Within a term only the self-vote of `runCandidate` may replace a recorded vote. -/
  votedFor : m.currentTerm = n.currentTerm → m.votedFor ≠ n.votedFor →
    ev = .startCandidate ∧ m.votedFor = n.id ∨ n.votedFor = []
  /-- A vote is given in the node's own term and recorded. -/
  cast : ∀ v ∈ n.votesCast ev m sends, v = (m.currentTerm, m.votedFor)
  voteReq : ∀ d req, (⟨d, .voteReq req⟩ : Send) ∈ sends → d ∈ n.peers ∧ req.candidateID = n.id
  voteResp : ∀ d resp, (⟨d, .voteResp resp⟩ : Send) ∈ sends → resp.voteGranted = true →
    resp.sender = n.id ∧ ∃ req, ev = .voteRequest d req ∧ (resp.term, req.candidateID) ∈ n.votesCast ev m sends
  ballot : ∀ T vs, m.pc.ballot = some (T, vs) → n.pc.ballot = some (T, vs) ∨
    (vs = [] ∧ (T, n.id) ∈ n.votesCast ev m sends) ∨
    ∃ k vs' r rest, ev = .collectVote ∧ n.pc = .collecting T k vs' ∧ n.voteRespCh = r :: rest ∧
      r.term ≤ T ∧ r.voteGranted = true ∧ vs = r.sender :: vs'
  tally : n.pc.Tallied n.quorumSize → m.pc.Tallied n.quorumSize
  /-- Leadership is taken at `becomeLeader` only and never survives a term change. -/
  leader : m.state = .leader → m.currentTerm = n.currentTerm ∧
    (n.state = .leader ∨ ev = .becomeLeader ∧ ∃ T vs, n.pc = .winning T vs)
  voteRespCh : ∀ r ∈ m.voteRespCh, r ∈ n.voteRespCh ∨ ∃ sender, ev = .voteResponse sender r
  appendRespCh : ∀ r ∈ m.appendRespCh, r ∈ n.appendRespCh ∨ ∃ sender, ev = .appendResponse sender r
  steppingDown : ∀ t, m.pc = .steppingDown t → n.pc = .steppingDown t ∨ ∃ r ∈ n.voteRespCh, r.term = t

/-- Nothing an election reads has changed, except that the node may have stepped down or given up
its candidacy. -/
structure Quiet (n m : Node D) : Prop where
  id : m.id = n.id
  peers : m.peers = n.peers
  currentTerm : m.currentTerm = n.currentTerm
  votedFor : m.votedFor = n.votedFor
  pc : m.pc = n.pc ∨ m.pc.idle = true
  leader : m.state = .leader → n.state = .leader
  voteRespCh : ∀ r ∈ m.voteRespCh, r ∈ n.voteRespCh
  appendRespCh : ∀ r ∈ m.appendRespCh, r ∈ n.appendRespCh

theorem Effect.of_quiet {t : Nat} (ha : Advanced n t n₁) (hq : Quiet n₁ m)
    (hcs : n.votesCast ev m sends = []) (hs : ∀ x ∈ sends, x.msg.isVote → x.msg.refuses) : Effect n ev m sends where
  id := by cases ha <;> exact hq.id
  peers := by cases ha <;> exact hq.peers
  term_le := by
    have := hq.currentTerm
    cases ha with
    | same => omega
    | up h => exact le_of_lt (by rw [this]; exact h)
  votedFor := by
    intro ht hv
    cases ha with
    | same => exact absurd hq.votedFor hv
    | up h =>
      have := hq.currentTerm
      simp only at this
      omega
  cast := by simp [hcs]
  voteReq := by
    intro d req hmem
    exact absurd (hs _ hmem rfl) (by simp [Msg.refuses])
  voteResp := by
    intro d resp hmem hg
    exact absurd (hs _ hmem rfl) (by simp [Msg.refuses, hg])
  ballot := by
    intro T vs hb
    have hpc : n₁.pc = n.pc := by cases ha <;> rfl
    rcases hq.pc with h | h
    · exact .inl (by rw [← hpc, ← h, hb])
    · rw [Pc.ballot_of_idle h] at hb
      cases hb
  tally := by
    intro ht
    have hpc : n₁.pc = n.pc := by cases ha <;> rfl
    rcases hq.pc with h | h
    · rwa [h, hpc]
    · exact Pc.tallied_of_ballot_none (Pc.ballot_of_idle h)
  leader := by
    intro hl
    have hl1 := hq.leader hl
    cases ha with
    | same => exact ⟨hq.currentTerm, .inl hl1⟩
    | up => cases hl1
  voteRespCh := by
    intro r hr
    have := hq.voteRespCh r hr
    cases ha <;> exact .inl this
  appendRespCh := by
    intro r hr
    have := hq.appendRespCh r hr
    cases ha <;> exact .inl this
  steppingDown := by
    intro t ht
    have hpc : n₁.pc = n.pc := by cases ha <;> rfl
    rcases hq.pc with h | h
    · exact .inl (by rw [← hpc, ← h, ht])
    · rw [ht] at h
      cases h

/-! ## The quiet handlers -/

/-- The node has at most moved to a newer term and stepped down. -/
def Quieted (n m : Node D) : Prop := ∃ t n₁, Advanced n t n₁ ∧ Quiet n₁ m

def electoral (n : Node D) :=
  (n.id, n.peers, n.currentTerm, n.votedFor, n.pc, n.state, n.voteRespCh, n.appendRespCh)

theorem Quiet.of_same (h : m.electoral = n.electoral) : Quiet n m := by
  simp only [electoral, Prod.mk.injEq] at h
  obtain ⟨hid, hp, htr, hvt, hpc, hst, hvs, hap⟩ := h
  exact ⟨hid, hp, htr, hvt, .inl hpc, fun h => hst ▸ h, fun _ h => hvs ▸ h, fun _ h => hap ▸ h⟩

theorem Quiet.refl (n : Node D) : Quiet n n := .of_same rfl

theorem Quiet.quieted (h : Quiet n m) : Quieted n m := ⟨0, n, .same (Nat.zero_le _), h⟩

theorem Quieted.of_appendRespCh {rest : List AppendResponse} (hsb : ∀ r ∈ rest, r ∈ n.appendRespCh)
    (h : Quieted { n with appendRespCh := rest } m) : Quieted n m := by
  obtain ⟨t, n₁, ha, hq⟩ := h
  cases ha with
  | same => exact Quiet.quieted { hq with appendRespCh := fun r hr => hsb r (hq.appendRespCh r hr) }
  | up ht d =>
    exact ⟨t, _, Advanced.up (n := n) ht d, { hq with appendRespCh := fun r hr => hsb r (hq.appendRespCh r hr) }⟩

theorem Effect.of_quieted (h : Quieted n m) (hcs : n.votesCast ev m sends = [])
    (hs : ∀ x ∈ sends, x.msg.isVote → x.msg.refuses) : Effect n ev m sends := by
  obtain ⟨t, n₁, ha, hq⟩ := h
  exact .of_quiet ha hq hcs hs

theorem Quiet.maybeAdvanceCommitIndex {n m : Node D} (h : Quiet n m) : Quiet n m.maybeAdvanceCommitIndex := by
  rcases maybeAdvanceCommitIndex_cases m with he | ⟨-, i, -, -, he⟩
  · rwa [he]
  · rw [he]
    exact { h with }

theorem Appended.quiet {req : AppendRequest} {resp : AppendResponse} {id : NodeID}
    (h : Appended (n.acceptLeader id) req m resp) : Quiet n m := by
  cases h <;>
    exact ⟨rfl, rfl, rfl, rfl, .inl rfl, nofun, fun _ h => h, fun _ h => h⟩

theorem appendEntriesLocked_quieted (H : Host D) (n : Node D) (req : AppendRequest) :
    Quieted n (n.appendEntriesLocked H req).1 := by
  rcases appendEntriesLocked_cases H n req with ⟨d, h⟩ | ⟨-, n₁, h1, h⟩
  · rw [h]
    exact Quiet.quieted (.of_same rfl)
  · exact ⟨_, n₁, h1, h.quiet⟩

theorem handleSnapshotRequest_quieted (H : Host D) (n : Node D) (req : SnapshotRequest) :
    Quieted n (n.handleSnapshotRequest H req).1 := by
  rcases handleSnapshotRequest_cases H n req with
    ⟨d, h⟩ | ⟨-, n₁, h1, ⟨-, h⟩ | ⟨-, -, ⟨d, h⟩ | ⟨d, h⟩⟩⟩
  · rw [h]
    exact Quiet.quieted (.of_same rfl)
  · rw [h]
    exact ⟨_, n₁, h1, .refl n₁⟩
  all_goals
    rw [h]
    exact ⟨_, n₁, h1, .of_same rfl⟩

theorem handleAppendResponse_quieted (H : Host D) (n : Node D) (resp : AppendResponse) :
    Quieted n (n.handleAppendResponse H resp) := by
  rcases handleAppendResponse_cases H n resp with ⟨f, h⟩ | h | ⟨d, h⟩ | ⟨-, -, -, f, h⟩
  · rw [h]
    exact Quiet.quieted (.of_same rfl)
  · exact ⟨_, _, h, .refl _⟩
  · rw [h]
    exact Quiet.quieted ⟨rfl, rfl, rfl, rfl, .inl rfl, nofun, fun _ h => h, fun _ h => h⟩
  · rw [h]
    refine Quiet.quieted (Quiet.maybeAdvanceCommitIndex ?_)
    exact .of_same rfl

theorem handleSnapshotResponse_quieted (H : Host D) (n : Node D) (peer : NodeID)
    (req : SnapshotRequest) (resp : SnapshotResponse) : Quieted n (n.handleSnapshotResponse H peer req resp) := by
  obtain ⟨f, h⟩ := handleSnapshotResponse_cases H n peer req resp
  rcases h with h | ⟨n₁, h1, h⟩ | ⟨d, h⟩ | ⟨-, -, -, g, h⟩
  · rw [h]
    exact Quiet.quieted (.of_same rfl)
  · rw [h]
    exact ⟨_, n₁, h1, rfl, rfl, rfl, rfl, .inl rfl, nofun, fun _ h => h, fun _ h => h⟩
  · rw [h]
    exact Quiet.quieted ⟨rfl, rfl, rfl, rfl, .inl rfl, nofun, fun _ h => h, fun _ h => h⟩
  · rw [h]
    exact Quiet.quieted (.of_same rfl)

theorem proposeEntry_quiet (H : Host D) (n : Node D) (command : Bytes) (type : EntryType) :
    Quiet n (n.proposeEntry H command type).1 := by
  rcases proposeEntry_cases H n command type with ⟨d, h⟩ | ⟨-, d, h⟩
  · rw [h]
    exact .of_same rfl
  · rw [h]
    exact Quiet.maybeAdvanceCommitIndex (.of_same rfl)

theorem replicateTo_quiet (n : Node D) (peer : NodeID) (term : Nat) : Quiet n (n.replicateTo peer term).1 ∧
      ∀ msg, (n.replicateTo peer term).2 = some msg → msg.isVote = false := by
  unfold replicateTo
  split
  · exact ⟨.refl n, by simp⟩
  split
  · exact ⟨.refl n, by rintro msg ⟨⟩; rfl⟩
  split
  · exact ⟨.of_same rfl, by rintro msg ⟨⟩; rfl⟩
  · exact ⟨.refl n, by simp⟩

theorem installLeaderSnapshot_quiet (H : Host D) (n : Node D) (snap : Snapshot) :
    Quiet n (n.installLeaderSnapshot H snap) := by
  rcases installLeaderSnapshot_cases H n snap with h | ⟨-, -, d, h⟩
  · rw [h]
    exact .refl n
  · rw [h]
    exact .of_same rfl

theorem electionTimeout_quieted (H : Host D) (n : Node D) {failed : Node D → Node D}
    (hf : ∀ m, Quiet m (failed m)) : Quieted n (n.electionTimeout H failed) := by
  unfold electionTimeout
  rcases advanceTermLocked_cases H n (nextTerm n.currentTerm) with ⟨m, had, h⟩ | ⟨-, d, had⟩
  · rw [had]
    exact ⟨_, m, h, rfl, rfl, rfl, rfl, .inr rfl, nofun, fun _ h => h, fun _ h => h⟩
  · rw [had]
    exact Quiet.quieted { hf { n with disk := d } with pc := .inr rfl }

theorem becomeFollower_quieted (H : Host D) (n : Node D) (term : Nat) : Quieted n (n.becomeFollower H term) := by
  unfold becomeFollower
  split
  · rcases advanceTermLocked_cases H n term with ⟨m, had, h⟩ | ⟨-, d, had⟩
    · rw [had]
      exact ⟨_, m, h, rfl, rfl, rfl, rfl, .inr rfl, fun h => h, fun _ h => h, fun _ h => h⟩
    · rw [had]
      exact Quiet.quieted ⟨rfl, rfl, rfl, rfl, .inr rfl, fun h => h, fun _ h => h, fun _ h => h⟩
  · exact Quiet.quieted ⟨rfl, rfl, rfl, rfl, .inr rfl, nofun, fun _ h => h, fun _ h => h⟩

/-! ## The steps of an election -/

theorem mem_trySend {α : Type} {ch : List α} {x y : α} (h : y ∈ trySend ch x) : y ∈ ch ∨ y = x := by
  unfold trySend at h
  split at h
  · exact (mem_append.1 h).imp_right mem_singleton.1
  · exact .inl h

theorem mem_voteRequests {x : Send} (hx : x ∈ n.voteRequests) : x.dest ∈ n.peers ∧
      x.msg = .voteReq ⟨n.currentTerm, n.id, n.lastLogInfo.1, n.lastLogInfo.2⟩ := by
  obtain ⟨p, hp, rfl⟩ := mem_map.1 hx
  exact ⟨hp, rfl⟩

theorem startCandidate_effect (H : Host D) (n : Node D) :
    Effect n .startCandidate (n.startCandidate H).1 (n.startCandidate H).2 := by
  rcases startCandidate_cases H n with ⟨d, h⟩ | ⟨d, pc, hpc, h⟩
  · rw [h]
    exact .of_quieted (Quiet.quieted ⟨rfl, rfl, rfl, rfl, .inr rfl, nofun,
      fun _ h => h, fun _ h => h⟩) (by simp [votesCast]) (by simp)
  rw [h]
  have hcs : n.votesCast .startCandidate ({ n with disk := d, votedFor := n.id, pc := pc } : Node D)
      n.voteRequests = [(n.currentTerm, n.id)] := by
    rcases hpc with ⟨-, rfl⟩ | rfl <;> simp [votesCast]
  refine ⟨rfl, rfl, le_rfl, fun _ _ => .inl ⟨rfl, rfl⟩, ?_, ?_, ?_, ?_, ?_, fun h => ⟨rfl, .inl h⟩,
    fun _ h => .inl h, fun _ h => .inl h, ?_⟩
  · simp [hcs]
  · intro p req hmem
    obtain ⟨hp, hrq⟩ := mem_voteRequests hmem
    simp only [Msg.voteReq.injEq] at hrq
    exact ⟨hp, by rw [hrq]⟩
  · intro p resp hmem
    exact absurd (mem_voteRequests hmem).2 (by simp)
  · intro T vs hb
    refine .inr (.inl ?_)
    rw [hcs]
    rcases hpc with ⟨-, rfl⟩ | rfl <;>
      simp only [Pc.ballot, Option.some.injEq, Prod.mk.injEq] at hb <;>
      simp [← hb.1, ← hb.2]
  · intro _
    rcases hpc with ⟨hq, rfl⟩ | rfl
    · exact hq
    · rfl
  · intro t ht
    rcases hpc with ⟨-, rfl⟩ | rfl <;> simp at ht

variable {term k : Nat} {vs : List NodeID} {resp : VoteResponse} {rest : List VoteResponse}

theorem counted_effect {pc : Pc}
    (hpc : n.pc = .collecting term k vs) (hch : n.voteRespCh = resp :: rest) (htr : resp.term ≤ term)
    (hg : resp.voteGranted = true) (hb : pc.ballot = some (term, resp.sender :: vs))
    (htl : n.pc.Tallied n.quorumSize → pc.Tallied n.quorumSize) :
    Effect n .collectVote { n with voteRespCh := rest, pc := pc } [] where
  id := rfl
  peers := rfl
  term_le := le_rfl
  votedFor := fun _ h => absurd rfl h
  cast := by simp [votesCast]
  voteReq := by simp
  voteResp := by simp
  ballot := by
    intro T ws h
    obtain ⟨rfl, rfl⟩ := Prod.mk.inj (Option.some.inj (hb.symm.trans h))
    exact .inr (.inr ⟨k, vs, resp, rest, rfl, hpc, hch, htr, hg, rfl⟩)
  tally := htl
  leader := fun h => ⟨rfl, .inl h⟩
  voteRespCh := fun r hr => .inl (hch ▸ mem_cons_of_mem _ hr)
  appendRespCh := fun _ h => .inl h
  steppingDown := by
    rintro t rfl
    cases hb

theorem collectVote_effect (hpc : n.pc = .collecting term k vs) (hch : n.voteRespCh = resp :: rest) :
    Effect n .collectVote (({ n with voteRespCh := rest } : Node D).collectVote term k vs resp) [] := by
  have hrs : ∀ r ∈ rest, r ∈ n.voteRespCh := fun r hr => by rw [hch]; exact mem_cons_of_mem _ hr
  unfold collectVote
  split
  · refine ⟨rfl, rfl, le_rfl, fun _ h => absurd rfl h, by simp [votesCast], by simp, by simp, by simp [Pc.ballot], fun
      _ => trivial, fun h => ⟨rfl, .inl h⟩, fun r hr => .inl (hrs r hr), fun _ h => .inl h, ?_⟩
    rintro t ⟨⟩
    exact .inr ⟨resp, by rw [hch]; exact mem_cons_self, rfl⟩
  rename_i htr
  split
  swap
  · exact .of_quieted (Quiet.quieted ⟨rfl, rfl, rfl, rfl, .inl rfl, fun h => h, hrs, fun _ h => h⟩)
      rfl (by simp)
  rename_i hg
  split
  next hq =>
    refine counted_effect hpc hch (not_lt.1 htr) hg rfl fun ht => ?_
    rw [hpc] at ht
    simp only [Pc.Tallied] at ht ⊢
    rw [length_cons, ← ht]
    exact hq
  · refine counted_effect hpc hch (not_lt.1 htr) hg rfl fun ht => ?_
    rw [hpc] at ht
    simp only [Pc.Tallied] at ht ⊢
    rw [length_cons, ← ht]

theorem becomeLeader_effect (hpc : n.pc = .winning term vs) : Effect n .becomeLeader n.becomeLeader [] where
  id := rfl
  peers := rfl
  term_le := le_rfl
  votedFor := fun _ h => absurd rfl h
  cast := by simp [votesCast]
  voteReq := by simp
  voteResp := by simp
  ballot := by simp [becomeLeader, Pc.ballot]
  tally := fun _ => trivial
  leader := fun _ => ⟨rfl, .inr ⟨rfl, term, vs, hpc⟩⟩
  voteRespCh := fun _ h => .inl h
  appendRespCh := fun _ h => .inl h
  steppingDown := by simp [becomeLeader]

theorem handleVoteRequest_effect (H : Host D) (n : Node D) (sender : NodeID) (req : VoteRequest) :
    Effect n (.voteRequest sender req) (n.handleVoteRequest H req).1
      [⟨sender, .voteResp (n.handleVoteRequest H req).2⟩] := by
  rcases handleVoteRequest_cases H n req with
    ⟨d, h⟩ | ⟨ht, n₁, h1, ⟨d, h⟩ | ⟨hv, -, d, h⟩⟩
  all_goals rw [h]
  · exact .of_quieted (Quiet.quieted (.of_same rfl)) (by simp [votesCast]) (by simp [Msg.refuses])
  · exact .of_quiet h1 (.of_same rfl) (by simp [votesCast]) (by simp [Msg.refuses])
  · have htr := h1.term_eq ht
    have hq : Effect n (.voteRequest sender req) ({ n₁ with disk := d } : Node D) [] :=
      .of_quiet h1 (.of_same rfl) (by simp [votesCast]) (by simp)
    refine ⟨hq.id, hq.peers, hq.term_le, ?_, by simp [votesCast, htr], by simp, ?_, ?_, hq.tally, hq.leader,
      hq.voteRespCh, hq.appendRespCh, hq.steppingDown⟩
    · intro heq hne
      refine .inr ?_
      cases h1 with
      | same =>
        rcases hv with hv | hv
        · exact hv
        · exact absurd hv.symm hne
      | up hlt => exact absurd heq (Nat.ne_of_gt hlt)
    · intro p resp hmem hg
      simp only [mem_singleton, Send.mk.injEq, Msg.voteResp.injEq] at hmem
      obtain ⟨rfl, rfl⟩ := hmem
      exact ⟨rfl, req, rfl, by simp [votesCast]⟩
    · intro T vs hb
      rcases hq.ballot T vs hb with h | ⟨-, h⟩ | ⟨_, _, _, _, h, -⟩
      · exact .inl h
      · simp [votesCast] at h
      · simp at h

theorem step_effect (h : n.step H ev = some (m, sends)) : Effect n ev m sends := by
  cases ev with simp only [step] at h
  | dispatch =>
    split at h <;> cases h
    refine .of_quieted (Quiet.quieted ⟨rfl, rfl, rfl, rfl, .inr ?_, fun h => h, fun _ h => h, fun _ h => h⟩) rfl (by simp)
    cases n.state <;> rfl
  | electionTimeout =>
    split at h <;> cases h
    · exact .of_quieted (electionTimeout_quieted H n fun m => .refl m) rfl (by simp)
    · refine .of_quieted (electionTimeout_quieted H n fun m => ?_) rfl (by simp)
      exact ⟨rfl, rfl, rfl, rfl, .inl rfl, nofun, fun _ h => h, fun _ h => h⟩
  | electionReset =>
    split at h
    swap
    · cases h
    split at h <;> cases h
    · exact .of_quieted (Quiet.quieted (.of_same rfl)) rfl (by simp)
    · refine .of_quieted (Quiet.quieted ⟨rfl, rfl, rfl, rfl, ?_, fun h => h, fun _ h => h, fun _ h => h⟩) rfl (by simp)
      by_cases hs : n.state = .candidate
      · exact .inl (if_pos hs)
      · exact .inr (by rw [if_neg hs]; rfl)
  | startCandidate =>
    split at h
    · simp only [Option.some.injEq] at h
      have := startCandidate_effect H n
      rwa [h] at this
    · cases h
  | collectVote =>
    split at h
    next hpc hch =>
      cases h
      exact collectVote_effect hpc hch
    · cases h
  | becomeFollower =>
    split at h <;> cases h
    exact .of_quieted (becomeFollower_quieted H n _) rfl (by simp)
  | becomeLeader =>
    split at h
    next hpc =>
      cases h
      exact becomeLeader_effect hpc
    · cases h
  | proposeNoOp =>
    split at h <;> cases h
    exact .of_quieted (Quiet.quieted { proposeEntry_quiet H n [] entryNoOp with pc := .inr rfl }) rfl (by simp)
  | heartbeat =>
    split at h <;> cases h
    refine .of_quieted (Quiet.quieted ⟨rfl, rfl, rfl, rfl, .inr ?_, fun h => h, fun _ h => h, fun _ h => h⟩) rfl (by simp)
    split <;> rfl
  | collectAppend =>
    split at h
    next hch =>
      cases h
      refine .of_quieted ((handleAppendResponse_quieted H _ _).of_appendRespCh fun r hr => ?_) rfl (by simp)
      rw [hch]
      exact mem_cons_of_mem _ hr
    · cases h
  | voteRequest sender req =>
    cases h
    exact handleVoteRequest_effect H n sender req
  | appendRequest sender req =>
    cases h
    exact .of_quieted (appendEntriesLocked_quieted H n req) rfl (by simp [Msg.isVote])
  | snapshotRequest sender req =>
    cases h
    exact .of_quieted (handleSnapshotRequest_quieted H n req) rfl (by simp [Msg.isVote])
  | voteResponse sender resp =>
    cases h
    refine ⟨rfl, rfl, le_rfl, fun _ h => absurd rfl h, by simp [votesCast], by simp, by simp, fun T vs h => .inl h,
      fun h => h, fun h => ⟨rfl, .inl h⟩, fun r hr => ?_, fun _ h => .inl h, fun _ h => .inl h⟩
    rcases mem_trySend hr with hr | rfl
    · exact .inl hr
    · exact .inr ⟨sender, rfl⟩
  | appendResponse sender resp =>
    cases h
    refine ⟨rfl, rfl, le_rfl, fun _ h => absurd rfl h, by simp [votesCast], by simp, by simp, fun T vs h => .inl h,
      fun h => h, fun h => ⟨rfl, .inl h⟩, fun _ h => .inl h, fun r hr => ?_, fun _ h => .inl h⟩
    rcases mem_trySend hr with hr | rfl
    · exact .inl hr
    · exact .inr ⟨sender, rfl⟩
  | snapshotResponse peer req resp =>
    cases h
    exact .of_quieted (handleSnapshotResponse_quieted H n peer req resp) rfl (by simp)
  | snapshotFailed peer =>
    cases h
    exact .of_quieted (Quiet.quieted (.of_same rfl)) rfl (by simp)
  | replicateTo peer term =>
    split at h <;> cases h
    obtain ⟨hq, hms⟩ := replicateTo_quiet n peer term
    refine .of_quieted hq.quieted rfl fun x hx => ?_
    obtain ⟨msg, hm, rfl⟩ := mem_map.1 hx
    simp [hms msg (by simpa using hm)]
  | propose command type =>
    cases h
    exact .of_quieted (proposeEntry_quiet H n command type).quieted rfl (by simp)
  | takeSnapshot | saveSnapshot =>
    split at h <;> cases h
    exact .of_quieted (Quiet.quieted (.of_same rfl)) rfl (by simp)
  | installLeaderSnapshot =>
    split at h <;> cases h
    exact .of_quieted (Quiet.quieted { installLeaderSnapshot_quiet H n ‹_› with }) rfl (by simp)

end Node
end NothingDNS.Raft
