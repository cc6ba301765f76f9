import NothingDNS.Raft.VoteEffect
import NothingDNS.Raft.Cluster
import NothingDNS.Lib.Quorum
/-!
# Election safety

At most one node ever leads a term, in every run whose steps meet `ElectionOk`.
The code does not establish `ElectionOk` itself:

* `runCandidate` writes its self-vote over whatever `votedFor` holds
  (`state.go:164-165`), and the lock was released since the term was taken;
* it counts a granted response of an older term, and counts the same voter twice
  (`state.go:220-233` compares `resp.Term` only with a greater one);
* `becomeLeader` does not look at `currentTerm` (`state.go:312-322`).
-/

namespace NothingDNS.Raft

open List

variable {D : Type} {H : Host D} {M : Membership}

/-- A self-vote replaces no other vote, a counted response is a new voter's answer to this
candidacy, and the candidate is still in the term it won. -/
def Node.ballotOk (n : Node D) : Event → Bool
  | .startCandidate => n.votedFor = [] ∨ n.votedFor = n.id
  | .collectVote => match n.pc, n.voteRespCh with
    | .collecting term _ voters, resp :: _ =>
      resp.term ≤ term → resp.voteGranted = true → resp.term = term ∧ resp.sender ∉ voters
    | _, _ => true
  | .becomeLeader => match n.pc with
    | .winning term _ => n.currentTerm = term
    | _ => true
  | _ => true

namespace Cluster

open List

def ElectionOk (s : Cluster D) (a : Action) : Prop := (s.nodes a.node).ballotOk a.event = true

instance (s : Cluster D) (a : Action) : Decidable (s.ElectionOk a) :=
  inferInstanceAs (Decidable (_ = _))

structure ElectionInv (M : Membership) (s : Cluster D) : Prop where
  id : ∀ i, (s.nodes i).id = i
  peers : ∀ i, (s.nodes i).peers = M.ids.filter (· ≠ i)
  /-- A vote is on record at the voter for as long as it stays in the term. -/
  vote : ∀ q T c, (q, T, c) ∈ s.hist.votes → c ∈ M.ids ∧ T ≤ (s.nodes q).currentTerm ∧
    (T = (s.nodes q).currentTerm → (s.nodes q).votedFor = c)
  unique : ∀ q T c c', (q, T, c) ∈ s.hist.votes → (q, T, c') ∈ s.hist.votes → c = c'
  voteReq : ∀ i j req, (⟨i, j, .voteReq req⟩ : Envelope) ∈ s.net → i ∈ M.ids ∧ i ≠ j ∧ req.candidateID = i
  voteResp : ∀ i j resp, (⟨i, j, .voteResp resp⟩ : Envelope) ∈ s.net → resp.voteGranted = true →
    resp.sender = i ∧ i ∈ M.ids ∧ i ≠ j ∧ (i, resp.term, j) ∈ s.hist.votes
  voteRespCh : ∀ i, ∀ resp ∈ (s.nodes i).voteRespCh, resp.voteGranted = true →
    resp.sender ∈ M.ids ∧ resp.sender ≠ i ∧ (resp.sender, resp.term, i) ∈ s.hist.votes
  /-- A candidacy is a list of distinct voters, each of which voted for the candidate. -/
  ballot : ∀ i T vs, (s.nodes i).pc.ballot = some (T, vs) → i ∈ M.ids ∧ vs.Nodup ∧ i ∉ vs ∧
    (∀ v ∈ vs, v ∈ M.ids) ∧ ∀ v ∈ i :: vs, (v, T, i) ∈ s.hist.votes
  tally : ∀ i, (s.nodes i).pc.Tallied (s.nodes i).quorumSize
  leader : ∀ i, (s.nodes i).state = .leader → (i, (s.nodes i).currentTerm) ∈ s.hist.leaders
  elected : ∀ c T, (c, T) ∈ s.hist.leaders → ∃ Q, Majority M.ids.toFinset Q ∧ ∀ q ∈ Q, (q, T, c) ∈ s.hist.votes

theorem electionInv_init (disk : NodeID → D) : ElectionInv M (init M disk) where
  id _ := rfl
  peers _ := rfl
  vote := by simp [init]
  unique := by simp [init]
  voteReq := by simp [init]
  voteResp := by simp [init]
  voteRespCh := by simp [init, newNode]
  ballot := by simp [init, newNode, Pc.ballot]
  tally _ := trivial
  leader := by simp [init, newNode]
  elected := by simp [init]

variable {n : Node D} {i : NodeID}

theorem quorumSize_eq (hp : n.peers = M.ids.filter (· ≠ i)) (h : i ∈ M.ids) : n.quorumSize = M.ids.length / 2 + 1 := by
  have hlen : (M.ids.filter (· ≠ i)).length = M.ids.length - 1 := by
    have := M.nodup.erase_eq_filter i
    rw [← length_erase_of_mem h, this]
    congr 1
    exact filter_congr fun x _ => by by_cases hx : x = i <;> simp [hx]
  have hpos := length_pos_of_mem h
  rw [Node.quorumSize, hp, hlen, Nat.sub_add_cancel hpos]

variable {vs : List NodeID}

theorem majority_of_quorum (hp : n.peers = M.ids.filter (· ≠ i)) (hmem : i ∈ M.ids) (hnd : vs.Nodup) (hsl : i ∉ vs)
    (hsb : ∀ v ∈ vs, v ∈ M.ids) (hq : n.quorumSize ≤ vs.length + 1) : Majority M.ids.toFinset (i :: vs).toFinset := by
  rw [quorumSize_eq hp hmem] at hq
  refine ⟨?_, ?_⟩
  · intro q hq
    rcases mem_cons.1 (mem_toFinset.1 hq) with rfl | hq
    · exact mem_toFinset.2 hmem
    · exact mem_toFinset.2 (hsb q hq)
  · rw [toFinset_card_of_nodup M.nodup, toFinset_card_of_nodup (nodup_cons.2 ⟨hsl, hnd⟩), length_cons]
    omega

variable {T : Nat}

theorem ElectionInv.majority {s : Cluster D} (hi : ElectionInv M s) (hpc : (s.nodes i).pc = .winning T vs) :
    ∃ Q, Majority M.ids.toFinset Q ∧ ∀ q ∈ Q, (q, T, i) ∈ s.hist.votes := by
  obtain ⟨hmem, hnd, hsl, hsb, hvt⟩ := hi.ballot i T vs (by rw [hpc]; rfl)
  have ht := hi.tally i
  rw [hpc] at ht
  exact ⟨_, majority_of_quorum (hi.peers i) hmem hnd hsl hsb ht, fun q hq => hvt q (mem_toFinset.1 hq)⟩

section step

variable {s : Cluster D} {a : Action} {m : Node D} {sends : List Send}

variable {T : Nat} {c : NodeID}

theorem ElectionInv.votedFor_kept (hi : ElectionInv M s) (hok : s.ElectionOk a)
    (he : Node.Effect (s.nodes a.node) a.event m sends)
    (hv : (a.node, T, c) ∈ s.hist.votes) (hT : T = m.currentTerm) : m.votedFor = c := by
  obtain ⟨hc, hle, hfr⟩ := hi.vote _ _ _ hv
  have htr : m.currentTerm = (s.nodes a.node).currentTerm := by
    have := he.term_le
    omega
  have hn : (s.nodes a.node).votedFor = c := hfr (by omega)
  by_contra hne
  rcases he.votedFor htr (by rwa [hn]) with ⟨hev, hsl⟩ | hnil
  · simp only [ElectionOk, hev, Node.ballotOk, decide_eq_true_eq] at hok
    rcases hok with hok | hok
    · exact M.named (by rw [← hok, hn]; exact hc)
    · exact hne (by rw [hsl, ← hok, hn])
  · exact M.named (by rw [← hnil, hn]; exact hc)

theorem ElectionInv.cast_mem (hi : ElectionInv M s) (hen : enabled M s a = true)
    (hv : (T, c) ∈ (s.nodes a.node).votesCast a.event m sends) : c ∈ M.ids := by
  simp only [enabled, Bool.and_eq_true, decide_eq_true_eq] at hen
  obtain ⟨⟨hmem, har⟩, -⟩ := hen
  cases hev : a.event with
  | startCandidate =>
    simp only [hev, Node.votesCast] at hv
    split at hv
    · simp at hv
    simp only [mem_singleton, Prod.mk.injEq] at hv
    rw [hv.2, hi.id]
    exact hmem
  | voteRequest sender req =>
    simp only [hev, Node.votesCast, mem_filterMap] at hv
    obtain ⟨x, -, hx⟩ := hv
    rw [hev] at har
    simp only [arrival, Option.all_some, decide_eq_true_eq] at har
    obtain ⟨hs, -, hid⟩ := hi.voteReq _ _ _ har
    split at hx
    · split at hx
      · simp only [Option.some.injEq, Prod.mk.injEq] at hx
        rw [← hx.2, hid]
        exact hs
      · simp at hx
    · simp at hx
  | _ => simp [hev, Node.votesCast] at hv

/-! One field of the invariant after another, in the state `s.after a.node a.event m sends` behind a step. -/

theorem votes_kept {v : NodeID × Nat × NodeID} (hv : v ∈ s.hist.votes) : v ∈ (s.after a.node a.event m sends).hist.votes :=
  (mem_after_votes ..).2 (.inl hv)

theorem vote_cast (hv : (T, c) ∈ (s.nodes a.node).votesCast a.event m sends) :
    (a.node, T, c) ∈ (s.after a.node a.event m sends).hist.votes := (mem_after_votes ..).2 (.inr ⟨rfl, hv⟩)

theorem forall_after_nodes {P : NodeID → Node D → Prop} (hself : P a.node m) (hothers : ∀ i, P i (s.nodes i)) (i : NodeID) :
    P i ((s.after a.node a.event m sends).nodes i) := by
  by_cases hn : i = a.node
  · subst hn
    rwa [after_nodes_self]
  · rw [after_nodes_of_ne _ _ _ _ _ hn]
    exact hothers i

theorem mem_ids_of_enabled (hen : enabled M s a = true) : a.node ∈ M.ids := by
  simp only [enabled, Bool.and_eq_true, decide_eq_true_eq] at hen
  exact hen.1.1

theorem mem_net_of_enabled (hen : enabled M s a = true) {e : Envelope} (h : arrival a.node a.event = some e) : e ∈ s.net := by
  simp only [enabled, Bool.and_eq_true, h, Option.all_some, decide_eq_true_eq] at hen
  exact hen.1.2

section Fields

variable (hi : ElectionInv M s) (he : Node.Effect (s.nodes a.node) a.event m sends)
include hi he

theorem ElectionInv.vote_after (hok : s.ElectionOk a) (hen : enabled M s a = true) {q : NodeID}
    (hv : (q, T, c) ∈ (s.after a.node a.event m sends).hist.votes) :
    c ∈ M.ids ∧ T ≤ ((s.after a.node a.event m sends).nodes q).currentTerm ∧
      (T = ((s.after a.node a.event m sends).nodes q).currentTerm →
        ((s.after a.node a.event m sends).nodes q).votedFor = c) := by
  by_cases hn : q = a.node
  · subst hn
    rw [after_nodes_self]
    rcases (mem_after_votes ..).1 hv with hv | ⟨-, hv⟩
    · obtain ⟨hc, hle, -⟩ := hi.vote _ _ _ hv
      exact ⟨hc, hle.trans he.term_le, hi.votedFor_kept hok he hv⟩
    obtain ⟨hT, hc⟩ := Prod.mk.inj (he.cast _ hv)
    exact ⟨hi.cast_mem hen hv, hT.le, fun _ => hc.symm⟩
  rw [after_nodes_of_ne _ _ _ _ _ hn]
  rcases (mem_after_votes ..).1 hv with hv | ⟨hq', -⟩
  · exact hi.vote _ _ _ hv
  · exact absurd hq' hn

theorem ElectionInv.unique_after (hok : s.ElectionOk a) {q c' : NodeID}
    (hv : (q, T, c) ∈ (s.after a.node a.event m sends).hist.votes)
    (hv' : (q, T, c') ∈ (s.after a.node a.event m sends).hist.votes) : c = c' := by
  have cast : ∀ {T c}, (T, c) ∈ (s.nodes a.node).votesCast a.event m sends → T = m.currentTerm ∧ c = m.votedFor :=
    fun hv => Prod.mk.inj (he.cast _ hv)
  rcases (mem_after_votes ..).1 hv with h1 | ⟨hq1, h1⟩ <;>
    rcases (mem_after_votes ..).1 hv' with h2 | ⟨hq2, h2⟩
  · exact hi.unique _ _ _ _ h1 h2
  · simp only at hq2 h2
    subst hq2
    rw [(cast h2).2]
    exact (hi.votedFor_kept hok he h1 (cast h2).1).symm
  · simp only at hq1 h1
    subst hq1
    rw [(cast h1).2]
    exact hi.votedFor_kept hok he h2 (cast h1).1
  rw [(cast h1).2, (cast h2).2]

theorem ElectionInv.voteReq_after (hen : enabled M s a = true) {i j : NodeID} {req : VoteRequest}
    (hms : (⟨i, j, .voteReq req⟩ : Envelope) ∈ (s.after a.node a.event m sends).net) :
    i ∈ M.ids ∧ i ≠ j ∧ req.candidateID = i := by
  rcases (mem_after_net ..).1 hms with hsn | ⟨hs, hsn⟩
  · exact hi.voteReq _ _ _ hsn
  simp only at hs hsn
  subst hs
  obtain ⟨hp, hid⟩ := he.voteReq _ _ hsn
  rw [hi.peers] at hp
  simp only [mem_filter, decide_eq_true_eq] at hp
  exact ⟨mem_ids_of_enabled hen, fun h => hp.2 h.symm, by rw [hid, hi.id]⟩

theorem ElectionInv.voteResp_after (hen : enabled M s a = true) {i j : NodeID} {resp : VoteResponse}
    (hms : (⟨i, j, .voteResp resp⟩ : Envelope) ∈ (s.after a.node a.event m sends).net) (hg : resp.voteGranted = true) :
    resp.sender = i ∧ i ∈ M.ids ∧ i ≠ j ∧ (i, resp.term, j) ∈ (s.after a.node a.event m sends).hist.votes := by
  rcases (mem_after_net ..).1 hms with hsn | ⟨hs, hsn⟩
  · obtain ⟨h1, h2, h3, h4⟩ := hi.voteResp _ _ _ hsn hg
    exact ⟨h1, h2, h3, votes_kept h4⟩
  simp only at hs hsn
  subst hs
  obtain ⟨hid, req, hev, hcs⟩ := he.voteResp _ _ hsn hg
  obtain ⟨-, hne, hcn⟩ := hi.voteReq _ _ _ (mem_net_of_enabled hen (by rw [hev]; rfl))
  rw [hcn] at hcs
  exact ⟨by rw [hid, hi.id], mem_ids_of_enabled hen, fun h => hne h.symm, vote_cast hcs⟩

theorem ElectionInv.voteRespCh_after (hen : enabled M s a = true) {i : NodeID} {resp : VoteResponse}
    (hr : resp ∈ ((s.after a.node a.event m sends).nodes i).voteRespCh) (hg : resp.voteGranted = true) :
    resp.sender ∈ M.ids ∧ resp.sender ≠ i ∧ (resp.sender, resp.term, i) ∈ (s.after a.node a.event m sends).hist.votes := by
  by_cases hn : i = a.node
  · subst hn
    rw [after_nodes_self] at hr
    rcases he.voteRespCh _ hr with hr | ⟨sender, hev⟩
    · obtain ⟨h1, h2, h3⟩ := hi.voteRespCh _ _ hr hg
      exact ⟨h1, h2, votes_kept h3⟩
    obtain ⟨h1, h2, h3, h4⟩ := hi.voteResp _ _ _ (mem_net_of_enabled hen (by rw [hev]; rfl)) hg
    rw [h1]
    exact ⟨h2, h3, votes_kept h4⟩
  rw [after_nodes_of_ne _ _ _ _ _ hn] at hr
  obtain ⟨h1, h2, h3⟩ := hi.voteRespCh _ _ hr hg
  exact ⟨h1, h2, votes_kept h3⟩

theorem ElectionInv.ballot_after (hok : s.ElectionOk a) (hen : enabled M s a = true) {i : NodeID} {vs : List NodeID}
    (hb : ((s.after a.node a.event m sends).nodes i).pc.ballot = some (T, vs)) :
    i ∈ M.ids ∧ vs.Nodup ∧ i ∉ vs ∧ (∀ v ∈ vs, v ∈ M.ids) ∧
      ∀ v ∈ i :: vs, (v, T, i) ∈ (s.after a.node a.event m sends).hist.votes := by
  have hold : ∀ {i vs}, (s.nodes i).pc.ballot = some (T, vs) → i ∈ M.ids ∧ vs.Nodup ∧ i ∉ vs ∧ (∀ v ∈ vs, v ∈ M.ids) ∧
      ∀ v ∈ i :: vs, (v, T, i) ∈ (s.after a.node a.event m sends).hist.votes := by
    intro i vs hb
    obtain ⟨h1, h2, h3, h4, h5⟩ := hi.ballot _ _ _ hb
    exact ⟨h1, h2, h3, h4, fun v hv => votes_kept (h5 v hv)⟩
  by_cases hn : i = a.node
  swap
  · rw [after_nodes_of_ne _ _ _ _ _ hn] at hb
    exact hold hb
  subst hn
  rw [after_nodes_self] at hb
  rcases he.ballot _ _ hb with hb | ⟨rfl, hcs⟩ | ⟨k, vs', r, rest, hev, hpc, hch, hle, hg, rfl⟩
  · exact hold hb
  · rw [hi.id] at hcs
    exact ⟨mem_ids_of_enabled hen, nodup_nil, by simp, by simp, by simpa using vote_cast hcs⟩
  -- the one place where a response is counted: it must answer this candidacy
  obtain ⟨h1, h2, h3, h4, h5⟩ := hi.ballot a.node T vs' (by rw [hpc]; rfl)
  obtain ⟨hs, hne, hv⟩ := hi.voteRespCh a.node r (by rw [hch]; exact mem_cons_self) hg
  simp only [ElectionOk, hev, Node.ballotOk, hpc, hch, decide_eq_true_eq] at hok
  obtain ⟨hT, hfr⟩ := hok hle hg
  rw [hT] at hv
  refine ⟨h1, nodup_cons.2 ⟨hfr, h2⟩, ?_, ?_, ?_⟩
  · simp only [mem_cons, not_or]
    exact ⟨fun h => hne h.symm, h3⟩
  · simp only [mem_cons]
    rintro v (rfl | hv)
    · exact hs
    · exact h4 v hv
  · simp only [mem_cons]
    rintro v (rfl | rfl | hv')
    · exact votes_kept (h5 _ mem_cons_self)
    · exact votes_kept hv
    · exact votes_kept (h5 v (mem_cons_of_mem _ hv'))

theorem ElectionInv.elected_after (hok : s.ElectionOk a) (hl : (c, T) ∈ (s.after a.node a.event m sends).hist.leaders) :
    ∃ Q, Majority M.ids.toFinset Q ∧ ∀ q ∈ Q, (q, T, c) ∈ (s.after a.node a.event m sends).hist.votes := by
  have hold : ∀ {c T}, (c, T) ∈ s.hist.leaders → ∃ Q, Majority M.ids.toFinset Q ∧
      ∀ q ∈ Q, (q, T, c) ∈ (s.after a.node a.event m sends).hist.votes := by
    intro c T hl
    obtain ⟨Q, hQ, hv⟩ := hi.elected _ _ hl
    exact ⟨Q, hQ, fun q hq => votes_kept (hv q hq)⟩
  rcases (mem_after_leaders ..).1 hl with hl | ⟨hld, heq⟩
  · exact hold hl
  cases heq
  obtain ⟨htr, hld | ⟨hev, T, vs, hpc⟩⟩ := he.leader hld
  · rw [htr]
    exact hold (hi.leader _ hld)
  -- the votes were collected for the term the node is still in
  simp only [ElectionOk, hev, Node.ballotOk, hpc, decide_eq_true_eq] at hok
  obtain ⟨Q, hQ, hv⟩ := hi.majority hpc
  rw [htr, hok]
  exact ⟨Q, hQ, fun q hq => votes_kept (hv q hq)⟩

end Fields

theorem electionInv_step {s' : Cluster D} (hi : ElectionInv M s) (hok : s.ElectionOk a)
    (h : step H M s a = some s') : ElectionInv M s' := by
  obtain ⟨hen, m, sends, hst, rfl⟩ := step_eq_some H M h
  have he := Node.step_effect hst
  have hq : m.quorumSize = (s.nodes a.node).quorumSize := by
    rw [Node.quorumSize, Node.quorumSize, he.peers]
  constructor
  case id => exact forall_after_nodes (P := fun i n => n.id = i) (he.id.trans (hi.id _)) hi.id
  case peers =>
    exact forall_after_nodes (P := fun i n => n.peers = M.ids.filter (· ≠ i)) (he.peers.trans (hi.peers _)) hi.peers
  case vote => exact fun q T c => hi.vote_after he hok hen
  case unique => exact fun q T c c' => hi.unique_after he hok
  case voteReq => exact fun i j req => hi.voteReq_after he hen
  case voteResp => exact fun i j resp => hi.voteResp_after he hen
  case voteRespCh => exact fun i resp => hi.voteRespCh_after he hen
  case ballot => exact fun i T vs => hi.ballot_after he hok hen
  case tally =>
    exact forall_after_nodes (P := fun _ n => n.pc.Tallied n.quorumSize) (hq ▸ he.tally (hi.tally _)) hi.tally
  case leader =>
    intro i hl
    by_cases hn : i = a.node
    · subst hn
      rw [after_nodes_self] at hl ⊢
      exact (mem_after_leaders ..).2 (.inr ⟨hl, rfl⟩)
    · rw [after_nodes_of_ne _ _ _ _ _ hn] at hl ⊢
      exact (mem_after_leaders ..).2 (.inl (hi.leader i hl))
  case elected => exact fun c T => hi.elected_after he hok

end step

theorem electionInv_run {disk : NodeID → D} {as : List Action} {s : Cluster D}
    (h : runs H M disk as = some s) (hok : Run.Meets (step H M) ElectionOk (init M disk) as) : ElectionInv M s :=
  Run.invariant (fun _ _ _ hi hok hs => electionInv_step hi hok hs) as h hok (electionInv_init disk)

theorem ElectionInv.leader_unique {s : Cluster D} (hi : ElectionInv M s) {j : NodeID}
    (h₁ : (i, T) ∈ s.hist.leaders) (h₂ : (j, T) ∈ s.hist.leaders) : j = i := by
  obtain ⟨Q, hQ, hv⟩ := hi.elected _ _ h₁
  obtain ⟨R, hR, hv'⟩ := hi.elected _ _ h₂
  obtain ⟨q, hq, hq'⟩ := hQ.exists_mem_both hR
  exact hi.unique q T j i (hv' q hq') (hv q hq)

/-- **Election safety.** If every step so far met `ElectionOk`, a node that leads term `T` is the
only one to lead it, then and at any later time. Host failures may happen anywhere. -/
theorem election_safety {disk : NodeID → D} {as₁ as₂ : List Action} {s₁ s₂ : Cluster D}
    (h₁ : runs H M disk as₁ = some s₁) (h₂ : Run.exec (step H M) s₁ as₂ = some s₂)
    (hok : Run.Meets (step H M) ElectionOk (init M disk) (as₁ ++ as₂)) {i : NodeID} {T : Nat}
    (hi : (s₁.nodes i).state = .leader ∧ (s₁.nodes i).currentTerm = T) :
    ∀ j, (s₂.nodes j).state = .leader → (s₂.nodes j).currentTerm = T → j = i := by
  intro j hj hT
  have ho1 := (hok.of_append h₁).1
  have hiv := electionInv_run (Run.exec_append h₁ h₂) hok
  have hl1 : (i, T) ∈ s₁.hist.leaders := hi.2 ▸ (electionInv_run h₁ ho1).leader i hi.1
  have hl2 : (i, T) ∈ s₂.hist.leaders :=
    Run.invariant (fun _ _ _ hl _ hs => leaders_mono H M hs hl) as₂ h₂ (hok.of_append h₁).2 hl1
  exact hiv.leader_unique hl2 (hT ▸ hiv.leader j hj)

/-! ## Two leaders of one term -/

def nodeA : NodeID := [97]
def nodeB : NodeID := [98]
def nodeC : NodeID := [99]

def threeNodes : Membership := ⟨[nodeA, nodeB, nodeC], by decide, by decide⟩

def acts (i : NodeID) (evs : List Event) : List Action := evs.map (⟨i, ·⟩)

def campaign : List Event := [.dispatch, .electionTimeout, .dispatch, .startCandidate]

/-- `B` votes for `A` in term 1, but the answer reaches `A` only in term 2, where `A` counts it and
leads; `C` then collects `B`'s vote of term 2 and leads the same term. -/
def staleGrantRun : List Action :=
  acts nodeA campaign ++
  acts nodeB [.voteRequest nodeA ⟨1, nodeA, 0, 0⟩] ++
  acts nodeA [.electionTimeout, .dispatch, .startCandidate, .voteResponse nodeB ⟨1, true, nodeB⟩,
    .collectVote, .becomeLeader] ++
  acts nodeC (campaign ++ [.electionTimeout, .dispatch, .startCandidate]) ++
  acts nodeB [.voteRequest nodeC ⟨2, nodeC, 0, 0⟩] ++
  acts nodeC [.voteResponse nodeB ⟨2, true, nodeB⟩, .collectVote, .becomeLeader]

theorem two_leaders_of_one_term : ∃ s, runs .inMemory threeNodes (fun _ => ()) staleGrantRun = some s ∧
      ((s.nodes nodeA).state = .leader ∧ (s.nodes nodeA).currentTerm = 2) ∧
      ((s.nodes nodeC).state = .leader ∧ (s.nodes nodeC).currentTerm = 2) ∧ nodeA ≠ nodeC :=
  Run.exists_of_any (by decide +kernel)

def electA : List Action :=
  acts nodeA campaign ++
  acts nodeB [.voteRequest nodeA ⟨1, nodeA, 0, 0⟩] ++
  acts nodeA [.voteResponse nodeB ⟨1, true, nodeB⟩, .collectVote, .becomeLeader]

theorem election_safety_electA :
    ∃ s, runs .inMemory threeNodes (fun _ => ()) electA = some s ∧ (s.nodes nodeA).state = .leader ∧
      ∀ j, (s.nodes j).state = .leader → (s.nodes j).currentTerm = 1 → j = nodeA := by
  obtain ⟨s, hs, hld⟩ := Run.exists_of_any (o := runs .inMemory threeNodes (fun _ => ()) electA)
    (P := fun s => (s.nodes nodeA).state = .leader ∧ (s.nodes nodeA).currentTerm = 1) (by decide +kernel)
  have hok : Run.Meets (step .inMemory threeNodes) ElectionOk (init threeNodes fun _ => ())
      (electA ++ []) := by
    decide +kernel
  exact ⟨s, hs, hld.1, election_safety hs rfl hok hld⟩

end Cluster
end NothingDNS.Raft
