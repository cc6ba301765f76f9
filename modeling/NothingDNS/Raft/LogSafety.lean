import NothingDNS.Raft.Simulation
/-!
# State machine safety, sound `matchIndex`, log matching

Read off the abstract invariant, for every run whose steps meet `SafetyOk`. The
runs at the end of each section break that condition and the property with it,
with at most one leader in every term: a snapshot installed over a longer log
drops entries the follower has acknowledged, and a leader elected with a vote of
an older term need not hold what is committed.
-/

namespace NothingDNS.Raft

open Consensus

variable {D : Type} {H : Host D} {M : Membership}

theorem Node.Bounded.logAt_eq {n : Node D} (h : n.Bounded) {k : Nat} (hk : n.lastSnapshot < k) :
    n.logAt k = n.entryAt k := by
  rw [logAt, if_neg (not_le.2 hk), entryAt, if_neg (by omega), h.held_getElem? (by omega)]
  congr 1
  omega

theorem entryAt_of_agree {n m : Node D} {k i : Nat} (h : Agree k n.held m.held) (hk : k ≤ n.held.length)
    (h0 : 1 ≤ i) (hi : i ≤ k) : ∃ e, n.entryAt i = some e ∧ m.entryAt i = some e := by
  have hlt : i - 1 < n.held.length := by omega
  refine ⟨n.held[i - 1], ?_, ?_⟩
  · rw [Node.entryAt, if_neg (by omega), List.getElem?_eq_getElem hlt]
  · rw [Node.entryAt, if_neg (by omega), ← h.getElem? (by omega), List.getElem?_eq_getElem hlt]

namespace Cluster

/-- A cluster whose every conforming step so far was abstract steps. -/
structure SafetyInv (M : Membership) (s : Cluster D) (A : Consensus.State NodeID Entry) : Prop where
  election : ElectionInv M s
  safe : Safe M A
  refines : Refines M A s

theorem safetyInv_init (disk : NodeID → D) : SafetyInv M (init M disk) (State.init NodeID Entry) := by
  refine ⟨electionInv_init disk, ⟨Inv.init, fun _ _ hl => hl.elim⟩, ?_⟩
  refine ⟨fun i => ?_, ?_, ?_, ?_, fun _ _ hl => hl.elim⟩
  · refine ⟨rfl, rfl, rfl, ⟨rfl, rfl, le_rfl⟩, ?_, ?_, ?_, ?_, ?_⟩ <;>
      simp [init, newNode, Indexed, Node.held, SnapshotTask.pending]
  all_goals simp [init, State.init]

/-- **Run lemma.** The abstract state of a run only grows in the order `Le`. -/
theorem safetyInv_run {s t : Cluster D} {A : Consensus.State NodeID Entry} {as : List Action}
    (h : Run.exec (step H M) s as = some t) (hok : Run.Meets (step H M) SafetyOk s as)
    (hi : SafetyInv M s A) : ∃ B, A.Le B ∧ SafetyInv M t B := by
  have hsp : ∀ u a u', (∃ B, A.Le B ∧ SafetyInv M u B) → u.SafetyOk a → step H M u a = some u' →
      ∃ B, A.Le B ∧ SafetyInv M u' B := by
    rintro u a u' ⟨B, hle, hB⟩ hok hs
    obtain ⟨C, hst, hC⟩ := refines_step hB.refines hB.safe hB.election hok hs
    have hiv := electionInv_step hB.election hok.1 hs
    exact ⟨C, hle.trans (hst.le hB.safe.inv), hiv, ⟨hst.inv hB.safe.inv, hC.indexed⟩, hC⟩
  exact Run.invariant hsp as h hok ⟨A, .refl A, hi⟩

/-! ## State machine safety -/

section committed

variable {s₁ s₂ : Cluster D} {A B : Consensus.State NodeID Entry} (hle : A.Le B)
  (hA : SafetyInv M s₁ A) (hB : SafetyInv M s₂ B)
include hle hA hB

omit hB in
theorem SafetyInv.commit (p : NodeID) : (s₁.nodes p).commitIndex = 0 ∨ ∃ T k,
    T ≤ (s₁.nodes p).currentTerm ∧ (s₁.nodes p).commitIndex ≤ k ∧ B.Committed M.ids.toFinset Entry.term T k ∧
      Agree (s₁.nodes p).commitIndex (s₁.nodes p).held (B.leaderLog T) := by
  have ht := hA.refines.nodes p
  have hc := hA.safe.inv.commit p
  rw [ht.commit, ht.term, ht.log] at hc
  rcases hc with h0 | ⟨T, k, hT, hk, hc, hag⟩
  · exact .inl h0
  · obtain ⟨⟨c, hl⟩, -⟩ := hc.1
    exact .inr ⟨T, k, hT, hk, hle.committed hc, hag.trans (hle.agree hl (hk.trans hc.1.le_length))⟩

theorem SafetyInv.commit_agree {p q : NodeID} {k : Nat} (hp : k ≤ (s₁.nodes p).commitIndex)
    (hq : k ≤ (s₂.nodes q).commitIndex) : Agree k (s₁.nodes p).held (s₂.nodes q).held := by
  rcases hA.commit hle p with h0 | ⟨T, i, -, hi, hc, hag⟩
  · obtain rfl : k = 0 := by omega
    exact .zero _ _
  rcases hB.commit (.refl B) q with h0 | ⟨T', i', -, hi', hc', hag'⟩
  · obtain rfl : k = 0 := by omega
    exact .zero _ _
  have hlg : Agree k (B.leaderLog T) (B.leaderLog T') := by
    obtain ⟨⟨c, hl⟩, -⟩ := hc.1
    obtain ⟨⟨c', hl'⟩, -⟩ := hc'.1
    rcases Nat.le_total T T' with h | h
    · exact ((hB.safe.inv.committed_agree hc hl' h).mono (by omega)).symm
    · exact (hB.safe.inv.committed_agree hc' hl h).mono (by omega)
  exact (hag.mono hp).trans (hlg.trans (hag'.mono hq).symm)

theorem SafetyInv.leader_agree {p l : NodeID} (hl : (s₂.nodes l).state = .leader)
    (hT : (s₁.nodes p).currentTerm ≤ (s₂.nodes l).currentTerm) :
    Agree (s₁.nodes p).commitIndex (s₁.nodes p).held (s₂.nodes l).held := by
  have ht := hB.refines.nodes l
  rw [ht.leading hB.safe hl]
  rcases hA.commit hle p with h0 | ⟨T, i, hTp, hi, hc, hag⟩
  · rw [h0]
    exact .zero _ _
  · exact hag.trans ((hB.safe.inv.committed_agree hc (ht.leads hl) (hTp.trans hT)).mono hi).symm

end committed

/-- **State machine safety.** Two nodes that have committed an index, at whatever two moments of the
run, hold the same entry there, and every leader of a later term holds it too. -/
theorem state_machine_safety {disk : NodeID → D} {as₁ as₂ : List Action} {s₁ s₂ : Cluster D}
    (h₁ : runs H M disk as₁ = some s₁) (h₂ : Run.exec (step H M) s₁ as₂ = some s₂)
    (hok : Run.Meets (step H M) SafetyOk (init M disk) (as₁ ++ as₂)) {p : NodeID} {k : Nat} (hk : 1 ≤ k)
    (hp : k ≤ (s₁.nodes p).commitIndex) : (∀ q, k ≤ (s₂.nodes q).commitIndex →
      ∃ e, (s₁.nodes p).entryAt k = some e ∧ (s₂.nodes q).entryAt k = some e) ∧
    ∀ l, (s₂.nodes l).state = .leader → (s₁.nodes p).currentTerm ≤ (s₂.nodes l).currentTerm →
      ∃ e, (s₁.nodes p).entryAt k = some e ∧ (s₂.nodes l).entryAt k = some e := by
  obtain ⟨ho1, ho2⟩ := hok.of_append h₁
  obtain ⟨A, -, hA⟩ := safetyInv_run h₁ ho1 (safetyInv_init disk)
  obtain ⟨B, hle, hB⟩ := safetyInv_run h₂ ho2 hA
  have hlen := (hA.refines.nodes p).commit_le_length hA.safe
  exact ⟨fun q hq => entryAt_of_agree (hA.commit_agree hle hB hp hq) (hp.trans hlen) hk le_rfl,
    fun l hl hT => entryAt_of_agree (hA.leader_agree hle hB hl hT) hlen hk hp⟩

/-- `A` leads term 1 and commits its no-op with `B`, which learns of it. -/
def committedRun : List Action :=
  electA ++
  acts nodeA [.proposeNoOp, .dispatch, .replicateTo nodeB 1] ++
  acts nodeB [.appendRequest nodeA ⟨1, nodeA, 0, 0, [⟨1, 1, [], entryNoOp, 0⟩], 0⟩] ++
  acts nodeA [.appendResponse nodeB ⟨1, true, nodeB, 1, 0⟩, .collectAppend, .replicateTo nodeB 1] ++
  acts nodeB [.appendRequest nodeA ⟨1, nodeA, 1, 1, [], 1⟩]

theorem committedRun_safe : Run.Meets (step .inMemory threeNodes) SafetyOk (init threeNodes fun _ => ()) committedRun := by
  decide +kernel

theorem state_machine_safety_committedRun : ∃ s, runs .inMemory threeNodes (fun _ => ()) committedRun = some s ∧
      (1 ≤ (s.nodes nodeA).commitIndex ∧ 1 ≤ (s.nodes nodeB).commitIndex) ∧
      ∃ e, (s.nodes nodeA).entryAt 1 = some e ∧ (s.nodes nodeB).entryAt 1 = some e := by
  obtain ⟨s, hs, hA, hB⟩ := Run.exists_of_any (o := runs .inMemory threeNodes (fun _ => ()) committedRun)
    (P := fun s => 1 ≤ (s.nodes nodeA).commitIndex ∧ 1 ≤ (s.nodes nodeB).commitIndex) (by decide +kernel)
  have hok := (List.append_nil committedRun).symm ▸ committedRun_safe
  exact ⟨s, hs, ⟨hA, hB⟩, (state_machine_safety hs rfl hok le_rfl hA).1 nodeB hB⟩

def OneLeaderPerTerm (s : Cluster D) : Prop :=
  ∀ l ∈ s.hist.leaders, ∀ l' ∈ s.hist.leaders, l.2 = l'.2 → l = l'

instance (s : Cluster D) : Decidable s.OneLeaderPerTerm :=
  inferInstanceAs (Decidable (∀ l ∈ s.hist.leaders, ∀ l' ∈ s.hist.leaders, l.2 = l'.2 → l = l'))

def noOp : Entry := ⟨1, 1, [], entryNoOp, 0⟩
def command : Entry := ⟨2, 1, [7], entryNormal, 0⟩

/-- `A` leads term 1. Its no-op is committed with `C` and snapshotted; `B` is sent the no-op and a
command, and then the snapshot. `B` acknowledges both entries, which commits the command, and then
installs the snapshot over them. -/
def wipedRun : List Action :=
  electA ++
  acts nodeA [.proposeNoOp, .dispatch, .replicateTo nodeC 1, .propose [7] entryNormal, .replicateTo nodeB 1] ++
  acts nodeC [.appendRequest nodeA ⟨1, nodeA, 0, 0, [noOp], 0⟩] ++
  acts nodeA [.appendResponse nodeC ⟨1, true, nodeC, 1, 0⟩, .collectAppend,
    .takeSnapshot 1 [1], .saveSnapshot, .installLeaderSnapshot, .replicateTo nodeB 1] ++
  acts nodeB [.appendRequest nodeA ⟨1, nodeA, 0, 0, [noOp, command], 0⟩] ++
  acts nodeA [.appendResponse nodeB ⟨1, true, nodeB, 2, 0⟩, .collectAppend] ++
  acts nodeB [.snapshotRequest nodeA ⟨1, nodeA, ⟨[1], [noOp]⟩, 1, 1⟩]

/-- `B` and `C` then elect `C`, which has never seen the command and commits its own no-op at the
same index. -/
def overwrittenRun : List Action :=
  wipedRun ++ acts nodeC campaign ++
  acts nodeB [.voteRequest nodeC ⟨2, nodeC, 1, 1⟩] ++
  acts nodeC [.voteResponse nodeB ⟨2, true, nodeB⟩, .collectVote, .becomeLeader, .proposeNoOp,
    .dispatch, .replicateTo nodeB 2] ++
  acts nodeB [.appendRequest nodeC ⟨2, nodeC, 1, 1, [⟨2, 2, [], entryNoOp, 0⟩], 0⟩] ++
  acts nodeC [.appendResponse nodeB ⟨2, true, nodeB, 2, 0⟩, .collectAppend]

theorem committed_entry_overwritten :
    ∃ s, runs .inMemory threeNodes (fun _ => ()) overwrittenRun = some s ∧ s.OneLeaderPerTerm ∧
      (s.nodes nodeA).commitIndex = 2 ∧ (s.nodes nodeA).entryAt 2 = some command ∧
      (s.nodes nodeC).state = .leader ∧ (s.nodes nodeC).commitIndex = 2 ∧
      (s.nodes nodeC).entryAt 2 = some ⟨2, 2, [], entryNoOp, 0⟩ :=
  Run.exists_of_any (by decide +kernel)

/-- **`matchIndex` is sound.** A peer still in the leader's term holds the leader's entries up to the
leader's `matchIndex` for it. -/
theorem matchIndex_sound {disk : NodeID → D} {as : List Action} {s : Cluster D}
    (h : runs H M disk as = some s) (hok : Run.Meets (step H M) SafetyOk (init M disk) as)
    {l p : NodeID} (hl : (s.nodes l).state = .leader) (hp : p ∈ (s.nodes l).peers)
    (hT : (s.nodes p).currentTerm = (s.nodes l).currentTerm) : ∀ k, 1 ≤ k → k ≤ (s.nodes l).matchIndex p →
      ∃ e, (s.nodes p).entryAt k = some e ∧ (s.nodes l).entryAt k = some e := by
  obtain ⟨A, -, hA⟩ := safetyInv_run h hok (safetyInv_init disk)
  have htl := hA.refines.nodes l
  have htp := hA.refines.nodes p
  have hmt := htl.matched hl p hp
  have hag := hA.safe.inv.ackedNow p
  rw [htp.term, htp.log, hT, ← htl.leading hA.safe hl] at hag
  intro k hk hle
  have hpos : 0 < A.acked p (s.nodes l).currentTerm := by omega
  have hlen := (hA.safe.inv.ackedLed p _ hpos).2.2
  rw [← htl.leading hA.safe hl] at hlen
  exact entryAt_of_agree hag (hag.le_length hlen) hk (hle.trans hmt)

theorem matchIndex_sound_committedRun : ∃ s, runs .inMemory threeNodes (fun _ => ()) committedRun = some s ∧
      ((s.nodes nodeA).state = .leader ∧ nodeB ∈ (s.nodes nodeA).peers ∧
        (s.nodes nodeB).currentTerm = (s.nodes nodeA).currentTerm ∧ 1 ≤ (s.nodes nodeA).matchIndex nodeB) ∧
      ∃ e, (s.nodes nodeB).entryAt 1 = some e ∧ (s.nodes nodeA).entryAt 1 = some e := by
  obtain ⟨s, hs, hl, hp, hT, hm⟩ := Run.exists_of_any
    (o := runs .inMemory threeNodes (fun _ => ()) committedRun)
    (P := fun s => (s.nodes nodeA).state = .leader ∧ nodeB ∈ (s.nodes nodeA).peers ∧ (s.nodes nodeB).currentTerm =
      (s.nodes nodeA).currentTerm ∧ 1 ≤ (s.nodes nodeA).matchIndex nodeB) (by decide +kernel)
  exact ⟨s, hs, ⟨hl, hp, hT, hm⟩, matchIndex_sound hs committedRun_safe hl hp hT 1 le_rfl hm⟩

theorem matchIndex_past_the_log : ∃ s, runs .inMemory threeNodes (fun _ => ()) wipedRun = some s ∧ s.OneLeaderPerTerm ∧
      (s.nodes nodeA).state = .leader ∧ (s.nodes nodeB).currentTerm = (s.nodes nodeA).currentTerm ∧
      (s.nodes nodeA).matchIndex nodeB = 2 ∧ (s.nodes nodeA).entryAt 2 = some command ∧
      (s.nodes nodeB).entryAt 2 = none :=
  Run.exists_of_any (by decide +kernel)

/-- **Log matching.** Every log is index-coherent with terms in order, and two logs with entries of
one term at an index above both boundaries agree from the larger boundary up to it. -/
theorem log_matching {disk : NodeID → D} {as : List Action} {s : Cluster D}
    (h : runs H M disk as = some s) (hok : Run.Meets (step H M) SafetyOk (init M disk) as) :
    (∀ i k e, (s.nodes i).log[k]? = some e → e.index = (s.nodes i).lastSnapshot + k + 1) ∧
    (∀ i (k k' : Nat) (e e' : Entry), k ≤ k' → (s.nodes i).log[k]? = some e → (s.nodes i).log[k']? = some e' →
      e.term ≤ e'.term) ∧
    ∀ i j k e e', (s.nodes i).logAt k = some e → (s.nodes j).logAt k = some e' → e.term = e'.term →
      ∀ k', max (s.nodes i).lastSnapshot (s.nodes j).lastSnapshot < k' → k' ≤ k →
        ∃ x, (s.nodes i).logAt k' = some x ∧ (s.nodes j).logAt k' = some x := by
  obtain ⟨A, -, hA⟩ := safetyInv_run h hok (safetyInv_init disk)
  have hn := hA.refines.nodes
  have hg : ∀ i k, (s.nodes i).held[(s.nodes i).lastSnapshot + k]? = (s.nodes i).log[k]? := by
    intro i k
    rw [(hn i).bounded.held_getElem? (Nat.le_add_right _ _), Nat.add_sub_cancel_left]
  have hch : ∀ i, A.Chained Entry.term (s.nodes i).held := fun i => (hn i).log ▸ hA.safe.inv.chainedLog i
  refine ⟨fun i k e he => ?_, fun i k k' e e' hk he he' => ?_, fun i j k e e' he he' ht k' hk' hle => ?_⟩
  · exact (hn i).indexed _ e (by rw [hg, he])
  · exact hA.safe.inv.terms_le (hch i) (Nat.add_le_add_left hk _) (by rw [hg, he]) (by rw [hg, he'])
  · have hi : (s.nodes i).lastSnapshot < k' := (le_max_left _ _).trans_lt hk'
    have hj : (s.nodes j).lastSnapshot < k' := (le_max_right _ _).trans_lt hk'
    rw [(hn i).bounded.logAt_eq (by omega), Node.entryAt, if_neg (by omega)] at he
    rw [(hn j).bounded.logAt_eq (by omega), Node.entryAt, if_neg (by omega)] at he'
    have hag := (hch i).matching (hch j) he he' ht
    rw [(hn i).bounded.logAt_eq hi, (hn j).bounded.logAt_eq hj]
    have hlt := (List.getElem?_eq_some_iff.1 he).1
    exact entryAt_of_agree hag (by omega) (by omega) (by omega)

theorem log_matching_committedRun : ∃ s, runs .inMemory threeNodes (fun _ => ()) committedRun = some s ∧
      ((s.nodes nodeA).logAt 1 = some noOp ∧ (s.nodes nodeB).logAt 1 = some noOp) ∧
      ∃ x, (s.nodes nodeA).logAt 1 = some x ∧ (s.nodes nodeB).logAt 1 = some x := by
  obtain ⟨s, hs, hA, hB, h0⟩ := Run.exists_of_any (o := runs .inMemory threeNodes (fun _ => ()) committedRun)
    (P := fun s => (s.nodes nodeA).logAt 1 = some noOp ∧ (s.nodes nodeB).logAt 1 = some noOp ∧
      max (s.nodes nodeA).lastSnapshot (s.nodes nodeB).lastSnapshot < 1) (by decide +kernel)
  exact ⟨s, hs, ⟨hA, hB⟩, (log_matching hs committedRun_safe).2.2 nodeA nodeB 1 _ _ hA hB rfl 1 h0 le_rfl⟩

def retry : List Event := [.electionTimeout, .dispatch, .startCandidate]

/-- `B`'s vote for `C` in term 1 is delayed. `A` leads term 2, commits and snapshots a no-op with `B`.
`C` counts the old vote in term 3 and leads with an empty log; `A` takes `C`'s entries after its own
snapshot, where the term at `PrevLogIndex` is not compared, and hands them to `B` in term 4. -/
def crossedRun : List Action :=
  acts nodeC campaign ++
  acts nodeB [.voteRequest nodeC ⟨1, nodeC, 0, 0⟩] ++
  acts nodeA (campaign ++ retry) ++
  acts nodeB [.voteRequest nodeA ⟨2, nodeA, 0, 0⟩] ++
  acts nodeA [.voteResponse nodeB ⟨2, true, nodeB⟩, .collectVote, .becomeLeader, .proposeNoOp, .dispatch,
    .replicateTo nodeB 2] ++
  acts nodeB [.appendRequest nodeA ⟨2, nodeA, 0, 0, [⟨1, 2, [], entryNoOp, 0⟩], 0⟩] ++
  acts nodeA [.appendResponse nodeB ⟨2, true, nodeB, 1, 0⟩, .collectAppend, .takeSnapshot 1 [1],
    .saveSnapshot, .installLeaderSnapshot] ++
  acts nodeC (retry ++ retry ++ [.voteResponse nodeB ⟨1, true, nodeB⟩, .collectVote, .becomeLeader,
    .proposeNoOp, .dispatch, .replicateTo nodeA 3]) ++
  acts nodeA [.appendRequest nodeC ⟨3, nodeC, 0, 0, [⟨1, 3, [], entryNoOp, 0⟩], 0⟩] ++
  acts nodeC [.appendResponse nodeA ⟨3, true, nodeA, 1, 0⟩, .collectAppend, .propose [7] entryNormal,
    .replicateTo nodeA 3] ++
  acts nodeA ([.appendRequest nodeC ⟨3, nodeC, 1, 3, [⟨2, 3, [7], entryNormal, 0⟩], 1⟩, .heartbeat,
    .dispatch] ++ retry) ++
  acts nodeB [.voteRequest nodeA ⟨4, nodeA, 2, 3⟩] ++
  acts nodeA [.voteResponse nodeB ⟨4, true, nodeB⟩, .collectVote, .becomeLeader, .proposeNoOp, .dispatch,
    .replicateTo nodeB 4] ++
  acts nodeB [.appendRequest nodeA ⟨4, nodeA, 2, 3, [⟨3, 4, [], entryNoOp, 0⟩], 1⟩] ++
  acts nodeA [.appendResponse nodeB ⟨4, false, nodeB, 1, 0⟩, .collectAppend, .replicateTo nodeB 4] ++
  acts nodeB [.appendRequest nodeA ⟨4, nodeA, 1, 2, [⟨2, 3, [7], entryNormal, 0⟩, ⟨3, 4, [], entryNoOp, 0⟩], 1⟩]

theorem logs_cross : ∃ s, runs .inMemory threeNodes (fun _ => ()) crossedRun = some s ∧ s.OneLeaderPerTerm ∧
      (s.nodes nodeB).lastSnapshot = 0 ∧ (s.nodes nodeC).lastSnapshot = 0 ∧
      (s.nodes nodeB).logAt 2 = some ⟨2, 3, [7], entryNormal, 0⟩ ∧
      (s.nodes nodeC).logAt 2 = some ⟨2, 3, [7], entryNormal, 0⟩ ∧
      (s.nodes nodeB).logAt 1 = some ⟨1, 2, [], entryNoOp, 0⟩ ∧
      (s.nodes nodeC).logAt 1 = some ⟨1, 3, [], entryNoOp, 0⟩ :=
  Run.exists_of_any (by decide +kernel)

end Cluster

end NothingDNS.Raft
