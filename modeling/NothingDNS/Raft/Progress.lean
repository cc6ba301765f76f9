import NothingDNS.Raft.LogSafety
import NothingDNS.Raft.StoreEffect
/-!
# What a run does not take back

Terms, commit indices and snapshot boundaries only grow, whatever the hosts and the network do
(`never_goes_back`). In runs that meet `SafetyOk` a leader only appends (`leader_appends`), and what was
committed once stays on a majority of the members (`committed_on_majority`).
-/

namespace NothingDNS.Raft

open Consensus

variable {D : Type} {H : Host D} {M : Membership}

namespace Node

variable {n m n₁ : Node D}

/-- Neither the commit index nor the snapshot boundary is lower in `m`. -/
def Forward (n m : Node D) : Prop := n.commitIndex ≤ m.commitIndex ∧ n.lastSnapshot ≤ m.lastSnapshot

theorem Calm.forward (h : Calm H n m) : Forward n m := ⟨h.2.2.1, (lastSnapshot_of_kept h.1).ge⟩

theorem Advanced.forward {t : Nat} (h : Advanced n t n₁) (hm : Forward n₁ m) : Forward n m := by
  cases h <;> exact hm

theorem proposeEntry_forward (n : Node D) (command : Bytes) (type : EntryType) :
    Forward n (n.proposeEntry H command type).1 := by
  rcases proposeEntry_cases H n command type with ⟨d, h⟩ | ⟨-, d, h⟩
  · rw [h]
    exact ⟨le_rfl, le_rfl⟩
  rw [h]
  rcases maybeAdvanceCommitIndex_cases
    { n with disk := d, log := n.log ++ [n.proposed command type] } with h | ⟨-, i, hi, -, h⟩
  · rw [h]
    exact ⟨le_rfl, le_rfl⟩
  · rw [h]
    exact ⟨hi.le, le_rfl⟩

theorem appendEntriesLocked_forward (n : Node D) (req : AppendRequest) :
    Forward n (n.appendEntriesLocked H req).1 := by
  rcases appendEntriesLocked_cases H n req with ⟨d, h⟩ | ⟨-, n₁, hadv, happ⟩
  · rw [h]
    exact ⟨le_rfl, le_rfl⟩
  refine hadv.forward ?_
  generalize (n.appendEntriesLocked H req).1 = m, (n.appendEntriesLocked H req).2 = resp at happ
  cases happ with
  | accepted => exact ⟨le_max_left _ _, le_rfl⟩
  | _ => exact ⟨le_rfl, le_rfl⟩

theorem handleSnapshotRequest_forward (n : Node D) (req : SnapshotRequest) :
    Forward n (n.handleSnapshotRequest H req).1 := by
  rcases handleSnapshotRequest_cases H n req with ⟨d, h⟩ | ⟨-, n₁, hadv, ⟨-, h⟩ | ⟨hsn, hco, ⟨d, h⟩ | ⟨d, h⟩⟩⟩
  · rw [h]
    exact ⟨le_rfl, le_rfl⟩
  all_goals rw [h]; refine hadv.forward ?_
  · exact ⟨le_rfl, le_rfl⟩
  · exact ⟨le_rfl, le_rfl⟩
  · exact ⟨hco.le, hsn.le⟩

theorem step_forward {ev : Event} {sends : List Send} (h : n.step H ev = some (m, sends)) : Forward n m := by
  by_cases hev : ev.stores = false
  · exact (step_calm h hev).forward
  cases ev with simp only [step, Event.stores, not_true] at h hev
  | appendRequest sender req =>
    cases h
    exact appendEntriesLocked_forward n req
  | snapshotRequest sender req =>
    cases h
    exact handleSnapshotRequest_forward n req
  | propose command type =>
    cases h
    exact proposeEntry_forward n command type
  | proposeNoOp =>
    split at h <;> cases h
    exact proposeEntry_forward n [] entryNoOp
  | takeSnapshot | saveSnapshot =>
    split at h <;> cases h
    exact ⟨le_rfl, le_rfl⟩
  | installLeaderSnapshot =>
    split at h <;> cases h
    rename_i snap _
    rcases installLeaderSnapshot_cases H n snap with h | ⟨hlt, -, d, h⟩
    · rw [h]
      exact ⟨le_rfl, le_rfl⟩
    · rw [h]
      exact ⟨le_rfl, hlt.le⟩

end Node

namespace Cluster

/-- **Nothing goes back.** From any state of a cluster on, whatever messages arrive and whichever calls of the
hosts fail. -/
theorem never_goes_back {s t : Cluster D} {as : List Action} (h : Run.exec (step H M) s as = some t) (i : NodeID) :
    (s.nodes i).currentTerm ≤ (t.nodes i).currentTerm ∧ (s.nodes i).commitIndex ≤ (t.nodes i).commitIndex ∧
      (s.nodes i).lastSnapshot ≤ (t.nodes i).lastSnapshot := by
  refine @Run.invariant _ _ (step H M) (fun _ _ => True) (fun u => (s.nodes i).currentTerm ≤ (u.nodes i).currentTerm ∧
    Node.Forward (s.nodes i) (u.nodes i)) (fun u a u' hu _ hs => ?_) as s t h (.of_forall (fun _ _ => trivial) s as)
    ⟨le_rfl, le_rfl, le_rfl⟩
  obtain ⟨-, m, sends, hst, rfl⟩ := step_eq_some H M hs
  by_cases hi : i = a.node
  · obtain ⟨hf, hg⟩ := Node.step_forward hst
    rw [hi, after_nodes_self]
    rw [hi] at hu
    exact ⟨hu.1.trans (Node.step_effect hst).term_le, hu.2.1.trans hf, hu.2.2.trans hg⟩
  · rwa [after_nodes_of_ne _ _ _ _ _ hi]

section

variable {disk : NodeID → D} {as₁ as₂ : List Action} {s₁ s₂ : Cluster D} (h₁ : runs H M disk as₁ = some s₁)
  (h₂ : Run.exec (step H M) s₁ as₂ = some s₂) (hok : Run.Meets (step H M) SafetyOk (init M disk) (as₁ ++ as₂))
include h₁ h₂ hok

theorem exists_safetyInv : ∃ A B, A.Le B ∧ SafetyInv M s₁ A ∧ SafetyInv M s₂ B := by
  obtain ⟨ho1, ho2⟩ := hok.of_append h₁
  obtain ⟨A, -, hA⟩ := safetyInv_run h₁ ho1 (safetyInv_init disk)
  obtain ⟨B, hle, hB⟩ := safetyInv_run h₂ ho2 hA
  exact ⟨A, B, hle, hA, hB⟩

/-- **A leader only appends.** Leaders of one term at two moments are one node, which has kept its entries. -/
theorem leader_appends {l l' : NodeID} (hl : (s₁.nodes l).state = .leader) (hl' : (s₂.nodes l').state = .leader)
    (hT : (s₁.nodes l).currentTerm = (s₂.nodes l').currentTerm) : l = l' ∧ (s₁.nodes l).held <+: (s₂.nodes l').held := by
  obtain ⟨A, B, hle, hA, hB⟩ := exists_safetyInv h₁ h₂ hok
  have hld := (hA.refines.nodes l).leads hl
  have hld' := (hB.refines.nodes l').leads hl'
  refine ⟨hB.safe.inv.leader_unique (hle.led _ _ hld) (hT ▸ hld'), ?_⟩
  rw [(hA.refines.nodes l).leading hA.safe hl, (hB.refines.nodes l').leading hB.safe hl', ← hT]
  exact hle.leaderLog _ _ hld

/-- **Committed entries stay on a majority**, at every later moment of the run. -/
theorem committed_on_majority {p : NodeID} {k : Nat} (hk : 1 ≤ k) (hp : k ≤ (s₁.nodes p).commitIndex) :
    ∃ Q, Majority M.ids.toFinset Q ∧ ∀ q ∈ Q, ∃ e,
      (s₁.nodes p).entryAt k = some e ∧ (s₂.nodes q).entryAt k = some e := by
  obtain ⟨A, B, hle, hA, hB⟩ := exists_safetyInv h₁ h₂ hok
  have hlen := (hA.refines.nodes p).commit_le_length hA.safe
  rcases hA.commit hle p with h0 | ⟨T, i, -, hi, hc, hag⟩
  · omega
  obtain ⟨Q, hQ, hack⟩ := hc.2
  refine ⟨Q, hQ, fun q hq => ?_⟩
  -- a member that acknowledged the entry holds it, in the term of the acknowledgement and in later ones
  have hqi : Agree i (B.log q) (B.leaderLog T) := by
    have hle := (hB.safe.inv.ackedLed q T (by have := hack q hq; omega)).2.1
    rcases hle.lt_or_eq with hlt | rfl
    · exact hB.safe.inv.ackedPast q T i hlt (hack q hq) hc.1 hc.choosable
    · exact (hB.safe.inv.ackedNow q).mono (hack q hq)
  rw [(hB.refines.nodes q).log] at hqi
  exact entryAt_of_agree ((hag.mono hp).trans (hqi.mono (hp.trans hi)).symm) (hp.trans hlen) hk le_rfl

/-- **Snapshots are what was committed.** The snapshot of a node, and one on its way to a node, stand for the
entries of every node that has committed as far, then or later. -/
theorem snapshots_committed (q : NodeID) :
    (∀ p, (s₁.nodes p).lastSnapshot ≤ (s₂.nodes q).commitIndex →
      (s₁.nodes p).snapshotBytes.covers = (s₂.nodes q).held.take (s₁.nodes p).lastSnapshot) ∧
    ∀ e ∈ s₁.net, ∀ req, e.msg = .snapReq req → req.lastIndex ≤ (s₂.nodes q).commitIndex →
      req.data.covers = (s₂.nodes q).held.take req.lastIndex := by
  obtain ⟨A, B, hle, hA, hB⟩ := exists_safetyInv h₁ h₂ hok
  refine ⟨fun p hp => ?_, fun e he req hm hq => ?_⟩
  · have hb := (hA.refines.nodes p).bounded
    rw [hb.covers_eq]
    exact hA.commit_agree hle hB hb.le hp
  have hnet := hA.refines.net e he
  rw [hm] at hnet
  obtain ⟨hl, -, hlen, hcv, -, hc⟩ := hnet
  rw [hcv]
  refine (hle.agree hl hlen).trans ?_
  rcases hc with h0 | ⟨T, i, hT, hi, hc⟩
  · rw [h0]
    exact .zero _ _
  rcases hB.commit (.refl B) q with h0 | ⟨T', i', -, hi', hc', hag'⟩
  · rw [show req.lastIndex = 0 by omega]
    exact .zero _ _
  refine Agree.trans ?_ (hag'.mono hq).symm
  obtain ⟨⟨c', hl'⟩, -⟩ := hc'.1
  have hlB := hle.led _ _ hl
  rcases Nat.le_total T T' with h | h
  · have hcB := hle.committed hc
    exact ((hB.safe.inv.committed_agree hcB hlB hT).trans (hB.safe.inv.committed_agree hcB hl' h).symm).mono hi
  · exact (hB.safe.inv.committed_agree hc' hlB (h.trans hT)).mono (hq.trans hi')

end

theorem committedRun_ends : ∃ s, runs .inMemory threeNodes (fun _ => ()) committedRun = some s ∧
    (s.nodes nodeA).state = .leader ∧ 1 ≤ (s.nodes nodeA).commitIndex := Run.exists_of_any (by decide +kernel)

theorem never_goes_back_committedRun : ∃ s, runs .inMemory threeNodes (fun _ => ()) committedRun = some s ∧
    (init threeNodes (fun _ => ()) |>.nodes nodeA).commitIndex ≤ (s.nodes nodeA).commitIndex := by
  obtain ⟨s, hs, -⟩ := committedRun_ends
  exact ⟨s, hs, (never_goes_back hs nodeA).2.1⟩

theorem leader_appends_committedRun : ∃ s t, runs .inMemory threeNodes (fun _ => ()) electA = some s ∧
    Run.exec (step .inMemory threeNodes) s (committedRun.drop electA.length) = some t ∧
    (s.nodes nodeA).held <+: (t.nodes nodeA).held ∧ (s.nodes nodeA).log.length < (t.nodes nodeA).log.length := by
  have h : ∃ s, runs .inMemory threeNodes (fun _ => ()) electA = some s ∧ (s.nodes nodeA).state = .leader ∧
      (Run.exec (step .inMemory threeNodes) s (committedRun.drop electA.length)).any (fun t => decide
        ((t.nodes nodeA).state = .leader ∧ (s.nodes nodeA).currentTerm = (t.nodes nodeA).currentTerm ∧
          (s.nodes nodeA).log.length < (t.nodes nodeA).log.length)) = true := Run.exists_of_any (by decide +kernel)
  obtain ⟨s, hs, hl, hex⟩ := h
  obtain ⟨t, ht, hl', hT, hlt⟩ := Run.exists_of_any hex
  exact ⟨s, t, hs, ht, (leader_appends hs ht committedRun_safe hl hl' hT).2, hlt⟩

theorem committed_on_majority_committedRun : ∃ s, runs .inMemory threeNodes (fun _ => ()) committedRun = some s ∧
    ∃ Q, Majority threeNodes.ids.toFinset Q ∧ ∀ q ∈ Q, ∃ e,
      (s.nodes nodeA).entryAt 1 = some e ∧ (s.nodes q).entryAt 1 = some e := by
  obtain ⟨s, hs, -, hp⟩ := committedRun_ends
  have hok := (List.append_nil committedRun).symm ▸ committedRun_safe
  exact ⟨s, hs, committed_on_majority hs rfl hok le_rfl hp⟩

/-- `A` sends `C` the snapshot of what is committed. -/
def snapshotRun : List Action :=
  committedRun ++ acts nodeA [.takeSnapshot 1 [1], .saveSnapshot, .installLeaderSnapshot, .replicateTo nodeC 1]

theorem snapshots_committed_snapshotRun : ∃ s, runs .inMemory threeNodes (fun _ => ()) snapshotRun = some s ∧
    ⟨nodeA, nodeC, .snapReq ⟨1, nodeA, ⟨[1], [noOp]⟩, 1, 1⟩⟩ ∈ s.net ∧ [noOp] = (s.nodes nodeB).held.take 1 := by
  obtain ⟨s, hs, hB, hnet⟩ := Run.exists_of_any (o := runs .inMemory threeNodes (fun _ => ()) snapshotRun)
    (P := fun s => 1 ≤ (s.nodes nodeB).commitIndex ∧
      ⟨nodeA, nodeC, .snapReq ⟨1, nodeA, ⟨[1], [noOp]⟩, 1, 1⟩⟩ ∈ s.net) (by decide +kernel)
  have hok : Run.Meets (step .inMemory threeNodes) SafetyOk (init threeNodes fun _ => ()) (snapshotRun ++ []) := by
    decide +kernel
  exact ⟨s, hs, hnet, (snapshots_committed hs rfl hok nodeB).2 _ hnet _ rfl hB⟩

end Cluster

end NothingDNS.Raft
