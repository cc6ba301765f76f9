import NothingDNS.Raft.NodeSpec
/-!
# What a step does to the log and its store

Most events are calm: they leave the log, the snapshot boundary and the snapshot in hand as they are, and of the host
they use at most the hard state and the state machine.
-/

namespace NothingDNS.Raft

open Node List

/-- What of a node has a copy in the data directory, with its configuration. -/
structure Kept where
  id : NodeID
  peers : List NodeID
  log : List Entry
  lastSnapshot : Nat
  lastSnapshotTerm : Nat
  snapshotBytes : Payload
  snapshotTask : SnapshotTask

def Node.kept {D : Type} (n : Node D) : Kept :=
  ⟨n.id, n.peers, n.log, n.lastSnapshot, n.lastSnapshotTerm, n.snapshotBytes, n.snapshotTask⟩

/-- The host has only been asked to save hard states. -/
inductive Aside {D : Type} (H : Host D) (d : D) : D → Prop
  | refl : Aside H d d
  | saveHardState {d' : D} (hs : HardState) : Aside H d d' → Aside H d (H.saveHardState d' hs).1

namespace Node

variable {D : Type} {H : Host D} {n m n₁ : Node D}

theorem log_of_kept (h : m.kept = n.kept) : m.log = n.log := congrArg Kept.log h

theorem lastSnapshot_of_kept (h : m.kept = n.kept) : m.lastSnapshot = n.lastSnapshot := congrArg Kept.lastSnapshot h

/-- Log and snapshots stay, and the commit index moves forward within the log at most. -/
def Calm (H : Host D) (n m : Node D) : Prop :=
  m.kept = n.kept ∧ Aside H n.disk m.disk ∧ n.commitIndex ≤ m.commitIndex ∧
    m.commitIndex ≤ max n.commitIndex n.lastIndex

theorem Calm.refl : Calm H n n := ⟨rfl, .refl, le_rfl, le_max_left _ _⟩

theorem Calm.lastIndex_eq (h : Calm H n m) : m.lastIndex = n.lastIndex := by
  rw [lastIndex, lastIndex, log_of_kept h.1, lastSnapshot_of_kept h.1]

theorem Calm.commit (h : Calm H n m) {c : Nat} (hle : m.commitIndex ≤ c) (hc : c ≤ m.lastIndex) :
    Calm H n { m with commitIndex := c } :=
  ⟨h.1, h.2.1, h.2.2.1.trans hle, by
    rw [h.lastIndex_eq] at hc
    exact hc.trans (le_max_right _ _)⟩

/-! ## The calm handlers -/

theorem advanceTermLocked_calm (n : Node D) (t : Nat) : Calm H n (n.advanceTermLocked H t).1 := by
  unfold advanceTermLocked
  split
  · exact .refl
  have hd : Aside H n.disk (H.saveHardState n.disk ⟨t, []⟩).1 := .saveHardState _ .refl
  rcases hs : H.saveHardState n.disk ⟨t, []⟩ with ⟨d, ok⟩
  rw [hs] at hd
  cases ok <;> exact ⟨rfl, hd, le_rfl, le_max_left _ _⟩

theorem Calm.setVotedForLocked (h : Calm H n m) (v : NodeID) : Calm H n (m.setVotedForLocked H v).1 := by
  unfold Node.setVotedForLocked
  split
  · exact h
  have hd : Aside H n.disk (H.saveHardState m.disk ⟨m.currentTerm, v⟩).1 := .saveHardState _ h.2.1
  rcases hs : H.saveHardState m.disk ⟨m.currentTerm, v⟩ with ⟨d, ok⟩
  rw [hs] at hd
  cases ok <;> exact ⟨h.1, hd, h.2.2⟩

theorem handleVoteRequest_calm (n : Node D) (req : VoteRequest) : Calm H n (n.handleVoteRequest H req).1 := by
  unfold handleVoteRequest
  split
  · exact .refl
  have had := advanceTermLocked_calm (H := H) n req.term
  rcases ha : n.advanceTermLocked H req.term with ⟨n₁, ok⟩
  rw [ha] at had
  cases ok with
  | false => exact had
  | true =>
    simp only [if_not_true]
    split
    · have hst := had.setVotedForLocked req.candidateID
      rcases hs : n₁.setVotedForLocked H req.candidateID with ⟨n2, ok⟩
      rw [hs] at hst
      cases ok <;> exact hst
    · exact had

theorem startCandidate_calm (n : Node D) : Calm H n (n.startCandidate H).1 := by
  unfold startCandidate
  have hst := Calm.refl.setVotedForLocked (H := H) (n := n) n.id
  rcases hs : n.setVotedForLocked H n.id with ⟨m, ok⟩
  rw [hs] at hst
  cases ok <;> exact hst

theorem electionTimeout_calm (n : Node D) {failed : Node D → Node D}
    (hf : ∀ m : Node D, (failed m).kept = m.kept ∧ (failed m).disk = m.disk ∧ (failed m).commitIndex = m.commitIndex) :
    Calm H n (n.electionTimeout H failed) := by
  unfold electionTimeout
  have had := advanceTermLocked_calm (H := H) n (nextTerm n.currentTerm)
  rcases ha : n.advanceTermLocked H (nextTerm n.currentTerm) with ⟨m, ok⟩
  rw [ha] at had
  cases ok with
  | true => exact had
  | false =>
    obtain ⟨hkp, hd, hcm⟩ := hf m
    refine ⟨hkp.trans had.1, ?_⟩
    show Aside H n.disk (failed m).disk ∧ n.commitIndex ≤ (failed m).commitIndex ∧
      (failed m).commitIndex ≤ max n.commitIndex n.lastIndex
    rw [hd, hcm]
    exact had.2

theorem becomeFollower_calm (n : Node D) (t : Nat) : Calm H n (n.becomeFollower H t) := by
  unfold becomeFollower
  split
  · exact advanceTermLocked_calm n t
  · exact .refl

theorem collectVote_calm (n : Node D) (rest : List VoteResponse) (term k : Nat) (vs : List NodeID)
    (r : VoteResponse) : Calm H n (({ n with voteRespCh := rest } : Node D).collectVote term k vs r) := by
  unfold collectVote
  dsimp only
  split
  · exact .refl
  split
  · split <;> exact .refl
  · exact .refl

theorem le_lastIndex_of_entryTerm {i t : Nat} (hi : n.lastSnapshot < i) (h : n.entryTerm i = some t) :
    i ≤ n.lastIndex := by
  rw [entryTerm, if_neg (by omega), if_neg (by omega)] at h
  split at h
  · cases h
  · omega

theorem le_lastIndex_of_replicated {i : Nat} (h : n.replicated i = true) : i ≤ n.lastIndex := by
  simp only [replicated, decide_eq_true_eq] at h
  exact le_lastIndex_of_entryTerm h.1 h.2.1

theorem Calm.maybeAdvanceCommitIndex (h : Calm H n m) : Calm H n m.maybeAdvanceCommitIndex := by
  rcases maybeAdvanceCommitIndex_cases m with he | ⟨-, i, hlt, hrp, he⟩ <;> rw [he]
  · exact h
  · exact h.commit hlt.le (le_lastIndex_of_replicated hrp)

theorem handleAppendResponse_calm (n : Node D) (resp : AppendResponse) : Calm H n (n.handleAppendResponse H resp) := by
  unfold handleAppendResponse
  split
  · exact .refl
  split
  · have had := advanceTermLocked_calm (H := H) n resp.term
    rcases ha : n.advanceTermLocked H resp.term with ⟨n₁, ok⟩
    rw [ha] at had
    cases ok <;> exact had
  split
  · exact .refl
  split
  · exact Calm.maybeAdvanceCommitIndex (H := H) ⟨rfl, .refl, le_rfl, le_max_left _ _⟩
  dsimp only
  split
  · exact .refl
  · split <;> exact .refl

theorem handleSnapshotResponse_calm (n : Node D) (peer : NodeID) (req : SnapshotRequest)
    (resp : SnapshotResponse) : Calm H n (n.handleSnapshotResponse H peer req resp) := by
  unfold handleSnapshotResponse
  dsimp only
  split
  · exact advanceTermLocked_calm
      { n with snapshotInFlight := Function.update n.snapshotInFlight peer false } resp.term
  split
  · exact .refl
  split <;> exact .refl

theorem replicateTo_calm (n : Node D) (peer : NodeID) (term : Nat) : Calm H n (n.replicateTo peer term).1 := by
  obtain ⟨f, h, -⟩ := replicateTo_cases n peer term
  rw [h]
  exact .refl

theorem appendEntriesLocked_calm (n : Node D) (req : AppendRequest) :
    Calm H n (n.appendEntriesLocked H req).1 ∧ (n.appendEntriesLocked H req).2.success = false ∨
      ∃ n₁, Calm H n n₁ ∧ n.appendEntriesLocked H req = n₁.appendChecked H req := by
  unfold appendEntriesLocked
  split
  · exact .inl ⟨.refl, rfl⟩
  have had := advanceTermLocked_calm (H := H) n req.term
  rcases ha : n.advanceTermLocked H req.term with ⟨n₁, ok⟩
  rw [ha] at had
  cases ok with
  | false => exact .inl ⟨had, rfl⟩
  | true => exact .inr ⟨n₁.acceptLeader req.leaderID, had, rfl⟩

/-- Lines 306-311 of `handlers.go`: an empty payload is not restored. -/
def restoreData (H : Host D) (disk : D) (data : Payload) : D × Bool :=
  if data.bytes = [] then (disk, true) else H.restore disk data

theorem handleSnapshotRequest_calm (n : Node D) (req : SnapshotRequest) : Calm H n (n.handleSnapshotRequest H req).1 ∨
      n.currentTerm ≤ req.term ∧ n.lastSnapshot < req.lastIndex ∧ n.commitIndex < req.lastIndex ∧
        ∃ n₁, Calm H n n₁ ∧ n₁.commitIndex = n.commitIndex ∧ (n.handleSnapshotRequest H req).1 =
          if (restoreData H n₁.disk req.data).2 then
            ({ n₁ with disk := (restoreData H n₁.disk req.data).1 } : Node D).installSnapshot H req
          else { n₁ with disk := (restoreData H n₁.disk req.data).1 } := by
  unfold handleSnapshotRequest
  split
  · exact .inl .refl
  rename_i htr
  have had := advanceTermLocked_calm (H := H) n req.term
  have hcm : (n.advanceTermLocked H req.term).1.commitIndex = n.commitIndex := by
    rcases advanceTermLocked_cases H n req.term with ⟨m, h, hm⟩ | ⟨-, d, h⟩
    · rw [h]
      cases hm <;> rfl
    · rw [h]
  rcases ha : n.advanceTermLocked H req.term with ⟨n₁, ok⟩
  rw [ha] at had hcm
  have hsn := lastSnapshot_of_kept had.1
  simp only at hcm
  cases ok with
  | false => exact .inl had
  | true =>
    simp only [if_not_true]
    split
    · exact .inl had
    rename_i hold
    rw [not_or, not_le, not_le, hsn, hcm] at hold
    refine .inr ⟨not_lt.1 htr, hold.1, hold.2, n₁, had, hcm, ?_⟩
    unfold restoreData
    split
    · rfl
    rcases hs : H.restore n₁.disk req.data with ⟨d, ok⟩
    simp only [hs]
    cases ok <;> rfl

end Node

def Event.stores : Event → Bool
  | .appendRequest _ _ | .snapshotRequest _ _ | .propose _ _ | .proposeNoOp | .takeSnapshot _ _
  | .saveSnapshot | .installLeaderSnapshot => true
  | _ => false

theorem Node.step_calm {D : Type} {H : Host D} {n m : Node D} {ev : Event} {sends : List Send}
    (h : n.step H ev = some (m, sends)) (hev : ev.stores = false) : Node.Calm H n m := by
  cases ev with simp only [step] at h
  | appendRequest | snapshotRequest | propose | proposeNoOp | takeSnapshot | saveSnapshot
  | installLeaderSnapshot => exact absurd hev (by simp [Event.stores])
  | dispatch | heartbeat | becomeLeader =>
    split at h <;> cases h
    exact .refl
  | electionTimeout =>
    split at h <;> cases h
    all_goals exact electionTimeout_calm n fun _ => ⟨rfl, rfl, rfl⟩
  | electionReset =>
    split at h
    · split at h <;> cases h
      all_goals exact .refl
    · cases h
  | startCandidate =>
    split at h
    · obtain rfl : (n.startCandidate H).1 = m := congrArg Prod.fst (Option.some.inj h)
      exact startCandidate_calm n
    · cases h
  | collectVote =>
    split at h <;> cases h
    exact collectVote_calm n _ _ _ _ _
  | becomeFollower =>
    split at h <;> cases h
    exact becomeFollower_calm n _
  | collectAppend =>
    split at h <;> cases h
    exact handleAppendResponse_calm { n with appendRespCh := _ } _
  | voteRequest sender req =>
    cases h
    exact handleVoteRequest_calm n req
  | voteResponse | appendResponse | snapshotFailed =>
    cases h
    exact .refl
  | snapshotResponse peer req resp =>
    cases h
    exact handleSnapshotResponse_calm n peer req resp
  | replicateTo peer term =>
    split at h <;> cases h
    exact replicateTo_calm n peer term

/-! ## The reconciliation loop -/

namespace Node

variable {D : Type} {n : Node D}

/-- What `reconcile` decides: nothing is missing, or from some index `j` on the batch is appended,
either at the end of the log or after a cut at `j`. -/
inductive Reconciled (n : Node D) (idx : Nat) (es : List Entry) :
    Node D → List Entry → Option Nat → Prop
  | same (h : idx + es.length ≤ n.lastIndex + 1) : Reconciled n idx es n [] none
  | append {done todo : List Entry} (hes : es = done ++ todo) (hne : todo ≠ [])
      (hj : idx + done.length = n.lastIndex + 1) :
      Reconciled n idx es { n with log := n.log ++ todo } todo none
  | replace {done todo : List Entry} (hes : es = done ++ todo) (hne : todo ≠ [])
      (hsnap : n.lastSnapshot < idx + done.length) (hj : idx + done.length ≤ n.lastIndex)
      (hterm : ∀ e, todo.head? = some e → (n.entryTerm (idx + done.length)).getD 0 ≠ e.term) :
      Reconciled n idx es
        { n with log := n.log.take (idx + done.length - n.lastSnapshot - 1) ++ todo } todo
        (some (idx + done.length - 1))

theorem Reconciled.cons {idx : Nat} {e : Entry} {es : List Entry} {m : Node D} {todo : List Entry}
    {k : Option Nat} (h : Reconciled n (idx + 1) es m todo k) : Reconciled n idx (e :: es) m todo k := by
  have hlen : ∀ done : List Entry, idx + (e :: done).length = idx + 1 + done.length := by
    intro done
    rw [length_cons]
    omega
  cases h with
  | same h => exact .same (by rw [hlen]; exact h)
  | @append done _ hes hne hj =>
    have hes' : e :: es = (e :: done) ++ todo := by rw [hes, cons_append]
    exact .append hes' hne (by rw [hlen]; exact hj)
  | @replace done _ hes hne hsn hj htr =>
    have hes' : e :: es = (e :: done) ++ todo := by rw [hes, cons_append]
    have hrp : Reconciled n idx (e :: es) _ _ _ := .replace hes' hne (by rw [hlen]; exact hsn)
      (by rw [hlen]; exact hj) (by rw [hlen]; exact htr)
    rwa [hlen] at hrp

theorem reconcile_spec (n : Node D) : ∀ (es : List Entry) (idx : Nat), 1 ≤ idx → idx ≤ n.lastIndex + 1 →
    Reconciled n idx es (n.reconcile idx es).1 (n.reconcile idx es).2.1 (n.reconcile idx es).2.2
  | [], idx, _, hix => .same hix
  | e :: es, idx, h1, hix => by
    unfold reconcile
    have hls : n.lastSnapshot ≤ n.lastIndex := Nat.le_add_right _ _
    by_cases hs : idx ≤ n.lastSnapshot
    · rw [if_pos hs]
      exact (reconcile_spec n es (idx + 1) (by omega) (by omega)).cons
    rw [if_neg hs]
    by_cases hi : idx ≤ n.lastIndex
    · rw [if_pos hi]
      by_cases hne : (n.entryTerm idx).getD 0 = e.term
      · rw [if_neg (not_not_intro hne)]
        exact (reconcile_spec n es (idx + 1) (by omega) (by omega)).cons
      rw [if_pos hne]
      have hlg : (n.truncateFrom idx).log = n.log.take (idx - n.lastSnapshot - 1) := by
        unfold truncateFrom
        split
        · rw [show idx - n.lastSnapshot - 1 = 0 by omega, take_zero]
        · rfl
      rw [hlg]
      have hes : e :: es = [] ++ e :: es := rfl
      exact .replace hes (by simp) (not_le.1 hs) hi (fun x hx => by cases hx; exact hne)
    rw [if_neg hi]
    have hes : e :: es = [] ++ e :: es := rfl
    exact .append hes (by simp) (by simp; omega)

end Node

end NothingDNS.Raft
