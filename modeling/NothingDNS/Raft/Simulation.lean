import NothingDNS.Raft.Refinement
/-!
# Each critical section is a sequence of abstract steps

One lemma for each handler: from a tracked node to a tracked node, by abstract steps of that node (`Moves`).
-/

namespace NothingDNS.Raft

open List Consensus Node State Entry Option

variable {D : Type} {H : Host D} {M : Membership} {A B C : Consensus.State NodeID Entry} {i : NodeID}
  {n m n₁ : Node D}

structure Moves (M : Membership) (i : NodeID) (A B : Consensus.State NodeID Entry) : Prop where
  steps : Steps M.ids.toFinset Entry.term i A B
  voted : B.voted = A.voted
  led : B.led = A.led
  indexed : LeadersIndexed A → LeadersIndexed B

namespace Moves

theorem refl : Moves M i A A := ⟨.refl A, rfl, rfl, fun h => h⟩

theorem trans (h₁ : Moves M i A B) (h₂ : Moves M i B C) : Moves M i A C :=
  ⟨h₁.steps.trans h₂.steps, h₂.voted.trans h₁.voted, h₂.led.trans h₁.led, fun h => h₂.indexed (h₁.indexed h)⟩

end Moves

/-- The invariant of the abstract state, with the index each leader gives its entries. -/
structure Safe (M : Membership) (A : Consensus.State NodeID Entry) : Prop where
  inv : Inv M.ids.toFinset Entry.term A
  indexed : LeadersIndexed A

theorem Moves.safe (h : Moves M i A B) (hs : Safe M A) : Safe M B := ⟨h.steps.inv hs.inv, h.indexed hs.indexed⟩

theorem Moves.le (h : Moves M i A B) (hs : Safe M A) : A.Le B := h.steps.le hs.inv

/-! ## One abstract operation at a time -/

theorem Tracks.advanced {t : Nat} (ht : Tracks A i n) (h : Node.Advanced n t n₁) :
    ∃ B, Moves M i A B ∧ Tracks B i n₁ := by
  cases h with
  | same => exact ⟨A, .refl, ht⟩
  | up hlt d =>
    refine ⟨A.advance i t, ⟨.tail (.refl A) (.advance (by rwa [ht.term])), rfl, rfl, fun h => h⟩, ?_⟩
    exact { ht with
      term := advance_term_self, bounded := { ht.bounded with }
      leads := nofun, matched := nofun }

theorem Tracks.acks (hs : Safe M A) (ht : Tracks A i n) {c : NodeID} {k : Nat}
    (hl : A.led c n.currentTerm) (hk : k ≤ (A.leaderLog n.currentTerm).length)
    (hag : Agree k n.held (A.leaderLog n.currentTerm)) :
    ∃ B, Moves M i A B ∧ Tracks B i n ∧ k ≤ B.acked i n.currentTerm ∧ B.leaderLog = A.leaderLog := by
  have hst : Step M.ids.toFinset Entry.term i A (A.ack i k) :=
    .ack (by rwa [ht.term]) (by rwa [ht.term]) (by rwa [ht.term, ht.log])
  refine ⟨A.ack i k, ⟨.tail (.refl A) hst, rfl, rfl, fun h => h⟩, ht.of_le (hst.le hs.inv) ⟨rfl, rfl, rfl⟩, ?_, rfl⟩
  rw [← ht.term, ack_acked_self]
  exact le_max_right _ _

theorem Tracks.commits (ht : Tracks A i n) {k T j : Nat} (hT : T ≤ n.currentTerm) (hk : k ≤ j)
    (hc : A.Committed M.ids.toFinset Entry.term T j) (hag : Agree k n.held (A.leaderLog T)) (hle : n.commitIndex ≤ k) :
    Moves M i A (A.setCommit i k) ∧ Tracks (A.setCommit i k) i { n with commitIndex := k } := by
  refine ⟨⟨.tail (.refl A) (.setCommit (by rwa [ht.term]) hk hc (by rwa [ht.log])), rfl, rfl, fun h => h⟩,
    ht.term, ht.log, setCommit_self, ⟨ht.bounded.length, ht.bounded.term, ht.bounded.le.trans hle⟩,
    ht.indexed, ?_, ht.resp, ht.leads, ht.matched⟩
  intro snap hsn
  obtain ⟨h1, h2, h3⟩ := ht.task snap hsn
  exact ⟨h1, h2.trans hle, h3⟩

/-- A follower's new log keeps what it shares with its leader. -/
structure Replaces (A : Consensus.State NodeID Entry) (n : Node D) (X : List Entry) : Prop where
  part : X <+: n.held ∨ X <+: A.leaderLog n.currentTerm
  keep : ∀ k, Agree k n.held (A.leaderLog n.currentTerm) → Agree k X (A.leaderLog n.currentTerm)

section follower

variable {c : NodeID} (hs : Safe M A) (ht : Tracks A i n) (hl : A.led c n.currentTerm)
include hs ht hl

theorem Tracks.commit_agree : Agree n.commitIndex n.held (A.leaderLog n.currentTerm) := by
  have := hs.inv.commit_agree (q := i) hl (le_of_eq ht.term)
  rwa [ht.commit, ht.log] at this

theorem Tracks.matching {k : Nat} {x y : Entry} (hx : n.held[k]? = some x)
    (hy : (A.leaderLog n.currentTerm)[k]? = some y) (hxy : x.term = y.term) :
    Agree (k + 1) n.held (A.leaderLog n.currentTerm) := by
  have := hs.inv.chainedLog i
  rw [ht.log] at this
  exact this.matching (hs.inv.chainedLeader c _ hl) hx hy hxy

variable {X : List Entry}

theorem Tracks.indexed_of_replaces (hX : Replaces A n X) : Indexed X := by
  rcases hX.part with hp | hp
  · exact ht.indexed.of_isPrefix hp
  · exact (hs.indexed c _ hl).of_isPrefix hp

theorem Tracks.agree_of_replaces (hX : Replaces A n X) : Agree n.commitIndex X n.held := by
  have hc := ht.commit_agree hs hl
  exact (hX.keep _ hc).trans hc.symm

theorem Tracks.task_of_replaces (hX : Replaces A n X) {snap : Snapshot}
    (hsn : n.snapshotTask.pending = some snap) : snap.data.covers = X.take snap.lastIndex ∧
      snap.lastIndex ≤ n.commitIndex ∧ termAt X snap.lastIndex = some snap.lastTerm := by
  obtain ⟨h1, h2, h3⟩ := ht.task snap hsn
  have hag := (ht.agree_of_replaces hs hl hX).mono h2
  exact ⟨h1.trans hag.symm, h2, (termAt_congr hag).trans h3⟩

omit hs in
theorem Tracks.replace_step (hne : c ≠ i) (hX : Replaces A n X) :
    Step M.ids.toFinset Entry.term i A (A.replace i X) := by
  have hp := hX.part
  have hkp := hX.keep
  rw [← ht.term, ← ht.log] at hp hkp
  exact .replace (by rwa [ht.term]) hne hp hkp

theorem Tracks.replaces {l : List Entry} (hne : c ≠ i) (hst : n.state ≠ .leader) (hX : Replaces A n X)
    (hl' : n.snapshotBytes.covers ++ l = X) (d : D) :
    Moves M i A (A.replace i X) ∧ Tracks (A.replace i X) i { n with disk := d, log := l } := by
  have hh : ({ n with disk := d, log := l } : Node D).held = X := hl'
  refine ⟨⟨.tail (.refl A) (ht.replace_step hl hne hX), rfl, rfl, fun h => h⟩, ht.term, ?_, ht.commit, { ht.bounded
    with }, ?_, ?_, ht.resp, fun h => absurd h hst, fun h => absurd h hst⟩
  · rw [replace_log_self, hh]
  · rw [hh]
    exact ht.indexed_of_replaces hs hl hX
  · rw [hh]
    exact fun snap hsn => ht.task_of_replaces hs hl hX hsn

end follower

section append

variable {c : NodeID} {req : AppendRequest} (hs : Safe M A) (ht : Tracks A i n)
  (hsound : Sound M A c i (.appendReq req)) (hterm : n.currentTerm = req.term)
include hs ht hsound hterm

theorem Tracks.agree_prev (hc : Node.Consistent n req) : Agree req.prevLogIndex n.held (A.leaderLog n.currentTerm) := by
  obtain ⟨hl, -, -, -, hp, -⟩ := hsound
  rw [← hterm] at hl hp
  by_cases hsn : n.lastSnapshot < req.prevLogIndex
  · have hn := hc.term hsn
    rw [ht.bounded.entryTerm_eq (le_of_lt hsn)] at hn
    have h0 : req.prevLogIndex ≠ 0 := by omega
    obtain ⟨x, hx, hxt⟩ := exists_of_termAt h0 hn
    obtain ⟨y, hy, hyt⟩ := exists_of_termAt h0 hp
    have := ht.matching hs hl hx hy (hxt.trans hyt.symm)
    rwa [Nat.sub_add_cancel (Nat.pos_of_ne_zero h0)] at this
  · exact (ht.commit_agree hs hl).mono ((not_lt.1 hsn).trans ht.bounded.le)

theorem Tracks.reconciles (hc : Node.Consistent n req) : Replaces A n (n.snapshotBytes.covers ++ n.reconciledLog req) ∧
      Agree (req.prevLogIndex + req.entries.length) (n.snapshotBytes.covers ++ n.reconciledLog req)
        (A.leaderLog n.currentTerm) := by
  have hag := ht.agree_prev hs hsound hterm hc
  obtain ⟨hl, -, hlen, hes, -, -⟩ := hsound
  rw [← hterm] at hl hlen hes
  have hle : req.prevLogIndex ≤ n.held.length := by
    rw [← ht.bounded.lastIndex_eq]
    exact hc.le
  rcases reconcile_held ht.bounded hlen ((ht.commit_agree hs hl).mono ht.bounded.le)
    (fun k x y => ht.matching hs hl) req.entries req.prevLogIndex rfl hes hle hag with
    ⟨hp, hlg⟩ | ⟨hp, hlg⟩
  · have hX : n.snapshotBytes.covers ++ n.reconciledLog req = n.held := by
      rw [reconciledLog, hlg, held]
    rw [hX]
    refine ⟨⟨.inl (List.prefix_refl _), fun _ h => h⟩, ?_⟩
    exact (Agree.of_isPrefix hp (by rw [length_take]; omega)).symm.trans (.take_left le_rfl)
  rw [reconciledLog, hlg]
  refine ⟨⟨.inr (List.take_prefix _ _), fun k hk => ?_⟩, .take_left le_rfl⟩
  exact .take_left (le_of_lt (hk.lt_of_not_isPrefix hp))

omit hs in
theorem Tracks.truncates (hsn : n.lastSnapshot < req.prevLogIndex)
    (hne : n.entryTerm req.prevLogIndex ≠ some req.prevLogTerm) :
    Replaces A n (n.held.take (req.prevLogIndex - 1)) := by
  obtain ⟨-, -, -, -, hp, -⟩ := hsound
  rw [← hterm] at hp
  rw [ht.bounded.entryTerm_eq (le_of_lt hsn)] at hne
  refine ⟨.inl (List.take_prefix _ _), fun k hk => ?_⟩
  have hle : k ≤ req.prevLogIndex - 1 := by
    by_contra hlt
    exact hne ((termAt_congr (hk.mono (by omega))).trans hp)
  exact (Agree.take_left hle).trans hk

theorem Tracks.follows {k : Nat} (hk : k ≤ req.leaderCommit) (hag : Agree k n.held (A.leaderLog n.currentTerm)) :
    ∃ B, Moves M i A B ∧ Tracks B i { n with commitIndex := max n.commitIndex k } ∧ B.acked = A.acked := by
  by_cases hle : k ≤ n.commitIndex
  · exact ⟨A, .refl, by rwa [max_eq_left hle], rfl⟩
  rw [max_eq_right (le_of_lt (not_le.1 hle))]
  obtain ⟨hl, -, -, -, -, hc⟩ := hsound
  rw [← hterm] at hl hc
  rcases hc with h0 | ⟨T, j, hT, hj, hc⟩
  · omega
  have hcm := hs.inv.committed_agree hc hl hT
  obtain ⟨hm, ht'⟩ := ht.commits hT (hk.trans hj) hc (hag.trans (hcm.mono (hk.trans hj)))
    (le_of_lt (not_le.1 hle))
  exact ⟨_, hm, ht', rfl⟩

theorem Tracks.appended {resp : AppendResponse} (hid : n.id = i) (hst : n.state ≠ .leader)
    (h : Node.Appended n req m resp) : ∃ B, Moves M i A B ∧ Tracks B i m ∧ Sound M B i c (.appendResp resp) := by
  have hl : A.led c n.currentTerm := hterm ▸ hsound.1
  have hne : c ≠ i := hsound.2.1
  cases h with
  | missing resp _ _ hf => exact ⟨A, .refl, ht, fun hok => absurd hok (by simp [hf])⟩
  | conflict d resp _ _ hf hsn _ hcn =>
    obtain ⟨hm, ht'⟩ := ht.replaces hs hl hne hst (ht.truncates hsound hterm hsn hcn)
      (ht.bounded.held_truncateFrom hsn) d
    exact ⟨_, hm, ht', fun hok => absurd hok (by simp [hf])⟩
  | unsaved d resp _ _ hf hc =>
    obtain ⟨hm, ht'⟩ := ht.replaces hs hl hne hst (ht.reconciles hs hsound hterm hc).1 rfl d
    exact ⟨_, hm, ht', fun hok => absurd hok (by simp [hf])⟩
  | accepted d resp hrt hri _ hmi hc =>
    -- the new log, then the acknowledgement, then the commit index
    obtain ⟨hX, hag⟩ := ht.reconciles hs hsound hterm hc
    obtain ⟨hm1, ht1⟩ := ht.replaces hs hl hne hst hX rfl d
    have hs1 := hm1.safe hs
    have hsn1 := hsound.mono (hm1.le hs)
    have hlen : req.prevLogIndex + req.entries.length ≤ (A.leaderLog n.currentTerm).length := by
      rw [hterm]
      exact hsound.2.2.1
    obtain ⟨B2, hm2, ht2, hak, hLL⟩ := ht1.acks hs1 hl hlen hag
    have hs2 := hm2.safe hs1
    have hsn2 := hsn1.mono (hm2.le hs1)
    obtain ⟨B3, hm3, ht3, hac⟩ := ht2.follows hs2 hsn2 hterm (min_le_left _ _)
      (by rw [hLL]; exact hag.mono (min_le_right req.leaderCommit _))
    refine ⟨B3, hm1.trans (hm2.trans hm3), ht3, fun _ => ?_⟩
    rw [hac, hmi, hri, hrt, hid]
    exact hak

end append

theorem Tracks.acceptLeader (ht : Tracks A i n) (id : NodeID) : Tracks A i (n.acceptLeader id) :=
  ht.congr (.of_view rfl nofun)

theorem Tracks.appendRequest (hs : Safe M A) (ht : Tracks A i n) (hid : n.id = i) {c : NodeID}
    {req : AppendRequest} (hsound : Sound M A c i (.appendReq req)) :
    ∃ B, Moves M i A B ∧ Tracks B i (n.appendEntriesLocked H req).1 ∧
      Sound M B i c (.appendResp (n.appendEntriesLocked H req).2) := by
  rcases Node.appendEntriesLocked_cases H n req with ⟨d, h⟩ | ⟨hle, n₁, h1, h⟩
  · rw [h]
    exact ⟨A, .refl, ht.congr (.of_leading rfl rfl), nofun⟩
  obtain ⟨B1, hm1, ht1⟩ := ht.advanced h1 (M := M)
  have hs1 := hm1.safe hs
  have hi1 : n₁.id = i := by cases h1 <;> exact hid
  obtain ⟨B2, hm2, ht2, hrs⟩ := (ht1.acceptLeader req.leaderID).appended hs1
    (hsound.mono (hm1.le hs)) (h1.term_eq hle) hi1 (by simp [Node.acceptLeader]) h
  exact ⟨B2, hm1.trans hm2, ht2, hrs⟩

/-! ## InstallSnapshot -/

section snapshot

variable {c : NodeID} {req : SnapshotRequest} (hs : Safe M A) (ht : Tracks A i n)
  (hsound : Sound M A c i (.snapReq req)) (hterm : n.currentTerm = req.term)
include hs ht hsound hterm

theorem Tracks.snapshotKnown (hle : req.lastIndex ≤ n.commitIndex) :
    ∃ B, Moves M i A B ∧ Tracks B i n ∧ req.lastIndex ≤ B.acked i req.term := by
  obtain ⟨hl, -, hlen, -, -, -⟩ := hsound
  rw [← hterm] at hl hlen ⊢
  obtain ⟨B, hm, ht', hac, -⟩ := ht.acks hs hl hlen ((ht.commit_agree hs hl).mono hle)
  exact ⟨B, hm, ht', hac⟩

omit hs in
theorem Tracks.installs (hsn : n.lastSnapshot < req.lastIndex)
    (hok : n.lastIndex ≤ req.lastIndex ∨ n.entryTerm req.lastIndex ≠ some req.lastTerm) :
    Replaces A n req.data.covers := by
  obtain ⟨hl, -, hlen, hcv, hls, -⟩ := hsound
  rw [← hterm] at hl hlen hcv hls
  rw [hcv]
  refine ⟨.inr (List.take_prefix _ _), fun k hk => ?_⟩
  rcases Nat.lt_or_ge req.lastIndex k with hlt | hge
  swap
  · exact .take_left hge
  rcases hok with hle | hne
  · -- the node shares all of a log that ends at the snapshot
    rw [ht.bounded.lastIndex_eq] at hle
    have hln := congrArg length hk
    rw [length_take, length_take] at hln
    rw [take_of_length_le (by omega)]
    exact .refl _ _
  · rw [ht.bounded.entryTerm_eq (le_of_lt hsn)] at hne
    exact absurd ((termAt_congr (hk.mono (le_of_lt hlt))).trans hls) hne

theorem Tracks.snapshotInstalled (hst : n.state ≠ .leader) (hco : n.commitIndex < req.lastIndex)
    (hX : Replaces A n req.data.covers) :
    ∃ B, Moves M i A B ∧ Tracks B i (n.installSnapshot H req) ∧ req.lastIndex ≤ B.acked i req.term := by
  obtain ⟨hl, hne, hlen, hcv, hls, hc⟩ := hsound
  rw [← hterm] at hl hlen hcv hls hc ⊢
  have hcl : req.data.covers.length = req.lastIndex := by
    rw [hcv, length_take, min_eq_left hlen]
  have hag : Agree req.lastIndex req.data.covers (A.leaderLog n.currentTerm) := by
    rw [hcv]
    exact .take_left le_rfl
  have hh : (n.installSnapshot H req).held = req.data.covers := append_nil _
  rcases hc with h0 | ⟨T, j, hT, hj, hc⟩
  · omega
  have h1 := ht.replace_step (M := M) hl hne hX
  have h2 : Step M.ids.toFinset Entry.term i (A.replace i req.data.covers)
      ((A.replace i req.data.covers).ack i req.lastIndex) := by
    refine .ack (c := c) ?_ ?_ ?_
    · exact ht.term ▸ hl
    · exact ht.term ▸ hlen
    · rw [replace_log_self]
      exact ht.term ▸ hag
  have h3 : Step M.ids.toFinset Entry.term i ((A.replace i req.data.covers).ack i req.lastIndex)
      (((A.replace i req.data.covers).ack i req.lastIndex).setCommit i req.lastIndex) := by
    have hi1 := h1.inv hs.inv
    refine .setCommit (T := T) (i := j) (ht.term ▸ hT) hj
      ((h2.le hi1).committed ((h1.le hs.inv).committed hc)) ?_
    have hcm := hs.inv.committed_agree hc hl hT
    show Agree req.lastIndex ((A.replace i req.data.covers).log i) (A.leaderLog T)
    rw [replace_log_self]
    exact hag.trans (hcm.mono hj)
  refine ⟨_, ⟨.tail (.tail (.tail (.refl A) h1) h2) h3, rfl, rfl, fun h => h⟩, ?_, ?_⟩
  · refine ⟨ht.term, ?_, setCommit_self, ⟨hcl, ?_, le_rfl⟩, ?_, ?_, ?_, fun h => absurd h hst, fun h => absurd h hst⟩
    · rw [hh]
      exact replace_log_self
    · have hlt := termAt_length req.data.covers
      rw [hcl, termAt_congr hag, hls, some.injEq] at hlt
      exact hlt
    · rw [hh]
      exact ht.indexed_of_replaces hs hl hX
    · intro snap hsn
      obtain ⟨h1, h2, h3⟩ := ht.task_of_replaces hs hl hX hsn
      rw [hh]
      exact ⟨h1, h2.trans (le_of_lt hco), h3⟩
    · exact fun r hr hok => (ht.resp r hr hok).trans (acked_le_ack (s := A.replace i _) _ _)
  · have := ack_acked_self (s := A.replace i req.data.covers) (q := i) (m := req.lastIndex)
    rw [← ht.term]
    exact (le_max_right _ _).trans (ge_of_eq this)

end snapshot

theorem Tracks.not_leader (hs : Safe M A) (ht : Tracks A i n) {c : NodeID} (hl : A.led c n.currentTerm)
    (hne : c ≠ i) : n.state ≠ .leader :=
  fun h => hne (hs.inv.leader_unique hl (ht.leads h))

theorem Tracks.snapshotRequest (hs : Safe M A) (ht : Tracks A i n) {c : NodeID} {req : SnapshotRequest}
    (hsound : Sound M A c i (.snapReq req)) (hok : n.installOk (.snapshotRequest c req) = true) :
    ∃ B, Moves M i A B ∧ Tracks B i (n.handleSnapshotRequest H req).1 ∧
      Sound M B i c (.snapResp req (n.handleSnapshotRequest H req).2) := by
  rcases handleSnapshotRequest_cases H n req with ⟨d, h⟩ | ⟨hle, n₁, h1, h⟩
  · rw [h]
    exact ⟨A, .refl, ht.congr (.of_leading rfl rfl), nofun⟩
  obtain ⟨B1, hm1, ht1⟩ := ht.advanced h1 (M := M)
  have hs1 := hm1.safe hs
  have hsn1 := hsound.mono (hm1.le hs)
  have hterm := h1.term_eq hle
  rcases h with ⟨hold, h⟩ | ⟨hsn, hcm, ⟨d, h⟩ | ⟨d, h⟩⟩
  · rw [h]
    obtain ⟨B2, hm2, ht2, hac⟩ := ht1.snapshotKnown hs1 hsn1 hterm
      (hold.elim (fun h => h.trans ht1.bounded.le) id)
    exact ⟨B2, hm1.trans hm2, ht2, fun _ => hac⟩
  · rw [h]
    exact ⟨B1, hm1, ht1.congr (.of_leading rfl rfl), nofun⟩
  rw [h]
  have ht1' : Tracks B1 i { n₁ with disk := d } := ht1.congr (.of_leading rfl rfl)
  have ho1 : n₁.lastIndex ≤ req.lastIndex ∨ n₁.entryTerm req.lastIndex ≠ some req.lastTerm := by
    simp only [installOk, decide_eq_true_eq] at hok
    cases h1 <;> exact hok hle hsn hcm
  have hst := ht1'.not_leader hs1 (hterm ▸ hsn1.1) hsn1.2.1
  obtain ⟨B2, hm2, ht2, hac⟩ := ht1'.snapshotInstalled (H := H) hs1 hsn1 hterm hst hcm
    (ht1'.installs hsn1 hterm hsn ho1)
  exact ⟨B2, hm1.trans hm2, ht2, fun _ => hac⟩

section leader

variable (hs : Safe M A) (ht : Tracks A i n)
include hs ht

theorem Tracks.leading (hst : n.state = .leader) : n.held = A.leaderLog n.currentTerm := by
  rw [← ht.log]
  exact hs.inv.leading i _ (ht.leads hst) ht.term

theorem Tracks.commit_le_length : n.commitIndex ≤ n.held.length := by
  have := hs.inv.commit_le_length i
  rwa [ht.commit, ht.log] at this

theorem Tracks.committedBy {k : Nat} (hk : k ≤ n.commitIndex) : CommittedBy M A n.currentTerm k := by
  rcases hs.inv.commit i with h0 | ⟨T, j, hT, hj, hc, -⟩
  · rw [ht.commit] at h0
    exact .inl (by omega)
  · rw [ht.commit] at hj
    exact .inr ⟨T, j, ht.term ▸ hT, hk.trans hj, hc⟩

theorem Tracks.maybeAdvanceCommitIndex (hpr : n.peers = M.ids.filter (· ≠ i)) (hmem : i ∈ M.ids) :
    ∃ B, Moves M i A B ∧ Tracks B i n.maybeAdvanceCommitIndex := by
  rcases maybeAdvanceCommitIndex_cases n with he | ⟨hst, k, hk, hrp, he⟩
  · exact ⟨A, .refl, by rwa [he]⟩
  rw [he]
  simp only [replicated, decide_eq_true_eq] at hrp
  obtain ⟨hsn, hterm, hqr⟩ := hrp
  have hh := ht.leading hs hst
  rw [ht.bounded.entryTerm_eq (le_of_lt hsn)] at hterm
  have hlen := le_length_of_termAt hterm
  obtain ⟨e, hke, het⟩ := exists_of_termAt (by omega) hterm
  -- the leader counts itself, so it acknowledges the index too
  obtain ⟨B, hm, ht', hac, hLL⟩ := ht.acks hs (ht.leads hst) (hh ▸ hlen) (by rw [hh]; exact .refl _ _)
  have hc : B.Committed M.ids.toFinset Entry.term n.currentTerm k := by
    refine ⟨⟨⟨i, ht'.leads hst⟩, k - 1, e, by omega, by rw [hLL, ← hh, hke], het⟩, (i :: n.peers.filter fun p => k ≤
      n.matchIndex p).toFinset, Cluster.majority_of_quorum hpr hmem ?_ ?_ ?_ (by omega), ?_⟩
    · rw [hpr]
      exact (M.nodup.filter _).filter _
    · simp [hpr]
    · intro p hp
      rw [hpr] at hp
      exact (mem_filter.1 (mem_filter.1 hp).1).1
    · intro q hq
      rcases mem_cons.1 (mem_toFinset.1 hq) with rfl | hq
      · exact hac
      · obtain ⟨hp, hle⟩ := mem_filter.1 hq
        exact (of_decide_eq_true hle).trans (ht'.matched hst q hp)
  obtain ⟨hm', ht''⟩ := ht'.commits le_rfl le_rfl hc (by rw [hLL, hh]; exact .refl _ _) (le_of_lt hk)
  exact ⟨_, hm.trans hm', ht''⟩

theorem Tracks.appends (hst : n.state = .leader) {e : Entry} (hterm : e.term = n.currentTerm)
    (hidx : e.index = n.lastIndex + 1) (d : D) :
    ∃ B, Moves M i A B ∧ Tracks B i { n with disk := d, log := n.log ++ [e] } := by
  have hh : ({ n with disk := d, log := n.log ++ [e] } : Node D).held = n.held ++ [e] := (append_assoc _ _ _).symm
  have hix : Indexed (n.held ++ [e]) := ht.indexed.concat (by rw [hidx, ht.bounded.lastIndex_eq])
  refine ⟨A.propose i e, ⟨.tail (.refl A) (.propose (ht.term ▸ ht.leads hst) (by rw [hterm, ht.term])), rfl,
    rfl, ?_⟩, ht.term, ?_, ht.commit, { ht.bounded with }, ?_, ?_, ht.resp, ht.leads, ht.matched⟩
  · intro hli c T hl
    by_cases hT : T = A.term i
    · rw [hT, propose_leaderLog_self, ht.log]
      exact hix
    · rw [propose_leaderLog_of_ne hT]
      exact hli c T hl
  · rw [propose_log_self, ht.log, hh]
  · rw [hh]
    exact hix
  · intro snap hsn
    obtain ⟨h1, h2, h3⟩ := ht.task snap hsn
    have hag : Agree snap.lastIndex (n.held ++ [e]) n.held := .append_left (h2.trans (ht.commit_le_length hs))
    rw [hh]
    exact ⟨h1.trans hag.symm, h2, (termAt_congr hag).trans h3⟩

theorem Tracks.proposeEntry (hp : n.peers = M.ids.filter (· ≠ i)) (hmem : i ∈ M.ids)
    (command : Bytes) (type : EntryType) : ∃ B, Moves M i A B ∧ Tracks B i (n.proposeEntry H command type).1 := by
  rcases proposeEntry_cases H n command type with ⟨d, h⟩ | ⟨hst, d, h⟩
  · rw [h]
    exact ⟨A, .refl, ht.congr (.of_leading rfl rfl)⟩
  rw [h]
  obtain ⟨B1, hm1, ht1⟩ := ht.appends hs hst (e := n.proposed command type) rfl rfl d
  obtain ⟨B2, hm2, ht2⟩ := ht1.maybeAdvanceCommitIndex (hm1.safe hs) hp hmem
  exact ⟨B2, hm1.trans hm2, ht2⟩

omit hs in
theorem Tracks.notes {p : NodeID} {k : Nat} (hk : k ≤ A.acked p n.currentTerm)
    (f : NodeID → Nat) (g : NodeID → Bool) : Tracks A i
      { n with matchIndex := Function.update n.matchIndex p (max k (n.matchIndex p)), nextIndex := f,
               snapshotInFlight := g } := by
  refine { ht with bounded := { ht.bounded with }, matched := fun hl q hq => ?_ }
  by_cases hqp : q = p
  · subst hqp
    simp only [Function.update_self]
    exact max_le hk (ht.matched hl q hq)
  · simp only [Function.update_of_ne hqp]
    exact ht.matched hl q hq

theorem Tracks.handleAppendResponse (hp : n.peers = M.ids.filter (· ≠ i)) (hmem : i ∈ M.ids)
    {resp : AppendResponse} (hrs : resp.success = true → resp.matchIndex ≤ A.acked resp.sender resp.term) :
    ∃ B, Moves M i A B ∧ Tracks B i (n.handleAppendResponse H resp) := by
  rcases handleAppendResponse_cases H n resp with ⟨f, h⟩ | h | ⟨d, h⟩ | ⟨hst, hterm, hok, f, h⟩
  · rw [h]
    exact ⟨A, .refl, ht.congr (.of_leading rfl rfl)⟩
  · exact ht.advanced h
  · rw [h]
    exact ⟨A, .refl, ht.congr (.of_view rfl nofun)⟩
  · rw [h]
    exact (ht.notes (hterm ▸ hrs hok) f n.snapshotInFlight).maybeAdvanceCommitIndex hs hp hmem

omit hs in
theorem Tracks.handleSnapshotResponse {p : NodeID} {req : SnapshotRequest} {resp : SnapshotResponse}
    (hrs : Sound M A p i (.snapResp req resp)) :
    ∃ B, Moves M i A B ∧ Tracks B i (n.handleSnapshotResponse H p req resp) := by
  obtain ⟨f, h | ⟨n₁, h1, h⟩ | ⟨d, h⟩ | ⟨hst, hterm, hok, g, h⟩⟩ := handleSnapshotResponse_cases H n p req resp
  · rw [h]
    exact ⟨A, .refl, ht.congr (.of_leading rfl rfl)⟩
  · rw [h]
    obtain ⟨B, hm, ht'⟩ := ht.advanced h1 (M := M)
    exact ⟨B, hm, ht'.congr (.of_view rfl nofun)⟩
  · rw [h]
    exact ⟨A, .refl, ht.congr (.of_view rfl nofun)⟩
  · rw [h]
    exact ⟨A, .refl, ht.notes (hterm ▸ hrs hok) g f⟩

theorem Tracks.replicateTo {peer : NodeID} (hne : i ≠ peer) (term : Nat) : Tracks A i (n.replicateTo peer term).1 ∧
      ∀ msg, (n.replicateTo peer term).2 = some msg → Sound M A i peer msg := by
  obtain ⟨f, h, hms⟩ := replicateTo_cases n peer term
  refine ⟨?_, fun msg hm => ?_⟩
  · rw [h]
    exact ht.congr (.of_leading rfl rfl)
  obtain ⟨hst, rfl, ⟨req, hrq, rfl⟩ | rfl⟩ := hms msg hm
  · obtain ⟨hterm, hsn, hp, hes, hcm⟩ := buildAppendRequestLocked_eq_some hrq
    rw [ht.bounded.entryTerm_eq hsn] at hp
    rw [ht.bounded.entriesFrom_eq (by omega), Nat.add_sub_cancel] at hes
    have hle := le_length_of_termAt hp
    have hLL : A.leaderLog req.term = n.held := by rw [hterm, ht.leading hs hst]
    refine ⟨hterm ▸ ht.leads hst, hne, ?_, ?_, hLL ▸ hp, ?_⟩
    · rw [hLL, hes, length_drop]
      omega
    · rw [hLL, ← hes, take_length]
    · rw [hterm, hcm]
      exact ht.committedBy hs le_rfl
  have hLL : A.leaderLog n.currentTerm = n.held := (ht.leading hs hst).symm
  refine ⟨ht.leads hst, hne, ?_, ?_, ?_, ht.committedBy hs ht.bounded.le⟩
  · rw [hLL]
    exact ht.bounded.le.trans (ht.commit_le_length hs)
  · rw [hLL]
    exact ht.bounded.covers_eq
  · rw [hLL, ht.bounded.term, ← termAt_length, ht.bounded.length, ht.bounded.covers_eq]
    exact (termAt_congr (.take_left le_rfl)).symm

end leader

/-! ## Snapshots the node takes itself -/

theorem Tracks.takeSnapshot (ht : Tracks A i n) {idx : Nat} {bytes : Bytes} {snap : Snapshot}
    (h : n.takeSnapshot idx bytes = some snap) (hix : idx ≤ n.commitIndex) :
    Tracks A i { n with snapshotTask := .captured snap } := by
  obtain ⟨rfl, hsn, hterm, hcv⟩ := takeSnapshot_eq_some h
  refine { ht with bounded := { ht.bounded with }, task := ?_ }
  rintro snap' ⟨⟩
  exact ⟨hcv, hix, ht.bounded.entryTerm_eq (le_of_lt hsn) ▸ hterm⟩

theorem Tracks.installLeaderSnapshot (ht : Tracks A i n) {snap : Snapshot} (hsn : n.snapshotTask.pending = some snap) :
    Tracks A i { n.installLeaderSnapshot H snap with snapshotTask := .idle } := by
  obtain ⟨hcv, hcm, hterm⟩ := ht.task snap hsn
  rcases installLeaderSnapshot_cases H n snap with h | ⟨hsp, hls, d, h⟩
  · rw [h]
    exact ht.congr ⟨rfl, rfl, rfl, rfl, rfl, rfl,
      nofun, fun _ h => h, fun h => ⟨h, rfl, rfl⟩⟩
  rw [h]
  have hh : snap.data.covers ++ n.log.drop (snap.lastIndex - n.lastSnapshot) = n.held := by
    rw [← ht.bounded.drop_held (le_of_lt hsp), hcv, take_append_drop]
  have hlen : snap.data.covers.length = snap.lastIndex := by
    rw [ht.bounded.lastIndex_eq] at hls
    rw [hcv, length_take, min_eq_left hls]
  refine ⟨ht.term, ?_, ht.commit, ⟨hlen, ?_, hcm⟩, ?_, nofun,
    ht.resp, ht.leads, ht.matched⟩
  · rw [held, hh]
    exact ht.log
  · have hlt := termAt_length snap.data.covers
    rw [hlen, hcv, termAt_congr (.take_left le_rfl), hterm, some.injEq, ← hcv] at hlt
    exact hlt
  · rw [held, hh]
    exact ht.indexed

/-! ## Every step but the electoral ones -/

/-- The events that give a vote or take the leadership. -/
def Event.electoral : Event → Bool
  | .startCandidate | .voteRequest _ _ | .becomeLeader => true
  | _ => false

theorem Tracks.electionTimeout (ht : Tracks A i n) {failed : Node D → Node D}
    (hf : failed = (fun m => m) ∨ failed = fun m => { m with state := .follower }) :
    ∃ B, Moves M i A B ∧ Tracks B i (n.electionTimeout H failed) := by
  unfold Node.electionTimeout
  rcases Node.advanceTermLocked_cases H n (nextTerm n.currentTerm) with ⟨n₁, h, h1⟩ | ⟨-, d, h⟩
  · rw [h]
    obtain ⟨B, hm, ht'⟩ := ht.advanced h1 (M := M)
    exact ⟨B, hm, ht'.congr (.of_view rfl nofun)⟩
  rw [h]
  refine ⟨A, .refl, ht.congr ?_⟩
  rcases hf with rfl | rfl
  · exact .of_leading rfl rfl
  · exact .of_view rfl nofun

theorem Tracks.becomeFollower (ht : Tracks A i n) (term : Nat) :
    ∃ B, Moves M i A B ∧ Tracks B i (n.becomeFollower H term) := by
  unfold Node.becomeFollower
  split
  · rcases Node.advanceTermLocked_cases H n term with ⟨n₁, h, h1⟩ | ⟨-, d, h⟩
    · rw [h]
      obtain ⟨B, hm, ht'⟩ := ht.advanced h1 (M := M)
      exact ⟨B, hm, ht'.congr (.of_leading rfl rfl)⟩
    · rw [h]
      exact ⟨A, .refl, ht.congr (.of_leading rfl rfl)⟩
  · exact ⟨A, .refl, ht.congr (.of_view rfl nofun)⟩

theorem Tracks.collectVote (ht : Tracks A i n) (rest : List VoteResponse) (term k : Nat)
    (vs : List NodeID) (r : VoteResponse) :
    Tracks A i (({ n with voteRespCh := rest } : Node D).collectVote term k vs r) := by
  refine ht.congr ?_
  unfold Node.collectVote
  split
  · exact .of_leading rfl rfl
  split
  · split <;>
      exact .of_leading rfl rfl
  · exact .of_leading rfl rfl

structure Ready (M : Membership) (A : Consensus.State NodeID Entry) (i : NodeID) (n : Node D)
    (ev : Event) : Prop where
  safe : Safe M A
  tracks : Tracks A i n
  id : n.id = i
  peers : n.peers = M.ids.filter (· ≠ i)
  mem : i ∈ M.ids
  arrived : ∀ e, Cluster.arrival i ev = some e → Sound M A e.sender e.dest e.msg
  applied : ∀ idx bytes, ev = .takeSnapshot idx bytes → idx ≤ n.commitIndex
  install : n.installOk ev = true

theorem Ready.step {ev : Event} {sends : List Send} (hr : Ready M A i n ev)
    (hev : ev.electoral = false) (h : n.step H ev = some (m, sends)) :
    ∃ B, Moves M i A B ∧ Tracks B i m ∧ ∀ x ∈ sends, Sound M B i x.dest x.msg := by
  have ht := hr.tracks
  have hs := hr.safe
  -- a step that sends nothing and only moves the run loop or a channel
  have still : ∀ {m' : Node D}, some (m', ([] : List Send)) = some (m, sends) → n.SameLog m' →
      ∃ B, Moves M i A B ∧ Tracks B i m ∧ ∀ x ∈ sends, Sound M B i x.dest x.msg := by
    rintro m' ⟨⟩ hsm
    exact ⟨A, .refl, ht.congr hsm, by simp⟩
  have silent : ∀ {m' : Node D}, some (m', ([] : List Send)) = some (m, sends) →
      (∃ B, Moves M i A B ∧ Tracks B i m') →
      ∃ B, Moves M i A B ∧ Tracks B i m ∧ ∀ x ∈ sends, Sound M B i x.dest x.msg := by
    rintro m' ⟨⟩ ⟨B, hm, ht'⟩
    exact ⟨B, hm, ht', by simp⟩
  cases ev with simp only [Node.step] at h
  | startCandidate | voteRequest | becomeLeader => cases hev
  | dispatch | heartbeat =>
    split at h
    · exact still h {}
    · cases h
  | electionTimeout =>
    split at h
    · exact silent h (ht.electionTimeout (.inl rfl))
    · exact silent h (ht.electionTimeout (.inr rfl))
    · cases h
  | electionReset =>
    split at h
    · split at h
      · exact still h {}
      · exact still h {}
      · cases h
    · cases h
  | collectVote =>
    split at h
    · exact silent h ⟨A, .refl, ht.collectVote _ _ _ _ _⟩
    · cases h
  | becomeFollower =>
    split at h
    · exact silent h (ht.becomeFollower _)
    · cases h
  | proposeNoOp =>
    split at h
    · obtain ⟨B, hm, ht'⟩ := ht.proposeEntry (H := H) hs hr.peers hr.mem [] entryNoOp
      exact silent h ⟨B, hm, ht'.congr (.of_leading rfl rfl)⟩
    · cases h
  | collectAppend =>
    split at h
    next resp rest _ hch =>
      have ht' : Tracks A i { n with appendRespCh := rest } := ht.congr 
        { resp := fun r hr => by rw [hch]; exact mem_cons_of_mem _ hr }
      exact silent h (ht'.handleAppendResponse hs hr.peers hr.mem
        (ht.resp resp (by rw [hch]; exact mem_cons_self)))
    · cases h
  | appendRequest sender req =>
    obtain ⟨B, hm, ht', hrs⟩ := ht.appendRequest (H := H) hs hr.id (hr.arrived _ rfl)
    cases h
    exact ⟨B, hm, ht', fun x hx => by rw [mem_singleton.1 hx]; exact hrs⟩
  | snapshotRequest sender req =>
    obtain ⟨B, hm, ht', hrs⟩ := ht.snapshotRequest (H := H) hs (hr.arrived _ rfl) hr.install
    cases h
    exact ⟨B, hm, ht', fun x hx => by rw [mem_singleton.1 hx]; exact hrs⟩
  | voteResponse | snapshotFailed => exact still h {}
  | appendResponse sender resp =>
    refine silent h ⟨A, .refl, { ht with bounded := { ht.bounded with }, resp := fun r hmem => ?_ }⟩
    rcases Node.mem_trySend hmem with hold | rfl
    · exact ht.resp r hold
    · exact hr.arrived _ rfl
  | snapshotResponse peer req resp => exact silent h (ht.handleSnapshotResponse (hr.arrived _ rfl))
  | replicateTo peer term =>
    split at h
    next hp =>
      rw [hr.peers] at hp
      have hne : i ≠ peer := fun heq => by simp [heq] at hp
      obtain ⟨ht', hms⟩ := ht.replicateTo hs hne term
      cases h
      refine ⟨A, .refl, ht', fun x hx => ?_⟩
      obtain ⟨msg, hm, rfl⟩ := mem_map.1 hx
      exact hms msg (mem_toList.1 hm)
    · cases h
  | propose command type => exact silent h (ht.proposeEntry hs hr.peers hr.mem command type)
  | takeSnapshot idx bytes =>
    split at h
    next snap _ hsn =>
      exact silent h ⟨A, .refl, ht.takeSnapshot hsn (hr.applied idx bytes rfl)⟩
    · cases h
  | saveSnapshot =>
    split at h
    next snap hsn =>
      exact still h { task := fun _ h => by rw [hsn]; exact h }
    · cases h
  | installLeaderSnapshot =>
    split at h
    next snap hsn =>
      exact silent h ⟨A, .refl, ht.installLeaderSnapshot (by rw [hsn]; rfl)⟩
    · cases h

/-! ## Elections, and the step of a cluster -/

namespace Cluster

variable {s s' : Cluster D} {a : Action}

def SafetyOk (s : Cluster D) (a : Action) : Prop :=
  s.ElectionOk a ∧ (s.nodes a.node).installOk a.event = true

instance (s : Cluster D) (a : Action) : Decidable (s.SafetyOk a) := inferInstanceAs (Decidable (_ ∧ _))

variable {ev : Event} {sends : List Send}

theorem refines_after (hr : Refines M A s) (hs : Safe M A)
    (hst : Steps M.ids.toFinset term i A B) (hix : LeadersIndexed B) (ht : Tracks B i m)
    (hsn : ∀ x ∈ sends, Sound M B i x.dest x.msg)
    (hv : ∀ q T c, B.voted q T c ↔ A.voted q T c ∨ q = i ∧ (T, c) ∈ (s.nodes i).votesCast ev m sends)
    (hl : ∀ c T, B.led c T ↔ A.led c T ∨ m.state = .leader ∧ (c, T) = (i, m.currentTerm)) :
    Refines M B (s.after i ev m sends) := by
  have hle := hst.le hs.inv
  refine ⟨fun j => ?_, fun q T c => ?_, fun c T => ?_, fun e he => ?_, hix⟩
  · by_cases hj : j = i
    · subst hj
      rwa [after_nodes_self]
    · rw [after_nodes_of_ne _ _ _ _ _ hj]
      exact (hr.nodes j).of_le hle (hst.frame hj)
  · rw [hv, hr.voted, mem_after_votes]
  · rw [hl, hr.led, mem_after_leaders]
  · rcases (mem_after_net ..).1 he with hold | ⟨rfl, hse⟩
    · exact (hr.net e hold).mono hle
    · exact hsn _ hse

theorem led_iff (hm : Moves M i A B) (ht : Tracks B i m) (c : NodeID) (T : Nat) :
    B.led c T ↔ A.led c T ∨ m.state = .leader ∧ (c, T) = (i, m.currentTerm) := by
  rw [hm.led, iff_self_or]
  rintro ⟨hst, heq⟩
  obtain ⟨rfl, rfl⟩ := Prod.mk.injEq .. ▸ heq
  rw [← hm.led]
  exact ht.leads hst

theorem refines_quiet (hr : Refines M A s) (hs : Safe M A)
    (hm : Moves M i A B) (ht : Tracks B i m) (hsn : ∀ x ∈ sends, Sound M B i x.dest x.msg)
    (hcs : (s.nodes i).votesCast ev m sends = []) : Refines M B (s.after i ev m sends) := by
  refine refines_after hr hs hm.steps (hm.indexed hs.indexed) ht hsn ?_ (led_iff hm ht)
  intro q T c
  simp [hcs, hm.voted]

theorem refines_vote {c : NodeID} (hr : Refines M A s) (hs : Safe M A)
    (hm : Moves M i A B) (ht : Tracks B i m) (hsn : ∀ x ∈ sends, Sound M B i x.dest x.msg)
    (hcs : (s.nodes i).votesCast ev m sends = [(m.currentTerm, c)])
    (hiv : ElectionInv M (s.after i ev m sends)) (hle : m.currentTerm ≤ B.term c)
    (hup : B.term c = m.currentTerm → (∀ c', ¬ B.led c' m.currentTerm) → UpToDate term (B.log c) m.held) :
    ∃ C, Steps M.ids.toFinset term i A C ∧ Refines M C (s.after i ev m sends) := by
  have hst : Step M.ids.toFinset term i B (B.vote i (B.term i) c) := by
    refine .vote (fun c' hv => ?_) (by rwa [ht.term]) (by rwa [ht.term, ht.log])
    rw [hm.voted, hr.voted, ht.term] at hv
    exact hiv.unique i m.currentTerm c' c ((mem_after_votes ..).2 (.inl hv))
      ((mem_after_votes ..).2 (.inr ⟨rfl, by rw [hcs]; exact mem_singleton.2 rfl⟩))
  have hle' := hst.le (hm.safe hs).inv
  refine ⟨_, hm.steps.tail hst, refines_after hr hs (hm.steps.tail hst) (hm.indexed hs.indexed) (ht.of_le hle' ⟨rfl,
    rfl, rfl⟩) (fun x hx => (hsn x hx).mono hle') ?_ fun c' T => (led_iff hm ht c' T :)⟩
  intro q T c'
  rw [hcs, mem_singleton, Prod.mk.injEq, ← hm.voted, ← ht.term]
  exact Iff.rfl

section electoral

variable (hr : Refines M A s) (hs : Safe M A) (hi : ElectionInv M s)
include hr hs hi

theorem refines_startCandidate (hiv : ElectionInv M (s.after i .startCandidate ((s.nodes i).startCandidate H).1
      ((s.nodes i).startCandidate H).2)) : ∃ B, Steps M.ids.toFinset term i A B ∧ Refines M B (s.after i .startCandidate
      ((s.nodes i).startCandidate H).1 ((s.nodes i).startCandidate H).2) := by
  have ht := hr.nodes i
  rcases startCandidate_cases H (s.nodes i) with ⟨d, h⟩ | ⟨d, pc, hpc, h⟩
  · rw [h]
    exact ⟨A, .refl A, refines_quiet hr hs .refl (ht.congr (.of_view rfl nofun))
      (by simp) (by simp [votesCast])⟩
  rw [h] at hiv ⊢
  have ht' : Tracks A i { s.nodes i with disk := d, votedFor := (s.nodes i).id, pc := pc } :=
    ht.congr (.of_leading rfl rfl)
  refine refines_vote hr hs .refl ht' ?_ (c := i) ?_ hiv (le_of_eq ht.term.symm) ?_
  · intro x hx
    obtain ⟨p, -, rfl⟩ := mem_map.1 hx
    rw [ht.bounded.lastLogInfo_eq, ← ht.log]
    exact ⟨le_of_eq ht.term.symm, fun _ _ => ⟨rfl, rfl⟩⟩
  · have hne : pc ≠ .top := by
      rcases hpc with ⟨-, rfl⟩ | rfl <;> simp
    simp [votesCast, hne, hi.id]
  · rw [ht.log]
    exact fun _ _ => .inr ⟨rfl, le_rfl⟩

theorem refines_voteRequest {sender : NodeID} {req : VoteRequest} (hms : (⟨sender, i, .voteReq req⟩ : Envelope) ∈ s.net)
    (hiv : ElectionInv M (s.after i (.voteRequest sender req) ((s.nodes i).handleVoteRequest H req).1
      [⟨sender, .voteResp ((s.nodes i).handleVoteRequest H req).2⟩])) :
    ∃ B, Steps M.ids.toFinset term i A B ∧ Refines M B
      (s.after i (.voteRequest sender req) ((s.nodes i).handleVoteRequest H req).1
        [⟨sender, .voteResp ((s.nodes i).handleVoteRequest H req).2⟩]) := by
  have ht := hr.nodes i
  have hrs : ∀ (B : Consensus.State NodeID Entry) (r : VoteResponse),
      ∀ x ∈ [(⟨sender, .voteResp r⟩ : Send)], Sound M B i x.dest x.msg := by
    intro B r x hx
    rw [mem_singleton.1 hx]
    trivial
  rcases handleVoteRequest_cases H (s.nodes i) req with
    ⟨d, h⟩ | ⟨hle, n₁, h1, ⟨d, h⟩ | ⟨-, hup, d, h⟩⟩
  · rw [h]
    exact ⟨A, .refl A, refines_quiet hr hs .refl (ht.congr (.of_leading rfl rfl)) (hrs A _) (by simp [votesCast])⟩
  · rw [h]
    obtain ⟨B, hm, ht'⟩ := ht.advanced h1 (M := M)
    exact ⟨B, hm.steps, refines_quiet hr hs hm (ht'.congr (.of_leading rfl rfl)) (hrs B _) (by simp [votesCast])⟩
  rw [h] at hiv ⊢
  obtain ⟨B, hm, ht'⟩ := ht.advanced h1 (M := M)
  have hterm := h1.term_eq hle
  obtain ⟨-, -, hcn⟩ := hi.voteReq _ _ _ hms
  obtain ⟨hT, hls⟩ := (hr.net _ hms).mono (hm.le hs)
  refine refines_vote hr hs hm (ht'.congr (.of_leading rfl rfl)) (hrs B _) (c := req.candidateID)
    ?_ hiv ?_ ?_
  · simp [votesCast, hterm]
  · rw [hcn]
    exact le_of_eq_of_le hterm hT
  · -- the voter compared its log with the one the candidate still has
    intro hc hun
    rw [hcn] at hc ⊢
    obtain ⟨h1, h2⟩ := hls (hc.trans hterm) (hterm ▸ hun)
    rw [ht'.bounded.isLogUpToDate_iff, h1, h2] at hup
    exact hup

theorem refines_becomeLeader {T : Nat} {vs : List NodeID} (hpc : (s.nodes i).pc = .winning T vs)
    (hterm : (s.nodes i).currentTerm = T) : ∃ B, Steps M.ids.toFinset term i A B ∧
      Refines M B (s.after i .becomeLeader (s.nodes i).becomeLeader []) := by
  have ht := hr.nodes i
  obtain ⟨Q, hQ, hvt⟩ := hi.majority hpc
  have hst : Step M.ids.toFinset term i A (A.lead i) :=
    .lead ⟨Q, hQ, fun q hq => by rw [hr.voted, ht.term, hterm]; exact hvt q hq⟩
  have ht' : Tracks (A.lead i) i (s.nodes i).becomeLeader := by
    refine { ht with
      bounded := { ht.bounded with }, leads := fun _ => .inr ⟨rfl, ht.term.symm⟩, matched := fun _ p hp => ?_ }
    simp only [becomeLeader] at hp ⊢
    rw [if_pos hp]
    exact Nat.zero_le _
  refine ⟨A.lead i, .tail (.refl A) hst, refines_after hr hs (.tail (.refl A) hst) ?_ ht' (by simp) ?_ ?_⟩
  · intro c T' hl
    by_cases hT : T' = A.term i
    · rw [hT, lead_leaderLog_self, ht.log]
      exact ht.indexed
    · rw [lead_leaderLog_of_ne hT]
      exact hs.indexed c T' (hl.resolve_right fun h => hT h.2)
  · intro q T' c
    simp [votesCast, lead]
  · intro c T'
    simp [lead, becomeLeader, ht.term]

end electoral

/-- **Refinement.** A conforming step of a cluster is a sequence of abstract steps of the node that
moved. -/
theorem refines_step (hr : Refines M A s) (hs : Safe M A) (hi : ElectionInv M s) (hok : s.SafetyOk a)
    (h : step H M s a = some s') : ∃ B, Steps M.ids.toFinset term a.node A B ∧ Refines M B s' := by
  have hiv := electionInv_step hi hok.1 h
  obtain ⟨hen, m, sends, hst, rfl⟩ := step_eq_some H M h
  obtain ⟨i, ev⟩ := a
  simp only [enabled, Bool.and_eq_true, decide_eq_true_eq] at hen
  obtain ⟨⟨hmem, harr⟩, hap⟩ := hen
  have har : ∀ e, arrival i ev = some e → e ∈ s.net := by
    intro e he
    rw [he] at harr
    simpa using harr
  by_cases hev : ev.electoral = false
  · have hrd : Ready M A i (s.nodes i) ev := by
      refine ⟨hs, hr.nodes i, hi.id i, hi.peers i, hmem, fun e he => hr.net e (har e he), ?_, hok.2⟩
      rintro idx bytes rfl
      simpa using hap
    obtain ⟨B, hm, ht, hsn⟩ := hrd.step hev hst
    have hcs : (s.nodes i).votesCast ev m sends = [] := by
      cases ev with
      | startCandidate | voteRequest => cases hev
      | _ => rfl
    exact ⟨B, hm.steps, refines_quiet hr hs hm ht hsn hcs⟩
  cases ev with
  | startCandidate =>
    simp only [Node.step] at hst
    split at hst
    · simp only [some.injEq] at hst
      obtain ⟨rfl, rfl⟩ := Prod.ext_iff.1 hst
      exact refines_startCandidate hr hs hi hiv
    · cases hst
  | voteRequest sender req =>
    cases hst
    exact refines_voteRequest hr hs hi (har _ rfl) hiv
  | becomeLeader =>
    simp only [Node.step] at hst
    split at hst
    next T vs hpc =>
      cases hst
      have hterm := hok.1
      simp only [ElectionOk, Node.ballotOk, hpc, decide_eq_true_eq] at hterm
      exact refines_becomeLeader hr hs hi hpc hterm
    · cases hst
  | _ => simp [Event.electoral] at hev

end Cluster

end NothingDNS.Raft
