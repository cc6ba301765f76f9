import NothingDNS.Raft.Boot
/-!
# Crash recovery

A node runs on its data directory, may die between any two file operations of an event, and boots again from what the
crash left. The source does not survive a boundary that moves before its snapshot is on disk: a snapshot installed
from a leader is never saved, and a failed `Save` does not stop the compaction that follows it. `RecoveryOk` names the
steps that do neither, on top of `DurableOk`.
-/

namespace NothingDNS.Raft

open List Storage

namespace Node

section log

variable {D : Type} {H : Host D} {n n₁ : Node D} {req : AppendRequest}

/-- The request carries another term at index `j` than the node's log. -/
def contests (n : Node D) (req : AppendRequest) (j : Nat) : Bool :=
  n.lastSnapshot < j ∧ j ≤ n.lastIndex ∧
    (j = req.prevLogIndex ∧ n.entryTerm j ≠ some req.prevLogTerm ∨
      req.prevLogIndex < j ∧ req.entries[j - req.prevLogIndex - 1]?.any fun e => n.entryTerm j ≠ some e.term)

theorem contests_of_kept (h : n₁.kept = n.kept) (j : Nat) : n₁.contests req j = n.contests req j := by
  have hlg := log_of_kept h
  have hsn := lastSnapshot_of_kept h
  have htr : n₁.lastSnapshotTerm = n.lastSnapshotTerm := congrArg Kept.lastSnapshotTerm h
  have hls : n₁.lastIndex = n.lastIndex := by rw [lastIndex, lastIndex, hlg, hsn]
  have hen : n₁.entryTerm j = n.entryTerm j := by
    unfold entryTerm
    rw [hsn, htr, hls, hlg]
  simp only [contests, hsn, hls, hen]

def Keeps (n : Node D) (req : AppendRequest) (log : List Entry) : Prop :=
  n.log <+: log ∨ ∃ j, n.contests req j = true ∧ n.log.take (j - n.lastSnapshot - 1) <+: log

theorem Reconciled.keeps {todo : List Entry} {n' : Node D} {k : Option Nat}
    (h : Reconciled n (req.prevLogIndex + 1) req.entries n' todo k) : Keeps n req n'.log := by
  cases h with
  | same => exact .inl (prefix_refl _)
  | append => exact .inl (prefix_append _ _)
  | @replace done todo hes hne hsn hj htr =>
    refine .inr ⟨req.prevLogIndex + 1 + done.length, ?_, prefix_append _ _⟩
    obtain ⟨e, rest, rfl⟩ := exists_cons_of_ne_nil hne
    have hat : req.entries[req.prevLogIndex + 1 + done.length - req.prevLogIndex - 1]? = some e := by
      rw [hes, show req.prevLogIndex + 1 + done.length - req.prevLogIndex - 1 = done.length by omega]
      simp
    have hd : n.entryTerm (req.prevLogIndex + 1 + done.length) ≠ some e.term := fun heq =>
      htr e rfl (by rw [heq]; rfl)
    simp only [contests, hat, Option.any_some, decide_eq_true_eq]
    exact ⟨hsn, hj, .inr ⟨by omega, hd⟩⟩

theorem appendMatched_keeps (hpr : req.prevLogIndex ≤ n.lastIndex) : Keeps n req (n.appendMatched H req).1.log := by
  have hrc := reconcile_spec n req.entries (req.prevLogIndex + 1) (by omega) (by omega)
  unfold appendMatched
  rcases hr : n.reconcile (req.prevLogIndex + 1) req.entries with ⟨n', todo, k⟩
  rw [hr] at hrc
  obtain ⟨d, hd⟩ := persistReconciled_fst H n' todo k
  simp only
  rcases hp : n'.persistReconciled H todo k with ⟨m, ok⟩
  rw [hp] at hd
  simp only at hd
  subst hd
  cases ok with
  | false => exact hrc.keeps
  | true =>
    simp only [if_not_true, advanceFollowerCommit]
    split <;> exact hrc.keeps

theorem appendEntriesLocked_keeps (H : Host D) (n : Node D) (req : AppendRequest) :
    n.log <+: (n.appendEntriesLocked H req).1.log ∨
      n.currentTerm ≤ req.term ∧ Keeps n req (n.appendEntriesLocked H req).1.log := by
  by_cases htr : req.term < n.currentTerm
  · rw [appendEntriesLocked, if_pos htr]
    exact .inl (prefix_refl _)
  refine .inr ⟨not_lt.1 htr, ?_⟩
  rcases appendEntriesLocked_calm (H := H) n req with ⟨hc, -⟩ | ⟨n₁, hc, heq⟩
  · exact .inl (log_of_kept hc.1 ▸ prefix_refl _)
  have hlg := log_of_kept hc.1
  have hsn := lastSnapshot_of_kept hc.1
  have hkp : ∀ {log}, Keeps n₁ req log → Keeps n req log := by
    intro log h
    simpa only [Keeps, hlg, hsn, contests_of_kept hc.1] using h
  rw [heq]
  refine hkp ?_
  unfold appendChecked
  by_cases hb : n₁.lastIndex < req.prevLogIndex
  · simp only [if_pos hb]
    exact .inl (prefix_refl _)
  simp only [if_neg hb]
  split
  next hcf =>
    have hct : (n₁.truncateFrom req.prevLogIndex).log =
        n₁.log.take (req.prevLogIndex - n₁.lastSnapshot - 1) := by
      unfold truncateFrom
      split
      · rw [show req.prevLogIndex - n₁.lastSnapshot - 1 = 0 by omega, take_zero]
      · rfl
    have hcn : n₁.contests req req.prevLogIndex = true := by
      simp only [contests, decide_eq_true_eq]
      exact ⟨hcf.1, not_lt.1 hb, .inl ⟨trivial, hcf.2⟩⟩
    have hl' : ((n₁.truncateFrom req.prevLogIndex).persistTruncateLocked H (req.prevLogIndex - 1)).1.log =
        n₁.log.take (req.prevLogIndex - n₁.lastSnapshot - 1) := hct
    refine .inr ⟨req.prevLogIndex, hcn, ?_⟩
    rcases ht : (n₁.truncateFrom req.prevLogIndex).persistTruncateLocked H (req.prevLogIndex - 1) with ⟨m, ok⟩
    rw [ht] at hl'
    cases ok <;> exact hl' ▸ prefix_refl _
  · exact appendMatched_keeps (not_lt.1 hb)

theorem appendEntriesLocked_agree {idx : Nat} (hix : idx ≤ n.lastIndex)
    (h : req.term < n.currentTerm ∨ ∀ j ≤ idx, n.contests req j = false) :
    Agree (idx - n.lastSnapshot) n.log (n.appendEntriesLocked H req).1.log := by
  have hlen : idx - n.lastSnapshot ≤ n.log.length := by
    unfold lastIndex at hix
    omega
  rcases appendEntriesLocked_keeps H n req with hp | ⟨htr, hp | ⟨j, hj, hp⟩⟩
  · exact .of_isPrefix hp hlen
  · exact .of_isPrefix hp hlen
  · rcases h with h | h
    · omega
    have hgt : idx < j := by
      by_contra hle
      rw [h j (not_lt.1 hle)] at hj
      exact absurd hj Bool.false_ne_true
    have htk : idx - n.lastSnapshot ≤ j - n.lastSnapshot - 1 := by omega
    exact (Agree.take_left htk).symm.trans (.of_isPrefix hp (by rw [length_take]; omega))

end log

section image

variable {K : Option Sealing} {n m : Node Storage} {stale : List Entry} {d : Disk}

/-- Whatever a crash leaves of the directory `d` while `n` moves to `m` stands for a history that
keeps every entry of `n` that `m` keeps. -/
def Recoverable (K : Option Sealing) (n m : Node Storage) (d : Disk) : Prop :=
  ∀ w ∈ d.crashLogs, ∀ keep, ∃ H b es, Reads w es ∧ Represents K H b es (d.crashSnapshots keep) ∧
    ∀ k ≤ n.held.length, Agree k n.held m.held → Agree k H n.held

variable {f : SnapshotFile}

theorem mem_crashSnapshots {keep : SnapshotFile → Bool} (h : f ∈ d.crashSnapshots keep) :
    f ∈ d.snapshots := mem_of_mem_filter h

theorem durable_mem_crashSnapshots (h : f ∈ d.snapshots) (hd : f.durable = true)
    (keep : SnapshotFile → Bool) : f ∈ d.crashSnapshots keep :=
  mem_filter.2 ⟨h, by rw [hd]; rfl⟩

theorem Filed.drop_held (hf : n.Filed K) {k : Nat} (hk : n.lastSnapshot ≤ k) :
    n.held.drop k = n.log.drop (k - n.lastSnapshot) := by
  have hcv : n.snapshotBytes.covers.drop k = [] := drop_eq_nil_of_le (by rw [hf.length]; exact hk)
  rw [held, drop_append, hf.length, hcv, nil_append]

theorem Filed.length_held (hf : n.Filed K) : n.held.length = n.lastIndex := by
  rw [held, length_append, hf.length, lastIndex]

theorem Filed.recoverable_image (hf : n.Filed K) (hs : n.InSync stale)
    (hkp : m.kept = { n.kept with log := m.log }) (hd : Image n stale m.log d)
    (hts : ∀ snap, n.snapshotTask.pending = some snap → Agree (snap.lastIndex - n.lastSnapshot) n.log m.log) :
    Recoverable K n m d := by
  intro w hw keep
  obtain ⟨l, hrd, hl⟩ := hd.2 w hw
  have hb : m.snapshotBytes = n.snapshotBytes := congrArg Kept.snapshotBytes hkp
  have hdr : (n.snapshotBytes.covers ++ l).drop n.lastSnapshot = l := by rw [← hf.length, drop_left]
  -- agreement of the logs is agreement of the histories
  have har : ∀ k ≤ n.held.length, Agree (k - n.lastSnapshot) n.log m.log →
      Agree k (n.snapshotBytes.covers ++ l) n.held := by
    intro k hk ha
    rw [held, Agree.append_iff, hf.length]
    refine hl.agree _ ?_ ha
    rw [hf.length_held, lastIndex] at hk
    omega
  refine ⟨n.snapshotBytes.covers ++ l, n.lastSnapshot, stale ++ l, hrd, ⟨?_, ?_, ?_, ?_⟩, fun k hk ha => ?_⟩
  · rw [hdr]
    exact ⟨stale, rfl, hs.stale⟩
  · rw [hdr]
    exact hl.coherent
  · intro h0
    obtain ⟨f, hmem, hdu, hix⟩ := hf.base h0
    exact ⟨f, durable_mem_crashSnapshots (hd.1 ▸ hmem) hdu keep, hix⟩
  · intro f hmem hix
    have hm' : f ∈ n.disk.disk.snapshots := hd.1 ▸ mem_crashSnapshots hmem
    have hof := hf.file f hm' hix
    refine hof.of_agree (har _ hof.le ?_)
    rcases Nat.eq_or_lt_of_le hix with heq | hlt
    · rw [heq, Nat.sub_self]
      exact .zero _ _
    · obtain ⟨snap, hsv, hfi⟩ := hf.above f hm' hlt
      rw [hfi]
      exact hts snap (by rw [hsv]; rfl)
  · refine har k hk ?_
    rwa [held, held, hb, Agree.append_iff, hf.length] at ha

theorem Filed.recoverable_all (hf : n.Filed K) (hs : n.InSync stale) {c : Nat} (hc : n.lastSnapshot ≤ c)
    (hlg : ∀ w ∈ d.crashLogs, ∃ es, Reads w es ∧ Compacted c (n.log.drop (c - n.lastSnapshot)) es)
    (hb : 0 < c → ∃ f ∈ d.snapshots, f.durable = true ∧ f.index = c)
    (hfl : ∀ f ∈ d.snapshots, c ≤ f.index → f.Of K n.held) : Recoverable K n m d := by
  intro w hw keep
  obtain ⟨es, hrd, hcm⟩ := hlg w hw
  have hch : Coherent c (n.held.drop c) := by
    have := hs.coherent.drop (c - n.lastSnapshot)
    rwa [show n.lastSnapshot + (c - n.lastSnapshot) = c by omega, ← hf.drop_held hc] at this
  refine ⟨n.held, c, es, hrd, ⟨by rw [hf.drop_held hc]; exact hcm, hch, fun h0 => ?_, fun f hmem hix =>
    hfl f (mem_crashSnapshots hmem) hix⟩, fun k _ _ => .refl _ _⟩
  obtain ⟨f, hmem, hd, hix⟩ := hb h0
  exact ⟨f, durable_mem_crashSnapshots hmem hd keep, hix⟩

theorem InSync.reads_crashLogs (hs : n.InSync stale) {w : Bytes} (hw : w ∈ n.disk.disk.crashLogs) :
    ∃ es, Reads w es ∧ Compacted n.lastSnapshot (n.log.drop (n.lastSnapshot - n.lastSnapshot)) es := by
  rw [hs.disk.crashLogs_eq, mem_singleton] at hw
  rw [Nat.sub_self, drop_zero]
  exact ⟨stale ++ n.log, hw ▸ reads_records hs.disk.storable, stale, rfl, hs.stale⟩

theorem Filed.recoverable_self (hf : n.Filed K) (hs : n.InSync stale) : Recoverable K n m n.disk.disk :=
  hf.recoverable_all hs le_rfl (fun _ hw => hs.reads_crashLogs hw) hf.base hf.file

/-- The log is as it was, and the snapshot directory has at most gained the snapshot in hand. -/
structure Grown (K : Option Sealing) (snap : Snapshot) (old d : Disk) : Prop where
  logs : d.crashLogs = old.crashLogs
  durable : ∀ g ∈ old.snapshots, g.durable = true → ∃ f ∈ d.snapshots, f.durable = true ∧ f.index = g.index
  file : ∀ f ∈ d.snapshots,
    (∃ g ∈ old.snapshots, f.index = g.index ∧ f.bytes = g.bytes ∧ f.covers = g.covers) ∨
      f.index = snap.lastIndex ∧ f.bytes = writeSnapshot K snap ∧ f.covers = snap.data.covers

theorem Grown.refl (K : Option Sealing) (snap : Snapshot) (d : Disk) : Grown K snap d d :=
  ⟨rfl, fun g hg hd => ⟨g, hg, hd, rfl⟩, fun f hf => .inl ⟨f, hf, rfl, rfl, rfl⟩⟩

theorem saveSnapshot_grown (s : Storage) (snap : Snapshot) :
    Storage.Through (Grown K snap s.disk) s (s.saveSnapshot K snap).1 ∧
      Grown K snap s.disk (s.saveSnapshot K snap).1.disk := by
  have hp : Grown K snap s.disk { s.disk with
      snapshots := ⟨snap.lastIndex, writeSnapshot K snap, snap.data.covers, false⟩ :: s.disk.snapshots } := by
    refine ⟨rfl, fun g hg hd => ⟨g, mem_cons_of_mem _ hg, hd, rfl⟩, forall_mem_cons.2 ⟨.inr ⟨rfl, rfl, rfl⟩, ?_⟩⟩
    exact fun f hf => .inl ⟨f, hf, rfl, rfl, rfl⟩
  have hsy : Grown K snap s.disk { s.disk with
      snapshots := (⟨snap.lastIndex, writeSnapshot K snap, snap.data.covers, false⟩ ::
        s.disk.snapshots).map fun f => { f with durable := true } } := by
    refine ⟨rfl, fun g hg _ => ⟨{ g with durable := true }, ?_, rfl, rfl⟩, fun f hf => ?_⟩
    · exact mem_map.2 ⟨g, mem_cons_of_mem _ hg, rfl⟩
    · obtain ⟨x, hx, rfl⟩ := mem_map.1 hf
      exact hp.file x hx
  unfold saveSnapshot
  cases s.next with
  | ok => exact ⟨((Storage.Through.of_trace (t := s.pop) rfl).put hp).put hsy, hsy⟩
  | failed k =>
    cases k with
    | zero => exact ⟨.of_trace rfl, .refl _ _ _⟩
    | succ k => exact ⟨(Storage.Through.of_trace (t := s.pop) rfl).put hp, hp⟩

variable {snap : Snapshot}

theorem Filed.file_grown (hf : n.Filed K) (hts : n.snapshotTask = .captured snap)
    (hd : Grown K snap n.disk.disk d) (hmem : f ∈ d.snapshots) (hix : n.lastSnapshot ≤ f.index) : f.Of K n.held := by
  obtain ⟨hle, hcv, hft⟩ := hf.task snap (by rw [hts]; rfl)
  rcases hd.file f hmem with ⟨g, hg, hi, hb, hc⟩ | ⟨hi, hb, hc⟩
  · have hof := hf.file g hg (hi ▸ hix)
    exact ⟨hi ▸ hof.le, by rw [hc, hi]; exact hof.covers, by rw [hb, hi]; exact hof.readable⟩
  · refine ⟨hi ▸ hle, by rw [hc, hi]; exact hcv, snap.lastTerm, snap.data.bytes, ?_⟩
    rw [hb, hi, readSnapshot_writeSnapshot K hft]
    rfl

theorem Filed.base_grown (hf : n.Filed K) (hd : Grown K snap n.disk.disk d)
    (h0 : 0 < n.lastSnapshot) : ∃ f ∈ d.snapshots, f.durable = true ∧ f.index = n.lastSnapshot := by
  obtain ⟨g, hg, hgd, hgi⟩ := hf.base h0
  obtain ⟨f, hmem, hdr, hfi⟩ := hd.durable g hg hgd
  exact ⟨f, hmem, hdr, hfi.trans hgi⟩

theorem Filed.recoverable_grown (hf : n.Filed K) (hs : n.InSync stale)
    (hts : n.snapshotTask = .captured snap) (hd : Grown K snap n.disk.disk d) : Recoverable K n m d :=
  hf.recoverable_all hs le_rfl (fun _ hw => hs.reads_crashLogs (hd.logs ▸ hw)) (hf.base_grown hd)
    fun _ hmem hix => hf.file_grown hts hd hmem hix

end image

/-! ## The directory after an event -/

section after

variable {K : Option Sealing} {n m : Node Storage} {stale : List Entry}

theorem Filed.of_log (hf : n.Filed K) (hkp : m.kept = { n.kept with log := m.log })
    (hsn : m.disk.disk.snapshots = n.disk.disk.snapshots)
    (hts : ∀ snap, n.snapshotTask.pending = some snap → Agree (snap.lastIndex - n.lastSnapshot) n.log m.log) :
    m.Filed K := by
  have hb : m.snapshotBytes = n.snapshotBytes := congrArg Kept.snapshotBytes hkp
  have hls : m.lastSnapshot = n.lastSnapshot := congrArg Kept.lastSnapshot hkp
  have ht' : m.snapshotTask = n.snapshotTask := congrArg Kept.snapshotTask hkp
  have har : ∀ k, Agree (k - n.lastSnapshot) n.log m.log → Agree k m.held n.held := by
    intro k ha
    rw [held, held, hb, Agree.append_iff, hf.length]
    exact ha.symm
  refine ⟨by rw [hb, hls]; exact hf.length, by rw [hls, hsn]; exact hf.base, ?_, ?_, ?_⟩
  · intro f hmem hix
    rw [hsn] at hmem
    rw [hls] at hix
    refine (hf.file f hmem hix).of_agree (har _ ?_)
    rcases Nat.eq_or_lt_of_le hix with heq | hlt
    · rw [heq, Nat.sub_self]
      exact .zero _ _
    · obtain ⟨snap, hsv, hfi⟩ := hf.above f hmem hlt
      rw [hfi]
      exact hts snap (by rw [hsv]; rfl)
  · intro snap hsp
    rw [ht'] at hsp
    obtain ⟨hle, hcv, hft⟩ := hf.task snap hsp
    have ha := har _ (hts snap hsp)
    exact ⟨ha.le_length hle, hcv.trans ha.symm, hft⟩
  · rw [hsn, hls, ht']
    exact hf.above

theorem Filed.of_unmoved (hf : n.Filed K) (h : Unmoved n m) : m.Filed K := by
  have hlg := log_of_kept h.kept
  refine hf.of_log (by rw [h.kept, hlg]; rfl) (congrArg Disk.snapshots h.disk) fun _ _ => ?_
  rw [hlg]
  exact .refl _ _

end after

end Node

/-- A durable file in the directory holds the snapshot at `idx` that covers `covers`. -/
def Disk.hasSnapshot (d : Disk) (idx : Nat) (covers : List Entry) : Bool :=
  d.snapshots.any fun f => f.durable ∧ f.index = idx ∧ f.covers = covers

namespace LogKeeper

open Node

/-- What an event must not do to the snapshots on disk: change what a snapshot in the making covers,
make one that does not fit the file format, or move the boundary to one that is not durable. -/
def archivable (n : Node Storage) : Event → Bool
  | .appendRequest _ req => req.term < n.currentTerm ∨
      ∀ snap ∈ n.snapshotTask.pending, ∀ j ≤ snap.lastIndex, n.contests req j = false
  | .snapshotRequest _ req => req.term < n.currentTerm ∨ req.lastIndex ≤ n.lastSnapshot ∨
      req.lastIndex ≤ n.commitIndex ∨ n.disk.disk.hasSnapshot req.lastIndex req.data.covers
  | .takeSnapshot idx bytes => idx < 0xE0 * 2 ^ 56 ∧ bytes.length ≤ maxSnapshotDataBytes
  | .installLeaderSnapshot => ∀ snap ∈ n.snapshotTask.pending,
      snap.lastIndex ≤ n.lastSnapshot ∨ n.disk.disk.hasSnapshot snap.lastIndex snap.data.covers
  | _ => true

section event

variable {K : Option Sealing} {n m : Node Storage} {stale : List Entry} {ev : Event} {sends : List Send}

/-- What one event does for recovery: where it dies, the directory is recoverable, and where it ends
without a harmful failure, the directory backs the node again. -/
def Recovers (K : Option Sealing) (ev : Event) (n m : Node Storage) : Prop :=
  (∀ d ∈ m.disk.trace, Recoverable K n m d) ∧ ((∀ f ∈ m.disk.faults, f.harmless ev = true) → m.Filed K)

theorem recovers_unmoved (hf : n.Filed K) (h0 : n.disk.trace = []) (h : Unmoved n m) : Recovers K ev n m := by
  refine ⟨fun d hd => ?_, fun _ => hf.of_unmoved h⟩
  rw [h.trace, h0] at hd
  exact absurd hd not_mem_nil

theorem exists_of_hasSnapshot {d : Disk} {idx : Nat} {covers : List Entry} (h : d.hasSnapshot idx covers = true) :
    ∃ f ∈ d.snapshots, f.durable = true ∧ f.index = idx ∧ f.covers = covers := by
  obtain ⟨f, hmem, hf⟩ := any_eq_true.1 h
  exact ⟨f, hmem, of_decide_eq_true hf⟩

variable (hs : n.InSync stale) (hf : n.Filed K) (h0 : n.disk.trace = [])
include hs hf h0

theorem recovers_append {sender : NodeID}
    {req : AppendRequest} (hrq : req.Carried) (har : archivable n (.appendRequest sender req) = true) :
    Recovers K (.appendRequest sender req) n (n.appendEntriesLocked (host K) req).1 := by
  obtain ⟨hst, -⟩ := appendEntriesLocked_stored (K := K) hs hrq
  have hts : ∀ snap, n.snapshotTask.pending = some snap → Agree (snap.lastIndex - n.lastSnapshot) n.log
      (n.appendEntriesLocked (host K) req).1.log := by
    intro snap hsn
    refine appendEntriesLocked_agree (hf.length_held ▸ (hf.task snap hsn).1) ?_
    exact (of_decide_eq_true har).imp_right fun h => h snap hsn
  exact ⟨fun d hd => hf.recoverable_image hs hst.kept (hst.through.all h0 d hd) hts,
    fun hh => hf.of_log hst.kept (settled_of_harmless hst hh).2 hts⟩

theorem recovers_propose {command : Bytes} {type : EntryType} (hok : n.ProposalOk command type) (ev : Event) :
    Recovers K ev n (n.proposeEntry (host K) command type).1 := by
  obtain ⟨hkp, hp, hth, hen⟩ := proposeEntry_stored (K := K) hs hok
  have hts : ∀ snap, n.snapshotTask.pending = some snap → Agree (snap.lastIndex - n.lastSnapshot) n.log
      (n.proposeEntry (host K) command type).1.log := by
    intro snap hsn
    refine .of_isPrefix hp ?_
    have := (hf.task snap hsn).1
    rw [hf.length_held, lastIndex] at this
    omega
  refine ⟨fun d hd => hf.recoverable_image hs hkp (hth.all h0 d hd) hts, fun hh => ?_⟩
  refine hf.of_log hkp (hen fun k hk => ?_).2 hts
  have := hh _ hk
  simp only [Fault.harmless, Bool.and_eq_true, decide_eq_true_eq] at this
  exact this.1

theorem recovers_boundary {c : Nat} (hc : n.lastSnapshot ≤ c) (hle : c ≤ n.held.length)
    (hm : m.disk = ((host K).compactBefore n.disk c).1) (hls : m.lastSnapshot = c)
    (hcv : m.snapshotBytes.covers = n.held.take c) (hlo : m.log = n.log.drop (c - n.lastSnapshot))
    (hb : ∃ f ∈ n.disk.disk.snapshots, f.durable = true ∧ f.index = c) (hmx : ∀ f ∈ n.disk.disk.snapshots, f.index ≤ c)
    (hts : ∀ snap, m.snapshotTask.pending = some snap → n.snapshotTask.pending = some snap) : Recovers K ev n m := by
  obtain ⟨hth, hen⟩ := compact_spec (K := K) hs hc
  rw [← hm] at hth hen
  refine ⟨fun d hd => ?_, fun hhr => ?_⟩
  · obtain ⟨hsn, hlg⟩ := hth.all h0 d hd
    exact hf.recoverable_all hs hc hlg (fun _ => hsn ▸ hb)
      fun f hmem hix => hf.file f (hsn ▸ hmem) (hc.trans hix)
  · rcases hen with ⟨⟨es, -, -, hsn⟩, -⟩ | ⟨k, hk, hfl⟩
    · have hh : m.held = n.held := by
        rw [held, hcv, hlo, ← hf.drop_held hc, take_append_drop]
      refine ⟨?_, fun _ => by rw [hsn, hls]; exact hb, fun f hmem hix => ?_, fun snap hsp => ?_, fun f hmem hix => ?_⟩
      · rw [hcv, hls, length_take]
        exact min_eq_left hle
      · rw [hh]
        exact hf.file f (hsn ▸ hmem) (hc.trans (hls ▸ hix))
      · rw [hh]
        exact hf.task snap (hts snap hsp)
      · exact absurd (hmx f (hsn ▸ hmem)) (not_le.2 (hls ▸ hix))
    · exact absurd (by simpa [Fault.harmless] using hhr _ hfl) hk

theorem recovers_snapshotRequest
    {sender : NodeID} {req : SnapshotRequest} (hre : recordable n (.snapshotRequest sender req) = true)
    (har : archivable n (.snapshotRequest sender req) = true) :
    Recovers K ev n (n.handleSnapshotRequest (host K) req).1 := by
  rcases handleSnapshotRequest_unmoved (K := K) n req with
    hc | ⟨htr, hsn, hcm, n₁, hc, heq⟩
  · exact recovers_unmoved hf h0 hc
  have hs1 := hs.of_unmoved hc
  have hf1 := hf.of_unmoved hc
  have hls1 := lastSnapshot_of_kept hc.kept
  have hl1 := log_of_kept hc.kept
  have hh1 : n₁.held = n.held := by
    rw [held, held, hl1, show n₁.snapshotBytes = n.snapshotBytes from congrArg Kept.snapshotBytes hc.kept]
  have hd1 := hc.disk
  have ht1 := hc.trace
  simp only [recordable, archivable, decide_eq_true_eq] at hre har
  obtain ⟨f, hmem, hdr, hix, hcv⟩ :=
    exists_of_hasSnapshot (d := n.disk.disk) (((har.resolve_left (not_lt.2 htr)).resolve_left
      (not_le.2 hsn)).resolve_left (not_le.2 hcm))
  have hof := hf.file f hmem (by omega)
  have hle := hof.le
  have hlen := hf.length_held
  -- the snapshot covers the node's whole history
  have hall : req.lastIndex = n.lastIndex := by omega
  have hrc : Recovers K ev n₁ (n₁.installSnapshot (host K) req) := by
    refine recovers_boundary hs1 hf1 (ht1.trans h0) (c := req.lastIndex) (by omega) (by rw [hh1]; omega)
      rfl rfl ?_ ?_ ⟨f, hd1 ▸ hmem, hdr, hix⟩ (fun g hg => ?_) (fun _ h => h)
    · show req.data.covers = _
      rw [← hcv, hof.covers, hix, hh1]
    · show [] = _
      rw [drop_eq_nil_of_le]
      simp only [lastIndex] at hall
      rw [hl1]
      omega
    · by_contra hgt
      have := (hf.file g (hd1 ▸ hg) (by omega)).le
      omega
  rw [heq]
  refine ⟨fun d hd w hw keep => ?_, hrc.2⟩
  obtain ⟨H, b, es, hr, hrp, ha⟩ := hrc.1 d hd w hw keep
  exact ⟨H, b, es, hr, hrp, by rw [← hh1]; exact ha⟩

variable {snap : Snapshot}

theorem recovers_takeSnapshot {idx : Nat}
    {bytes : Bytes} (hil : n.snapshotTask = .idle) (htk : n.takeSnapshot idx bytes = some snap)
    (har : archivable n (.takeSnapshot idx bytes) = true) :
    Recovers K ev n { n with snapshotTask := .captured snap } := by
  simp only [archivable, decide_eq_true_eq] at har
  obtain ⟨hix, hgt, htr, hcv⟩ := takeSnapshot_eq_some htk
  have hb : snap.data.bytes = bytes := by
    unfold takeSnapshot at htk
    split at htk
    · obtain ⟨t, -, rfl⟩ := Option.map_eq_some_iff.1 htk
      rfl
    · cases htk
  -- the index is in the log, so its term fits the file
  have ht' := htr
  rw [entryTerm, if_neg (by omega), if_neg (by omega)] at ht'
  split at ht'
  · cases ht'
  rename_i hin
  obtain ⟨e, he, het⟩ := Option.map_eq_some_iff.1 ht'
  have hft : Fits snap := ⟨hix ▸ har.1, het ▸ (hs.storable e (mem_of_getElem? he)).2.1, by rw [hb]; exact har.2⟩
  refine ⟨fun d hd => absurd hd (by rw [h0]; exact not_mem_nil), fun _ =>
    ⟨hf.length, hf.base, hf.file, fun x hx => ?_, fun f hmem hlt => ?_⟩⟩
  · cases hx
    refine ⟨?_, by rw [hix]; exact hcv, hft⟩
    show snap.lastIndex ≤ n.held.length
    rw [hf.length_held]
    omega
  · obtain ⟨x, hx, -⟩ := hf.above f hmem hlt
    rw [hil] at hx
    cases hx

theorem recovers_saveSnapshot (hts : n.snapshotTask = .captured snap) : Recovers K ev n { n with
      disk := ((host K).saveSnapshot n.disk snap).1, snapshotTask := .saved snap } := by
  obtain ⟨hth, hgr⟩ := saveSnapshot_grown (K := K) n.disk snap
  refine ⟨fun d hd => hf.recoverable_grown hs hts (hth.all h0 d hd), fun _ =>
    ⟨hf.length, hf.base_grown hgr, fun f hmem hix => hf.file_grown hts hgr hmem hix, fun x hx => ?_,
      fun f hmem hlt => ⟨snap, rfl, ?_⟩⟩⟩
  · cases hx
    exact hf.task snap (by rw [hts]; rfl)
  · rcases hgr.file f hmem with ⟨g, hg, hi, -⟩ | ⟨hi, -⟩
    · obtain ⟨x, hx, -⟩ := hf.above g hg (hi ▸ hlt)
      rw [hts] at hx
      cases hx
    · exact hi

theorem recovers_installLeaderSnapshot
    (hts : n.snapshotTask = .saved snap) (har : archivable n .installLeaderSnapshot = true) :
    Recovers K ev n { n.installLeaderSnapshot (host K) snap with snapshotTask := .idle } := by
  obtain ⟨hle, hcv, -⟩ := hf.task snap (by rw [hts]; rfl)
  -- a file above the boundary is the one of this snapshot
  have hav : ∀ f ∈ n.disk.disk.snapshots, n.lastSnapshot < f.index → f.index = snap.lastIndex := by
    intro f hmem hlt
    obtain ⟨x, hx, hi⟩ := hf.above f hmem hlt
    rw [hts] at hx
    cases hx
    exact hi
  unfold installLeaderSnapshot
  split
  next hsk =>
    refine ⟨fun d hd => absurd hd (by rw [h0]; exact not_mem_nil), fun _ =>
      ⟨hf.length, hf.base, hf.file, fun x hx => absurd hx (by simp [SnapshotTask.pending]), fun f hmem hlt => ?_⟩⟩
    have hi := hav f hmem hlt
    have hlen := hf.length_held
    have hlt' : n.lastSnapshot < f.index := hlt
    omega
  next his =>
    have hh := (of_decide_eq_true har) snap (by rw [hts]; rfl)
    obtain ⟨f, hmem, hdr, hi, -⟩ := exists_of_hasSnapshot (hh.resolve_left (by omega))
    refine recovers_boundary hs hf h0 (c := snap.lastIndex) (by omega) hle rfl rfl hcv rfl ⟨f, hmem, hdr, hi⟩
      (fun g hg => ?_) (fun x hx => absurd hx (by simp [SnapshotTask.pending]))
    by_contra hgt
    have := hav g hg (by omega)
    omega

theorem recovers_step (hrc : recordable n ev = true) (har : archivable n ev = true)
    (h : n.step (host K) ev = some (m, sends)) : Recovers K ev n m := by
  by_cases hcl : ev.stores = false
  · exact recovers_unmoved hf h0 (Node.step_calm h hcl).unmoved
  cases ev with simp only [Node.step] at h
  | appendRequest sender req =>
    cases h
    exact recovers_append hs hf h0 (of_decide_eq_true hrc) har
  | snapshotRequest sender req =>
    cases h
    exact recovers_snapshotRequest hs hf h0 hrc har
  | propose command type =>
    cases h
    exact recovers_propose hs hf h0 (of_decide_eq_true hrc) _
  | proposeNoOp =>
    split at h <;> cases h
    obtain ⟨hcr, hen⟩ := recovers_propose hs hf h0 (of_decide_eq_true hrc) .proposeNoOp
    exact ⟨hcr, fun hh => (hen hh).of_unmoved ⟨rfl, rfl, rfl, rfl⟩⟩
  | takeSnapshot idx bytes =>
    split at h
    next hil htk =>
      cases h
      exact recovers_takeSnapshot hs hf h0 hil htk har
    · cases h
  | saveSnapshot =>
    split at h
    next hts =>
      cases h
      exact recovers_saveSnapshot hs hf h0 hts
    · cases h
  | installLeaderSnapshot =>
    split at h
    next hts =>
      cases h
      exact recovers_installLeaderSnapshot hs hf h0 hts har
    · cases h
  | _ => exact absurd rfl hcl

end event

/-! ## Runs with crashes -/

/-- What happens to a node: an event, or a crash in the middle of one (`during`) or between two.
The crash hits at the `point`-th directory the event passes through and leaves the `pick`-th content
the log may then have and the snapshot files that `keep` says. -/
inductive Act where
  | event (ev : Event)
  | crash (during : Option Event) (point pick : Nat) (keep : SnapshotFile → Bool) (hs : HardState)
      (outcomes : List Outcome)

/-- The node an interrupted event was about to become, and the directories on the way. -/
def interrupted (K : Option Sealing) (n : Node Storage) : Option Event → Option (Node Storage × List Disk)
  | none => some (n, [n.disk.disk])
  | some ev => ((quiet n).step (Storage.host K) ev).map fun r => (r.1, n.disk.disk :: r.1.disk.trace)

def act (K : Option Sealing) (s : LogKeeper) : Act → Option LogKeeper
  | .event ev => step K s ev
  | .crash during point pick keep hs outcomes =>
    (interrupted K s.node during).bind fun r =>
      r.2[point]?.bind fun d => d.crashLogs[pick]?.bind fun w =>
        (bootstrapState K s.node hs w (d.crashSnapshots keep) outcomes).map fun n => ⟨n, true⟩

/-- `DurableOk`, and the event is one the snapshot directory survives. -/
def EventOk (s : LogKeeper) (ev : Event) : Prop := s.DurableOk ev ∧ archivable s.node ev = true

def CrashOk (s : LogKeeper) : Option Event → Prop
  | some ev => s.EventOk ev
  | none => s.intact = true

def RecoveryOk (s : LogKeeper) : Act → Prop
  | .event ev => s.EventOk ev
  | .crash during _ _ _ _ _ => s.CrashOk during

instance (s : LogKeeper) (ev : Event) : Decidable (s.EventOk ev) := inferInstanceAs (Decidable (_ ∧ _))

instance (s : LogKeeper) : ∀ during, Decidable (s.CrashOk during)
  | some ev => inferInstanceAs (Decidable (s.EventOk ev))
  | none => inferInstanceAs (Decidable (_ = _))

instance (s : LogKeeper) : ∀ a, Decidable (s.RecoveryOk a)
  | .event ev => inferInstanceAs (Decidable (s.EventOk ev))
  | .crash during _ _ _ _ _ => inferInstanceAs (Decidable (s.CrashOk during))

variable {K : Option Sealing} {s t : LogKeeper}

def Backed (K : Option Sealing) (s : LogKeeper) : Prop :=
  s.intact = true → (∃ stale, s.node.InSync stale) ∧ s.node.Filed K

theorem archivable_quiet (n : Node Storage) (ev : Event) : archivable (quiet n) ev = archivable n ev := by
  cases ev <;> rfl

theorem Filed.quiet {n : Node Storage} (hf : n.Filed K) : (quiet n).Filed K := { hf with }

theorem recoverable_interrupted (hb : Backed K s) {during : Option Event} {m : Node Storage} {ds : List Disk}
    (hok : s.CrashOk during) (h : interrupted K s.node during = some (m, ds)) : ∀ d ∈ ds, Recoverable K s.node m d := by
  cases during with
  | none =>
    obtain ⟨⟨stale, hs⟩, hf⟩ := hb hok
    cases h
    intro d hd
    rw [mem_singleton.1 hd]
    exact hf.recoverable_self hs
  | some ev =>
    have hok : s.EventOk ev := hok
    obtain ⟨⟨stale, hs⟩, hf⟩ := hb hok.1.1
    obtain ⟨⟨m', sends⟩, hst, heq⟩ := Option.map_eq_some_iff.1 h
    cases heq
    refine forall_mem_cons.2 ⟨hf.recoverable_self hs, ?_⟩
    exact (recovers_step (InSync.quiet hs) (Filed.quiet hf) rfl ((recordable_quiet _ _).trans hok.1.2)
      ((archivable_quiet _ _).trans hok.2) hst).1

theorem backed_act (hb : Backed K s) {a : Act} (hok : s.RecoveryOk a) (h : act K s a = some t) : Backed K t := by
  cases a with
  | event ev =>
    have ho' : s.EventOk ev := hok
    obtain ⟨⟨m, sends⟩, hm, rfl⟩ := Option.map_eq_some_iff.1 h
    intro hint
    obtain ⟨⟨stale, hs⟩, hf⟩ := hb ho'.1.1
    simp only [Bool.and_eq_true, all_eq_true] at hint
    have hrc := (recordable_quiet s.node ev).trans ho'.1.2
    exact ⟨inSync_step (InSync.quiet hs) hrc hm hint.2, (recovers_step (InSync.quiet hs) (Filed.quiet hf) rfl hrc
      ((archivable_quiet _ _).trans ho'.2) hm).2 hint.2⟩
  | crash during point pick keep hs outcomes =>
    simp only [act, Option.bind_eq_some_iff, Option.map_eq_some_iff] at h
    obtain ⟨⟨m, ds⟩, hint, d, hd, w, hw, R, hR, rfl⟩ := h
    have hrc := recoverable_interrupted hb hok hint
    obtain ⟨H, b, es, hrd, hrp, -⟩ := hrc d (mem_of_getElem? hd) w (mem_of_getElem? hw) keep
    obtain ⟨R', hR', -, hsy, hfl⟩ := bootstrapState_represents hrd hrp s.node hs outcomes
    rw [hR] at hR'
    cases hR'
    exact fun _ => ⟨hsy, hfl⟩

/-- **Crash recovery.** After a run that meets `RecoveryOk`, let the node die anywhere in a conforming
event or between two. Boot succeeds on whatever the crash left, and the node holds the entries it
held before as far as the interrupted event keeps them. -/
theorem crash_recovery {id : NodeID} {peers : List NodeID} {outcomes : List Outcome} {acts : List Act}
    (h : Run.exec (act K) (init id peers outcomes) acts = some s)
    (hok : Run.Meets (act K) RecoveryOk (init id peers outcomes) acts)
    {during : Option Event} (hduring : s.CrashOk during) {m : Node Storage} {ds : List Disk}
    (hint : interrupted K s.node during = some (m, ds)) {d : Disk} (hd : d ∈ ds) {w : Bytes}
    (hw : w ∈ d.crashLogs) (keep : SnapshotFile → Bool) (hs : HardState) (next : List Outcome) :
    ∃ R, bootstrapState K s.node hs w (d.crashSnapshots keep) next = some R ∧ Coherent R.lastSnapshot R.log ∧
      ∀ k ≤ s.node.held.length, Agree k s.node.held m.held → ∀ i ≤ k, R.entryAt i = s.node.entryAt i := by
  have hb : Backed K s := by
    refine Run.invariant (fun _ _ _ hb hok hs => backed_act hb hok hs) acts h hok fun hint => ?_
    exact ⟨inv_init id peers outcomes hint, rfl, fun h => absurd h (lt_irrefl 0), nofun,
      fun snap hsn => absurd hsn (by simp [init, newNode, SnapshotTask.pending]), nofun⟩
  obtain ⟨X, b, es, hrd, hrp, har⟩ := recoverable_interrupted hb hduring hint d hd w hw keep
  obtain ⟨R, hR, hh, ⟨stale, hsy⟩, -⟩ := bootstrapState_represents hrd hrp s.node hs next
  refine ⟨R, hR, hsy.coherent, fun k hk ha i hi => ?_⟩
  have hsm := har k hk ha
  rw [← hh] at hsm
  unfold Node.entryAt
  split
  · rfl
  · exact hsm.getElem? (by omega)

def savedRun : List Act :=
  leaderRun.map .event ++ [.event .proposeNoOp, .event (.propose [7] entryNormal),
    .event (.takeSnapshot 2 [1]), .event .saveSnapshot]

theorem crash_recovery_savedRun :
    ∃ s, Run.exec (act none) (init [97] [] []) savedRun = some s ∧ s.node.held.length = 2 ∧
      ∃ m ds d w, interrupted none s.node (some .installLeaderSnapshot) = some (m, ds) ∧
        ds[3]? = some d ∧ w ∈ d.crashLogs ∧
        ∃ R, bootstrapState none s.node ⟨1, []⟩ w (d.crashSnapshots fun _ => false) [] = some R ∧
          Coherent R.lastSnapshot R.log ∧ ∀ i ≤ 2, R.entryAt i = s.node.entryAt i := by
  obtain ⟨s, hs, hok, hlen, hay⟩ : ∃ s, Run.exec (act none) (init [97] [] []) savedRun = some s ∧
      s.CrashOk (some .installLeaderSnapshot) ∧ s.node.held.length = 2 ∧
      (interrupted none s.node (some .installLeaderSnapshot)).any (fun r => decide (r.1.held = s.node.held ∧
        (r.2[3]?.any fun d : Disk => decide (0 < d.crashLogs.length)) = true)) = true :=
    Run.exists_of_any (by decide +kernel)
  have hmt : Run.Meets (act none) RecoveryOk (init [97] [] []) savedRun := by decide +kernel
  obtain ⟨⟨m, ds⟩, hint, hh, hd⟩ := Run.exists_of_any hay
  obtain ⟨d, hd, hlg⟩ := Run.exists_of_any hd
  obtain ⟨w, hw⟩ := exists_mem_of_length_pos hlg
  obtain ⟨R, hR, hch, hall⟩ := crash_recovery hs hmt hok hint (mem_of_getElem? hd) hw (fun _ => false)
    ⟨1, []⟩ []
  have hkp : Agree 2 s.node.held m.held := by
    rw [show m.held = s.node.held from hh]
    exact .refl _ _
  exact ⟨s, hs, hlen, m, ds, d, w, hint, hd, hw, R, hR, hch, hall 2 hlen.ge hkp⟩

/-- A follower installs a leader's snapshot of two entries, which is not saved anywhere, and
acknowledges a third. -/
def installedRun : List Act :=
  [.event (.snapshotRequest [98] ⟨1, [98], ⟨[1], [firstEntry, ⟨2, 1, [8], entryNormal, 0⟩]⟩, 2, 1⟩),
    .event (.appendRequest [98] ⟨1, [98], 2, 1, [⟨3, 1, [9], entryNormal, 0⟩], 2⟩)]

def reboot : Act := .crash none 0 0 (fun _ => true) ⟨1, []⟩ []

def saveFails : List Outcome := [.ok, .ok, .ok, .ok, .ok, .ok, .failed 0]

/-- After the follower's crash the boundary is back at 0 while the log starts with entry 3. A leader
whose `Save` fails compacts its log all the same, and a crash then leaves it nothing. -/
theorem acknowledged_entries_lost_in_crash : ((∃ s, Run.exec (act none) (init [97] [[98]] []) installedRun = some s ∧
        s.node.held.map Entry.index = [1, 2, 3]) ∧
      ∃ t, Run.exec (act none) (init [97] [[98]] []) (installedRun ++ [reboot]) = some t ∧
        t.node.lastSnapshot = 0 ∧ t.node.held.map Entry.index = [3]) ∧
    (∃ s, Run.exec (act none) (init [97] [] saveFails)
        (savedRun ++ [.event .installLeaderSnapshot]) = some s ∧ s.node.held.map Entry.index = [1, 2]) ∧
      ∃ t, Run.exec (act none) (init [97] [] saveFails)
        (savedRun ++ [.event .installLeaderSnapshot, reboot]) = some t ∧ t.node.held = [] :=
  ⟨⟨Run.exists_of_any (by decide +kernel), Run.exists_of_any (by decide +kernel)⟩,
    Run.exists_of_any (by decide +kernel), Run.exists_of_any (by decide +kernel)⟩

end LogKeeper

end NothingDNS.Raft
