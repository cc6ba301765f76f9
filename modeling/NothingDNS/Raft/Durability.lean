import NothingDNS.Raft.InSync
import NothingDNS.Lib.Run
/-!
# Acknowledged entries are on disk

A node on its data directory takes any sequence of events while the calls of the persister fail as `Storage.outcomes`
says. What the source does not survive is a failure that leaves memory and disk apart: a follower keeps in memory what
it failed to write and acknowledges it when the leader sends it again; a leader whose `Sync` failed keeps on disk what
it dropped from memory.
-/

namespace NothingDNS.Raft

open List Storage

/-- The entries with index `i` that a replay of the log yields; `none` is a replay that fails. -/
def Disk.replay (d : Disk) (i : Nat) : Option (List Entry) :=
  (readAll d.log.bytes).map fun r => r.1.filter fun e => e.index = i

namespace Node

variable {K : Option Sealing} {n m : Node Storage} {stale l : List Entry}

variable (hs : n.InSync stale)
include hs

theorem InSync.storable : ∀ e ∈ n.log, Storable e := fun e he =>
  hs.disk.storable e (mem_append_right _ he)

variable {i : Nat}

theorem InSync.stale_filter (hi : n.lastSnapshot < i) : stale.filter (fun e => e.index = i) = [] := by
  rw [filter_eq_nil_iff]
  intro e he
  have := hs.stale e he
  simp only [decide_eq_true_eq]
  omega

theorem InSync.replay_eq {d : Disk} (hd : Reads d.log.bytes (stale ++ n.log))
    (hi : n.lastSnapshot < i) : d.replay i = some (n.logAt i).toList := by
  obtain ⟨tail, -, -, hrd⟩ := hd
  rw [Disk.replay, hrd, Option.map_some, filter_append, hs.stale_filter hi, hs.coherent.filter_eq hi,
    logAt, if_neg (not_le.2 hi)]
  rfl

theorem InSync.reads : Reads n.disk.disk.log.bytes (stale ++ n.log) := hs.disk.bytes ▸ reads_records hs.disk.storable

omit hs in
theorem proposeEntry_of_leader (H : Host Storage) (hl : n.state = .leader) (command : Bytes) (type : EntryType) :
    n.proposeEntry H command type = if (writeEntries H n.disk [n.proposed command type]).2 then (({ n with
            log := n.log ++ [n.proposed command type]
            disk := (writeEntries H n.disk [n.proposed command type]).1 } : Node Storage).maybeAdvanceCommitIndex,
          some (n.lastIndex + 1))
      else ({ n with disk := (writeEntries H n.disk [n.proposed command type]).1 }, none) := by
  unfold proposeEntry
  rw [if_neg (not_not_intro hl)]
  show (if (!(writeEntries H n.disk [n.proposed command type]).2) = true then _ else _) = _
  cases (writeEntries H n.disk [n.proposed command type]).2 <;> rfl

theorem InSync.write_failed {e : Entry} (he : Storable e) {k : Nat}
    (ho : n.disk.next = .failed k) : (writeEntries (Storage.host K) n.disk [e]).2 = false ∧
      (writeEntries (Storage.host K) n.disk [e]).1.faults = .write k :: n.disk.faults ∧
      Reads (writeEntries (Storage.host K) n.disk [e]).1.disk.log.bytes (stale ++ n.log) ∧
      (k = 0 → (writeEntries (Storage.host K) n.disk [e]).1.disk = n.disk.disk) := by
  obtain ⟨d, hd, -, -, hb, hzr⟩ := Storage.write_failed hs.disk (e := e) ho
  rw [Storage.writeEntries_cons, hd]
  refine ⟨rfl, rfl, ?_, hzr⟩
  have hst : ∀ x ∈ stale ++ n.log ++ [e], Storable x := by
    exact forall_mem_append.2 ⟨hs.disk.storable, forall_mem_singleton.2 he⟩
  have hsh : (encodeWALEntry e).dropLast.take k <+: encodeWALEntry e :=
    (List.take_prefix _ _).trans (List.dropLast_prefix _)
  have hct : d.log.bytes <+: walMagic ++ records (stale ++ n.log ++ [e]) := by
    rw [hb, records_append (stale ++ n.log), ← append_assoc, prefix_append_right_inj]
    simpa using hsh
  obtain ⟨mid, tail, hlo, hhi, hfl, hrd⟩ := readAll_isPrefix hst (prefix_append _ [e])
    (hb ▸ prefix_append _ _) hct
  -- the whole record of `e` does not fit in what was written
  have hlt : ((encodeWALEntry e).dropLast.take k).length < (encodeWALEntry e).length := by
    have hpos : 0 < (encodeWALEntry e).length := by rw [length_encodeWALEntry]; omega
    rw [length_take, length_dropLast]
    omega
  obtain ⟨x, rfl⟩ := hlo
  have hx : x <+: [e] := (prefix_append_right_inj _).1 hhi
  rcases x with _ | ⟨y, x⟩
  · rw [append_nil] at hfl hrd
    exact ⟨tail, hs.disk.storable, hfl, hrd⟩
  · obtain ⟨rfl, -⟩ := cons_prefix_cons.1 hx
    have hlen := congrArg length (hb.symm.trans hfl)
    simp only [length_append, records_append, records_cons] at hlen
    omega

/-- The entry a proposal builds fits the file format, and `Sync` does not fail after a `Write` that
succeeded. -/
def ProposalOk (n : Node Storage) (command : Bytes) (type : EntryType) : Prop :=
  Storable (n.proposed command type) ∧ (n.disk.next = .ok → n.disk.pop.next = .ok)

instance (n : Node Storage) (command : Bytes) (type : EntryType) : Decidable (n.ProposalOk command type) :=
  inferInstanceAs (Decidable (_ ∧ _))

omit hs in
theorem coherent_proposed (n : Node Storage) (command : Bytes) (type : EntryType) :
    Coherent n.lastIndex [n.proposed command type] := by
  intro k e hk
  obtain ⟨hk0, rfl⟩ := List.getElem?_eq_some_iff.1 hk
  obtain rfl : k = 0 := by simpa using hk0
  rfl

variable {command : Bytes} {type : EntryType}

/-- **`ProposeEntry`.** Unless its `Sync` fails, the entry is on disk exactly when it is accepted. -/
theorem proposeEntry_replay (hok : n.ProposalOk command type) :
    match n.proposeEntry (host K) command type with
    | (m, some i) => m.disk.disk.replay i = some [n.proposed command type]
    | (m, none) => m.disk.disk.replay (n.lastIndex + 1) = some [] := by
  have hb : n.lastSnapshot < n.lastIndex + 1 := by unfold lastIndex; omega
  have hnn : n.logAt (n.lastIndex + 1) = none := by
    rw [logAt, if_neg (not_le.2 hb), getElem?_eq_none (by unfold lastIndex; omega)]
  by_cases hl : n.state = .leader
  swap
  · rw [proposeEntry, if_pos hl]
    simp [hs.replay_eq hs.reads hb, hnn]
  rw [proposeEntry_of_leader _ hl]
  obtain ⟨he, hsy⟩ := hok
  cases ho : n.disk.next with
  | failed k =>
    obtain ⟨hno, -, hrd, -⟩ := InSync.write_failed (K := K) hs he ho
    simp only [hno, Bool.false_eq_true, if_false]
    rw [hs.replay_eq hrd hb, hnn]
    rfl
  | ok =>
    obtain ⟨d, hd, hop, -⟩ := write_ok hs.disk he ho
    obtain ⟨d', hd', ho', -⟩ := sync_ok (s := n.disk.pop.put d) hop (hsy ho)
    have hw : writeEntries (host K) n.disk [n.proposed command type] =
        ((n.disk.pop.put d).pop.put d', true) := by
      rw [writeEntries_cons, hd]
      exact hd'
    obtain ⟨hst, -⟩ := append_stored (K := K) hs
      (fun x hx => mem_singleton.1 hx ▸ he) (coherent_proposed n command type)
    simp only [hw, if_true]
    rw [hw] at hst
    have hs' := hst.inSync hs rfl
    have hrp := hs'.replay_eq hs'.reads hb
    have hat : ({ n with
        log := n.log ++ [n.proposed command type]
        disk := (n.disk.pop.put d).pop.put d' } : Node Storage).logAt (n.lastIndex + 1) =
          some (n.proposed command type) := by
      rw [logAt, if_neg (not_le.2 hb), show n.lastIndex + 1 - n.lastSnapshot - 1 = n.log.length by
        unfold lastIndex; omega]
      simp
    rw [hat] at hrp
    rcases maybeAdvanceCommitIndex_cases ({ n with
        log := n.log ++ [n.proposed command type]
        disk := (n.disk.pop.put d).pop.put d' } : Node Storage) with hm | ⟨-, c, -, -, hm⟩ <;>
      rw [hm] <;> exact hrp

omit hs in
theorem Survives.of_append {x new : List Entry} (h : Survives n (n.log ++ x) l) : Survives n new l :=
  ⟨h.coherent, fun k hk _ => h.agree k hk (Agree.append_left hk).symm⟩

theorem proposeEntry_stored (hok : n.ProposalOk command type) : (n.proposeEntry (host K) command type).1.kept =
        { n.kept with log := (n.proposeEntry (host K) command type).1.log } ∧
      n.log <+: (n.proposeEntry (host K) command type).1.log ∧
      Storage.Through (Image n stale (n.proposeEntry (host K) command type).1.log) n.disk
        (n.proposeEntry (host K) command type).1.disk ∧
      ((∀ k, .write k ∈ (n.proposeEntry (host K) command type).1.disk.faults → k = 0) →
        (n.proposeEntry (host K) command type).1.InSync stale ∧
        (n.proposeEntry (host K) command type).1.disk.disk.snapshots = n.disk.disk.snapshots) := by
  by_cases hl : n.state = .leader
  swap
  · rw [proposeEntry, if_pos hl]
    exact ⟨rfl, prefix_refl _, .refl, fun _ => ⟨hs, rfl⟩⟩
  rw [proposeEntry_of_leader _ hl]
  obtain ⟨hst, hsm⟩ := append_stored (K := K) hs
    (fun x hx => mem_singleton.1 hx ▸ hok.1) (coherent_proposed n command type)
  have hth : ∀ new, Storage.Through (Image n stale new) n.disk
      (writeEntries (host K) n.disk [n.proposed command type]).1 := fun new =>
    hst.through.mono fun d hd => ⟨hd.1, fun w hw => (hd.2 w hw).imp fun _ h => ⟨h.1, h.2.of_append⟩⟩
  cases hw : (writeEntries (host K) n.disk [n.proposed command type]).2 with
  | true =>
    have hs' := hst.inSync hs (hsm hw)
    have hsn : (writeEntries (host K) n.disk [n.proposed command type]).1.disk.snapshots =
        n.disk.disk.snapshots := by
      rcases hst.settled with ⟨-, -, h⟩ | ⟨f, -, h⟩
      · exact h
      · exact absurd ((hsm hw).symm.trans h) ne_cons_self
    rcases maybeAdvanceCommitIndex_cases ({ n with
        log := n.log ++ [n.proposed command type]
        disk := (writeEntries (host K) n.disk [n.proposed command type]).1 } : Node Storage)
      with hm | ⟨-, c, -, -, hm⟩ <;>
      rw [hm] <;>
      exact ⟨rfl, prefix_append _ _, hth _, fun _ => ⟨hs'.congr rfl rfl rfl, hsn⟩⟩
  | false =>
    simp only [Bool.false_eq_true, if_false]
    refine ⟨rfl, prefix_refl _, hth _, fun hf => ?_⟩
    -- only the `Write` can have failed, and it wrote nothing
    cases ho : n.disk.next with
    | failed k =>
      obtain ⟨-, hfl, -, hzr⟩ := InSync.write_failed (K := K) hs hok.1 ho
      have hdk := hzr (hf k (hfl ▸ mem_cons_self))
      exact ⟨hs.congr hdk rfl rfl, congrArg Disk.snapshots hdk⟩
    | ok =>
      obtain ⟨d, hd, hop, -⟩ := write_ok hs.disk hok.1 ho
      obtain ⟨d', hd', -⟩ := sync_ok (s := n.disk.pop.put d) hop (hok.2 ho)
      rw [writeEntries_cons, hd] at hw
      exact absurd ((congrArg Prod.snd hd').symm.trans hw) (by simp)

variable {c : Nat}

theorem InSync.filter_gt (hc : n.lastSnapshot ≤ c) :
    (stale ++ n.log).filter (fun e => c < e.index) = n.log.drop (c - n.lastSnapshot) := by
  have hst : stale.filter (fun e => c < e.index) = [] := by
    rw [filter_eq_nil_iff]
    intro e he
    have := hs.stale e he
    simp only [decide_eq_true_eq]
    omega
  rw [filter_append, hst, hs.coherent.filter_gt, nil_append]

def Compacted (c : Nat) (l es : List Entry) : Prop := ∃ old, es = old ++ l ∧ ∀ e ∈ old, e.index ≤ c

theorem compact_spec (hc : n.lastSnapshot ≤ c) :
    Storage.Through (fun d => d.snapshots = n.disk.disk.snapshots ∧ ∀ w ∈ d.crashLogs, ∃ es,
        Reads w es ∧ Compacted c (n.log.drop (c - n.lastSnapshot)) es) n.disk ((host K).compactBefore n.disk c).1 ∧
      ((∃ es, Compacted c (n.log.drop (c - n.lastSnapshot)) es ∧ ((host K).compactBefore n.disk c).1.disk.Open es es ∧
          ((host K).compactBefore n.disk c).1.disk.snapshots = n.disk.disk.snapshots) ∧
        (∀ f ∈ ((host K).compactBefore n.disk c).1.faults, f ∈ n.disk.faults ∨ f = .compact 0) ∨
      ∃ k, k ≠ 0 ∧ .compact k ∈ ((host K).compactBefore n.disk c).1.faults) := by
  obtain ⟨hth, hen⟩ := rewrite_spec hs.disk .compact fun e => c < e.index
  rw [hs.filter_gt hc] at hth hen
  have hold : Compacted c (n.log.drop (c - n.lastSnapshot)) (stale ++ n.log) := by
    refine ⟨stale ++ n.log.take (c - n.lastSnapshot), by simp, fun e he => ?_⟩
    rcases mem_append.1 he with he | he
    · exact (hs.stale e he).trans hc
    · rw [← hs.coherent.filter_le, mem_filter, decide_eq_true_eq] at he
      exact he.2
  have hnw : Compacted c (n.log.drop (c - n.lastSnapshot)) (n.log.drop (c - n.lastSnapshot)) := ⟨[], rfl, by simp⟩
  refine ⟨hth.mono fun d hd => ⟨hd.1, fun w hw => ?_⟩, ?_⟩
  · rcases hd.2 w hw with rfl | rfl
    · exact ⟨_, reads_records hs.disk.storable, hold⟩
    · exact ⟨_, reads_records fun e he => hs.storable e (mem_of_mem_drop he), hnw⟩
  · rcases hen with ⟨-, hfl, hop, hsn⟩ | ⟨-, k, hfl, hzr⟩
    · exact .inl ⟨⟨_, hnw, hop, hsn⟩, fun f hf => .inl (hfl ▸ hf)⟩
    · by_cases hk : k = 0
      · subst hk
        refine .inl ⟨⟨_, hold, ?_, ?_⟩, fun f hf => ?_⟩
        · have hsm : ((host K).compactBefore n.disk c).1.disk = n.disk.disk := hzr rfl
          rw [hsm]
          exact hs.disk
        · exact congrArg Disk.snapshots (hzr rfl)
        · have hf' : f ∈ Fault.compact 0 :: n.disk.faults := hfl ▸ hf
          exact (mem_cons.1 hf').symm
      · exact .inr ⟨k, hk, hfl ▸ mem_cons_self⟩

theorem InSync.compact (hc : n.lastSnapshot ≤ c)
    (hm : m.disk = ((host K).compactBefore n.disk c).1) (hsn : m.lastSnapshot = c)
    (hlg : m.log = n.log.drop (c - n.lastSnapshot)) (hf : ∀ k, .compact k ∈ m.disk.faults → k = 0) :
    ∃ old, m.InSync old := by
  obtain ⟨-, hen⟩ := compact_spec (K := K) hs hc
  rw [← hm, ← hlg] at hen
  rcases hen with ⟨⟨es, ⟨old, rfl, hold⟩, hop, -⟩, -⟩ | ⟨k, hk, hfl⟩
  · refine ⟨old, hop, by rw [hsn]; exact hold, ?_⟩
    have := hs.coherent.drop (c - n.lastSnapshot)
    rwa [show n.lastSnapshot + (c - n.lastSnapshot) = c by omega, ← hlg, ← hsn] at this
  · exact absurd (hf k hfl) hk

end Node

theorem Storage.saveSnapshot_open {K : Option Sealing} {s : Storage} {lo hi : List Entry}
    (h : s.disk.Open lo hi) (snap : Snapshot) : (s.saveSnapshot K snap).1.disk.Open lo hi := by
  unfold saveSnapshot
  split <;> exact { h with }

/-- Whether the node's log and the file still agree after this failure. -/
def Fault.harmless (ev : Event) : Fault → Bool
  | .write k => k = 0 && match ev with
    | .propose _ _ | .proposeNoOp => true
    | _ => false
  | .sync | .truncate _ => false
  | .compact k => k = 0
  | .save _ => true

/-- A node on its data directory. `intact` is a history variable: every failure so far was
harmless. -/
structure LogKeeper where
  node : Node Storage
  intact : Bool

namespace LogKeeper

variable {K : Option Sealing}

/-- The history variables of the storage, started anew for each event. -/
def quiet (n : Node Storage) : Node Storage := { n with disk := { n.disk with trace := [], faults := [] } }

def step (K : Option Sealing) (s : LogKeeper) (ev : Event) : Option LogKeeper :=
  ((quiet s.node).step (Storage.host K) ev).map fun r =>
    ⟨r.1, s.intact && r.1.disk.faults.all (Fault.harmless ev)⟩

/-- A node that has just created its data directory; `outcomes` says which calls will fail. -/
def init (id : NodeID) (peers : List NodeID) (outcomes : List Outcome) : LogKeeper :=
  ⟨newNode id peers (Storage.fresh outcomes), true⟩

/-- What an event must not do to the log on disk: bring entries under wrong indices or that do not
fit the file format, propose one that does not fit or whose `Sync` fails, or install a snapshot
that leaves entries of the log behind it. -/
def recordable (n : Node Storage) : Event → Bool
  | .appendRequest _ req => req.Carried
  | .propose command type => n.ProposalOk command type
  | .proposeNoOp => n.ProposalOk [] entryNoOp
  | .snapshotRequest _ req => req.term < n.currentTerm ∨ req.lastIndex ≤ n.lastSnapshot ∨
      req.lastIndex ≤ n.commitIndex ∨ n.lastIndex ≤ req.lastIndex
  | _ => true

/-- No earlier failure has set memory and disk apart, and the event is one the log can record. -/
def DurableOk (s : LogKeeper) (ev : Event) : Prop := s.intact = true ∧ recordable s.node ev = true

instance (s : LogKeeper) (ev : Event) : Decidable (s.DurableOk ev) := inferInstanceAs (Decidable (_ ∧ _))

def Inv (s : LogKeeper) : Prop := s.intact = true → ∃ stale, s.node.InSync stale

theorem inv_init (id : NodeID) (peers : List NodeID) (outcomes : List Outcome) : Inv (init id peers outcomes) := by
  refine fun _ => ⟨[], ⟨rfl, rfl, ?_, ?_, prefix_refl _, by simp [newNode, init]⟩, by simp, .nil _⟩
  · simp [init, newNode, fresh]
  · simp [init, newNode, fresh, LogFile.bytes]

section event

variable {n : Node Storage} {stale : List Entry}

theorem settled_of_harmless {m : Node Storage} (h : Node.Stored n m stale) {sender : NodeID} {req : AppendRequest}
    (hf : ∀ f ∈ m.disk.faults, f.harmless (.appendRequest sender req) = true) :
    m.disk.faults = n.disk.faults ∧ m.disk.disk.snapshots = n.disk.disk.snapshots := by
  rcases h.settled with ⟨hsm, -, hsn⟩ | ⟨f, hls, hfl⟩
  · exact ⟨hsm, hsn⟩
  · have hh := hf f (hfl ▸ mem_cons_self)
    cases f <;> simp [Fault.appends, Fault.harmless] at hls hh

theorem inSync_snapshotRequest (hs : n.InSync stale) {req : SnapshotRequest}
    (hok : n.currentTerm ≤ req.term → n.lastSnapshot < req.lastIndex → n.commitIndex < req.lastIndex →
      n.lastIndex ≤ req.lastIndex)
    (hf : ∀ k, .compact k ∈ (n.handleSnapshotRequest (host K) req).1.disk.faults → k = 0) :
    ∃ old, (n.handleSnapshotRequest (host K) req).1.InSync old := by
  rcases Node.handleSnapshotRequest_unmoved (K := K) n req with
    hc | ⟨htr, hsn, hcm, n1, hc, heq⟩
  · exact ⟨stale, hs.of_unmoved hc⟩
  rw [heq] at hf ⊢
  have hs1 := hs.of_unmoved hc
  have hl1 := Node.log_of_kept hc.kept
  have hsn1 := Node.lastSnapshot_of_kept hc.kept
  have hle := hok htr hsn hcm
  refine hs1.compact (K := K) (c := req.lastIndex) (by omega) rfl rfl ?_ hf
  show [] = _
  rw [drop_eq_nil_of_le]
  unfold Node.lastIndex at hle
  rw [hl1]
  omega

theorem inSync_installLeaderSnapshot (hs : n.InSync stale) {snap : Snapshot}
    (hf : ∀ k, .compact k ∈ (n.installLeaderSnapshot (host K) snap).disk.faults → k = 0) :
    ∃ old, (n.installLeaderSnapshot (host K) snap).InSync old := by
  unfold Node.installLeaderSnapshot at hf ⊢
  split
  · exact ⟨stale, hs⟩
  next his =>
    rw [if_neg his] at hf
    exact hs.compact (K := K) (c := snap.lastIndex) (by omega) rfl rfl rfl hf

end event

theorem InSync.quiet {n : Node Storage} {stale : List Entry} (hs : n.InSync stale) : (quiet n).InSync stale :=
  hs.congr rfl rfl rfl

variable {ev : Event}

/-- **Step lemma.** An event keeps the file in step with the log as long as every failure in it is
harmless. -/
theorem inSync_step {n m : Node Storage} {stale : List Entry} {sends : List Send}
    (hs : n.InSync stale) (hok : recordable n ev = true) (h : n.step (host K) ev = some (m, sends))
    (hf : ∀ f ∈ m.disk.faults, f.harmless ev = true) : ∃ old, m.InSync old := by
  have hcm : ∀ k, .compact k ∈ m.disk.faults → k = 0 := fun k hk => by
    simpa [Fault.harmless] using hf _ hk
  have hw : ∀ k, .write k ∈ m.disk.faults → k = 0 := fun k hk => by
    have := hf _ hk
    simp only [Fault.harmless, Bool.and_eq_true, decide_eq_true_eq] at this
    exact this.1
  by_cases hcl : ev.stores = false
  · exact ⟨stale, hs.of_unmoved (Node.step_calm h hcl).unmoved⟩
  cases ev with simp only [Node.step] at h
  | appendRequest sender req =>
    cases h
    obtain ⟨hst, -⟩ := Node.appendEntriesLocked_stored (K := K) hs (of_decide_eq_true hok)
    exact ⟨stale, hst.inSync hs (settled_of_harmless hst hf).1⟩
  | snapshotRequest sender req =>
    cases h
    simp only [recordable, decide_eq_true_eq] at hok
    exact inSync_snapshotRequest hs (fun _ _ _ => by omega) hcm
  | propose command type =>
    cases h
    obtain ⟨-, -, -, hen⟩ := Node.proposeEntry_stored hs (of_decide_eq_true hok)
    exact ⟨stale, (hen hw).1⟩
  | proposeNoOp =>
    split at h <;> cases h
    obtain ⟨-, -, -, hen⟩ := Node.proposeEntry_stored hs (of_decide_eq_true hok)
    exact ⟨stale, (hen hw).1.congr rfl rfl rfl⟩
  | takeSnapshot idx bytes =>
    split at h <;> cases h
    exact ⟨stale, hs.congr rfl rfl rfl⟩
  | saveSnapshot =>
    split at h <;> cases h
    exact ⟨stale, saveSnapshot_open hs.disk _, hs.stale, hs.coherent⟩
  | installLeaderSnapshot =>
    split at h <;> cases h
    obtain ⟨old, hold⟩ := inSync_installLeaderSnapshot hs hcm
    exact ⟨old, hold.congr rfl rfl rfl⟩
  | _ => exact absurd rfl hcl

theorem recordable_quiet (n : Node Storage) (ev : Event) : recordable (quiet n) ev = recordable n ev := by
  cases ev <;> rfl

theorem inv_step {s t : LogKeeper} (hi : Inv s) (hok : s.DurableOk ev) (h : step K s ev = some t) : Inv t := by
  obtain ⟨⟨m, sends⟩, hm, rfl⟩ := Option.map_eq_some_iff.1 h
  intro hint
  obtain ⟨stale, hs⟩ := hi hok.1
  simp only [Bool.and_eq_true, all_eq_true] at hint
  exact inSync_step (InSync.quiet hs) ((recordable_quiet _ _).trans hok.2) hm hint.2

variable {id : NodeID} {peers : List NodeID} {outcomes : List Outcome} {evs : List Event} {s : LogKeeper}

theorem inSync_run (h : Run.exec (step K) (init id peers outcomes) evs = some s)
    (hok : Run.Meets (step K) DurableOk (init id peers outcomes) evs) (hint : s.intact = true) :
    ∃ stale, s.node.InSync stale :=
  Run.invariant (fun _ _ _ hi hok hs => inv_step hi hok hs) evs h hok (inv_init id peers outcomes) hint

/-- **Acknowledged entries are durable.** After a run that meets `DurableOk`, a follower that answers
an append request with success replays up to `MatchIndex` exactly its log; a proposal is replayed
once at its index if it is accepted, and not otherwise. -/
theorem acknowledged_durable (h : Run.exec (step K) (init id peers outcomes) evs = some s)
    (hok : Run.Meets (step K) DurableOk (init id peers outcomes) evs) :
    (∀ sender req m resp, s.DurableOk (.appendRequest sender req) →
      s.node.appendEntriesLocked (host K) req = (m, resp) → resp.success = true →
      ∀ i, m.lastSnapshot < i → i ≤ resp.matchIndex → ∃ e, m.logAt i = some e ∧ m.disk.disk.replay i = some [e]) ∧
    ∀ command type, s.DurableOk (.propose command type) →
      match s.node.proposeEntry (host K) command type with
      | (m, some i) => m.disk.disk.replay i = some [s.node.proposed command type]
      | (m, none) => m.disk.disk.replay (s.node.lastIndex + 1) = some [] := by
  constructor
  · intro sender req m resp hrq hm hsc i hlo hhi
    obtain ⟨stale, hs⟩ := inSync_run h hok hrq.1
    obtain ⟨hst, hac⟩ := Node.appendEntriesLocked_stored (K := K) hs (of_decide_eq_true hrq.2)
    rw [hm] at hst hac
    obtain ⟨hsm, hmt⟩ := hac hsc
    have hs' := hst.inSync hs hsm
    have hlt : i - m.lastSnapshot - 1 < m.log.length := by
      simp only [Node.lastIndex] at hmt
      omega
    have hat : m.logAt i = some m.log[i - m.lastSnapshot - 1] := by
      rw [Node.logAt, if_neg (not_le.2 hlo), getElem?_eq_getElem hlt]
    exact ⟨_, hat, by rw [hs'.replay_eq hs'.reads hlo, hat]; rfl⟩
  · intro command type hp
    obtain ⟨stale, hs⟩ := inSync_run h hok hp.1
    exact Node.proposeEntry_replay hs (of_decide_eq_true hp.2)

/-- A leader of term 1 with the given entries, for a follower that has nothing. -/
def batch (entries : List Entry) : AppendRequest := ⟨1, [98], 0, 0, entries, 0⟩

def firstEntry : Entry := ⟨1, 1, [7], entryNormal, 0⟩

/-- The follower takes one entry and a snapshot of it whose compaction fails; then two more come. -/
def followerRun : List Event :=
  [.appendRequest [98] (batch [firstEntry]), .snapshotRequest [98] ⟨1, [98], ⟨[], [firstEntry]⟩, 1, 1⟩]

def nextEntries : AppendRequest := ⟨1, [98], 1, 1, [⟨2, 1, [8], entryNormal, 0⟩, ⟨3, 1, [9], entryNormal, 0⟩], 3⟩

theorem acknowledged_durable_followerRun :
    ∃ s, Run.exec (step none) (init [97] [[98]] [.ok, .ok, .ok, .failed 0]) followerRun = some s ∧
      (s.node.appendEntriesLocked (host none) nextEntries).2.success = true ∧
      (s.node.appendEntriesLocked (host none) nextEntries).2.matchIndex = 3 ∧
      ∃ e, (s.node.appendEntriesLocked (host none) nextEntries).1.logAt 2 = some e ∧
        (s.node.appendEntriesLocked (host none) nextEntries).1.disk.disk.replay 2 = some [e] := by
  obtain ⟨s, hs, hok, hsc, hmt, hsn⟩ : ∃ s,
      Run.exec (step none) (init [97] [[98]] [.ok, .ok, .ok, .failed 0]) followerRun = some s ∧
      s.DurableOk (.appendRequest [98] nextEntries) ∧
      (s.node.appendEntriesLocked (host none) nextEntries).2.success = true ∧
      (s.node.appendEntriesLocked (host none) nextEntries).2.matchIndex = 3 ∧
      (s.node.appendEntriesLocked (host none) nextEntries).1.lastSnapshot = 1 :=
    Run.exists_of_any (by decide +kernel)
  have hms : Run.Meets (step none) DurableOk (init [97] [[98]] [.ok, .ok, .ok, .failed 0]) followerRun := by
    decide +kernel
  refine ⟨s, hs, hsc, hmt, ?_⟩
  rcases hm : s.node.appendEntriesLocked (host none) nextEntries with ⟨m, resp⟩
  rw [hm] at hsc hmt hsn
  simp only at hmt hsn
  exact (acknowledged_durable hs hms).1 [98] nextEntries m resp hok hm hsc 2 (by omega) (by omega)

def leaderRun : List Event := [.dispatch, .electionTimeout, .dispatch, .startCandidate, .becomeLeader]

/-- A follower whose `Write` fails refuses the entry but keeps it in memory, and acknowledges it when
the leader sends it again. A leader whose `Sync` fails reports an error, but a replay yields the entry. -/
theorem acknowledged_entry_not_on_disk : (∃ s, Run.exec (step none) (init [97] [[98]] [.ok, .failed 0])
        [.appendRequest [98] (batch [firstEntry])] = some s ∧
      (s.node.appendEntriesLocked (host none) (batch [firstEntry])).2.success = true ∧
      (s.node.appendEntriesLocked (host none) (batch [firstEntry])).2.matchIndex = 1 ∧
      (s.node.appendEntriesLocked (host none) (batch [firstEntry])).1.logAt 1 = some firstEntry ∧
      (s.node.appendEntriesLocked (host none) (batch [firstEntry])).1.disk.disk.replay 1 = some []) ∧
    ∃ s, Run.exec (step none) (init [97] [] [.ok, .ok, .ok, .failed 0]) leaderRun = some s ∧
      (s.node.proposeEntry (host none) [7] entryNormal).2 = none ∧
      (s.node.proposeEntry (host none) [7] entryNormal).1.disk.disk.replay 1 = some [firstEntry] :=
  ⟨Run.exists_of_any (by decide +kernel), Run.exists_of_any (by decide +kernel)⟩

end LogKeeper

end NothingDNS.Raft
