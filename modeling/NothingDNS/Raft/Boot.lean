import NothingDNS.Raft.Durability
import NothingDNS.Raft.SnapshotFile
/-!
# What a data directory boots into

`Represents`: the log file and the snapshot files together stand for one
history. Boot then rebuilds exactly that history (`bootstrapState_represents`),
whichever of the snapshots it starts from.
-/

namespace NothingDNS.Raft

open List

variable {K : Option Sealing} {H : List Entry} {files : List SnapshotFile}

/-- `f` is readable and holds the first `f.index` entries of `H`. -/
structure SnapshotFile.Of (K : Option Sealing) (H : List Entry) (f : SnapshotFile) : Prop where
  le : f.index ≤ H.length
  covers : f.covers = H.take f.index
  readable : ∃ term data, readSnapshot K f.bytes = some ⟨f.index, term, data⟩

theorem SnapshotFile.Of.of_agree {f : SnapshotFile} {X : List Entry} (h : f.Of K H)
    (hX : Agree f.index X H) : f.Of K X :=
  ⟨hX.le_length h.le, h.covers.trans hX.symm, h.readable⟩

/-- From boundary `b` on, a log file that reads as `es` and the snapshot files stand for `H`. -/
structure Represents (K : Option Sealing) (H : List Entry) (b : Nat) (es : List Entry)
    (files : List SnapshotFile) : Prop where
  compacted : Node.Compacted b (H.drop b) es
  coherent : Coherent b (H.drop b)
  base : 0 < b → ∃ f ∈ files, f.index = b
  file : ∀ f ∈ files, b ≤ f.index → f.Of K H

theorem latestSnapshot_spec (files : List SnapshotFile) : match latestSnapshot files with
    | none => ∀ f ∈ files, f.index = 0
    | some f => f ∈ files ∧ 0 < f.index ∧ ∀ g ∈ files, g.index ≤ f.index := by
  induction files using reverseRecOn with
  | nil => simp [latestSnapshot]
  | append_singleton files f ih =>
    have hst : latestSnapshot (files ++ [f]) = match latestSnapshot files with
        | none => if 0 < f.index then some f else none
        | some b => if b.index < f.index then some f else some b := by
      rw [latestSnapshot, foldl_append]
      rcases hl : latestSnapshot files with _ | b <;> rw [latestSnapshot] at hl <;> rw [hl] <;> rfl
    rw [hst]
    rcases hl : latestSnapshot files with _ | b <;> rw [hl] at ih <;> simp only at ih ⊢
    · by_cases hf : 0 < f.index
      · simp only [if_pos hf, mem_append, mem_singleton, or_true, true_and]
        refine ⟨hf, fun g hg => ?_⟩
        rcases hg with hg | rfl
        · rw [ih g hg]
          omega
        · exact le_rfl
      simp only [if_neg hf, mem_append, mem_singleton]
      rintro g (hg | rfl)
      · exact ih g hg
      · omega
    obtain ⟨hmem, hpos, hmx⟩ := ih
    by_cases hlt : b.index < f.index
    · simp only [if_pos hlt, mem_append, mem_singleton, or_true, true_and]
      refine ⟨by omega, fun g hg => ?_⟩
      rcases hg with hg | rfl
      · have := hmx g hg
        omega
      · exact le_rfl
    simp only [if_neg hlt, mem_append, mem_singleton, hmem, true_or, true_and]
    refine ⟨hpos, fun g hg => ?_⟩
    rcases hg with hg | rfl
    · exact hmx g hg
    · omega

namespace Node

variable {n : Node Storage}

/-- The snapshot directory backs the node: the boundary is durable, every file at or above it holds
a prefix of the node's history, and only a snapshot in the making lies above it. -/
structure Filed (K : Option Sealing) (n : Node Storage) : Prop where
  length : n.snapshotBytes.covers.length = n.lastSnapshot
  base : 0 < n.lastSnapshot → ∃ f ∈ n.disk.disk.snapshots, f.durable = true ∧ f.index = n.lastSnapshot
  file : ∀ f ∈ n.disk.disk.snapshots, n.lastSnapshot ≤ f.index → f.Of K n.held
  task : ∀ snap, n.snapshotTask.pending = some snap →
    snap.lastIndex ≤ n.held.length ∧ snap.data.covers = n.held.take snap.lastIndex ∧ Fits snap
  above : ∀ f ∈ n.disk.disk.snapshots, n.lastSnapshot < f.index →
    ∃ snap, n.snapshotTask = .saved snap ∧ f.index = snap.lastIndex

end Node

variable {b : Nat} {es : List Entry}

theorem Represents.bootSnapshot_spec (h : Represents K H b es files) :
    b ≤ (bootSnapshot K files).lastIndex ∧ (bootSnapshot K files).lastIndex ≤ H.length ∧
      (bootSnapshot K files).data.covers = H.take (bootSnapshot K files).lastIndex ∧
      (0 < (bootSnapshot K files).lastIndex → ∃ f ∈ files, f.index = (bootSnapshot K files).lastIndex) ∧
      ∀ f ∈ files, f.index ≤ (bootSnapshot K files).lastIndex := by
  have hsp := latestSnapshot_spec files
  unfold bootSnapshot
  rcases hl : latestSnapshot files with _ | f <;> rw [hl] at hsp <;> simp only at hsp ⊢
  · have hb : b = 0 := by
      by_contra hne
      obtain ⟨f, hf, hfi⟩ := h.base (by omega)
      have := hsp f hf
      omega
    refine ⟨by omega, by omega, rfl, fun h => absurd h (lt_irrefl 0), fun f hf => (hsp f hf).le⟩
  obtain ⟨hmem, hpos, hmx⟩ := hsp
  have hb : b ≤ f.index := by
    by_cases h0 : 0 < b
    · obtain ⟨g, hg, hgi⟩ := h.base h0
      have := hmx g hg
      omega
    · omega
  have hof := h.file f hmem hb
  obtain ⟨term, data, hrd⟩ := hof.readable
  simp only [hrd, if_pos hpos]
  exact ⟨hb, hof.le, hof.covers, fun _ => ⟨f, hmem, rfl⟩, hmx⟩

theorem Represents.split {k : Nat} (h : Represents K H b es files) (hle : b ≤ k) :
    es.filter (fun e => k < e.index) = H.drop k ∧ es = (es.filter fun e => e.index ≤ k) ++ H.drop k ∧
      Coherent k (H.drop k) := by
  obtain ⟨old, hes, hold⟩ := h.compacted
  have hk : b + (k - b) = k := by omega
  have hnn : old.filter (fun e => k < e.index) = [] := by
    simpa using fun e he => (hold e he).trans hle
  have hall : old.filter (fun e => e.index ≤ k) = old := by
    simpa using fun e he => (hold e he).trans hle
  have hch := h.coherent.drop (k - b)
  rw [drop_drop, hk] at hch
  refine ⟨?_, ?_, hch⟩
  · rw [hes, filter_append, hnn, h.coherent.filter_gt, nil_append, drop_drop, hk]
  · rw [hes, filter_append, hall, h.coherent.filter_le, append_assoc]
    congr 1
    rw [← hk, ← drop_drop, Nat.add_sub_cancel_left, take_append_drop]

/-- **Recovery of a directory.** Boot succeeds and rebuilds the history the directory stands for, in
a node whose directory again backs it. -/
theorem bootstrapState_represents {w : Bytes} (hw : Reads w es)
    (h : Represents K H b es files) (n : Node Storage) (hs : HardState) (outcomes : List Outcome) :
    ∃ R, bootstrapState K n hs w files outcomes = some R ∧ R.held = H ∧ (∃ stale, R.InSync stale) ∧ R.Filed K := by
  obtain ⟨hle, hlen, hcv, hd, hmx⟩ := h.bootSnapshot_spec
  obtain ⟨tail, hst, hfl, hrd⟩ := hw
  have hmg : walMagic <+: w := by
    rw [hfl, append_assoc]
    exact List.prefix_append _ _
  have hct : w.take (w.length - tail.length) = walMagic ++ records es := by
    rw [hfl, length_append, Nat.add_sub_cancel, take_left]
  obtain ⟨hlg, hsp, hch⟩ := h.split hle
  rw [bootstrapState, newWAL_of_magic hmg]
  simp only [Option.map_some, hrd, Option.getD_some, hct, hlg, Option.some.injEq, exists_eq_left']
  have hh : (bootSnapshot K files).data.covers ++ H.drop (bootSnapshot K files).lastIndex = H := by
    rw [hcv, take_append_drop]
  refine ⟨hh, ⟨es.filter fun e => e.index ≤ (bootSnapshot K files).lastIndex, ?_⟩, ?_⟩
  · refine ⟨?_, fun e he => by simpa using (mem_filter.1 he).2, hch⟩
    show Disk.Open (_ ++ H.drop (bootSnapshot K files).lastIndex)
      (_ ++ H.drop (bootSnapshot K files).lastIndex) _
    rw [← hsp]
    exact ⟨rfl, rfl, rfl, append_nil _, List.prefix_refl _, hst⟩
  · refine ⟨?_, fun hpos => ?_, fun f hf hbf => ?_, nofun,
      fun f hf hbf => ?_⟩
    · rw [hcv, length_take]
      exact min_eq_left hlen
    · obtain ⟨f, hf, hfi⟩ := hd hpos
      exact ⟨{ f with durable := true }, mem_map.2 ⟨f, hf, rfl⟩, rfl, hfi⟩
    · obtain ⟨g, hg, rfl⟩ := mem_map.1 hf
      have hof := h.file g hg (hle.trans hbf)
      exact ⟨by rw [Node.held, hh]; exact hof.le, by rw [Node.held, hh]; exact hof.covers, hof.readable⟩
    · obtain ⟨g, hg, rfl⟩ := mem_map.1 hf
      exact absurd hbf (not_lt.2 (hmx g hg))

end NothingDNS.Raft
