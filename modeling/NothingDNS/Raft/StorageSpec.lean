import NothingDNS.Raft.Storage
import NothingDNS.Raft.StoreEffect
import Mathlib.Data.List.Infix
/-!
# What the file operations do to the log

`Disk.Open lo hi` is a log behind its live handle that holds the records of `hi`, those of `lo` synced.
-/

namespace NothingDNS.Raft

open List Node

namespace Disk

variable {lo hi : List Entry} {d : Disk} {w : Bytes}

structure Open (lo hi : List Entry) (d : Disk) : Prop where
  handle : d.handle = .live
  shadow : d.shadow = []
  synced : d.log.synced = walMagic ++ records lo
  bytes : d.log.bytes = walMagic ++ records hi
  isPrefix : lo <+: hi
  storable : ∀ e ∈ hi, Storable e

/-- Whatever a crash leaves of the log lies between the records of `lo` and those of `hi`. -/
def Leaves (lo hi : List Entry) (d : Disk) : Prop :=
  ∀ w ∈ d.crashLogs, walMagic ++ records lo <+: w ∧ w <+: walMagic ++ records hi

theorem leaves_of_bytes (hsh : d.shadow = []) (hsy : d.log.synced = walMagic ++ records lo)
    (hb : d.log.bytes <+: walMagic ++ records hi) : d.Leaves lo hi := by
  intro w hw
  rw [crashLogs, hsh, append_nil, LogFile.crashes, mem_map] at hw
  obtain ⟨p, hp, rfl⟩ := hw
  rw [mem_inits] at hp
  exact ⟨hsy ▸ List.prefix_append _ _, ((List.prefix_append_right_inj _).2 hp).trans hb⟩

theorem Open.leaves (h : d.Open lo hi) : d.Leaves lo hi :=
  leaves_of_bytes h.shadow h.synced (h.bytes ▸ List.prefix_refl _)

theorem Leaves.mono_left {lo' : List Entry} (h : d.Leaves lo hi) (hlo : lo' <+: lo) : d.Leaves lo' hi := by
  obtain ⟨x, rfl⟩ := hlo
  intro w hw
  refine ⟨List.IsPrefix.trans ?_ (h w hw).1, (h w hw).2⟩
  rw [List.prefix_append_right_inj, records_append]
  exact List.prefix_append _ _

theorem Leaves.mono_right {hi' : List Entry} (h : d.Leaves lo hi) (hhi : hi <+: hi') : d.Leaves lo hi' := by
  obtain ⟨x, rfl⟩ := hhi
  intro w hw
  refine ⟨(h w hw).1, (h w hw).2.trans ?_⟩
  rw [List.prefix_append_right_inj, records_append]
  exact List.prefix_append _ _

theorem Open.append_eq (h : d.Open lo hi) (bs : Bytes) :
    d.append bs = { d with log := ⟨d.log.synced, d.log.pending ++ bs⟩ } := by
  simp only [append, setOpened, opened, h.handle]

theorem Open.crashLogs_eq (h : d.Open hi hi) : d.crashLogs = [walMagic ++ records hi] := by
  have hp : d.log.pending = [] := by
    have := h.bytes
    rw [LogFile.bytes, h.synced] at this
    exact append_right_eq_self.1 this
  rw [crashLogs, h.shadow, LogFile.crashes, hp, h.synced]
  simp

end Disk

namespace Storage

variable {lo hi : List Entry} {s t u : Storage} {P Q : Disk → Prop}

/-- Between `s` and `t` the storage passed only through directories in `P`. -/
def Through (P : Disk → Prop) (s t : Storage) : Prop := ∀ d ∈ t.trace, d ∈ s.trace ∨ P d

theorem Through.refl : Through P s s := fun _ hd => .inl hd

theorem Through.of_trace (h : t.trace = s.trace) : Through P s t := fun _ hd => .inl (h ▸ hd)

theorem Through.trans (h₁ : Through P s t) (h₂ : Through P t u) : Through P s u := fun d hd =>
  (h₂ d hd).elim (h₁ d) .inr

theorem Through.mono (h : Through P s t) (hPQ : ∀ d, P d → Q d) : Through Q s t := fun d hd =>
  (h d hd).imp_right (hPQ d)

theorem Through.put {d : Disk} (h : Through P s t) (hd : P d) : Through P s (t.put d) := fun x hx =>
  (mem_cons.1 hx).elim (fun e => .inr (e ▸ hd)) (h x)

theorem Through.all (h : Through P s t) (h0 : s.trace = []) : ∀ d ∈ t.trace, P d := fun d hd =>
  (h d hd).resolve_left (by rw [h0]; exact not_mem_nil)

@[simp] theorem put_disk (s : Storage) (d : Disk) : (s.put d).disk = d := rfl
@[simp] theorem put_faults (s : Storage) (d : Disk) : (s.put d).faults = s.faults := rfl
@[simp] theorem pop_disk (s : Storage) : s.pop.disk = s.disk := rfl
@[simp] theorem pop_faults (s : Storage) : s.pop.faults = s.faults := rfl
@[simp] theorem pop_trace (s : Storage) : s.pop.trace = s.trace := rfl

theorem aside_host {K : Option Sealing} (h : Aside (host K) s t) :
    t.disk = s.disk ∧ t.trace = s.trace ∧ t.faults = s.faults := by
  induction h with
  | refl => exact ⟨rfl, rfl, rfl⟩
  | saveHardState _ _ ih => exact ih

theorem restoreData_host (K : Option Sealing) (s : Storage) (p : Payload) :
    (restoreData (host K) s p).1.disk = s.disk ∧ (restoreData (host K) s p).1.trace = s.trace ∧
      (restoreData (host K) s p).1.faults = s.faults := by
  unfold restoreData
  split <;> exact ⟨rfl, rfl, rfl⟩

theorem write_ok (h : s.disk.Open lo hi) {e : Entry} (he : Storable e) (ho : s.next = .ok) :
    ∃ d, s.write e = (s.pop.put d, true) ∧ d.Open lo (hi ++ [e]) ∧ d.snapshots = s.disk.snapshots := by
  refine ⟨_, by simp only [write, h.handle, ho]; rfl, ?_, by rw [h.append_eq]⟩
  rw [h.append_eq]
  refine ⟨h.handle, h.shadow, h.synced, ?_, h.isPrefix.trans (List.prefix_append _ _), ?_⟩
  · have hb := h.bytes
    simp only [LogFile.bytes] at hb ⊢
    rw [← append_assoc, hb]
    simp
  · exact forall_mem_append.2 ⟨h.storable, forall_mem_singleton.2 he⟩

theorem write_failed (h : s.disk.Open lo hi) {e : Entry} {k : Nat} (ho : s.next = .failed k) :
    ∃ d, s.write e = (s.pop.put d).fail (.write k) ∧ d.Leaves lo (hi ++ [e]) ∧ d.snapshots = s.disk.snapshots ∧
      d.log.bytes = walMagic ++ records hi ++ (encodeWALEntry e).dropLast.take k ∧ (k = 0 → d = s.disk) := by
  have hb : s.disk.log.bytes ++ (encodeWALEntry e).dropLast.take k =
      walMagic ++ records hi ++ (encodeWALEntry e).dropLast.take k := by rw [h.bytes]
  refine ⟨_, by simp only [write, h.handle, ho]; rfl, ?_, by rw [h.append_eq], ?_, ?_⟩
  · rw [h.append_eq]
    refine Disk.leaves_of_bytes h.shadow h.synced ?_
    rw [LogFile.bytes, ← append_assoc]
    refine hb ▸ ?_
    rw [records_append, ← append_assoc, List.prefix_append_right_inj]
    simpa using (List.take_prefix _ _).trans (List.dropLast_prefix (encodeWALEntry e))
  · rw [h.append_eq, LogFile.bytes, ← append_assoc]
    exact hb
  · rintro rfl
    rw [h.append_eq, take_zero, append_nil]

theorem sync_ok (h : s.disk.Open lo hi) (ho : s.next = .ok) :
    ∃ d, s.sync = (s.pop.put d, true) ∧ d.Open hi hi ∧ d.snapshots = s.disk.snapshots := by
  refine ⟨{ s.disk with log := ⟨s.disk.log.bytes, []⟩ }, ?_, ?_, rfl⟩
  · simp only [sync, h.handle, ho, Disk.fsync, Disk.setOpened, Disk.opened]
  · exact ⟨h.handle, h.shadow, h.bytes, by simpa [LogFile.bytes] using h.bytes, List.prefix_refl _, h.storable⟩

theorem sync_failed (h : s.disk.Open lo hi) {k : Nat} (ho : s.next = .failed k) : s.sync = s.pop.fail .sync := by
  simp only [sync, h.handle, ho]

end Storage

/-- A failed call that leaves the log on disk behind the one in memory. -/
def Fault.appends : Fault → Bool
  | .write _ | .sync | .truncate _ => true
  | _ => false

namespace Storage

variable {lo hi : List Entry} {s : Storage} {K : Option Sealing}

/-- How a call of the persister ends: with the log `es` on disk, or with a fault. -/
def Ended (s : Storage) (es : List Entry) (r : Storage × Bool) : Prop :=
  r.2 = true ∧ r.1.faults = s.faults ∧ r.1.disk.Open es es ∧ r.1.disk.snapshots = s.disk.snapshots ∨
    r.2 = false ∧ ∃ f : Fault, f.appends = true ∧ r.1.faults = f :: s.faults

theorem Ended.faults_eq {es : List Entry} {r : Storage × Bool} (h : Ended s es r) (hok : r.2 = true) :
    r.1.faults = s.faults := by
  rcases h with ⟨-, hfl, -⟩ | ⟨hno, -⟩
  · exact hfl
  · exact absurd (hok.symm.trans hno) (by decide)

theorem writeEntries_cons (s : Storage) (e : Entry) (es : List Entry) : writeEntries (host K) s (e :: es) =
      if (s.write e).2 then writeEntries (host K) (s.write e).1 es else ((s.write e).1, false) := rfl

theorem writeEntries_spec : ∀ (es : List Entry) {s : Storage} {hi : List Entry}, s.disk.Open lo hi →
    (∀ e ∈ es, Storable e) → Through (fun d => d.Leaves lo (hi ++ es) ∧ d.snapshots = s.disk.snapshots) s
        (writeEntries (host K) s es).1 ∧ Ended s (hi ++ es) (writeEntries (host K) s es)
  | [], s, hi, h, _ => by
    rw [append_nil]
    cases ho : s.next with
    | ok =>
      obtain ⟨d, hd, hop, hsn⟩ := sync_ok h ho
      have hlv : d.Leaves lo hi := hop.leaves.mono_left h.isPrefix
      rw [show writeEntries (host K) s [] = s.sync from rfl, hd]
      exact ⟨(Through.of_trace rfl).put ⟨hlv, hsn⟩, .inl ⟨rfl, rfl, hop, hsn⟩⟩
    | failed k =>
      rw [show writeEntries (host K) s [] = s.sync from rfl, sync_failed h ho]
      exact ⟨.of_trace rfl, .inr ⟨rfl, .sync, rfl, rfl⟩⟩
  | e :: es, s, hi, h, hs => by
    have he : Storable e := hs e mem_cons_self
    have hac : hi ++ [e] ++ es = hi ++ e :: es := by simp
    cases ho : s.next with
    | ok =>
      obtain ⟨d, hd, hop, hsn⟩ := write_ok h he ho
      have hrc : writeEntries (host K) s (e :: es) = writeEntries (host K) (s.pop.put d) es := by
        rw [writeEntries_cons, hd]
        rfl
      obtain ⟨hth, hen⟩ := writeEntries_spec es (s := s.pop.put d) hop
        fun x hx => hs x (mem_cons_of_mem _ hx)
      rw [hac] at hth hen
      rw [hrc]
      rw [put_disk, hsn] at hth
      rw [Ended, put_disk, hsn] at hen
      exact ⟨((Through.of_trace rfl).put ⟨hop.leaves.mono_right ⟨es, hac⟩, hsn⟩).trans hth, hen⟩
    | failed k =>
      obtain ⟨d, hd, hlv, hsn, -, -⟩ := write_failed h (e := e) ho
      have hrc : writeEntries (host K) s (e :: es) = (s.pop.put d).fail (.write k) := by
        rw [writeEntries_cons, hd]
        rfl
      rw [hrc]
      exact ⟨(Through.of_trace (t := s.pop) rfl).put ⟨hlv.mono_right ⟨es, hac⟩, hsn⟩, .inr ⟨rfl, .write k, rfl, rfl⟩⟩

theorem rewrite_spec {es : List Entry} (h : s.disk.Open es es) (fault : Nat → Fault) (keep : Entry → Bool) :
    Through (fun d => d.snapshots = s.disk.snapshots ∧
        ∀ w ∈ d.crashLogs, w = walMagic ++ records es ∨ w = walMagic ++ records (es.filter keep)) s
        (s.rewrite fault keep).1 ∧ ((s.rewrite fault keep).2 = true ∧ (s.rewrite fault keep).1.faults = s.faults ∧
          (s.rewrite fault keep).1.disk.Open (es.filter keep) (es.filter keep) ∧
          (s.rewrite fault keep).1.disk.snapshots = s.disk.snapshots ∨
        (s.rewrite fault keep).2 = false ∧ ∃ k, (s.rewrite fault keep).1.faults = fault k :: s.faults ∧
          (k = 0 → (s.rewrite fault keep).1.disk = s.disk)) := by
  have hrd : readAll s.disk.opened.bytes = some (es, 0) := by
    rw [Disk.opened, h.handle, h.bytes, readAll_records h.storable]
  have hst : ∀ e ∈ es.filter keep, Storable e := fun e he => h.storable e (mem_of_mem_filter he)
  have hcr := h.crashLogs_eq
  -- after the rename the old log may come back until the directory is synced
  have hnw : ∀ w ∈ (⟨walMagic ++ records (es.filter keep), []⟩ : LogFile).crashes,
      w = walMagic ++ records es ∨ w = walMagic ++ records (es.filter keep) := by
    intro w hw
    right
    simpa [LogFile.crashes] using hw
  have hrn : ∀ w ∈ (⟨walMagic ++ records (es.filter keep), []⟩ : LogFile).crashes ++ s.disk.crashLogs,
      w = walMagic ++ records es ∨ w = walMagic ++ records (es.filter keep) := by
    rw [hcr]
    exact forall_mem_append.2 ⟨hnw, forall_mem_singleton.2 (.inl rfl)⟩
  have hsy : ∀ w ∈ (⟨walMagic ++ records (es.filter keep), []⟩ : LogFile).crashes ++ [],
      w = walMagic ++ records es ∨ w = walMagic ++ records (es.filter keep) := by
    rw [append_nil]
    exact hnw
  unfold rewrite
  simp only [h.handle, hrd]
  cases ho : s.next with
  | ok =>
    refine ⟨(((Through.of_trace (t := s.pop) rfl).put ⟨rfl, hrn⟩).put ⟨rfl, hsy⟩).put ⟨rfl, hsy⟩,
      .inl ⟨rfl, rfl, ⟨rfl, rfl, rfl, ?_, List.prefix_refl _, hst⟩, rfl⟩⟩
    exact append_nil _
  | failed k =>
    match k with
    | 0 => exact ⟨.of_trace rfl, .inr ⟨rfl, 0, rfl, fun _ => rfl⟩⟩
    | 1 =>
      exact ⟨(Through.of_trace (t := s.pop) rfl).put ⟨rfl, hrn⟩, .inr ⟨rfl, 1, rfl, nofun⟩⟩
    | k + 2 =>
      exact ⟨(((Through.of_trace (t := s.pop) rfl).put ⟨rfl, hrn⟩).put ⟨rfl, hsy⟩).put ⟨rfl, hsy⟩,
        .inr ⟨rfl, k + 2, rfl, fun h => absurd h (by omega)⟩⟩

end Storage

end NothingDNS.Raft
