import NothingDNS.Raft.StorageSpec
import NothingDNS.Lib.Agree
/-!
# The log in memory and the log on disk

`InSync`: the file holds the node's log, after some entries at or below the snapshot boundary that a failed compaction
may have left. An append request keeps that, unless a call of the persister fails in it (`Stored`).
-/

namespace NothingDNS.Raft

open List Storage

/-- Entry `k` of a log that starts after index `b` carries index `b + k + 1`. -/
def Coherent (b : Nat) (l : List Entry) : Prop := ∀ k e, l[k]? = some e → e.index = b + k + 1

namespace Coherent

variable {b c : Nat} {l r : List Entry}

theorem nil (b : Nat) : Coherent b [] := fun k e h => absurd h (by simp)

theorem of_isPrefix (h : Coherent b l) (hr : r <+: l) : Coherent b r := by
  obtain ⟨x, rfl⟩ := hr
  intro k e he
  exact h k e (by rw [List.getElem?_append_left (List.getElem?_eq_some_iff.1 he).1, he])

theorem append (hl : Coherent b l) (hr : Coherent (b + l.length) r) : Coherent b (l ++ r) := by
  intro k e he
  by_cases hk : k < l.length
  · rw [getElem?_append_left hk] at he
    exact hl k e he
  · rw [getElem?_append_right (not_lt.1 hk)] at he
    rw [hr _ e he]
    omega

theorem drop (h : Coherent b l) (k : Nat) : Coherent (b + k) (l.drop k) := by
  intro i e he
  rw [getElem?_drop] at he
  rw [h _ e he]
  omega

variable {e : Entry}

theorem tail (h : Coherent b (e :: l)) : Coherent (b + 1) l := h.drop 1

theorem index_gt (h : Coherent b l) (he : e ∈ l) : b < e.index := by
  obtain ⟨k, hk⟩ := getElem?_of_mem he
  rw [h k e hk]
  omega

theorem filter_le : ∀ {l : List Entry} {b : Nat}, Coherent b l → l.filter (fun e => e.index ≤ c) = l.take (c - b)
  | [], _, _ => by simp
  | e :: l, b, h => by
    have he : e.index = b + 1 := h 0 e rfl
    have ih := filter_le h.tail
    by_cases hc : b + 1 ≤ c
    · rw [filter_cons_of_pos (by simpa [he] using hc), ih, show c - b = c - (b + 1) + 1 by omega, take_succ_cons]
    · rw [filter_cons_of_neg (by simpa [he] using hc), ih, show c - b = 0 by omega,
        show c - (b + 1) = 0 by omega, take_zero, take_zero]

theorem filter_gt : ∀ {l : List Entry} {b : Nat}, Coherent b l → l.filter (fun e => c < e.index) = l.drop (c - b)
  | [], _, _ => by simp
  | e :: l, b, h => by
    have he : e.index = b + 1 := h 0 e rfl
    have ih := filter_gt h.tail
    by_cases hc : c < b + 1
    · rw [filter_cons_of_pos (by simpa [he] using hc), ih, show c - b = 0 by omega,
        show c - (b + 1) = 0 by omega, drop_zero, drop_zero]
    · rw [filter_cons_of_neg (by simpa [he] using hc), ih, show c - b = c - (b + 1) + 1 by omega, drop_succ_cons]

theorem filter_eq : ∀ {l : List Entry} {b i : Nat}, Coherent b l → b < i →
    l.filter (fun e => e.index = i) = l[i - b - 1]?.toList
  | [], _, _, _, _ => by simp
  | e :: l, b, i, h, hi => by
    have he : e.index = b + 1 := h 0 e rfl
    by_cases heq : b + 1 = i
    · have hrs : l.filter (fun e => e.index = i) = [] := by
        rw [filter_eq_nil_iff]
        intro x hx
        have := h.tail.index_gt hx
        simp only [decide_eq_true_eq]
        omega
      rw [filter_cons_of_pos (by simpa [he] using heq), hrs, show i - b - 1 = 0 by omega]
      rfl
    · rw [filter_cons_of_neg (by simpa [he] using heq), filter_eq h.tail (by omega),
        show i - b - 1 = i - (b + 1) - 1 + 1 by omega, getElem?_cons_succ]

end Coherent

/-- The file `w` replays as `es`, possibly followed by a torn record. -/
def Reads (w : Bytes) (es : List Entry) : Prop :=
  ∃ tail, (∀ e ∈ es, Storable e) ∧ w = walMagic ++ records es ++ tail ∧ readAll w = some (es, tail.length)

theorem reads_records {es : List Entry} (h : ∀ e ∈ es, Storable e) : Reads (walMagic ++ records es) es :=
  ⟨[], h, (append_nil _).symm, readAll_records h⟩

theorem Disk.Leaves.reads {lo hi : List Entry} {d : Disk} (h : d.Leaves lo hi) (hs : ∀ e ∈ hi, Storable e)
    (hlo : lo <+: hi) {w : Bytes} (hw : w ∈ d.crashLogs) : ∃ es, Reads w es ∧ lo <+: es ∧ es <+: hi := by
  obtain ⟨mid, tail, h1, h2, hfl, hrd⟩ := readAll_isPrefix hs hlo (h w hw).1 (h w hw).2
  exact ⟨mid, ⟨tail, fun e he => hs e (h2.subset he), hfl, hrd⟩, h1, h2⟩

namespace Node

variable {K : Option Sealing} {n m : Node Storage} {stale l : List Entry}

structure InSync (n : Node Storage) (stale : List Entry) : Prop where
  disk : n.disk.disk.Open (stale ++ n.log) (stale ++ n.log)
  stale : ∀ e ∈ stale, e.index ≤ n.lastSnapshot
  coherent : Coherent n.lastSnapshot n.log

/-- A log that may stand in for that of `n` while it becomes `new`. -/
structure Survives (n : Node Storage) (new l : List Entry) : Prop where
  coherent : Coherent n.lastSnapshot l
  agree : ∀ k ≤ n.log.length, Agree k n.log new → Agree k l n.log

/-- What a crash may find in the directory while the log of `n` becomes `new`. -/
def Image (n : Node Storage) (stale new : List Entry) (d : Disk) : Prop :=
  d.snapshots = n.disk.disk.snapshots ∧ ∀ w ∈ d.crashLogs, ∃ l, Reads w (stale ++ l) ∧ Survives n new l

/-- The step from `n` to `m` went to disk, or a call of the persister failed. -/
structure Stored (n m : Node Storage) (stale : List Entry) : Prop where
  kept : m.kept = { n.kept with log := m.log }
  coherent : Coherent n.lastSnapshot m.log
  through : Storage.Through (Image n stale m.log) n.disk m.disk
  settled : m.disk.faults = n.disk.faults ∧ m.disk.disk.Open (stale ++ m.log) (stale ++ m.log) ∧
      m.disk.disk.snapshots = n.disk.disk.snapshots ∨
    ∃ f, f.appends = true ∧ m.disk.faults = f :: n.disk.faults

theorem Stored.lastSnapshot_eq (h : Stored n m stale) : m.lastSnapshot = n.lastSnapshot :=
  congrArg Kept.lastSnapshot h.kept

theorem Stored.inSync (h : Stored n m stale) (hs : n.InSync stale) (hf : m.disk.faults = n.disk.faults) :
    m.InSync stale := by
  rcases h.settled with ⟨-, hop, -⟩ | ⟨f, -, hfl⟩
  · exact ⟨hop, h.lastSnapshot_eq ▸ hs.stale, h.lastSnapshot_eq ▸ h.coherent⟩
  · exact absurd (hf.symm.trans hfl) (ne_cons_self)

variable {new : List Entry}

theorem survives_self (hs : n.InSync stale) : Survives n new n.log := ⟨hs.coherent, fun _ _ _ => .refl _ _⟩

theorem survives_of_isPrefix {c : Nat} (hc : ∀ k ≤ n.log.length, Agree k n.log new → k ≤ c) (hl : n.log.take c <+: l)
    (hch : Coherent n.lastSnapshot l) : Survives n new l := by
  refine ⟨hch, fun k hk ha => ?_⟩
  have hkc := hc k hk ha
  exact (Agree.of_isPrefix hl (by rw [length_take]; omega)).symm.trans (.take_left hkc)

theorem InSync.congr (hs : n.InSync stale) (hd : m.disk.disk = n.disk.disk) (hlg : m.log = n.log)
    (hsn : m.lastSnapshot = n.lastSnapshot) : m.InSync stale :=
  ⟨by rw [hd, hlg]; exact hs.disk, hsn ▸ hs.stale, by rw [hlg, hsn]; exact hs.coherent⟩

structure Unmoved (n m : Node Storage) : Prop where
  kept : m.kept = n.kept
  disk : m.disk.disk = n.disk.disk
  trace : m.disk.trace = n.disk.trace
  faults : m.disk.faults = n.disk.faults

theorem Calm.unmoved (h : Calm (host K) n m) : Unmoved n m :=
  let ⟨hd, ht, hf⟩ := aside_host h.2.1
  ⟨h.1, hd, ht, hf⟩

theorem InSync.of_unmoved (hs : n.InSync stale) (h : Unmoved n m) : m.InSync stale :=
  hs.congr h.disk (log_of_kept h.kept) (lastSnapshot_of_kept h.kept)

theorem handleSnapshotRequest_unmoved (n : Node Storage) (req : SnapshotRequest) :
    Unmoved n (n.handleSnapshotRequest (host K) req).1 ∨
      n.currentTerm ≤ req.term ∧ n.lastSnapshot < req.lastIndex ∧ n.commitIndex < req.lastIndex ∧ ∃ n₁, Unmoved n n₁ ∧
          (n.handleSnapshotRequest (host K) req).1 = n₁.installSnapshot (host K) req := by
  rcases handleSnapshotRequest_calm (H := host K) n req with
    hc | ⟨htr, hsn, hcm, n₁, hc, -, heq⟩
  · exact .inl hc.unmoved
  have h1 := hc.unmoved
  obtain ⟨hd, ht, hf⟩ := restoreData_host K n₁.disk req.data
  have h2 : Unmoved n { n₁ with disk := (restoreData (host K) n₁.disk req.data).1 } :=
    ⟨h1.kept, hd.trans h1.disk, ht.trans h1.trace, hf.trans h1.faults⟩
  rw [heq]
  split
  · exact .inr ⟨htr, hsn, hcm, _, h2, rfl⟩
  · exact .inl h2

/-! ## Cutting and extending the file -/

theorem InSync.filter_le (hs : n.InSync stale) {c : Nat} (hc : n.lastSnapshot ≤ c) :
    (stale ++ n.log).filter (fun e => e.index ≤ c) = stale ++ n.log.take (c - n.lastSnapshot) := by
  have hst : stale.filter (fun e => e.index ≤ c) = stale := by
    rw [filter_eq_self]
    intro e he
    simpa using (hs.stale e he).trans hc
  rw [filter_append, hst, hs.coherent.filter_le]

theorem truncate_spec (hs : n.InSync stale) {c : Nat} (hc : n.lastSnapshot ≤ c) :
    Storage.Through (fun d => d.snapshots = n.disk.disk.snapshots ∧ ∀ w ∈ d.crashLogs,
        Reads w (stale ++ n.log) ∨ Reads w (stale ++ n.log.take (c - n.lastSnapshot))) n.disk
        ((host K).truncateAfter n.disk c).1 ∧
      Ended n.disk (stale ++ n.log.take (c - n.lastSnapshot)) ((host K).truncateAfter n.disk c) := by
  obtain ⟨hth, hen⟩ := rewrite_spec hs.disk .truncate fun e => e.index ≤ c
  rw [hs.filter_le hc] at hth hen
  have hst : ∀ e ∈ stale ++ n.log.take (c - n.lastSnapshot), Storable e := by
    intro e he
    refine hs.disk.storable e ?_
    rcases mem_append.1 he with he | he
    · exact mem_append_left _ he
    · exact mem_append_right _ (mem_of_mem_take he)
  refine ⟨hth.mono fun d hd => ⟨hd.1, fun w hw => (hd.2 w hw).imp ?_ ?_⟩, hen.imp_right ?_⟩
  · rintro rfl
    exact reads_records hs.disk.storable
  · rintro rfl
    exact reads_records hst
  · rintro ⟨hok, k, hfl, -⟩
    exact ⟨hok, _, rfl, hfl⟩

theorem writeEntries_stored {s : Storage} {todo : List Entry} (h : s.disk.Open (stale ++ l) (stale ++ l))
    (ht : ∀ e ∈ todo, Storable e) : Storage.Through (fun d => d.snapshots = s.disk.snapshots ∧ ∀ w ∈ d.crashLogs, ∃ r,
        Reads w (stale ++ r) ∧ l <+: r ∧ r <+: l ++ todo) s (writeEntries (host K) s todo).1 ∧
      Ended s (stale ++ (l ++ todo)) (writeEntries (host K) s todo) := by
  obtain ⟨hth, hen⟩ := writeEntries_spec (K := K) todo h ht
  rw [append_assoc] at hth hen
  have hst : ∀ e ∈ stale ++ (l ++ todo), Storable e := by
    intro e he
    rw [← append_assoc] at he
    exact (mem_append.1 he).elim (h.storable e) (ht e)
  refine ⟨hth.mono fun d hd => ⟨hd.2, fun w hw => ?_⟩, hen⟩
  obtain ⟨es, hrd, hlo, hhi⟩ := hd.1.reads hst
    ((prefix_append_right_inj _).2 (prefix_append _ _)) hw
  obtain ⟨x, rfl⟩ := hlo
  rw [append_assoc] at hrd hhi
  exact ⟨l ++ x, hrd, prefix_append _ _, (prefix_append_right_inj _).1 hhi⟩

end Node

/-- The entries of the request carry the indices they are meant for, and fit the file format. -/
def AppendRequest.Carried (req : AppendRequest) : Prop :=
  ∀ p ∈ req.entries.zipIdx (req.prevLogIndex + 1), p.1.index = p.2 ∧ Storable p.1

instance (req : AppendRequest) : Decidable req.Carried := inferInstanceAs (Decidable (∀ _ ∈ _, _))

variable {req : AppendRequest}

theorem AppendRequest.Carried.at (h : req.Carried) {k : Nat} {e : Entry} (he : req.entries[k]? = some e) :
    e.index = req.prevLogIndex + 1 + k ∧ Storable e :=
  h (e, req.prevLogIndex + 1 + k) (mk_mem_zipIdx_iff_le_and_getElem?_sub.2 ⟨by omega, by simpa using he⟩)

theorem AppendRequest.Carried.coherent (h : req.Carried) : Coherent req.prevLogIndex req.entries := by
  intro k e he
  have := (h.at he).1
  omega

theorem AppendRequest.Carried.storable (h : req.Carried) : ∀ e ∈ req.entries, Storable e := by
  intro e he
  obtain ⟨k, hk⟩ := getElem?_of_mem he
  exact (h.at hk).2

namespace Node

variable {K : Option Sealing} {n m : Node Storage} {stale l : List Entry}

variable (hs : n.InSync stale)
include hs

theorem Stored.refl : Stored n n stale := ⟨rfl, hs.coherent, .refl, .inl ⟨rfl, hs.disk, rfl⟩⟩

variable {prev : Nat}

theorem truncateFrom_stored (hp : n.lastSnapshot < prev) :
    Stored n ((n.truncateFrom prev).persistTruncateLocked (host K) (prev - 1)).1 stale := by
  have hlg : (n.truncateFrom prev).log = n.log.take (prev - 1 - n.lastSnapshot) := by
    unfold truncateFrom
    split
    · rw [show prev - 1 - n.lastSnapshot = 0 by omega, take_zero]
    · rw [show prev - 1 - n.lastSnapshot = prev - n.lastSnapshot - 1 by omega]
  have hdk : (n.truncateFrom prev).disk = n.disk := by
    unfold truncateFrom
    split <;> rfl
  have hkp : (n.truncateFrom prev).kept = { n.kept with log := n.log.take (prev - 1 - n.lastSnapshot) } := by
    rw [← hlg]
    unfold truncateFrom
    split <;> rfl
  have hch : Coherent n.lastSnapshot (n.log.take (prev - 1 - n.lastSnapshot)) :=
    hs.coherent.of_isPrefix (List.take_prefix _ _)
  obtain ⟨hth, hen⟩ := truncate_spec (K := K) hs (c := prev - 1) (by omega)
  unfold persistTruncateLocked
  rw [hdk]
  refine ⟨by simp only [kept, hlg] at hkp ⊢; exact hkp, by simp only [hlg]; exact hch, ?_, ?_⟩
  · refine hth.mono fun d hd => ⟨hd.1, fun w hw => ?_⟩
    rcases hd.2 w hw with hr | hr
    · exact ⟨_, hr, survives_self hs⟩
    · refine ⟨_, hr, survives_of_isPrefix (fun k hk ha => ?_) (prefix_refl _) hch⟩
      have := ha.symm.le_length hk
      simp only [hlg, length_take] at this
      omega
  · simp only [hlg]
    exact hen.imp And.right And.right

variable {todo : List Entry}

theorem append_stored (ht : ∀ e ∈ todo, Storable e) (hch : Coherent n.lastIndex todo) :
    Stored n { n with log := n.log ++ todo, disk := (writeEntries (host K) n.disk todo).1 } stale ∧
      ((writeEntries (host K) n.disk todo).2 = true →
        (writeEntries (host K) n.disk todo).1.faults = n.disk.faults) := by
  have hlg := hs.coherent.append hch
  obtain ⟨hth, hen⟩ := writeEntries_stored (K := K) hs.disk ht
  refine ⟨⟨rfl, hlg, hth.mono fun d hd => ⟨hd.1, fun w hw => ?_⟩, hen.imp And.right And.right⟩, hen.faults_eq⟩
  obtain ⟨r, hr, hlo, hhi⟩ := hd.2 w hw
  refine ⟨r, hr, survives_of_isPrefix (c := n.log.length) (fun k hk _ => hk) ?_ (hlg.of_isPrefix hhi)⟩
  rwa [take_length]

theorem replace_stored {c : Nat} (ht : ∀ e ∈ todo, Storable e)
    (hdn : todo ≠ []) (hc : c < n.log.length) (hch : Coherent (n.lastSnapshot + c) todo)
    (hne : n.log[c]? ≠ (n.log.take c ++ todo)[c]?) :
    let n' : Node Storage := { n with log := n.log.take c ++ todo }
    Stored n (n'.persistReconciled (host K) todo (some (n.lastSnapshot + c))).1 stale ∧
      ((n'.persistReconciled (host K) todo (some (n.lastSnapshot + c))).2 = true →
        (n'.persistReconciled (host K) todo (some (n.lastSnapshot + c))).1.disk.faults = n.disk.faults) ∧
      (n'.persistReconciled (host K) todo (some (n.lastSnapshot + c))).1.log = n.log.take c ++ todo := by
  intro n'
  have hlen : (n.log.take c).length = c := by rw [length_take]; omega
  have hlg := (hs.coherent.of_isPrefix (List.take_prefix _ _)).append (by rw [hlen]; exact hch)
  -- the lists differ at `c`, so what they agree on lies before
  have hb : ∀ k ≤ n.log.length, Agree k n.log (n.log.take c ++ todo) → k ≤ c := fun k _ ha =>
    ha.le_of_getElem?_ne hne
  obtain ⟨hct, hcE⟩ := truncate_spec (K := K) hs (c := n.lastSnapshot + c) (by omega)
  rw [show n.lastSnapshot + c - n.lastSnapshot = c by omega] at hct hcE
  have hcI : Storage.Through (Image n stale (n.log.take c ++ todo)) n.disk
      ((host K).truncateAfter n.disk (n.lastSnapshot + c)).1 := by
    refine hct.mono fun d hd => ⟨hd.1, fun w hw => ?_⟩
    rcases hd.2 w hw with hr | hr
    · exact ⟨_, hr, survives_self hs⟩
    · exact ⟨_, hr, survives_of_isPrefix hb (prefix_refl _) (hlg.of_isPrefix (prefix_append _ _))⟩
  unfold persistReconciled persistTruncateLocked
  rcases hrs : (host K).truncateAfter n.disk (n.lastSnapshot + c) with ⟨d, ok⟩
  have hrs' : (host K).truncateAfter n'.disk (n.lastSnapshot + c) = (d, ok) := hrs
  rw [hrs] at hcI hcE
  simp only [hrs']
  cases ok with
  | false =>
    obtain ⟨h, -⟩ | ⟨-, f, hf, hfl⟩ := hcE
    · exact absurd h Bool.false_ne_true
    exact ⟨⟨rfl, hlg, hcI, .inr ⟨f, hf, hfl⟩⟩, fun h => absurd h Bool.false_ne_true, rfl⟩
  | true =>
    obtain ⟨-, hfl, hop, hsn⟩ | ⟨h, -⟩ := hcE
    swap
    · exact absurd h.symm Bool.false_ne_true
    simp only [if_true]
    rw [persistEntriesLocked, if_neg hdn]
    obtain ⟨hth, hen⟩ := writeEntries_stored (K := K) hop ht
    simp only at hsn hfl
    rw [hsn] at hth
    have hok := hfl ▸ hen.faults_eq
    rw [Ended, hsn, hfl] at hen
    refine ⟨⟨rfl, hlg, hcI.trans (hth.mono fun x hx => ⟨hx.1, fun w hw => ?_⟩),
      hen.imp And.right And.right⟩, hok, rfl⟩
    obtain ⟨r, hr, hlo, hhi⟩ := hx.2 w hw
    exact ⟨r, hr, survives_of_isPrefix hb hlo (hlg.of_isPrefix hhi)⟩

theorem Reconciled.stored {es : List Entry} {n' : Node Storage}
    {k : Option Nat} (h : Reconciled n (prev + 1) es n' todo k) (hch : Coherent prev es)
    (hsr : ∀ e ∈ es, Storable e) : Stored n (n'.persistReconciled (host K) todo k).1 stale ∧
      ((n'.persistReconciled (host K) todo k).2 = true →
        (n'.persistReconciled (host K) todo k).1.disk.faults = n.disk.faults ∧
        prev + es.length ≤ (n'.persistReconciled (host K) todo k).1.lastIndex) := by
  cases h with
  | same hle => exact ⟨.refl hs, fun _ => ⟨rfl, by show _ ≤ n.lastIndex; omega⟩⟩
  | @append done todo hes hne hj =>
    have hlen : es.length = done.length + todo.length := by rw [hes, length_append]
    have htd : Coherent n.lastIndex todo := by
      have := hch.drop done.length
      rwa [hes, drop_left, show prev + done.length = n.lastIndex by omega] at this
    obtain ⟨hst, hok⟩ := append_stored (K := K) hs
      (fun e he => hsr e (by rw [hes]; exact mem_append_right _ he)) htd
    rw [persistReconciled, persistEntriesLocked, if_neg hne]
    refine ⟨hst, fun h => ⟨hok h, ?_⟩⟩
    simp only [lastIndex, length_append] at hj ⊢
    omega
  | @replace done todo hes hne hsn hj htr =>
    have hlen : es.length = done.length + todo.length := by rw [hes, length_append]
    have hc : prev + 1 + done.length - n.lastSnapshot - 1 < n.log.length := by
      unfold lastIndex at hj
      omega
    have hpos : n.lastSnapshot + (prev + 1 + done.length - n.lastSnapshot - 1) = prev + done.length := by omega
    have htd : Coherent (n.lastSnapshot + (prev + 1 + done.length - n.lastSnapshot - 1)) todo := by
      have := hch.drop done.length
      rwa [hes, drop_left, ← hpos] at this
    have hd : n.log[prev + 1 + done.length - n.lastSnapshot - 1]? ≠
        (n.log.take (prev + 1 + done.length - n.lastSnapshot - 1) ++ todo)[prev + 1 + done.length -
          n.lastSnapshot - 1]? := by
      obtain ⟨e, rest, rfl⟩ := exists_cons_of_ne_nil hne
      have hnw := htr e rfl
      rw [entryTerm, if_neg (by omega), if_neg (by omega), if_neg (by omega)] at hnw
      rw [getElem?_append_right (by rw [length_take]; omega), length_take,
        show prev + 1 + done.length - n.lastSnapshot - 1 -
          min (prev + 1 + done.length - n.lastSnapshot - 1) n.log.length = 0 by omega]
      intro heq
      rw [heq] at hnw
      exact hnw rfl
    obtain ⟨hst, hok, hlg⟩ := replace_stored (K := K) hs
      (fun e he => hsr e (by rw [hes]; exact mem_append_right _ he)) hne hc htd hd
    rw [hpos, show prev + done.length = prev + 1 + done.length - 1 by omega] at hst hok hlg
    refine ⟨hst, fun h => ⟨hok h, ?_⟩⟩
    rw [lastIndex, hst.lastSnapshot_eq, hlg, length_append, length_take]
    omega

omit hs in
theorem advanceFollowerCommit_eq (n : Node Storage) (req : AppendRequest) :
    ∃ c, n.advanceFollowerCommit req = { n with commitIndex := c } := by
  unfold advanceFollowerCommit
  dsimp only
  split
  · exact ⟨_, rfl⟩
  · exact ⟨n.commitIndex, rfl⟩

variable {req : AppendRequest}

theorem appendMatched_stored (hrq : req.Carried)
    (hpr : req.prevLogIndex ≤ n.lastIndex) : Stored n (n.appendMatched (host K) req).1 stale ∧
      ((n.appendMatched (host K) req).2.success = true → (n.appendMatched (host K) req).1.disk.faults = n.disk.faults ∧
        (n.appendMatched (host K) req).2.matchIndex ≤ (n.appendMatched (host K) req).1.lastIndex) := by
  have hrc := reconcile_spec n req.entries (req.prevLogIndex + 1) (by omega) (by omega)
  unfold appendMatched
  rcases hr : n.reconcile (req.prevLogIndex + 1) req.entries with ⟨n', todo, k⟩
  rw [hr] at hrc
  obtain ⟨hst, hok⟩ := Reconciled.stored (K := K) hs hrc hrq.coherent hrq.storable
  simp only
  rcases hp : n'.persistReconciled (host K) todo k with ⟨m, ok⟩
  rw [hp] at hst hok
  cases ok with
  | false => exact ⟨hst, fun h => absurd h Bool.false_ne_true⟩
  | true =>
    obtain ⟨c, hc⟩ := advanceFollowerCommit_eq m req
    simp only [if_not_true, hc]
    exact ⟨{ hst with }, fun _ => hok rfl⟩

omit hs in
theorem Stored.after_unmoved {n₁ : Node Storage} (hc : Unmoved n n₁) (h : Stored n₁ m stale) : Stored n m stale := by
  obtain ⟨hkp, hd, htr, hfl⟩ := hc
  have hlg := log_of_kept hkp
  have hsn := lastSnapshot_of_kept hkp
  refine ⟨by rw [h.kept, hkp], hsn ▸ h.coherent, ?_, by rw [← hd, ← hfl]; exact h.settled⟩
  refine (Storage.Through.of_trace htr).trans (h.through.mono fun d hx => ⟨hd ▸ hx.1, fun w hw => ?_⟩)
  obtain ⟨l, hr, hl⟩ := hx.2 w hw
  exact ⟨l, hr, hsn ▸ hl.coherent, by rw [← hlg]; exact hl.agree⟩

/-- **`appendEntriesLocked`.** Every request keeps the file in step with the log, or a call of the
persister failed in it; a success means that none did. -/
theorem appendEntriesLocked_stored (hrq : req.Carried) :
    Stored n (n.appendEntriesLocked (host K) req).1 stale ∧ ((n.appendEntriesLocked (host K) req).2.success = true →
        (n.appendEntriesLocked (host K) req).1.disk.faults = n.disk.faults ∧
        (n.appendEntriesLocked (host K) req).2.matchIndex ≤ (n.appendEntriesLocked (host K) req).1.lastIndex) := by
  rcases appendEntriesLocked_calm (H := host K) n req with ⟨hc, hno⟩ | ⟨n1, hc, heq⟩
  · have hst : Stored n (n.appendEntriesLocked (host K) req).1 stale :=
      .after_unmoved hc.unmoved (.refl (hs.of_unmoved hc.unmoved))
    refine ⟨hst, fun h => ?_⟩
    rw [hno] at h
    exact absurd h Bool.false_ne_true
  rw [heq]
  have hs1 := hs.of_unmoved hc.unmoved
  have hfl : n1.disk.faults = n.disk.faults := hc.unmoved.faults
  unfold appendChecked
  by_cases hb : n1.lastIndex < req.prevLogIndex
  · simp only [if_pos hb]
    exact ⟨.after_unmoved hc.unmoved (.refl hs1), fun h => absurd h Bool.false_ne_true⟩
  simp only [if_neg hb]
  split
  next hcn =>
    have hst := truncateFrom_stored (K := K) hs1 hcn.1
    rcases ht : (n1.truncateFrom req.prevLogIndex).persistTruncateLocked (host K)
      (req.prevLogIndex - 1) with ⟨m, ok⟩
    rw [ht] at hst
    cases ok <;> exact ⟨.after_unmoved hc.unmoved hst, fun h => absurd h Bool.false_ne_true⟩
  · obtain ⟨hst, hok⟩ := appendMatched_stored (K := K) hs1 hrq (not_lt.1 hb)
    rw [hfl] at hok
    exact ⟨.after_unmoved hc.unmoved hst, hok⟩

end Node

end NothingDNS.Raft
