import NothingDNS.Storage.WalFrames
/-!
# What the log returns after any history

`WAL.Holds w es`: the files of `w` are the frames of `es`, cut into segments at frame
boundaries. Every call that writes extends `es` by what it wrote, closing and opening
keep it, and both ways of reading return it: `readAll` file by file, the sequential
reader from the files as one stream (`WALReader.pending`).
-/

namespace NothingDNS.Storage

open List BigEndian

structure WAL.Holds (w : WAL) (es : List WALEntry) : Prop where
  files : ∃ (before : List (List WALEntry)) (last : List WALEntry),
    w.sealed.map (·.bytes) = before.map (List.flatMap encodeEntry) ∧ w.active.bytes = last.flatMap encodeEntry ∧ before.flatten ++ last = es
  size : w.active.size = w.active.bytes.length
  readable : ∀ e ∈ es, Readable w.maxSegmentSize e
  ids : (w.segments.map (·.id)).Pairwise (· < ·)
  room : WALHeaderSize < w.maxSegmentSize

structure WAL.SameHandle (w w' : WAL) : Prop where
  maxSegmentSize : w'.maxSegmentSize = w.maxSegmentSize
  closed : w'.closed = w.closed
  syncErr : w'.syncErr = w.syncErr

theorem WAL.SameHandle.trans {u v w : WAL} (h : u.SameHandle v) (h' : v.SameHandle w) : u.SameHandle w :=
  ⟨h'.maxSegmentSize.trans h.maxSegmentSize, h'.closed.trans h.closed, h'.syncErr.trans h.syncErr⟩

/-! ## Reading a whole log -/

section Read

variable {w : WAL} {es : List WALEntry}

theorem readSegment_frames {max : Nat} (h : ∀ e ∈ es, Readable max e) : readSegment max (es.flatMap encodeEntry) = es :=
  Frames.values_frames readHead_sound readHead_encodes h

theorem flatMap_readSegment_frames {max : Nat} : ∀ {ess : List (List WALEntry)},
    (∀ e ∈ ess.flatten, Readable max e) → (ess.map (List.flatMap encodeEntry)).flatMap (readSegment max) = ess.flatten
  | [], _ => rfl
  | es :: ess, h => by
    rw [flatten_cons] at h
    rw [map_cons, flatMap_cons, flatten_cons, readSegment_frames fun e he => h e (mem_append_left _ he),
      flatMap_readSegment_frames fun e he => h e (mem_append_right _ he)]

theorem WAL.readAll_eq (w : WAL) : w.readAll =
    (w.sealed.map (·.bytes)).flatMap (readSegment w.maxSegmentSize) ++ readSegment w.maxSegmentSize w.active.bytes := by
  rw [WAL.readAll, WAL.segments, flatMap_append, flatMap_singleton, flatMap_map]

theorem WAL.Holds.readAll (h : w.Holds es) : w.readAll = es := by
  obtain ⟨before, last, hsl, hac, rfl⟩ := h.files
  rw [w.readAll_eq, hsl, hac, flatMap_readSegment_frames fun e he => h.readable e (mem_append_left _ he),
    readSegment_frames fun e he => h.readable e (mem_append_right _ he)]

theorem WAL.Holds.flatten_bytes (h : w.Holds es) : (w.segments.map (·.bytes)).flatten = es.flatMap encodeEntry := by
  obtain ⟨before, last, hsl, hac, rfl⟩ := h.files
  rw [WAL.segments, map_append, flatten_append, hsl, Frames.flatten_map_flatMap, flatMap_append, map_singleton,
    flatten_singleton, hac]

end Read

section Write

variable {w : WAL} {es : List WALEntry} {e : WALEntry}

theorem WAL.Holds.createNewSegment (h : w.Holds es) : w.createNewSegment.Holds es where
  files := by
    obtain ⟨before, last, hsl, hac, hes⟩ := h.files
    refine ⟨before ++ [last], [], ?_, rfl, by simpa using hes⟩
    simp [WAL.createNewSegment, hsl, hac]
  size := rfl
  readable := h.readable
  ids := by
    have his := h.ids
    simp only [WAL.segments, WAL.createNewSegment, map_append, map_singleton] at his ⊢
    rw [pairwise_append]
    refine ⟨his, pairwise_singleton _ _, ?_⟩
    -- the active segment has the largest number so far
    intro i hi j hj
    obtain rfl := mem_singleton.1 hj
    rcases mem_append.1 hi with hsl | hac
    · have := (pairwise_append.1 his).2.2 i hsl _ (mem_singleton_self _)
      omega
    · obtain rfl := mem_singleton.1 hac
      omega
  room := h.room

theorem WAL.createNewSegment_sameHandle (w : WAL) : w.SameHandle w.createNewSegment := ⟨rfl, rfl, rfl⟩

theorem WAL.writeFrame_eq {frame : List UInt8} (hfl : w.file = true) : w.writeFrame .none frame =
    ({ w with active := { w.active with
        bytes := w.active.bytes ++ frame, size := w.active.size + frame.length } },
      .ok (w.active.size + frame.length)) :=
  if_neg (by simp [hfl])

theorem WAL.Holds.writeFrame (h : w.Holds es) (hfl : w.file = true) (he : Readable w.maxSegmentSize e) :
    ∃ w' n, w.writeFrame .none (encodeEntry e) = (w', .ok n) ∧ w'.Holds (es ++ [e]) ∧ w'.file = true ∧
      w.SameHandle w' := by
  obtain ⟨before, last, hsl, hac, hes⟩ := h.files
  refine ⟨_, _, WAL.writeFrame_eq hfl, ?_, hfl, ⟨rfl, rfl, rfl⟩⟩
  constructor
  · refine ⟨before, last ++ [e], hsl, ?_, by rw [← append_assoc, hes]⟩
    simp [hac]
  · simp [h.size]
  · exact forall_mem_append.2 ⟨h.readable, forall_mem_singleton.2 he⟩
  · simpa only [WAL.segments, map_append, map_singleton] using h.ids
  · exact h.room

theorem WAL.Holds.appendLocked (h : w.Holds es) (he : Readable w.maxSegmentSize e) :
    (w.file = false ∧ w.appendLocked .none e = (w, .error .rollback)) ∨
    ∃ w' n, w.appendLocked .none e = (w', .ok n) ∧ w'.Holds (es ++ [e]) ∧ w'.file = true ∧ w.SameHandle w' := by
  unfold WAL.appendLocked
  split
  · obtain ⟨w', n, hw, hh, hfl, hsm⟩ := h.createNewSegment.writeFrame rfl he
    exact .inr ⟨w', n, hw, hh, hfl, w.createNewSegment_sameHandle.trans hsm⟩
  · cases hfl : w.file with
    | true => exact .inr (h.writeFrame hfl he)
    | false => exact .inl ⟨rfl, if_pos hfl⟩

theorem WAL.Holds.appendEach : ∀ {fs : List WALEntry} {w : WAL} {es : List WALEntry}, w.Holds es → w.file = true →
    (∀ e ∈ fs, Readable w.maxSegmentSize e) →
    ∃ w', w.appendEach (fun _ => .none) fs = (w', .ok ()) ∧ w'.Holds (es ++ fs) ∧ w'.file = true ∧ w.SameHandle w'
  | [], w, es, h, hfl, _ => ⟨w, rfl, by rwa [append_nil], hfl, ⟨rfl, rfl, rfl⟩⟩
  | e :: fs, w, es, h, hfl, hfs => by
    rcases h.appendLocked (hfs e mem_cons_self) with ⟨hno, -⟩ | ⟨w', n, hw, hh, hf', hsm⟩
    · rw [hfl] at hno
      cases hno
    · have hfs' : ∀ f ∈ fs, Readable w'.maxSegmentSize f := by
        intro f hf
        rw [hsm.maxSegmentSize]
        exact hfs f (mem_cons_of_mem _ hf)
      obtain ⟨w'', hw'', hh', hf'', hs'⟩ := hh.appendEach hf' hfs'
      refine ⟨w'', ?_, ?_, hf'', hsm.trans hs'⟩
      · simp only [WAL.appendEach, hw]
        exact hw''
      · rwa [append_assoc, singleton_append] at hh'

theorem batchFrames_readable {fs : List WALEntry} {max : Nat} (hmx : WALHeaderSize < max)
    (h : ∀ e ∈ fs, Readable max e) : ∀ e ∈ batchFrames fs, Readable max e := by
  simp only [WALHeaderSize] at hmx
  refine forall_mem_cons.2 ⟨?_, forall_mem_append.2 ⟨h, forall_mem_singleton.2 ⟨Nat.zero_le _, Nat.zero_le _⟩⟩⟩
  simp only [Readable, beginMarker, length_encode, MaxSegmentSize]
  omega

end Write

section Open

variable {w : WAL} {es : List WALEntry}

theorem loadSegments_of_sorted {dir : Dir} (h : (dir.map (·.1)).Pairwise (· < ·)) :
    loadSegments dir = dir.map fun f => { id := f.1, size := f.2.length, bytes := f.2 } := by
  have hsr : dir.Pairwise fun a b => a.1 ≤ b.1 := (pairwise_map.1 h).imp fun hlt => Nat.le_of_lt hlt
  rw [loadSegments, hsr.insertionSort_eq]

theorem loadSegments_dir (h : (w.segments.map (·.id)).Pairwise (· < ·)) :
    loadSegments w.dir = w.segments.map fun s => { s with size := s.bytes.length } := by
  rw [loadSegments_of_sorted (by simpa [WAL.dir, Function.comp_def] using h), WAL.dir, map_map]
  rfl

theorem findValidEnd_frames (h : ∀ e ∈ es, e.data.length ≤ MaxSegmentSize) :
    findValidEnd (es.flatMap encodeEntry) = (es.flatMap encodeEntry).length := by
  have hrd : Frames.extent (readHead MaxSegmentSize) (es.flatMap encodeEntry ++ []) =
      (es.flatMap encodeEntry).length + Frames.extent (readHead MaxSegmentSize) [] :=
    Frames.extent_encode readHead_sound readHead_encodes fun e he => ⟨h e he, h e he⟩
  have hnil : Frames.extent (readHead MaxSegmentSize) [] = 0 := rfl
  rw [hnil, Nat.add_zero, append_nil] at hrd
  -- reading gets to the end of the file, and the bounding scan at least as far
  have hle := Frames.extent_le_extent readHead_sound boundHead_sound (@readHead_refines MaxSegmentSize)
    (es.flatMap encodeEntry)
  exact le_antisymm (Frames.extent_le boundHead_sound _) (hrd ▸ hle)

theorem openWAL_of_load {opt : Int} {dir : Dir} {before : List Segment} {active : Segment}
    (h : loadSegments dir = before ++ [active]) : openWAL opt dir =
      { maxSegmentSize := normalizeMaxSegmentSize opt, sealed := before, active := truncateTail active, file := true,
        closed := false, syncErr := false } := by
  rw [openWAL, h, reverse_append, reverse_singleton, singleton_append]
  simp

theorem normalizeMaxSegmentSize_gt (opt : Int) : WALHeaderSize < normalizeMaxSegmentSize opt := by
  unfold normalizeMaxSegmentSize
  split
  · decide
  · omega

theorem openWAL_nil_holds (opt : Int) : (openWAL opt []).Holds [] where
  files := ⟨[], [], rfl, rfl, rfl⟩
  size := rfl
  readable := by simp
  ids := pairwise_singleton _ _
  room := normalizeMaxSegmentSize_gt opt

theorem WAL.Holds.openWAL (h : w.Holds es) {opt : Int} (hop : w.maxSegmentSize = normalizeMaxSegmentSize opt) :
    (openWAL opt w.dir).Holds es := by
  obtain ⟨before, last, hsl, hac, hes⟩ := h.files
  have hld := loadSegments_dir h.ids
  rw [WAL.segments, map_append, map_singleton] at hld
  -- there is no torn tail to cut
  have hkp : truncateTail { w.active with size := w.active.bytes.length } =
      { w.active with size := w.active.bytes.length } := by
    have hls : ∀ e ∈ last, e.data.length ≤ MaxSegmentSize := fun e he =>
      (h.readable e (hes ▸ mem_append_right _ he)).2
    rw [truncateTail]
    exact if_neg (by rw [hac, findValidEnd_frames hls]; exact lt_irrefl _)
  rw [openWAL_of_load hld, hkp]
  constructor
  · refine ⟨before, last, ?_, hac, hes⟩
    rw [map_map]
    exact hsl
  · rfl
  · rw [← hop]
    exact h.readable
  · simpa [WAL.segments, Function.comp_def] using h.ids
  · exact hop ▸ h.room

end Open

end NothingDNS.Storage
