import NothingDNS.Storage.WalHistory
/-!
# Opening a damaged log, and batches cut short

Opening cuts the active segment where `findValidEnd` stops, which loses nothing that
is readable (`openWAL_readAll`). What is appended then is readable exactly if reading does
not stop at a complete frame, or the first entry goes to a segment of its own
(`openWAL_append_readable`); a complete frame with a wrong sum hides it (`append_hidden`).

Reading does not look at the batch markers. Wherever `appendBatch` fails or a crash
cuts the files, any prefix of the old entries and the batch's frames can come back
(`appendBatch_crash`, `batch_half_recovered`).
-/

namespace NothingDNS.Storage

open List BigEndian Frames WAL

/-! ## Appending behind a damaged tail -/

section Open

variable {w w' : WAL} {es : List WALEntry} {e : WALEntry}

theorem truncateTail_read (max : Nat) (s : Segment) :
    readSegment max (truncateTail s).bytes = readSegment max s.bytes := by
  unfold truncateTail
  split_ifs
  · exact values_take_of_extent_le readHead_sound readHead_local
      (extent_le_extent readHead_sound boundHead_sound readHead_refines s.bytes)
  · rfl

theorem openWAL_readAll (opt : Int) (dir : Dir) : (openWAL opt dir).readAll =
    (loadSegments dir).flatMap fun s => readSegment (normalizeMaxSegmentSize opt) s.bytes := by
  rcases eq_nil_or_concat (loadSegments dir) with hnil | ⟨before, active, hld⟩
  · rw [openWAL, hnil]
    rfl
  · rw [concat_eq_append] at hld
    rw [openWAL_of_load hld, hld, readAll_eq, flatMap_append, flatMap_singleton, flatMap_map, truncateTail_read]

structure WAL.Appendable (w : WAL) : Prop where
  extent : Frames.extent (readHead w.maxSegmentSize) w.active.bytes = w.active.bytes.length
  file : w.file = true

variable {n : Nat}

theorem WAL.Appendable.writeFrame (h : w.Appendable) (he : Readable w.maxSegmentSize e)
    (hw : w.writeFrame .none (encodeEntry e) = (w', .ok n)) :
    w'.Appendable ∧ w'.readAll = w.readAll ++ [e] ∧ w'.maxSegmentSize = w.maxSegmentSize := by
  rw [WAL.writeFrame_eq h.file] at hw
  cases hw
  have hfl : w.active.bytes.take (Frames.extent (readHead w.maxSegmentSize) w.active.bytes) = w.active.bytes := by
    rw [h.extent, take_length]
  have hfr : encodeEntry e = [e].flatMap encodeEntry := (flatMap_singleton encodeEntry e).symm
  have hon : ∀ f ∈ [e], Readable w.maxSegmentSize f := by simpa using he
  refine ⟨⟨?_, h.file⟩, ?_, rfl⟩
  · have hap := Frames.extent_take_extent (@readHead_sound w.maxSegmentSize) readHead_local w.active.bytes
      (encodeEntry e)
    have hen : Frames.extent (readHead w.maxSegmentSize) (encodeEntry e ++ []) = _ :=
      hfr ▸ Frames.extent_encode readHead_sound readHead_encodes hon
    rw [hfl, h.extent] at hap
    rw [append_nil] at hen
    simp only [hap, hen, length_append]
    rfl
  · have hap := Frames.values_take_extent (@readHead_sound w.maxSegmentSize) readHead_local w.active.bytes
      (encodeEntry e)
    have hrd : Frames.values (readHead w.maxSegmentSize) (encodeEntry e) = [e] :=
      hfr ▸ Frames.values_frames readHead_sound readHead_encodes hon
    rw [hfl, hrd] at hap
    rw [readAll_eq, readAll_eq, append_assoc]
    exact congrArg _ hap

theorem WAL.createNewSegment_readAll (w : WAL) : w.createNewSegment.readAll = w.readAll := by
  rw [readAll, readAll, segments, createNewSegment, flatMap_append]
  exact append_nil _

theorem WAL.createNewSegment_appendable (w : WAL) : w.createNewSegment.Appendable := ⟨rfl, rfl⟩

theorem WAL.Appendable.append (h : w.Appendable) (he : e.data.length ≤ MaxSegmentSize) (hw : w.append e = (w', .ok n)) :
    w'.Appendable ∧ w'.readAll = w.readAll ++ [e] ∧ w'.maxSegmentSize = w.maxSegmentSize := by
  unfold WAL.append at hw
  split_ifs at hw with hcl hsy hlr
  · cases hw
  · cases hw
  · cases hw
  have hrd : Readable w.maxSegmentSize e := ⟨by omega, he⟩
  unfold WAL.appendLocked at hw
  split_ifs at hw with hrt
  · obtain ⟨hap, hall, hmx⟩ := w.createNewSegment_appendable.writeFrame hrd hw
    exact ⟨hap, by rw [hall, w.createNewSegment_readAll], hmx⟩
  · exact h.writeFrame hrd hw

def WAL.appendAll : WAL → List WALEntry → Option WAL
  | w, [] => some w
  | w, e :: es => match w.append e with
    | (w', .ok _) => w'.appendAll es
    | (_, .error _) => none

theorem WAL.Appendable.appendAll : ∀ {es : List WALEntry} {w w' : WAL}, w.Appendable →
    (∀ e ∈ es, e.data.length ≤ MaxSegmentSize) → w.appendAll es = some w' → w'.readAll = w.readAll ++ es
  | [], w, w', _, _, hw => by
    cases hw
    rw [append_nil]
  | e :: es, w, w', h, hes, hw => by
    rw [WAL.appendAll] at hw
    split at hw
    next w1 n hfr =>
      obtain ⟨hap, hall, -⟩ := h.append (hes e mem_cons_self) hfr
      rw [hap.appendAll (fun f hf => hes f (mem_cons_of_mem _ hf)) hw, hall, append_assoc]
      rfl
    · cases hw

/-- Reading stops at a frame that is complete by its length: the sum is wrong, or it is longer than the option. -/
def Damaged (max : Nat) (bytes : List UInt8) : Prop :=
  boundHead (bytes.drop (extent (readHead max) bytes)) ≠ none

instance (max : Nat) (bytes : List UInt8) : Decidable (Damaged max bytes) := inferInstanceAs (Decidable (_ ≠ _))

theorem findValidEnd_eq_iff (max : Nat) (bytes : List UInt8) :
    findValidEnd bytes = extent (readHead max) bytes ↔ ¬Damaged max bytes := by
  rw [Damaged, not_not, findValidEnd]
  induction bytes using scan_induction (@readHead_sound max) with
  | stop bs h =>
    rw [extent_none h, drop_zero]
    cases hb : boundHead bs with
    | none => simp [extent_none hb]
    | some f =>
      have hpos := (boundHead_sound bs f.1 f.2 hb).1
      rw [extent_some (a := f.1) (n := f.2) boundHead_sound hb]
      simp only [reduceCtorEq, iff_false]
      omega
  | frame bs a n h ih =>
    obtain ⟨c, hc⟩ := readHead_refines bs a n h
    rw [extent_some boundHead_sound hc, extent_some readHead_sound h, ← drop_drop, ← ih]
    omega

theorem openWAL_appendable (opt : Int) (dir : Dir) (h : ∀ s, (loadSegments dir).getLast? = some s →
      ¬Damaged (normalizeMaxSegmentSize opt) s.bytes) : (openWAL opt dir).Appendable := by
  rcases eq_nil_or_concat (loadSegments dir) with hnil | ⟨before, active, hld⟩
  · rw [openWAL, hnil]
    exact ⟨rfl, rfl⟩
  rw [concat_eq_append] at hld
  have har := (findValidEnd_eq_iff _ _).2 (h active (by rw [hld, getLast?_concat]))
  have hsz : active.size = active.bytes.length := by
    have hmem : active ∈ loadSegments dir := by simp [hld]
    obtain ⟨f, -, rfl⟩ := mem_map.1 hmem
    rfl
  have hle := extent_le boundHead_sound active.bytes
  rw [openWAL_of_load hld]
  refine ⟨?_, rfl⟩
  simp only [truncateTail]
  split_ifs with hlt
  · simp only [har]
    rw [extent_take_self readHead_sound readHead_local, length_take_of_le (har ▸ hle)]
  rw [← har]
  simp only [findValidEnd] at hlt ⊢
  omega

/-! ## Appending behind a damaged frame -/

/-- A complete frame that is refused stays refused, whatever is written behind it. -/
theorem readHead_append_of_bound {max : Nat} {bs rest : List UInt8} (hh : readHead max bs = none)
    (hb : boundHead bs ≠ none) : readHead max (bs ++ rest) = none := by
  obtain ⟨⟨u, n⟩, hb⟩ := Option.ne_none_iff_exists'.1 hb
  obtain ⟨hhd, -, hn, hle⟩ := boundHead_eq_some.1 hb
  cases hr : readHead max (bs ++ rest) with
  | none => rfl
  | some f =>
    obtain ⟨e, m⟩ := f
    obtain ⟨-, -, hm, -, -⟩ := readHead_eq_some.1 hr
    rw [← bodyLength_of_isPrefix (List.prefix_append bs rest) hhd, ← hn] at hm
    have hlc := readHead_local (bs ++ rest) e m (bs.drop m) hr
    rw [take_append_of_le_length (by omega), take_append_drop, hh] at hlc
    cases hlc

theorem scan_append_of_damaged {max : Nat} {bytes : List UInt8} (h : Damaged max bytes) (rest : List UInt8) :
    values (readHead max) (bytes ++ rest) = values (readHead max) bytes ∧ Damaged max (bytes ++ rest) := by
  unfold Damaged at h ⊢
  induction bytes using scan_induction (@readHead_sound max) with
  | stop bs hst =>
    rw [extent_none hst, drop_zero] at h
    have hst' : readHead max (bs ++ rest) = none := readHead_append_of_bound hst h
    rw [values_none hst, values_none hst', extent_none hst', drop_zero]
    obtain ⟨⟨u, n⟩, hb⟩ := Option.ne_none_iff_exists'.1 h
    obtain ⟨hhd, hmx, hn, hle⟩ := boundHead_eq_some.1 hb
    have hbl := bodyLength_of_isPrefix (List.prefix_append bs rest) hhd
    refine ⟨rfl, Option.ne_none_iff_exists'.2 ⟨((), n), boundHead_eq_some.2 ⟨?_, hbl ▸ hmx, by rw [hn, hbl], ?_⟩⟩⟩
    · rw [length_append]
      omega
    · rw [length_append]
      omega
  | frame bs a n hfr ih =>
    have hle := (readHead_sound bs a n hfr).2
    have hfr' : readHead max (bs ++ rest) = some (a, n) := by
      have hlc := readHead_local bs a n (bs.drop n ++ rest) hfr
      rwa [← append_assoc, take_append_drop] at hlc
    have hdr : (bs ++ rest).drop n = bs.drop n ++ rest := drop_append_of_le_length hle
    rw [extent_some readHead_sound hfr, ← drop_drop] at h
    obtain ⟨hvl, hdm⟩ := ih h
    rw [values_some readHead_sound hfr, values_some readHead_sound hfr', extent_some readHead_sound hfr',
      ← drop_drop, hdr, hvl]
    exact ⟨rfl, hdm⟩

/-- The next entry goes to the active segment. -/
def WAL.Keeps (w : WAL) (e : WALEntry) : Prop :=
  w.active.size + (WALHeaderSize + e.data.length) ≤ w.maxSegmentSize

theorem WAL.append_of_not_keeps (hk : ¬w.Keeps e) (he : e.data.length ≤ MaxSegmentSize)
    (hw : w.append e = (w', .ok n)) : w'.Appendable ∧ w'.readAll = w.readAll ++ [e] := by
  unfold WAL.append at hw
  split_ifs at hw with hcl hsy hlr
  · cases hw
  · cases hw
  · cases hw
  have hrd : Readable w.maxSegmentSize e := ⟨by omega, he⟩
  unfold WAL.appendLocked at hw
  split_ifs at hw with hrt
  · obtain ⟨hap, hall, -⟩ := w.createNewSegment_appendable.writeFrame hrd hw
    exact ⟨hap, by rw [hall, w.createNewSegment_readAll]⟩
  · exact absurd (Nat.not_lt.1 hrt) hk

theorem WAL.append_of_keeps (hdm : Damaged w.maxSegmentSize w.active.bytes) (hf : w.file = true) (hk : w.Keeps e)
    (hw : w.append e = (w', .ok n)) :
    Damaged w'.maxSegmentSize w'.active.bytes ∧ w'.file = true ∧ w'.readAll = w.readAll := by
  unfold WAL.append at hw
  split_ifs at hw with hcl hsy hlr
  · cases hw
  · cases hw
  · cases hw
  unfold WAL.appendLocked at hw
  rw [if_neg (Nat.not_lt.2 hk), WAL.writeFrame_eq hf] at hw
  cases hw
  obtain ⟨hvl, hd⟩ := scan_append_of_damaged hdm (encodeEntry e)
  refine ⟨hd, hf, ?_⟩
  rw [readAll_eq, readAll_eq]
  exact congrArg _ hvl

/-- Behind a damaged frame entries are lost until one goes to a new segment. -/
theorem WAL.appendAll_of_damaged : ∀ {es : List WALEntry} {w w' : WAL}, Damaged w.maxSegmentSize w.active.bytes →
    w.file = true → (∀ e ∈ es, e.data.length ≤ MaxSegmentSize) → w.appendAll es = some w' →
    ∃ read, w'.readAll = w.readAll ++ read ∧ read.length ≤ es.length ∧
      ((∃ e ∈ es.head?, w.Keeps e) → read.length < es.length)
  | [], w, w', _, _, _, hw => by
    cases hw
    exact ⟨[], (append_nil _).symm, le_rfl, fun ⟨e, he, _⟩ => by cases he⟩
  | e :: es, w, w', hdm, hf, hes, hw => by
    rw [WAL.appendAll] at hw
    split at hw
    next w1 n hfr =>
      obtain ⟨he, hes⟩ := forall_mem_cons.1 hes
      by_cases hk : w.Keeps e
      · obtain ⟨hd1, hf1, hall⟩ := WAL.append_of_keeps hdm hf hk hfr
        obtain ⟨read, hrd, hle, -⟩ := WAL.appendAll_of_damaged hd1 hf1 hes hw
        exact ⟨read, by rw [hrd, hall], by rw [length_cons]; omega, fun _ => by rw [length_cons]; omega⟩
      · obtain ⟨hap, hall⟩ := WAL.append_of_not_keeps hk he hfr
        refine ⟨e :: es, by rw [hap.appendAll hes hw, hall, append_assoc]; rfl, le_rfl, ?_⟩
        rintro ⟨e', he', hk'⟩
        obtain rfl : e = e' := by simpa using he'
        exact absurd hk' hk
    · cases hw

theorem openWAL_active {opt : Int} {dir : Dir} {s : Segment} (hs : (loadSegments dir).getLast? = some s) :
    (openWAL opt dir).active = truncateTail s ∧ (openWAL opt dir).file = true := by
  rcases eq_nil_or_concat (loadSegments dir) with hnil | ⟨before, active, hld⟩
  · rw [hnil] at hs
    cases hs
  · rw [concat_eq_append] at hld
    rw [hld, getLast?_concat] at hs
    cases hs
    rw [openWAL_of_load hld]
    exact ⟨rfl, rfl⟩

theorem boundHead_local : Frames.Local boundHead := by
  intro bs u n rest h
  obtain ⟨hh, hmx, hn, hle⟩ := boundHead_eq_some.1 h
  have hlen : (bs.take n).length = n := length_take_of_le hle
  have hb : bodyLength (bs.take n ++ rest) = bodyLength bs := by
    rw [← bodyLength_of_isPrefix (List.take_prefix n bs) (by omega)]
    exact (bodyLength_of_isPrefix (List.prefix_append _ _) (by omega)).symm
  refine boundHead_eq_some.2 ⟨?_, hb ▸ hmx, by rw [hb, hn], ?_⟩
  · rw [length_append]
    omega
  · rw [length_append]
    omega

theorem extent_take_of_extent_le {max : Nat} {bs : List UInt8} {m : Nat} (h : extent (readHead max) bs ≤ m) :
    extent (readHead max) (bs.take m) = extent (readHead max) bs := by
  induction bs using scan_induction (@readHead_sound max) generalizing m with
  | stop bs hst =>
    rw [extent_none hst, extent_none]
    have hst' : readHead max (bs.take m ++ bs.drop m) = none := by rwa [take_append_drop]
    exact none_of_append readHead_local hst'
  | frame bs a n hfr ih =>
    rw [extent_some readHead_sound hfr] at h ⊢
    have hfr' : readHead max (bs.take m) = some (a, n) := by
      have hlc := readHead_local bs a n ((bs.drop n).take (m - n)) hfr
      rwa [← take_add, Nat.add_sub_cancel' (by omega)] at hlc
    rw [extent_some readHead_sound hfr', drop_take, ih (by omega)]

theorem damaged_truncateTail {max : Nat} {s : Segment} (h : Damaged max s.bytes) : Damaged max (truncateTail s).bytes := by
  have hlt : extent (readHead max) s.bytes < findValidEnd s.bytes :=
    lt_of_le_of_ne (extent_le_extent readHead_sound boundHead_sound readHead_refines s.bytes)
      fun heq => (findValidEnd_eq_iff max s.bytes).1 heq.symm h
  have htk : ∀ {bs : List UInt8} {k : Nat}, extent boundHead bs = k → extent boundHead (bs.take k) = k := by
    rintro bs k rfl
    exact extent_take_self boundHead_sound boundHead_local bs
  unfold truncateTail
  split_ifs
  · by_contra hno
    have heq := (findValidEnd_eq_iff max _).2 hno
    have hex : extent (readHead max) (s.bytes.take (findValidEnd s.bytes)) = extent (readHead max) s.bytes :=
      extent_take_of_extent_le hlt.le
    rw [show findValidEnd (s.bytes.take (findValidEnd s.bytes)) = findValidEnd s.bytes from htk rfl, hex] at heq
    omega
  · exact h

end Open

section Batch

variable {w w' : WAL} {es : List WALEntry} {e : WALEntry}

/-- A crash leaves the first `files` segment files and of them the first `octets` octets, in the order written. -/
def crash (files octets : Nat) (dir : Dir) : Dir :=
  ((dir.take files).map (·.1)).zip (Frames.cutAt octets ((dir.take files).map (·.2)))

/-- The files hold a prefix of the frames of `es`, whatever failed. -/
structure WAL.Partly (w : WAL) (es : List WALEntry) : Prop where
  files : Frames.Cut encodeEntry es (w.segments.map (·.bytes))
  ids : (w.segments.map (·.id)).Pairwise (· < ·)

theorem WAL.Holds.partly_of_prefix (h : w.Holds es) {p : List UInt8} {fs : List WALEntry}
    (hp : p <+: fs.flatMap encodeEntry) :
    { w with active := { w.active with bytes := w.active.bytes ++ p } }.Partly (es ++ fs) := by
  obtain ⟨before, last, hsl, hac, rfl⟩ := h.files
  refine ⟨?_, by simpa only [segments, map_append, map_singleton] using h.ids⟩
  simp only [segments, map_append, map_singleton, hsl, hac, append_assoc]
  refine Frames.Cut.of_whole (.torn ?_ (by simp)) before
  rw [flatMap_append]
  exact (prefix_append_right_inj _).2 hp

theorem WAL.Holds.partly (h : w.Holds es) : w.Partly es := by
  have hnil := h.partly_of_prefix (List.nil_prefix (l := ([] : List WALEntry).flatMap encodeEntry))
  simpa only [append_nil] using hnil

theorem WAL.Partly.append (h : w.Partly es) (fs : List WALEntry) : w.Partly (es ++ fs) := ⟨h.files.append fs, h.ids⟩

theorem WAL.Holds.writeFrame_any (h : w.Holds es) (he : Readable w.maxSegmentSize e) (fault : Fault) :
    (∃ w' n, w.writeFrame fault (encodeEntry e) = (w', .ok n) ∧ w'.Holds (es ++ [e]) ∧ w.SameHandle w') ∨
    ∃ w' err, w.writeFrame fault (encodeEntry e) = (w', .error err) ∧ w'.Partly (es ++ [e]) := by
  have hp : ∀ n, (encodeEntry e).take n <+: [e].flatMap encodeEntry := by
    intro n
    rw [flatMap_singleton]
    exact List.take_prefix _ _
  cases hfl : w.file with
  | false => exact .inr ⟨w, .rollback, if_pos hfl, h.partly.append _⟩
  | true =>
    have hop : ¬ w.file = false := by simp [hfl]
    -- every fault that is not one of writing leaves the write as it is without one
    obtain ⟨w1, n, hw1, hh, -, hsm⟩ := h.writeFrame hfl he
    cases fault with
    | none | rotate => exact .inl ⟨w1, n, hw1, hh, hsm⟩
    | write m rolledBack =>
      cases rolledBack with
      | false => exact .inr ⟨_, _, if_neg hop, h.partly_of_prefix (hp m)⟩
      | true =>
        refine .inr ⟨_, _, if_neg hop, ?_⟩
        rw [h.size, take_left]
        exact h.partly.append _

theorem WAL.Holds.appendLocked_any (h : w.Holds es) (he : Readable w.maxSegmentSize e) (fault : Fault) :
    (∃ w' n, w.appendLocked fault e = (w', .ok n) ∧ w'.Holds (es ++ [e]) ∧ w.SameHandle w') ∨
    ∃ w' err, w.appendLocked fault e = (w', .error err) ∧ w'.Partly (es ++ [e]) := by
  unfold WAL.appendLocked
  split_ifs with hrt
  · split
    · refine .inr ⟨_, _, rfl, ?_⟩
      exact ⟨(h.partly.append _).files, h.ids⟩
    rcases h.createNewSegment.writeFrame_any he fault with ⟨w', n, hw, hh, hsm⟩ | hfl
    · exact .inl ⟨w', n, hw, hh, w.createNewSegment_sameHandle.trans hsm⟩
    · exact .inr hfl
  · exact h.writeFrame_any he fault

theorem WAL.Holds.appendEach_any : ∀ {fs : List WALEntry} {w : WAL} {es : List WALEntry}, w.Holds es →
    (∀ e ∈ fs, Readable w.maxSegmentSize e) → ∀ faults, (w.appendEach faults fs).1.Partly (es ++ fs)
  | [], w, es, h, _, _ => by
    rw [append_nil]
    exact h.partly
  | e :: fs, w, es, h, hfs, faults => by
    have hsp : es ++ e :: fs = es ++ [e] ++ fs := by simp
    rw [WAL.appendEach, hsp]
    rcases h.appendLocked_any (hfs e mem_cons_self) (faults 0) with ⟨w', n, hw, hh, hsm⟩ | ⟨w', err, hw, hp⟩
    · rw [hw]
      refine hh.appendEach_any (fun f hf => ?_) _
      rw [hsm.maxSegmentSize]
      exact hfs f (mem_cons_of_mem _ hf)
    · rw [hw]
      exact hp.append fs

theorem WAL.Partly.syncLocked (h : w.Partly es) (fails : Bool) : (w.syncLocked fails).1.Partly es := by
  unfold WAL.syncLocked
  split_ifs <;> exact ⟨h.files, h.ids⟩

variable {batch : List WALEntry}

theorem WAL.Holds.appendBatch_any (h : w.Holds es)
    (hb : ∀ e ∈ batch, Readable w.maxSegmentSize e) (faults : Nat → Fault) (syncFails : Bool) :
    (w.appendBatch faults syncFails batch).1.Partly (es ++ batchFrames batch) := by
  have hp := h.appendEach_any (batchFrames_readable h.room hb) faults
  unfold appendBatch
  split_ifs
  · exact h.partly.append _
  · exact h.partly.append _
  split
  next w' err hw =>
    rwa [hw] at hp
  next w' u hw =>
    rw [hw] at hp
    exact hp.syncLocked syncFails

theorem crash_ids (files octets : Nat) (dir : Dir) :
    (crash files octets dir).map (·.1) = (dir.take files).map (·.1) := by
  rw [crash]
  exact map_fst_zip (by simp)

theorem crash_bytes (files octets : Nat) (dir : Dir) :
    (crash files octets dir).map (·.2) = Frames.cutAt octets ((dir.map (·.2)).take files) := by
  rw [crash, ← map_take]
  exact map_snd_zip (by simp)

theorem WAL.Partly.reopen (h : w.Partly es) {opt : Int} (hes : ∀ e ∈ es, Readable (normalizeMaxSegmentSize opt) e)
    (files octets : Nat) {dir : Dir} (hd : dir = crash files octets w.dir) :
    ∃ k ≤ es.length, (openWAL opt dir).readAll = es.take k ∧
      ((es.take k).flatMap encodeEntry).length ≤ (dir.map (·.2)).flatten.length ∧
      ∀ j ≤ es.length, ((es.take j).flatMap encodeEntry).length ≤ (dir.map (·.2)).flatten.length → j ≤ k := by
  have his : (dir.map (·.1)).Pairwise (· < ·) := by
    rw [hd, crash_ids, map_take]
    refine List.Pairwise.sublist (take_sublist _ _) ?_
    simpa [WAL.dir, Function.comp_def] using h.ids
  have hct : Frames.Cut encodeEntry es (dir.map (·.2)) := by
    rw [hd, crash_bytes]
    refine (Frames.Cut.take ?_ files).cutAt octets
    simpa [WAL.dir, Function.comp_def] using h.files
  have hrd : (openWAL opt dir).readAll =
      (dir.map (·.2)).flatMap (values (readHead (normalizeMaxSegmentSize opt))) := by
    rw [openWAL_readAll, loadSegments_of_sorted his, flatMap_map, flatMap_map]
    rfl
  rw [hrd]
  exact hct.read readHead_sound readHead_encodes readHead_torn hes

/-- What is read of a batch behind `es` is the whole batch or nothing of it. -/
def AllOrNone (es batch read : List WALEntry) : Prop :=
  read <+: es ++ [beginMarker batch] ∨ es ++ beginMarker batch :: batch <+: read

instance (es batch read : List WALEntry) : Decidable (AllOrNone es batch read) :=
  inferInstanceAs (Decidable (_ ∨ _))

variable {k : Nat}

theorem allOrNone_of_le (h : k ≤ es.length + 1) : AllOrNone es batch ((es ++ batchFrames batch).take k) := by
  have hfr : es ++ batchFrames batch = es ++ [beginMarker batch] ++ (batch ++ [commitMarker]) := by
    simp [batchFrames]
  rw [hfr, take_append_of_le_length (by simpa using h)]
  exact .inl (List.take_prefix _ _)

theorem take_batchFrames (es batch : List WALEntry) (i : Nat) (hi : i ≤ batch.length) :
    (es ++ batchFrames batch).take (es.length + 1 + i) = es ++ beginMarker batch :: batch.take i := by
  rw [Nat.add_assoc, take_length_add_append, batchFrames, Nat.add_comm 1 i, take_succ_cons,
    take_append_of_le_length hi]

theorem allOrNone_of_ge (h : es.length + 1 + batch.length ≤ k) :
    AllOrNone es batch ((es ++ batchFrames batch).take k) := by
  have hall := take_batchFrames es batch batch.length le_rfl
  rw [take_length] at hall
  refine .inr ?_
  rw [← hall]
  exact take_prefix_take_left h

end Batch

/-- Where a cut leaves a batch whole or leaves nothing of it: in a batch of at most one entry, before the end of the
first entry, or not before the end of the last. -/
def CutOutside (es batch : List WALEntry) (left : Nat) : Prop :=
  batch.length ≤ 1 ∨ left < ((es ++ beginMarker batch :: batch.take 1).flatMap encodeEntry).length ∨
    ((es ++ beginMarker batch :: batch).flatMap encodeEntry).length ≤ left

theorem allOrNone_take_iff {es batch : List WALEntry} {k left : Nat} (hk : k ≤ (es ++ batchFrames batch).length)
    (hft : (((es ++ batchFrames batch).take k).flatMap encodeEntry).length ≤ left)
    (hms : ∀ j ≤ (es ++ batchFrames batch).length,
      (((es ++ batchFrames batch).take j).flatMap encodeEntry).length ≤ left → j ≤ k) :
    AllOrNone es batch ((es ++ batchFrames batch).take k) ↔ CutOutside es batch left := by
  have hlen : (es ++ batchFrames batch).length = es.length + 1 + batch.length + 1 := by
    simp only [batchFrames, length_append, length_cons, length_nil]
    omega
  have htk := take_batchFrames es batch batch.length le_rfl
  rw [take_length] at htk
  constructor
  · -- read strictly inside the batch, something of it is there and something is missing
    intro han
    by_contra hcut
    simp only [CutOutside, not_or, Nat.not_le, Nat.not_lt] at hcut
    obtain ⟨htwo, hfst, hlst⟩ := hcut
    have hon := take_batchFrames es batch 1 (by omega)
    have hlow : es.length + 1 + 1 ≤ k := hms _ (by omega) (by rw [hon]; exact hfst)
    have hup : k < es.length + 1 + batch.length := by
      by_contra hge
      obtain ⟨t, ht⟩ : (es ++ batchFrames batch).take (es.length + 1 + batch.length) <+:
          (es ++ batchFrames batch).take k := take_prefix_take_left (by omega)
      rw [← ht, htk, flatMap_append, length_append] at hft
      omega
    have hkl : ((es ++ batchFrames batch).take k).length = k := length_take_of_le hk
    rcases han with hpr | hpr
    · have := hpr.length_le
      simp only [hkl, length_append, length_singleton] at this
      omega
    · have := hpr.length_le
      simp only [hkl, length_append, length_cons] at this
      omega
  · intro hcut
    by_cases hnn : k ≤ es.length + 1
    · exact allOrNone_of_le hnn
    by_cases hw : es.length + 1 + batch.length ≤ k
    · exact allOrNone_of_ge hw
    exfalso
    rcases hcut with hsh | hb | haf
    · omega
    · have hon := take_batchFrames es batch 1 (by omega)
      obtain ⟨t, ht⟩ : (es ++ batchFrames batch).take (es.length + 1 + 1) <+: (es ++ batchFrames batch).take k :=
        take_prefix_take_left (by omega)
      rw [← ht, hon, flatMap_append, length_append] at hft
      omega
    · have := hms (es.length + 1 + batch.length) (by omega) (by rw [htk]; exact haf)
      omega

end NothingDNS.Storage
