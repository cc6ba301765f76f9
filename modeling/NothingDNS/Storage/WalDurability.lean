import NothingDNS.Storage.WalHistory
/-!
# Durability of the log

An entry fits if no reader's limit is below its length: `append` refuses what is larger than a segment, `appendBatch`
and `compact` write it and report success (`compact_unreadable`).
-/

namespace NothingDNS.Storage

open List BigEndian WALReader Option

/-! ## The sequential reader -/

section Reader

variable {r r' : WALReader} {e : WALEntry} {rest : List UInt8}

/-- The octets `Next` has still to deliver: the reader does not see where a file ends. -/
def WALReader.pending (r : WALReader) : List UInt8 := r.buf ++ (r.file.getD [] ++ r.todo.flatten)

theorem WALReader.buffered_of_full (hbf : r.buf = encodeEntry e ++ rest) (he : e.data.length ≤ MaxSegmentSize) :
    r.buffered = some (.ok (e, { r with buf := rest })) := by
  have hb : bodyLength r.buf = e.data.length := by
    rw [hbf, ← bodyLength_encodeEntry he]
    exact (bodyLength_of_isPrefix (List.prefix_append _ _) (by simp)).symm
  have hlen : r.buf.length = WALHeaderSize + e.data.length + rest.length := by
    rw [hbf, length_append, length_encodeEntry]
  have htk : r.buf.take (WALHeaderSize + e.data.length) = encodeEntry e := by
    rw [hbf]
    exact take_left' (length_encodeEntry e)
  have hd : r.buf.drop (WALHeaderSize + e.data.length) = rest := by
    rw [hbf]
    exact drop_left' (length_encodeEntry e)
  rw [buffered, hb, if_neg (by omega), if_neg (by omega), if_neg (by omega), htk, decodeEntry_encodeEntry he, hd]

theorem WALReader.buffered_of_short (hb : r.buf <+: encodeEntry e) (hlt : r.buf.length < (encodeEntry e).length)
    (he : e.data.length ≤ MaxSegmentSize) : r.buffered = none := by
  rw [length_encodeEntry] at hlt
  unfold buffered
  split_ifs with h1 h2 h3
  · rfl
  · rw [bodyLength_of_isPrefix hb (not_lt.1 h1), bodyLength_encodeEntry he] at h2
    omega
  · rfl
  · rw [bodyLength_of_isPrefix hb (not_lt.1 h1), bodyLength_encodeEntry he] at h3
    omega

theorem WALReader.buffered_nil (hb : r.buf = []) : r.buffered = none := by
  rw [buffered, hb]
  rfl

theorem WALReader.readFile_pending (r : WALReader) (bytes : List UInt8) (todo : List (List UInt8)) :
    (r.readFile bytes todo).pending = r.buf ++ (bytes ++ todo.flatten) := by
  cases bytes with
  | nil => rfl
  | cons b bs =>
    simp only [readFile, pending, getD_some, append_assoc]
    rw [← append_assoc (take 4096 _), take_append_drop]

theorem WALReader.readFile_work (r : WALReader) (bytes : List UInt8) (todo : List (List UInt8)) :
    (r.readFile bytes todo).work ≤ 2 * todo.length + todo.flatten.length + bytes.length := by
  cases bytes with
  | nil => simp [readFile, work]
  | cons b bs =>
    simp only [readFile, work, elim_some, length_drop, length_cons]
    omega

theorem WALReader.readMore_some (h : r.readMore = some r') : r'.pending = r.pending ∧ r'.work < r.work := by
  unfold readMore at h
  split at h
  next bytes hfl =>
    cases h
    have hw := r.readFile_work bytes r.todo
    refine ⟨by rw [r.readFile_pending, pending, hfl]; rfl, ?_⟩
    rw [work.eq_def r, hfl, elim_some]
    omega
  · cases h
  next seg todo hfl htd =>
    cases h
    have hw := r.readFile_work seg todo
    refine ⟨by rw [r.readFile_pending, pending, hfl, htd]; rfl, ?_⟩
    rw [work.eq_def r, hfl, htd, elim_none, length_cons, flatten_cons, length_append]
    omega

theorem WALReader.readMore_none (h : r.readMore = none) : r.pending = r.buf := by
  unfold readMore at h
  split at h
  · cases h
  next hfl htd =>
    simp [pending, hfl, htd]
  · cases h

theorem WALReader.nextFrom_entry (he : e.data.length ≤ MaxSegmentSize) : ∀ {fuel : Nat} {r : WALReader},
    r.work < fuel → r.pending = encodeEntry e ++ rest → ∃ r', r.nextFrom fuel = some (.entry e r') ∧ r'.pending = rest
  | 0, r, hfu, _ => absurd hfu (Nat.not_lt_zero _)
  | fuel + 1, r, hfu, hp => by
    by_cases hfl : (encodeEntry e).length ≤ r.buf.length
    · obtain ⟨t, ht⟩ : encodeEntry e <+: r.buf :=
        List.prefix_of_prefix_length_le ⟨rest, hp.symm⟩ (List.prefix_append _ _) hfl
      refine ⟨{ r with buf := t }, by rw [nextFrom, buffered_of_full ht.symm he], ?_⟩
      rw [pending, ← ht, append_assoc] at hp
      exact append_cancel_left hp
    have hfr : r.buf <+: encodeEntry e ++ rest := by
      rw [← hp]
      exact List.prefix_append _ _
    have hsh : r.buf <+: encodeEntry e :=
      List.prefix_of_prefix_length_le hfr (List.prefix_append _ _) (Nat.le_of_not_le hfl)
    have hnn := buffered_of_short hsh (not_le.1 hfl) he
    cases hmr : r.readMore with
    | none =>
      -- everything is in the buffer, and the buffer is too short
      rw [readMore_none hmr] at hp
      rw [hp, length_append] at hfl
      omega
    | some r1 =>
      obtain ⟨hp1, hw1⟩ := readMore_some hmr
      rw [nextFrom, hnn, hmr]
      exact nextFrom_entry he (by omega) (hp1.trans hp)

theorem WALReader.nextFrom_eof : ∀ {fuel : Nat} {r : WALReader}, r.work < fuel → r.pending = [] →
    r.nextFrom fuel = some .eof
  | 0, r, hfl, _ => absurd hfl (Nat.not_lt_zero _)
  | fuel + 1, r, hfl, hp => by
    have hb : r.buf = [] := (append_eq_nil_iff.1 hp).1
    rw [nextFrom, buffered_nil hb]
    cases hmr : r.readMore with
    | none => rfl
    | some r1 =>
      obtain ⟨hp1, hw1⟩ := readMore_some hmr
      exact nextFrom_eof (by omega) (hp1.trans hp)

theorem WALReader.readToEOF_frames : ∀ {es : List WALEntry} {fuel : Nat} {r : WALReader}, es.length < fuel →
    (∀ e ∈ es, e.data.length ≤ MaxSegmentSize) → r.pending = es.flatMap encodeEntry → r.readToEOF fuel = some es
  | _, 0, _, hfl, _, _ => absurd hfl (Nat.not_lt_zero _)
  | [], fuel + 1, r, _, _, hp => by
    rw [readToEOF, next, nextFrom_eof (Nat.lt_succ_self _) hp]
  | e :: es, fuel + 1, r, hfl, hes, hp => by
    obtain ⟨r', hnx, hp'⟩ := nextFrom_entry (hes e mem_cons_self) (Nat.lt_succ_self r.work) hp
    have hrs := readToEOF_frames (Nat.lt_of_succ_lt_succ hfl) (fun f hf => hes f (mem_cons_of_mem _ hf)) hp'
    simp only [readToEOF, next, hnx, hrs, map_some]

theorem WAL.Holds.readToEOF {w : WAL} {es : List WALEntry} (h : w.Holds es) {fuel : Nat} (hfl : es.length < fuel) :
    w.newReader.readToEOF fuel = some es := by
  refine readToEOF_frames hfl (fun e he => (h.readable e he).2) ?_
  rw [← h.flatten_bytes]
  rfl

end Reader

inductive Call where
  | append (e : WALEntry)
  | appendBatch (entries : List WALEntry)
  | compact (data : List UInt8)
  | close
  | openWAL
deriving DecidableEq

/-- One call with every file operation succeeding; `openWAL` opens the directory again. -/
def Call.run (opt : Int) (w : WAL) : Call → WAL × Except WALError Unit
  | .append e => ((w.append e).1, (w.append e).2.map fun _ => ())
  | .appendBatch entries => w.appendBatch (fun _ => .none) false entries
  | .compact data => w.compact data
  | .close => (w.close, .ok ())
  | .openWAL => (Storage.openWAL opt w.dir, .ok ())

def Call.writes : Call → List WALEntry
  | .append e => [e]
  | .appendBatch entries => batchFrames entries
  | .compact data => [checkpoint data]
  | .close => []
  | .openWAL => []

def Call.acknowledged (c : Call) : Except WALError Unit → List WALEntry
  | .ok _ => c.writes
  | .error _ => []

/-- The handle after `calls` on a new directory, and what the successful ones wrote. -/
def history (opt : Int) (calls : List Call) : WAL × List WALEntry :=
  calls.foldl (fun st c => ((c.run opt st.1).1, st.2 ++ c.acknowledged (c.run opt st.1).2)) (openWAL opt [], [])

/-- No limit of a reader is below what the call writes. -/
def Call.Fits (max : Nat) : Call → Prop
  | .append e => WALHeaderSize + e.data.length ≤ max → e.data.length ≤ MaxSegmentSize
  | .appendBatch entries => ∀ e ∈ entries, Readable max e
  | .compact data => Readable max (checkpoint data)
  | .close => True
  | .openWAL => True

instance Call.decidableFits (max : Nat) : (c : Call) → Decidable (c.Fits max)
  | .append e => inferInstanceAs (Decidable (WALHeaderSize + e.data.length ≤ max → e.data.length ≤ MaxSegmentSize))
  | .appendBatch entries => inferInstanceAs (Decidable (∀ e ∈ entries, Readable max e))
  | .compact data => inferInstanceAs (Decidable (Readable max (checkpoint data)))
  | .close => .isTrue trivial
  | .openWAL => .isTrue trivial

/-- The handle holds what was acknowledged and is in a state no failed operation led to. -/
structure Sound (opt : Int) (w : WAL) (es : List WALEntry) : Prop where
  holds : w.Holds es
  maxSegmentSize : w.maxSegmentSize = normalizeMaxSegmentSize opt
  file : w.closed = false → w.file = true
  syncErr : w.syncErr = false

section Steps

variable {opt : Int} {w w' : WAL} {es fs : List WALEntry}

theorem Sound.of_write (h : Sound opt w es) (hh : w'.Holds fs) (hfl : w'.file = true) (hsm : w.SameHandle w') :
    Sound opt w' fs :=
  ⟨hh, hsm.maxSegmentSize.trans h.maxSegmentSize, fun _ => hfl, hsm.syncErr.trans h.syncErr⟩

theorem Sound.append (h : Sound opt w es) {e : WALEntry} (hft : (Call.append e).Fits (normalizeMaxSegmentSize opt)) :
    Sound opt (w.append e).1 (es ++ (Call.append e).acknowledged ((w.append e).2.map fun _ => ())) := by
  have hsm : Sound opt w (es ++ []) := by rwa [append_nil]
  unfold WAL.append
  split_ifs with hcl hsy hlr
  · exact hsm
  · exact hsm
  · exact hsm
  have hmx := h.maxSegmentSize
  have he : Readable w.maxSegmentSize e := ⟨by omega, hft (by omega)⟩
  rcases h.holds.appendLocked he with ⟨hno, -⟩ | ⟨w', n, hw, hhl, hfl, hh⟩
  · rw [h.file (by simpa using hcl)] at hno
    cases hno
  · rw [hw]
    exact h.of_write hhl hfl hh

theorem WAL.syncLocked_ok (h : w.syncErr = false) : w.syncLocked false = (w, .ok ()) := by
  obtain ⟨_, _, _, _, _, _⟩ := w
  cases h
  simp [WAL.syncLocked]

theorem Sound.appendBatch (h : Sound opt w es) (hft : (Call.appendBatch fs).Fits (normalizeMaxSegmentSize opt)) :
    Sound opt (w.appendBatch (fun _ => .none) false fs).1
      (es ++ (Call.appendBatch fs).acknowledged (w.appendBatch (fun _ => .none) false fs).2) := by
  have hsm : Sound opt w (es ++ []) := by rwa [append_nil]
  unfold WAL.appendBatch
  split_ifs with hcl hsn
  · exact hsm
  · exact hsm
  have hrd : ∀ e ∈ batchFrames fs, Readable w.maxSegmentSize e :=
    batchFrames_readable h.holds.room fun e he => h.maxSegmentSize ▸ hft e he
  obtain ⟨w', hw, hhl, hfl, hh⟩ := h.holds.appendEach (h.file (by simpa using hcl)) hrd
  have hsy := WAL.syncLocked_ok (hh.syncErr.trans h.syncErr)
  simp only [hw, hsy]
  exact h.of_write hhl hfl hh

theorem Sound.compact (h : Sound opt w es) {data : List UInt8}
    (hft : (Call.compact data).Fits (normalizeMaxSegmentSize opt)) :
    Sound opt (w.compact data).1 (es ++ (Call.compact data).acknowledged (w.compact data).2) := by
  have hsm : Sound opt w (es ++ []) := by rwa [append_nil]
  rw [WAL.compact, if_neg (by simp [h.syncErr])]
  rcases h.holds.appendLocked (h.maxSegmentSize ▸ hft) with ⟨-, hw⟩ | ⟨w', n, hw, hhl, hfl, hh⟩
  · -- a closed handle that does not rotate has no file to write to
    rw [hw]
    exact hsm
  have hsy := WAL.syncLocked_ok (hh.syncErr.trans h.syncErr)
  simp only [hw, hsy]
  exact h.of_write hhl.createNewSegment rfl (hh.trans w'.createNewSegment_sameHandle)

theorem Sound.close (h : Sound opt w es) : Sound opt w.close es := by
  unfold WAL.close
  split_ifs with hcl
  · exact h
  · obtain ⟨hfl, hsz, hrd, his, hrm⟩ := h.holds
    exact ⟨⟨hfl, hsz, hrd, his, hrm⟩, h.maxSegmentSize, by simp, h.syncErr⟩

theorem openWAL_fields (opt : Int) (dir : Dir) : (openWAL opt dir).maxSegmentSize = normalizeMaxSegmentSize opt ∧
    (openWAL opt dir).file = true ∧ (openWAL opt dir).syncErr = false := by
  unfold openWAL
  split <;> exact ⟨rfl, rfl, rfl⟩

theorem Sound.openWAL (h : Sound opt w es) : Sound opt (openWAL opt w.dir) es := by
  obtain ⟨hmx, hfl, hsy⟩ := openWAL_fields opt w.dir
  exact ⟨h.holds.openWAL h.maxSegmentSize, hmx, fun _ => hfl, hsy⟩

theorem Sound.run (h : Sound opt w es) {c : Call} (hft : c.Fits (normalizeMaxSegmentSize opt)) :
    Sound opt (c.run opt w).1 (es ++ c.acknowledged (c.run opt w).2) := by
  cases c with
  | append e => exact h.append hft
  | appendBatch fs => exact h.appendBatch hft
  | compact data => exact h.compact hft
  | close => simpa [Call.run, Call.acknowledged, Call.writes] using h.close
  | openWAL => simpa [Call.run, Call.acknowledged, Call.writes] using h.openWAL

end Steps

theorem history_sound (opt : Int) {calls : List Call} (h : ∀ c ∈ calls, c.Fits (normalizeMaxSegmentSize opt)) :
    Sound opt (history opt calls).1 (history opt calls).2 := by
  induction calls using reverseRecOn with
  | nil =>
    obtain ⟨hmx, hfl, hsy⟩ := openWAL_fields opt []
    exact ⟨openWAL_nil_holds opt, hmx, fun _ => hfl, hsy⟩
  | append_singleton calls c ih =>
    rw [history, foldl_append]
    exact (ih fun d hd => h d (mem_append_left _ hd)).run (h c (by simp))

/-- Both ways of reading give what the successful calls wrote. -/
theorem history_readable (opt : Int) (calls : List Call) (h : ∀ c ∈ calls, c.Fits (normalizeMaxSegmentSize opt)) :
    (history opt calls).1.readAll = (history opt calls).2 ∧ ∀ fuel > (history opt calls).2.length,
      (history opt calls).1.newReader.readToEOF fuel = some (history opt calls).2 :=
  ⟨(history_sound opt h).holds.readAll, fun _ hfl => (history_sound opt h).holds.readToEOF hfl⟩

theorem history_readable_batch : (history 30
      [.append ⟨1, [7, 8]⟩, .appendBatch [⟨2, [9]⟩], .compact [5], .close, .openWAL, .append ⟨1, []⟩]).1.readAll =
      (history 30 [.append ⟨1, [7, 8]⟩, .appendBatch [⟨2, [9]⟩], .compact [5], .close, .openWAL, .append ⟨1, []⟩]).2 :=
  (history_readable 30 _ (by decide)).1

theorem compact_unreadable : (Call.run 10 (openWAL 10 []) (.compact (List.replicate 11 0))).2 = .ok () ∧
    (history 10 [.compact (List.replicate 11 0)]).2 = [checkpoint (List.replicate 11 0)] ∧
    (history 10 [.compact (List.replicate 11 0)]).1.readAll = [] ∧
    (history 10 [.compact (List.replicate 11 0)]).1.newReader.readToEOF 2 = some [checkpoint (List.replicate 11 0)] := by
  decide +kernel

end NothingDNS.Storage
