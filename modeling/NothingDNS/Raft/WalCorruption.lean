import NothingDNS.Raft.Wal
/-!
# Bit rot in the write-ahead log

One bit of a version-1 log is flipped, then the file is opened and read. The
checksum notices every flip in a record except one in its `CmdLen` field: there
the reader frames the record differently before it computes the checksum, and a
length that points past the end of the file is taken for a torn tail
(`wal.go:342-347`). A flip in the magic sends the file to the legacy reader,
which refuses it because an index below `2^32` reads as an impossible length.
`openAndRead_flipBit` says which flips of a `CmdLen` are noticed.
-/

namespace NothingDNS.Raft

open List BigEndian

def flipBit (bs : Bytes) (i : Nat) (j : Fin 8) : Bytes :=
  bs.modify i (· ^^^ (1 <<< UInt8.ofNat j.val))

/-- `NewWAL` and then `ReadAll`: the entries, `none` being an error, and the file they leave. -/
def openAndRead (file : Bytes) : Option (List Entry) × Bytes :=
  match newWAL file with
  | none => (none, file)
  | some file => match readAll file with
    | none => (none, file)
    | some (es, torn) => (some es, file.take (file.length - torn))

/-- What `Write` is given: the integers of an entry are `uint64`s. -/
def Written (e : Entry) : Prop := e.index < 2 ^ 64 ∧ e.term < 2 ^ 64 ∧ e.command.length < 2 ^ 64

/-- Reading these octets ends at a record it refuses. -/
inductive Refused : Bytes → Prop
  | here {bs : Bytes} (h : readRecord bs = .corrupt) : Refused bs
  | behind {bs : Bytes} {e : Entry} {size : Nat} (h : readRecord bs = .intact e size) (hr : Refused (bs.drop size)) :
      Refused bs

/-- A flip at offset `o` of the record of `e`, inside `CmdLen`, that the reader notices: it refuses a record in front of
this one, or the length is impossible, or the file goes on that far and the checksum over those octets is another one or
something behind them is refused. -/
def LengthFlipCaught (pre : List Entry) (e : Entry) (rest : Bytes) (o : Nat) (j : Fin 8) : Prop :=
  (∃ x ∈ pre, maxWALCommandBytes < x.command.length) ∨
    let bs := flipBit (encodeWALEntry e ++ rest) o j
    let cmdLen := decode ((bs.drop 20).take 8)
    maxWALCommandBytes < cmdLen ∨
      walRecordHeaderSize + cmdLen + 1 ≤ bs.length ∧
        (Crc32.checksum ((bs.drop 4).take (24 + (cmdLen + 1))) ≠ Crc32.checksum (walPayload e) ∨
          Refused (bs.drop (walRecordHeaderSize + cmdLen + 1)))

/-! ## One flipped bit -/

theorem xor_flip_ne (b : UInt8) (j : Fin 8) : b ≠ b ^^^ (1 <<< UInt8.ofNat j.val) := by
  have hb : ∀ k : Fin 8, (1 : UInt8) <<< UInt8.ofNat k.val ≠ 0 := by decide
  intro h
  have := congrArg (b ^^^ ·) h
  exact hb j (by simpa [← UInt8.xor_assoc] using this.symm)

variable {i : Nat}

theorem flipBit_split {bs : Bytes} (hi : i < bs.length) (j : Fin 8) :
    ∃ xs b b' ys, bs = xs ++ b :: ys ∧ flipBit bs i j = xs ++ b' :: ys ∧ xs.length = i ∧ b ≠ b' := by
  refine ⟨bs.take i, bs[i], _, bs.drop (i + 1), ?_, modify_eq_take_cons_drop hi, ?_, xor_flip_ne _ j⟩
  · rw [getElem_cons_drop, take_append_drop]
  · rw [length_take]
    omega

@[simp] theorem length_flipBit (bs : Bytes) (i : Nat) (j : Fin 8) : (flipBit bs i j).length = bs.length := by
  simp [flipBit]

theorem flipBit_append_right (xs ys : Bytes) (o : Nat) (j : Fin 8) :
    flipBit (xs ++ ys) (xs.length + o) j = xs ++ flipBit ys o j := by
  induction xs with
  | nil => rw [nil_append, nil_append, length_nil, Nat.zero_add]
  | cons x xs ih =>
    rw [length_cons, Nat.add_right_comm]
    simp only [flipBit, cons_append, modify_succ_cons] at ih ⊢
    rw [ih]

theorem flipBit_append_left {xs : Bytes} (h : i < xs.length) (ys : Bytes) (j : Fin 8) :
    flipBit (xs ++ ys) i j = flipBit xs i j ++ ys := by
  induction xs generalizing i with
  | nil => cases h
  | cons x xs ih =>
    cases i with
    | zero => rfl
    | succ i =>
      have := ih (Nat.lt_of_succ_lt_succ h)
      simp only [flipBit, cons_append, modify_succ_cons] at this ⊢
      rw [this]

theorem flipBit_field {bs : Bytes} {a n : Nat} (h : i < a ∨ a + n ≤ i) (j : Fin 8) :
    ((flipBit bs i j).drop a).take n = (bs.drop a).take n := by
  refine ext_getElem? fun k => ?_
  by_cases hk : k < n
  · rw [getElem?_take_of_lt hk, getElem?_take_of_lt hk, getElem?_drop, getElem?_drop, flipBit, getElem?_modify]
    simp [show i ≠ a + k by omega]
  · rw [getElem?_take_eq_none (by omega), getElem?_take_eq_none (by omega)]

/-! ## Records the reader refuses -/

theorem readRecord_mismatch {c p rest : Bytes} {cmdLen : Nat} (hc : c.length = 4)
    (hp : p.length = 24 + (cmdLen + 1)) (hlen : decode ((p.drop 16).take 8) = cmdLen)
    (hne : (Crc32.checksum p).toNat ≠ decode c) : readRecord (c ++ (p ++ rest)) = .corrupt := by
  have h4 : (c ++ (p ++ rest)).drop 4 = p ++ rest := drop_left' hc
  have hcr : (c ++ (p ++ rest)).take 4 = c := take_left' hc
  have hd : ∀ k, (c ++ (p ++ rest)).drop (4 + k) = (p ++ rest).drop k := by
    intro k
    rw [← drop_drop, h4]
  have hcm : decode (((c ++ (p ++ rest)).drop 20).take 8) = cmdLen := by
    rw [show 20 = 4 + 16 from rfl, hd, drop_append_of_le_length (by omega),
      take_append_of_le_length (by rw [length_drop]; omega), hlen]
  have h28 : (c ++ (p ++ rest)).drop 28 = p.drop 24 ++ rest := by
    rw [show 28 = 4 + 24 from rfl, hd, drop_append_of_le_length (by omega)]
  have hb : (p.drop 24 ++ rest).take (cmdLen + 1) = p.drop 24 := take_left' (by rw [length_drop]; omega)
  have hh : (p ++ rest).take 24 = p.take 24 := take_append_of_le_length (by omega)
  unfold readRecord
  rw [if_neg (by simp only [length_append, walRecordHeaderSize]; omega)]
  simp only [hcm]
  split
  · rfl
  rw [h28, if_neg (by rw [length_append, length_drop]; omega), hb, h4, hh, hcr,
    Crc32.checksum, Crc32.update_append, take_append_drop]
  exact if_pos hne

variable {e : Entry}

theorem readRecord_oversize (h : Written e) (hb : maxWALCommandBytes < e.command.length)
    (rest : Bytes) : readRecord (encodeWALEntry e ++ rest) = .corrupt := by
  have hcm : decode (((encodeWALEntry e ++ rest).drop 20).take 8) = e.command.length := by
    rw [record_drop_twenty, append_assoc, take_left' (length_encode _ _), decode_encode_uint64 h.2.2]
  unfold readRecord
  rw [if_neg (by rw [length_append, length_encodeWALEntry]; omega)]
  simp only [hcm, if_pos hb]

theorem readRecord_nil : readRecord [] = .torn := rfl

theorem readRecord_intact {bs : Bytes} {x : Entry} {size : Nat} (h : readRecord bs = .intact x size) :
    size = walRecordHeaderSize + decode ((bs.drop 20).take 8) + 1 ∧ size ≤ bs.length ∧
      x.command.length = decode ((bs.drop 20).take 8) := by
  unfold readRecord at h
  split at h; · cases h
  dsimp only at h
  split at h; · cases h
  split at h; · cases h
  next hft =>
  split at h; · cases h
  cases h
  rw [length_drop] at hft
  refine ⟨rfl, by rw [walRecordHeaderSize]; omega, ?_⟩
  rw [length_take, length_take, length_drop]
  omega

theorem readRecords_eq_none : ∀ {f : Nat} {bs : Bytes}, bs.length ≤ f → (readRecords f bs = none ↔ Refused bs)
  | f, [], _ => by
    have hno : ¬Refused [] := by
      rintro (h | ⟨h, -⟩) <;> rw [readRecord_nil] at h <;> cases h
    cases f <;> simp [readRecords, hno]
  | 0, b :: bs, hf => by simp at hf
  | f + 1, b :: bs, hf => by
    rw [readRecords]
    · cases h : readRecord (b :: bs) with
      | torn =>
        refine iff_of_false (by simp) ?_
        rintro (h' | ⟨h', -⟩) <;> rw [h] at h' <;> cases h'
      | corrupt => exact iff_of_true rfl (.here h)
      | intact e size =>
        have hsz := (readRecord_intact h).1
        have hle : ((b :: bs).drop size).length ≤ f := by
          rw [length_drop, length_cons]
          rw [length_cons] at hf
          omega
        dsimp only
        rw [Option.map_eq_none_iff, readRecords_eq_none hle]
        refine ⟨fun hr => .behind h hr, ?_⟩
        rintro (h' | ⟨h', hr⟩)
        · rw [h] at h'
          cases h'
        · rw [h] at h'
          cases h'
          exact hr
    · exact fun h => cons_ne_nil b bs h

theorem readRecord_written (he : Written e) (hsm : ¬maxWALCommandBytes < e.command.length) (rest : Bytes) :
    readRecord (encodeWALEntry e ++ rest) = .intact { e with commitment := 0 } (encodeWALEntry e).length :=
  -- the commitment is not part of the record
  readRecord_encodeWALEntry (e := { e with commitment := 0 }) ⟨he.1, he.2.1, not_lt.1 hsm, rfl⟩ rest

theorem refused_records_append {bad : Bytes} : ∀ {es : List Entry}, (∀ e ∈ es, Written e) →
    (Refused (records es ++ bad) ↔ (∃ x ∈ es, maxWALCommandBytes < x.command.length) ∨ Refused bad)
  | [], _ => by simp
  | e :: es, hw => by
    obtain ⟨he, hes⟩ := forall_mem_cons.1 hw
    rw [records_cons, append_assoc]
    by_cases hbg : maxWALCommandBytes < e.command.length
    · exact iff_of_true (.here (readRecord_oversize he hbg _)) (.inl ⟨e, mem_cons_self, hbg⟩)
    have hrd := readRecord_written he hbg (records es ++ bad)
    have hrs : Refused (encodeWALEntry e ++ (records es ++ bad)) ↔ Refused (records es ++ bad) := by
      constructor
      · rintro (h | ⟨h, hr⟩)
        · rw [hrd] at h
          cases h
        · rw [hrd] at h
          cases h
          rwa [drop_left' rfl] at hr
      · intro hr
        refine .behind hrd ?_
        rwa [drop_left' rfl]
    rw [hrs, refused_records_append hes]
    simp [hbg]

theorem readRecords_intact {bs : Bytes} {size : Nat} (h : readRecord bs = .intact e size) (f : Nat) :
    readRecords (f + 1) bs = (readRecords f (bs.drop size)).map fun r => (e :: r.1, r.2) := by
  rw [readRecords]
  · simp only [h]
  · rintro rfl
    rw [readRecord_nil] at h
    cases h

/-- Records in front of the octets are read first. -/
theorem readRecords_append {bad : Bytes} : ∀ {es got : List Entry} {f torn : Nat}, (∀ e ∈ es, Written e) →
    (∀ e ∈ es, ¬maxWALCommandBytes < e.command.length) → (records es ++ bad).length ≤ f →
    readRecords f (records es ++ bad) = some (got, torn) →
    ∃ f' tail, bad.length ≤ f' ∧ readRecords f' bad = some (tail, torn) ∧
      got = es.map (fun e => { e with commitment := 0 }) ++ tail
  | [], got, f, torn, _, _, hf, h => ⟨f, got, by simpa using hf, by simpa using h, rfl⟩
  | e :: es, got, 0, torn, _, _, hf, _ => by
    rw [records_cons, append_assoc, length_append, length_encodeWALEntry] at hf
    omega
  | e :: es, got, f + 1, torn, hw, hsm, hf, h => by
    obtain ⟨he, hes⟩ := forall_mem_cons.1 hw
    obtain ⟨hse, hss⟩ := forall_mem_cons.1 hsm
    rw [records_cons, append_assoc] at hf h
    rw [readRecords_intact (readRecord_written he hse (records es ++ bad)), drop_left' rfl] at h
    obtain ⟨⟨got', torn'⟩, hrs, hgt⟩ := Option.map_eq_some_iff.1 h
    obtain ⟨rfl, rfl⟩ := Prod.mk.inj hgt
    rw [length_append, length_encodeWALEntry] at hf
    obtain ⟨f', tail, hf', htl, rfl⟩ := readRecords_append hes hss (by omega) hrs
    exact ⟨f', tail, hf', htl, rfl⟩

/-! ## A flip in a record -/

theorem length_walPayload (e : Entry) : (walPayload e).length = 24 + (e.command.length + 1) := by
  simp only [walPayload, length_append, length_encode, length_singleton]
  omega

theorem walPayload_cmdLen (h : Written e) : decode (((walPayload e).drop 16).take 8) = e.command.length := by
  have hd : (walPayload e).drop 16 = encode 8 e.command.length ++ (e.command ++ [e.type]) := by
    rw [walPayload, show 16 = 8 + 8 from rfl, ← drop_drop, drop_left' (length_encode _ _),
      drop_left' (length_encode _ _)]
  rw [hd, take_left' (length_encode _ _), decode_encode_uint64 h.2.2]

theorem checksum_toNat_eq (e : Entry) :
    decode (encode 4 (Crc32.checksum (walPayload e)).toNat) = (Crc32.checksum (walPayload e)).toNat :=
  decode_encode_of_lt (lt_of_lt_of_eq (UInt32.toNat_lt _) (by norm_num))

variable {o : Nat}

theorem readRecord_flip_checksum (h : Written e) (rest : Bytes) (ho : o < 4)
    (j : Fin 8) : readRecord (flipBit (encodeWALEntry e ++ rest) o j) = .corrupt := by
  have hc := length_encode 4 (Crc32.checksum (walPayload e)).toNat
  rw [encodeWALEntry, append_assoc, flipBit_append_left (by omega)]
  refine readRecord_mismatch (by rw [length_flipBit, hc]) (length_walPayload e) (walPayload_cmdLen h) ?_
  obtain ⟨xs, b, b', ys, hbs, hfl, -, hne⟩ := flipBit_split (lt_of_lt_of_eq ho hc.symm) j
  rw [hfl]
  intro heq
  rw [← checksum_toNat_eq] at heq
  have hsm := decode_injective (by rw [hbs]; simp) heq
  rw [hbs] at hsm
  exact hne (cons.inj (append_cancel_left hsm)).1

theorem readRecord_flip_payload (h : Written e) (rest : Bytes)
    (ho : o < (walPayload e).length) (hlen : o < 16 ∨ 24 ≤ o) (j : Fin 8) :
    readRecord (flipBit (encodeWALEntry e ++ rest) (4 + o) j) = .corrupt := by
  have hc := length_encode 4 (Crc32.checksum (walPayload e)).toNat
  rw [encodeWALEntry, append_assoc]
  nth_rewrite 2 [← hc]
  rw [flipBit_append_right, flipBit_append_left ho]
  refine readRecord_mismatch hc (by rw [length_flipBit, length_walPayload]) ?_ ?_
  · rw [flipBit_field (by omega), walPayload_cmdLen h]
  · obtain ⟨xs, b, b', ys, hbs, hfl, -, hne⟩ := flipBit_split ho j
    rw [checksum_toNat_eq, hfl, hbs]
    exact fun heq => Crc32.checksum_ne_of_octet xs ys hne.symm (UInt32.toNat_inj.1 heq)

theorem refused_flip_length {pre : List Entry} {rest : Bytes} {j : Fin 8} (ho : 4 ≤ o)
    (hpre : ¬∃ x ∈ pre, maxWALCommandBytes < x.command.length) :
    Refused (flipBit (encodeWALEntry e ++ rest) o j) ↔ LengthFlipCaught pre e rest o j := by
  have hcr : (flipBit (encodeWALEntry e ++ rest) o j).take 4 =
      encode 4 (Crc32.checksum (walPayload e)).toNat := by
    have hfl : ((flipBit (encodeWALEntry e ++ rest) o j).drop 0).take 4 = _ := flipBit_field (.inr ho) j
    rwa [drop_zero, drop_zero, record_take_four] at hfl
  have hh : walRecordHeaderSize ≤ (flipBit (encodeWALEntry e ++ rest) o j).length := by
    rw [length_flipBit, length_append, length_encodeWALEntry]
    omega
  unfold LengthFlipCaught
  rw [or_iff_right hpre]
  generalize flipBit (encodeWALEntry e ++ rest) o j = bs at hcr hh ⊢
  dsimp only
  have hsum : Crc32.update (Crc32.checksum ((bs.drop 4).take 24))
        ((bs.drop 28).take (decode ((bs.drop 20).take 8) + 1)) =
      Crc32.checksum ((bs.drop 4).take (24 + (decode ((bs.drop 20).take 8) + 1))) := by
    rw [Crc32.checksum, Crc32.update_append, show 28 = 4 + 24 from rfl, ← drop_drop, ← take_add]
    rfl
  by_cases hbg : maxWALCommandBytes < decode ((bs.drop 20).take 8)
  · refine iff_of_true (.here ?_) (.inl hbg)
    rw [readRecord, if_neg (not_lt.2 hh)]
    exact if_pos hbg
  rw [or_iff_right hbg]
  by_cases hft : walRecordHeaderSize + decode ((bs.drop 20).take 8) + 1 ≤ bs.length
  swap
  · refine iff_of_false ?_ fun h => hft h.1
    have htn : readRecord bs = .torn := by
      rw [readRecord, if_neg (not_lt.2 hh)]
      dsimp only
      rw [if_neg hbg, if_pos]
      rw [length_drop]
      unfold walRecordHeaderSize at hft
      omega
    rintro (h | ⟨h, -⟩) <;> rw [htn] at h <;> cases h
  have hlen : ¬(bs.drop 28).length < decode ((bs.drop 20).take 8) + 1 := by
    rw [length_drop]
    unfold walRecordHeaderSize at hft
    omega
  have hwant : decode (bs.take 4) = (Crc32.checksum (walPayload e)).toNat := by
    rw [hcr, checksum_toNat_eq]
  by_cases hne : Crc32.checksum ((bs.drop 4).take (24 + (decode ((bs.drop 20).take 8) + 1))) =
      Crc32.checksum (walPayload e)
  · have hin : ∃ x, readRecord bs = .intact x (walRecordHeaderSize + decode ((bs.drop 20).take 8) + 1) := by
      rw [readRecord, if_neg (not_lt.2 hh)]
      dsimp only
      rw [if_neg hbg, if_neg hlen, hsum, hwant, hne, if_neg (not_not.2 rfl)]
      exact ⟨_, rfl⟩
    obtain ⟨x, hx⟩ := hin
    constructor
    · rintro (h | ⟨h, hr⟩)
      · rw [hx] at h
        cases h
      · rw [hx] at h
        cases h
        exact ⟨hft, .inr hr⟩
    · rintro ⟨-, h | hr⟩
      · exact absurd hne h
      · exact .behind hx hr
  · refine iff_of_true (.here ?_) ⟨hft, .inl hne⟩
    rw [readRecord, if_neg (not_lt.2 hh)]
    dsimp only
    rw [if_neg hbg, if_neg hlen, hsum, hwant, if_pos fun heq => hne (UInt32.toNat_inj.1 heq)]

/-- The flipped length is another one. -/
theorem cmdLen_flip_ne (h : Written e) {rest : Bytes} (h1 : 20 ≤ o) (h2 : o < 28) (j : Fin 8) :
    decode (((flipBit (encodeWALEntry e ++ rest) o j).drop 20).take 8) ≠ e.command.length := by
  have hlen : 28 < (encodeWALEntry e ++ rest).length := by
    rw [length_append, length_encodeWALEntry, walRecordHeaderSize]
    omega
  have hcm : decode (((encodeWALEntry e ++ rest).drop 20).take 8) = e.command.length := by
    rw [record_drop_twenty, append_assoc, take_left' (length_encode _ _), decode_encode_uint64 h.2.2]
  rw [← hcm]
  intro heq
  have hfd := decode_injective (by simp only [length_take, length_drop, length_flipBit]) heq
  obtain ⟨xs, b, b', ys, hbs, hfl, hxs, hne⟩ := flipBit_split (by omega : o < (encodeWALEntry e ++ rest).length) j
  have hget : ∀ l : Bytes, ((l.drop 20).take 8)[o - 20]? = l[o]? := by
    intro l
    rw [getElem?_take_of_lt (by omega), getElem?_drop, Nat.add_sub_cancel' h1]
  have hoo := congrArg (fun l : Bytes => l[o - 20]?) hfd
  simp only [hget] at hoo
  rw [hfl, hbs, ← hxs] at hoo
  simp only [getElem?_append_right (Nat.le_refl _), Nat.sub_self, getElem?_cons_zero, Option.some.injEq] at hoo
  exact hne hoo.symm

theorem record_at : ∀ {es : List Entry} {i : Nat}, i < (records es).length →
    ∃ pre e post o, es = pre ++ e :: post ∧ i = (records pre).length + o ∧ o < (encodeWALEntry e).length
  | [], _, h => absurd h (Nat.not_lt_zero _)
  | e :: es, i, h => by
    rw [records_cons, length_append] at h
    by_cases hi : i < (encodeWALEntry e).length
    · exact ⟨[], e, es, i, rfl, by simp, hi⟩
    obtain ⟨pre, e', post, o, rfl, hio, ho⟩ := record_at (i := i - (encodeWALEntry e).length)
      (by omega : _ < (records es).length)
    refine ⟨e :: pre, e', post, o, rfl, ?_, ho⟩
    rw [records_cons, length_append]
    omega

/-- A flip in the records: reading is refused or gives the entries that were written exactly if the flip is not in a
length, or that is noticed. -/
theorem readRecords_flip {pre post : List Entry} (hw : ∀ x ∈ pre ++ e :: post, Written x)
    (ho : o < (encodeWALEntry e).length) {j : Fin 8} {f : Nat} (hf : (records (pre ++ e :: post)).length ≤ f) :
    (readRecords f (flipBit (records (pre ++ e :: post)) ((records pre).length + o) j) = none ∨
      ∃ torn, readRecords f (flipBit (records (pre ++ e :: post)) ((records pre).length + o) j) =
        some (pre ++ e :: post, torn)) ↔ (20 ≤ o → o < 28 → LengthFlipCaught pre e (records post) o j) := by
  have he : Written e := hw e (by simp)
  have hpw : ∀ x ∈ pre, Written x := fun x hx => hw x (by simp [hx])
  have hln := length_walPayload e
  rw [length_encodeWALEntry, walRecordHeaderSize] at ho
  rw [records_append, records_cons] at hf ⊢
  rw [flipBit_append_right]
  have hfl : (records pre ++ flipBit (encodeWALEntry e ++ records post) o j).length ≤ f := by
    rw [length_append, length_flipBit, ← length_append]
    exact hf
  rw [readRecords_eq_none hfl, refused_records_append hpw]
  by_cases hlo : 20 ≤ o ∧ o < 28
  swap
  · refine iff_of_true (.inl (.inr (.here ?_))) fun h1 h2 => absurd ⟨h1, h2⟩ hlo
    by_cases hcr : o < 4
    · exact readRecord_flip_checksum he _ hcr j
    · have := readRecord_flip_payload he (records post) (by omega : o - 4 < _) (by omega) j
      rwa [Nat.add_sub_cancel' (by omega)] at this
  rw [imp_iff_right hlo.1, imp_iff_right hlo.2]
  by_cases hpre : ∃ x ∈ pre, maxWALCommandBytes < x.command.length
  · exact iff_of_true (.inl (.inl hpre)) (.inl hpre)
  rw [or_iff_right hpre, refused_flip_length (by omega) hpre]
  refine or_iff_left ?_
  -- the entry that is read in place of `e` has another length
  rintro ⟨torn, hrd⟩
  obtain ⟨f', tail, hf', htl, heq⟩ := readRecords_append hpw (fun x hx hbg => hpre ⟨x, hx, hbg⟩) hfl hrd
  obtain ⟨-, rfl⟩ := append_inj heq (by simp)
  have hpos : 0 < (flipBit (encodeWALEntry e ++ records post) o j).length := by
    rw [length_flipBit, length_append, length_encodeWALEntry]
    omega
  have hlc := @cmdLen_flip_ne e o he (records post) hlo.1 hlo.2 j
  generalize flipBit (encodeWALEntry e ++ records post) o j = bs at htl hpos hlc hf'
  obtain ⟨b, bs, rfl⟩ := exists_cons_of_ne_nil (length_pos_iff.1 hpos)
  cases f' with
  | zero => simp at hf'
  | succ f' =>
    rw [readRecords] at htl
    · cases hr : readRecord (b :: bs) with
      | torn =>
        rw [hr] at htl
        simp at htl
      | corrupt =>
        rw [hr] at htl
        cases htl
      | intact x size =>
        rw [hr] at htl
        obtain ⟨r, -, hx⟩ := Option.map_eq_some_iff.1 htl
        obtain ⟨rfl, -⟩ := cons.inj (Prod.mk.inj hx).1
        exact hlc (readRecord_intact hr).2.2.symm
    · exact fun h => cons_ne_nil b bs h

/-! ## A flip in the magic -/

theorem legacy_cmdLen (h₁ : 1 ≤ e.index) (h₂ : e.index < 2 ^ 32) (rest : Bytes) :
    2 ^ 32 ≤ decode (((encodeWALEntry e ++ rest).drop 8).take 8) := by
  have hix : encode 8 e.index = encode 4 (e.index / 256 ^ 4) ++ encode 4 e.index := encode_add 4 4 _
  have hd : (encodeWALEntry e ++ rest).drop 8 = encode 4 e.index ++ (encode 8 e.term ++
      (encode 8 e.command.length ++ (e.command ++ [e.type])) ++ rest) := by
    rw [show 8 = 4 + 4 from rfl, ← drop_drop, record_drop_four, walPayload, hix]
    exact drop_left' (length_encode _ _)
  have hfr : (encode 4 e.index).length = 4 := length_encode _ _
  rw [hd, take_append, hfr, take_of_length_le (by omega), decode_append,
    decode_encode_of_lt (lt_of_lt_of_eq h₂ (by norm_num))]
  have htl : (take (8 - 4) (encode 8 e.term ++
      (encode 8 e.command.length ++ (e.command ++ [e.type])) ++ rest)).length = 4 := by
    simp only [length_take, length_append, length_encode]
    omega
  rw [htl]
  omega

theorem openAndRead_flip_magic {m : Bytes} (hm : m.length = 8) (hne : m ≠ walMagic) {es : List Entry}
    (hix : ∀ e ∈ es, 1 ≤ e.index ∧ e.index < 2 ^ 32) :
    openAndRead (m ++ records es) = (none, m ++ records es) ∨ (openAndRead (m ++ records es)).1 = some es := by
  have hnil : m ++ records es ≠ [] := by
    intro h
    have := congrArg length h
    rw [length_append, hm] at this
    simp at this
  have hop : newWAL (m ++ records es) =
      (readLegacy (m ++ records es).length (m ++ records es)).map fun es => walMagic ++ records es := by
    rw [newWAL, if_neg hnil, take_left' hm, if_neg hne]
  obtain ⟨f, hf⟩ : ∃ f, (m ++ records es).length = f + 1 :=
    Nat.exists_eq_succ_of_ne_zero fun h => hnil (length_eq_zero_iff.1 h)
  cases es with
  | nil =>
    right
    have hlg : readLegacy (f + 1) (m ++ records []) = some [] := by
      rw [readLegacy, if_pos (by rw [records_nil, append_nil]; omega)]
    rw [openAndRead, hop, hf, hlg]
    rfl
  | cons e es =>
    left
    have hb := legacy_cmdLen (hix e mem_cons_self).1 (hix e mem_cons_self).2 (records es)
    have hcm : maxWALCommandBytes < decode (((m ++ records (e :: es)).drop 16).take 8) := by
      rw [show 16 = 8 + 8 from rfl, ← drop_drop, drop_left' hm, records_cons]
      exact lt_of_lt_of_le (by decide) hb
    have hlg : readLegacy (f + 1) (m ++ records (e :: es)) = none := by
      rw [readLegacy, if_neg]
      · rw [if_pos hcm]
      · rw [records_cons, length_append, length_append, length_encodeWALEntry, hm]
        unfold walRecordHeaderSize
        omega
    rw [openAndRead, hop, hf, hlg]
    rfl

/-! ## The whole file -/

/-- **Bit rot**: opening and reading after a flip fails and leaves the file, or gives the entries that were written,
exactly if the flip is not in a `CmdLen`, or the reader notices it there. -/
theorem openAndRead_flipBit {es : List Entry} (hw : ∀ e ∈ es, Written e)
    (hidx : ∀ e ∈ es, 1 ≤ e.index ∧ e.index < 2 ^ 32) {i : Nat} (hi : i < (walMagic ++ records es).length) (j : Fin 8) :
    (openAndRead (flipBit (walMagic ++ records es) i j) = (none, flipBit (walMagic ++ records es) i j) ∨
      (openAndRead (flipBit (walMagic ++ records es) i j)).1 = some es) ↔
    ∀ pre e post, es = pre ++ e :: post → 8 + (records pre).length + 20 ≤ i → i < 8 + (records pre).length + 28 →
      LengthFlipCaught pre e (records post) (i - (8 + (records pre).length)) j := by
  have hmg : walMagic.length = 8 := rfl
  by_cases h8 : i < 8
  · refine iff_of_true ?_ fun pre e post _ h1 _ => by omega
    rw [flipBit_append_left (lt_of_lt_of_eq h8 hmg.symm)]
    refine openAndRead_flip_magic (by rw [length_flipBit, hmg]) ?_ hidx
    obtain ⟨xs, b, b', ys, hbs, hfl, -, hne⟩ := flipBit_split (lt_of_lt_of_eq h8 hmg.symm) j
    rw [hfl, hbs]
    intro heq
    exact hne (cons.inj (append_cancel_left heq)).1.symm
  obtain ⟨o, rfl⟩ : ∃ o, i = walMagic.length + o := ⟨i - 8, by omega⟩
  rw [length_append] at hi
  have hrd : readAll (walMagic ++ flipBit (records es) o j) =
      readRecords (walMagic ++ flipBit (records es) o j).length (flipBit (records es) o j) := by
    rw [readAll, if_neg (by simp [walMagic]), if_neg (by simp [walMagic]), drop_left' hmg]
  have hop : (openAndRead (walMagic ++ flipBit (records es) o j) = (none, walMagic ++ flipBit (records es) o j) ∨
        (openAndRead (walMagic ++ flipBit (records es) o j)).1 = some es) ↔
      (readAll (walMagic ++ flipBit (records es) o j) = none ∨
        ∃ torn, readAll (walMagic ++ flipBit (records es) o j) = some (es, torn)) := by
    rw [openAndRead, newWAL_of_magic (prefix_append _ _)]
    dsimp only
    rcases readAll (walMagic ++ flipBit (records es) o j) with _ | ⟨got, torn⟩
    · simp
    · simp
  have hf : (records es).length ≤ (walMagic ++ flipBit (records es) o j).length := by
    rw [length_append, length_flipBit]
    omega
  rw [flipBit_append_right, hop, hrd]
  constructor
  · rintro h pre e post rfl h1 h2
    obtain ⟨k, rfl⟩ : ∃ k, o = (records pre).length + k := ⟨o - (records pre).length, by omega⟩
    have hk := (readRecords_flip hw (by rw [length_encodeWALEntry, walRecordHeaderSize]; omega) hf).1 h
      (by omega) (by omega)
    rwa [show walMagic.length + ((records pre).length + k) - (8 + (records pre).length) = k by omega]
  · intro h
    obtain ⟨pre, e, post, k, rfl, rfl, hk⟩ := record_at (by omega : o < (records es).length)
    refine (readRecords_flip hw hk hf).2 fun h1 h2 => ?_
    have := h pre e post rfl (by omega) (by omega)
    rwa [show walMagic.length + ((records pre).length + k) - (8 + (records pre).length) = k by omega] at this

def setSeven : Entry := { index := 1, term := 1, command := [7], type := 0 }

theorem openAndRead_flipBit_term : openAndRead (flipBit (walMagic ++ records [setSeven]) 27 0) =
        (none, flipBit (walMagic ++ records [setSeven]) 27 0) ∨
      (openAndRead (flipBit (walMagic ++ records [setSeven]) 27 0)).1 = some [setSeven] := by
  refine (openAndRead_flipBit (by simp [Written, setSeven]) (by simp [setSeven]) (by decide +kernel) 0).2 ?_
  intro pre e post h hlo
  obtain rfl : pre = [] := by
    cases pre with
    | nil => rfl
    | cons p pre => simp at h
  simp at hlo

/-- A length of one read as three: the record now ends two octets after the file does, so it is
dropped as a torn tail. -/
theorem length_flip_truncates : openAndRead (flipBit (walMagic ++ records [setSeven]) 35 1) = (some [], walMagic) := by
  decide +kernel

end NothingDNS.Raft
