import NothingDNS.Storage.ZoneStore
import NothingDNS.Lib.Reader
/-!
# The codec of stored records is exact (`zonestore.go:244-396`)

`readRecords` is `decodeRecords` with reads that can miss: it never does, and its result is that of
`decodeRecords` (`readRecords_eq`). What is accepted is what `encodeRecords` writes for the result.
-/

namespace NothingDNS.Storage

open List BigEndian Reader

def readPrefixed (w i : Nat) (field : Field) : Reader CodecError Key := do
  need w fun _ => .truncated i field true
  let n ← uint w
  need n fun _ => .truncated i field false
  Reader.octets n

def readRecord (i : Nat) : Reader CodecError StoredRecord := do
  let name ← readPrefixed 2 i .name
  need 4 fun _ => .truncated i .ttl false
  let ttl ← uint 4
  let recordClass ← readPrefixed 1 i .recordClass
  let type ← readPrefixed 1 i .type
  let rdata ← readPrefixed 2 i .rdata
  return { name, ttl := UInt32.ofNat ttl, recordClass, type, rdata }

def readLoop : Nat → Nat → Reader CodecError (List StoredRecord)
  | 0, _ => return []
  | count + 1, i => return (← readRecord i) :: (← readLoop count (i + 1))

def readRecords : Reader CodecError (List StoredRecord) := do
  need 4 fun _ => .noCount
  let count ← uint 4
  refuse (fun _ => maxStoredRecordsPerZone < count) fun _ => .countTooLarge count
  refuse (· / minStoredRecordWireSize < count) fun left => .overCapacity count (left / minStoredRecordWireSize)
  let records ← readLoop count 0
  refuse (· ≠ 0) .trailing
  return records

theorem readPrefixed_eq (w i : Nat) (field : Field) (data : Key) :
    readPrefixed w i field data = some (takePrefixed w i field data) := by
  unfold readPrefixed takePrefixed
  rw [need, refuse_bind]
  split_ifs with hw
  · rfl
  rw [uint_bind, octets_bind (not_lt.1 hw), need, refuse_bind]
  dsimp only
  split_ifs with hn
  · rfl
  · rw [Reader.octets, if_neg hn]
    rfl

theorem readRecord_eq (i : Nat) (data : Key) : readRecord i data = some (decodeRecord i data) := by
  unfold readRecord decodeRecord
  refine bind_some (readPrefixed_eq 2 i .name data) fun name data => ?_
  rw [need, refuse_bind]
  dsimp only
  split_ifs with h4
  · rfl
  rw [uint_bind, octets_bind (not_lt.1 h4)]
  exact bind_some (readPrefixed_eq ..) fun recordClass data => bind_some (readPrefixed_eq ..) fun type data =>
    bind_some (readPrefixed_eq ..) fun rdata data => rfl

theorem readLoop_eq (count i : Nat) (data : Key) : readLoop count i data = some (decodeLoop count i data) := by
  induction count generalizing i data with
  | zero => rfl
  | succ count ih => exact bind_some (readRecord_eq i data) fun r data => bind_some (ih _ data) fun rs data => rfl

theorem readRecords_eq (data : Key) : readRecords data = some ((decodeRecords data).map (·, [])) := by
  unfold readRecords decodeRecords
  rw [need, refuse_bind]
  split_ifs with h4
  · rfl
  rw [uint_bind, octets_bind (not_lt.1 h4), refuse_bind, refuse_bind, length_drop]
  dsimp only
  split_ifs
  · rfl
  · rfl
  refine (bind_some (g := fun y => if y.2 = [] then .ok (y.1, []) else .error (.trailing y.2.length))
    (readLoop_eq _ 0 _) fun rs rest => ?_).trans (congrArg some ?_)
  · rw [refuse_bind]
    cases rest <;> rfl
  · cases decodeLoop (decode (data.take 4)) 0 (data.drop 4) with
    | error e => rfl
    | ok y => cases hy : y.2 <;> simp [bind, Except.bind, hy, Except.map]

/-! ## What is accepted -/

variable {r : StoredRecord} {rs : List StoredRecord} {data rest : Key}

theorem takePrefixed_eq_ok {w i : Nat} {field : Field} {s : Key} (h : takePrefixed w i field data = .ok (s, rest)) :
    data = prefixed w s ++ rest ∧ s.length < 256 ^ w := by
  unfold takePrefixed at h
  dsimp only at h
  split_ifs at h with hw hn
  cases h
  have hlen : (data.take w).length = w := length_take_of_le (not_lt.1 hw)
  have htk : ((data.drop w).take (decode (data.take w))).length = decode (data.take w) :=
    length_take_of_le (not_lt.1 hn)
  have hcn := encode_decode (data.take w)
  have hlt := decode_lt (data.take w)
  rw [hlen] at hcn hlt
  rw [prefixed, htk, hcn, append_assoc, take_append_drop, take_append_drop]
  exact ⟨rfl, hlt⟩

theorem bind_eq_ok {α β : Type} {x : Except CodecError α} {f : α → Except CodecError β} {b : β}
    (h : x >>= f = .ok b) : ∃ a, x = .ok a ∧ f a = .ok b := by
  cases x with
  | error e => cases h
  | ok a => exact ⟨a, rfl, h⟩

theorem decodeRecord_eq_ok {i : Nat} (h : decodeRecord i data = .ok (r, rest)) :
    data = encodeRecord r ++ rest ∧ r.Fits := by
  unfold decodeRecord at h
  obtain ⟨⟨name, left⟩, hnm, h1⟩ := bind_eq_ok h
  dsimp only at h1
  by_cases h4 : left.length < 4
  · rw [if_pos h4] at h1
    cases h1
  rw [if_neg h4] at h1
  obtain ⟨⟨recordClass, left'⟩, hcl, h2⟩ := bind_eq_ok h1
  obtain ⟨⟨type, left''⟩, hty, h3⟩ := bind_eq_ok h2
  obtain ⟨⟨rdata, left'''⟩, hrd, h5⟩ := bind_eq_ok h3
  cases h5
  obtain ⟨rfl, hnL⟩ := takePrefixed_eq_ok hnm
  obtain ⟨hd, hcL⟩ := takePrefixed_eq_ok hcl
  obtain ⟨rfl, htL⟩ := takePrefixed_eq_ok hty
  obtain ⟨rfl, hrL⟩ := takePrefixed_eq_ok hrd
  refine ⟨?_, by constructor <;> dsimp only <;> omega⟩
  have hlen : (left.take 4).length = 4 := length_take_of_le (not_lt.1 h4)
  have hlt := decode_lt (left.take 4)
  have htt := encode_decode (left.take 4)
  rw [hlen] at hlt htt
  rw [encodeRecord, UInt32.toNat_ofNat_of_lt' (by simpa using hlt), htt]
  simp only [append_assoc]
  rw [← hd, take_append_drop]

theorem decodeLoop_eq_ok {count i : Nat} (h : decodeLoop count i data = .ok (rs, rest)) :
    data = rs.flatMap encodeRecord ++ rest ∧ rs.length = count ∧ ∀ r ∈ rs, r.Fits := by
  induction count generalizing i data rs with
  | zero =>
    cases h
    exact ⟨rfl, rfl, nofun⟩
  | succ count ih =>
    obtain ⟨⟨r, left⟩, hr, h1⟩ := bind_eq_ok h
    obtain ⟨⟨rs, left'⟩, hrs, h2⟩ := bind_eq_ok h1
    cases h2
    obtain ⟨rfl, hfi⟩ := decodeRecord_eq_ok hr
    obtain ⟨rfl, rfl, hft⟩ := ih hrs
    exact ⟨by rw [flatMap_cons, append_assoc], rfl, forall_mem_cons.2 ⟨hfi, hft⟩⟩

theorem decodeRecords_eq_ok (h : decodeRecords data = .ok rs) : data = blob rs ∧ ∀ r ∈ rs, r.Fits := by
  unfold decodeRecords at h
  by_cases h4 : data.length < 4
  · rw [if_pos h4] at h
    cases h
  rw [if_neg h4] at h
  dsimp only at h
  split at h
  · cases h
  split at h
  · cases h
  split at h
  · cases h
  next records left hlp =>
    split_ifs at h with hrs
    cases h
    obtain ⟨hd, hlen, hft⟩ := decodeLoop_eq_ok hlp
    rw [not_not.1 hrs, append_nil] at hd
    refine ⟨?_, hft⟩
    have hfr : (data.take 4).length = 4 := length_take_of_le (not_lt.1 h4)
    have hcn := encode_decode (data.take 4)
    rw [hfr] at hcn
    rw [blob, hlen, hcn, ← hd, take_append_drop]

theorem encodeRecords_eq_ok (h : encodeRecords rs = .ok data) : data = blob rs ∧ ∀ r ∈ rs, r.Fits := by
  unfold encodeRecords at h
  split at h
  · cases h
  next hnn =>
    cases h
    refine ⟨rfl, fun r hr => ?_⟩
    have hv := findSome?_eq_none_iff.1 hnn r hr
    unfold validateStoredRecord at hv
    split_ifs at hv
    constructor <;> omega

/-- Writing and reading records are inverse, and reading stays inside the octets. -/
theorem decodeRecords_exact :
    (∀ rs d, rs.length ≤ maxStoredRecordsPerZone → encodeRecords rs = .ok d → decodeRecords d = .ok rs) ∧
    (∀ d rs, decodeRecords d = .ok rs → encodeRecords rs = .ok d) ∧
    ∀ d, readRecords d = some ((decodeRecords d).map (·, [])) := by
  refine ⟨fun rs d hcn h => ?_, fun d rs h => ?_, readRecords_eq⟩
  · obtain ⟨rfl, hft⟩ := encodeRecords_eq_ok h
    exact decodeRecords_blob hft hcn
  · obtain ⟨rfl, hft⟩ := decodeRecords_eq_ok h
    exact encodeRecords_eq hft

/-- A record of empty fields takes ten octets after the count. -/
theorem decodeRecords_exact_empty :
    decodeRecords [0, 0, 0, 1, 0, 0, 0, 0, 0, 60, 0, 0, 0, 0] = .ok [⟨[], 60, [], [], []⟩] :=
  decodeRecords_exact.1 _ _ (by decide) (by decide)

end NothingDNS.Storage
