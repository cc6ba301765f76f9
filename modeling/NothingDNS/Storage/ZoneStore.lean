import NothingDNS.Storage.Atomicity
import NothingDNS.Lib.BigEndian
/-!
# Zones in the key-value store (`zonestore.go`)

A zone is a bucket of the bucket `zones`: the key `_meta` holds origin and default TTL, every other key is an owner
name and holds its records.
-/

namespace NothingDNS.Storage

open List BigEndian BucketData

structure ZoneMeta where
  origin : Key
  defaultTTL : UInt32
deriving DecidableEq

structure StoredRecord where
  name : Key
  ttl : UInt32
  recordClass : Key
  type : Key
  rdata : Key
deriving DecidableEq

inductive Field where
  | name | ttl | recordClass | type | rdata
deriving DecidableEq

inductive CodecError where
  | tooLong (field : Field) (size : Nat)
  | noCount
  | countTooLarge (count : Nat)
  | overCapacity (count capacity : Nat)
  /-- The record and the field at which the data ends, in its length or in itself. -/
  | truncated (record : Nat) (field : Field) (length : Bool)
  | trailing (size : Nat)
  | metaTooShort (size : Nat)
  | originLength (size : Nat)
deriving DecidableEq

/-- From `zonestore.go:293-307`. -/
def validateStoredRecord (r : StoredRecord) : Option CodecError :=
  if 0xffff < r.name.length then some (.tooLong .name r.name.length)
  else if 0xff < r.recordClass.length then some (.tooLong .recordClass r.recordClass.length)
  else if 0xff < r.type.length then some (.tooLong .type r.type.length)
  else if 0xffff < r.rdata.length then some (.tooLong .rdata r.rdata.length)
  else none

def prefixed (w : Nat) (s : Key) : Key := encode w s.length ++ s

def encodeRecord (r : StoredRecord) : Key :=
  prefixed 2 r.name ++ (encode 4 r.ttl.toNat ++
    (prefixed 1 r.recordClass ++ (prefixed 1 r.type ++ prefixed 2 r.rdata)))

/-- From `zonestore.go:250-291`. -/
def encodeRecords (records : List StoredRecord) : Except CodecError Key :=
  match records.findSome? validateStoredRecord with
  | some e => .error e
  | none => .ok (encode 4 records.length ++ records.flatMap encodeRecord)

def maxStoredRecordsPerZone : Nat := 5000000
def minStoredRecordWireSize : Nat := 2 + 4 + 1 + 1 + 2

/-- A string with its length in `w` octets, and the data after it. -/
def takePrefixed (w i : Nat) (field : Field) (data : Key) : Except CodecError (Key × Key) :=
  if data.length < w then .error (.truncated i field true)
  else
    let n := decode (data.take w)
    if (data.drop w).length < n then .error (.truncated i field false)
    else .ok ((data.drop w).take n, (data.drop w).drop n)

def decodeRecord (i : Nat) (data : Key) : Except CodecError (StoredRecord × Key) := do
  let (name, data) ← takePrefixed 2 i .name data
  if data.length < 4 then throw (.truncated i .ttl false)
  let ttl := UInt32.ofNat (decode (data.take 4))
  let (recordClass, data) ← takePrefixed 1 i .recordClass (data.drop 4)
  let (type, data) ← takePrefixed 1 i .type data
  let (rdata, data) ← takePrefixed 2 i .rdata data
  return ({ name, ttl, recordClass, type, rdata }, data)

def decodeLoop : Nat → Nat → Key → Except CodecError (List StoredRecord × Key)
  | 0, _, data => .ok ([], data)
  | count + 1, i, data => do
    let (r, data) ← decodeRecord i data
    let (rs, data) ← decodeLoop count (i + 1) data
    return (r :: rs, data)

/-- From `zonestore.go:319-396`. -/
def decodeRecords (data : Key) : Except CodecError (List StoredRecord) :=
  if data.length < 4 then .error .noCount
  else
    let count := decode (data.take 4)
    if maxStoredRecordsPerZone < count then .error (.countTooLarge count)
    else if (data.length - 4) / minStoredRecordWireSize < count then
      .error (.overCapacity count ((data.length - 4) / minStoredRecordWireSize))
    else match decodeLoop count 0 (data.drop 4) with
      | .error e => .error e
      | .ok (records, rest) => if rest ≠ [] then .error (.trailing rest.length) else .ok records

def encodeZoneMeta (m : ZoneMeta) : Key := prefixed 4 m.origin ++ encode 4 m.defaultTTL.toNat

/-- From `zonestore.go:228-242`. -/
def decodeZoneMeta (data : Key) : Except CodecError ZoneMeta :=
  if data.length < 8 then .error (.metaTooShort data.length)
  else
    let originLen := decode (data.take 4)
    if data.length - 8 < originLen then .error (.originLength originLen)
    else .ok
      { origin := (data.drop 4).take originLen
        defaultTTL := UInt32.ofNat (decode (((data.drop 4).drop originLen).take 4)) }

/-- The texts `zones` and `_meta`. -/
def zonesKey : Key := [0x7A, 0x6F, 0x6E, 0x65, 0x73]
def metaKey : Key := [0x5F, 0x6D, 0x65, 0x74, 0x61]

inductive SaveError where
  | zonesBucket (err : KVError)
  | deleteBucket (err : KVError)
  | zoneBucket (err : KVError)
  | putMeta (err : KVError)
  | encode (name : Key) (err : CodecError)
  | put (name : Key) (err : KVError)
deriving DecidableEq

/-- The loop over the owner names, in the order the map is iterated in. -/
def putRecords (origin : Key) : List (Key × List StoredRecord) → BucketData → BucketData × Option SaveError
  | [], root => (root, none)
  | (name, recs) :: rest, root => match encodeRecords recs with
    | .error e => (root, some (.encode name e))
    | .ok encoded => match (Op.put zonesKey [origin] name encoded).apply root with
      | (root, some e) => (root, some (.put name e))
      | (root, none) => putRecords origin rest root

/-- The function `SaveZone` hands to `Update`. -/
def saveZone (origin : Key) (m : ZoneMeta) (records : List (Key × List StoredRecord)) (root : BucketData) :
    BucketData × Option SaveError :=
  match (Op.createBucketIfNotExists [] zonesKey).apply root with
  | (root, some e) => (root, some (.zonesBucket e))
  | (root, none) =>
    let (root, err) := (Op.deleteBucket [zonesKey] origin).apply root
    match err.filter (· ≠ .bucketNotFound) with
    | some e => (root, some (.deleteBucket e))
    | none => match (Op.createBucket [zonesKey] origin).apply root with
      | (root, some e) => (root, some (.zoneBucket e))
      | (root, none) => match (Op.put zonesKey [origin] metaKey (encodeZoneMeta m)).apply root with
        | (root, some e) => (root, some (.putMeta e))
        | (root, none) => putRecords origin records root

inductive LoadZoneError where
  | zoneNotFound
  | missingMetadata
  | decodeMeta (err : CodecError)
  | decode (name : Key) (err : CodecError)
deriving DecidableEq

/-- The callback of `ForEach`, over the entries in the order of their keys. -/
def loadRecords : Entries → Except LoadZoneError (List (Key × List StoredRecord))
  | [] => .ok []
  | ⟨k, v⟩ :: rest =>
    if [0x5F] <+: k then loadRecords rest
    else match decodeRecords v with
      | .error e => .error (.decode k e)
      | .ok recs => (loadRecords rest).map ((k, recs) :: ·)

/-- From `zonestore.go:101-150`. -/
def loadZone (origin : Key) (root : BucketData) : Except LoadZoneError (ZoneMeta × List (Key × List StoredRecord)) :=
  match root.find [zonesKey, origin] with
  | none => .error .zoneNotFound
  | some b => match b.entries.dlookup metaKey with
    | none => .error .missingMetadata
    | some metaBytes => match decodeZoneMeta metaBytes with
      | .error e => .error (.decodeMeta e)
      | .ok m => (loadRecords (sortMembers b.entries)).map (m, ·)

/-! ## Round trip of the records -/

theorem takePrefixed_prefixed {w : Nat} {s : Key} (h : s.length < 256 ^ w) (i : Nat) (field : Field) (rest : Key) :
    takePrefixed w i field (prefixed w s ++ rest) = .ok (s, rest) := by
  have hlen := length_encode w s.length
  have htk : (prefixed w s ++ rest).take w = encode w s.length := by
    rw [prefixed, append_assoc]
    exact take_left' hlen
  have hd : (prefixed w s ++ rest).drop w = s ++ rest := by
    rw [prefixed, append_assoc]
    exact drop_left' hlen
  unfold takePrefixed
  rw [if_neg (by rw [length_append, prefixed, length_append, hlen]; omega)]
  simp only [htk, hd, decode_encode_of_lt h]
  rw [if_neg (by rw [length_append]; omega), take_left' rfl, drop_left' rfl]

structure StoredRecord.Fits (r : StoredRecord) : Prop where
  name : r.name.length ≤ 0xffff
  recordClass : r.recordClass.length ≤ 0xff
  type : r.type.length ≤ 0xff
  rdata : r.rdata.length ≤ 0xffff

instance (r : StoredRecord) : Decidable r.Fits :=
  decidable_of_iff (r.name.length ≤ 0xffff ∧ r.recordClass.length ≤ 0xff ∧ r.type.length ≤ 0xff ∧
    r.rdata.length ≤ 0xffff) ⟨fun h => ⟨h.1, h.2.1, h.2.2.1, h.2.2.2⟩, fun h => ⟨h.1, h.2, h.3, h.4⟩⟩

variable {r : StoredRecord} {rs : List StoredRecord}

theorem validateStoredRecord_eq_none (h : r.Fits) : validateStoredRecord r = none := by
  unfold validateStoredRecord
  rw [if_neg (not_lt.2 h.name), if_neg (not_lt.2 h.recordClass), if_neg (not_lt.2 h.type), if_neg (not_lt.2 h.rdata)]

theorem decode_encode_uint32 (x : UInt32) : UInt32.ofNat (decode (encode 4 x.toNat)) = x := by
  rw [decode_encode_of_lt (lt_of_lt_of_eq x.toNat_lt (by norm_num)), UInt32.ofNat_toNat]

theorem decodeRecord_encodeRecord (h : r.Fits) (i : Nat) (rest : Key) :
    decodeRecord i (encodeRecord r ++ rest) = .ok (r, rest) := by
  have hnm := lt_of_le_of_lt h.name (by decide : 0xffff < 256 ^ 2)
  have hcl := lt_of_le_of_lt h.recordClass (by decide : 0xff < 256 ^ 1)
  have hty := lt_of_le_of_lt h.type (by decide : 0xff < 256 ^ 1)
  have hrd := lt_of_le_of_lt h.rdata (by decide : 0xffff < 256 ^ 2)
  have hfr := length_encode 4 r.ttl.toNat
  unfold decodeRecord encodeRecord
  simp only [append_assoc, takePrefixed_prefixed hnm, bind, Except.bind]
  rw [if_neg (by rw [length_append, hfr]; omega)]
  simp only [pure, Except.pure, take_left' hfr, drop_left' hfr, takePrefixed_prefixed hcl,
    takePrefixed_prefixed hty, takePrefixed_prefixed hrd, decode_encode_uint32]

theorem decodeLoop_encode (h : ∀ r ∈ rs, r.Fits) (i : Nat) (rest : Key) :
    decodeLoop rs.length i (rs.flatMap encodeRecord ++ rest) = .ok (rs, rest) := by
  induction rs generalizing i with
  | nil => rfl
  | cons r rs ih =>
    rw [flatMap_cons, append_assoc, length_cons, decodeLoop, decodeRecord_encodeRecord (h r mem_cons_self)]
    simp only [bind, Except.bind, ih fun x hx => h x (mem_cons_of_mem _ hx)]
    rfl

theorem length_flatMap_encodeRecord (rs : List StoredRecord) :
    minStoredRecordWireSize * rs.length ≤ (rs.flatMap encodeRecord).length := by
  induction rs with
  | nil => exact Nat.zero_le _
  | cons r rs ih =>
    have hon : minStoredRecordWireSize ≤ (encodeRecord r).length := by
      simp only [encodeRecord, prefixed, length_append, length_encode, minStoredRecordWireSize]
      omega
    rw [flatMap_cons, length_append, length_cons, Nat.mul_succ]
    omega

def blob (rs : List StoredRecord) : Key := encode 4 rs.length ++ rs.flatMap encodeRecord

theorem encodeRecords_eq (h : ∀ r ∈ rs, r.Fits) : encodeRecords rs = .ok (blob rs) := by
  unfold encodeRecords
  rw [findSome?_eq_none_iff.2 fun r hr => validateStoredRecord_eq_none (h r hr)]
  rfl

theorem length_blob (rs : List StoredRecord) : 4 + minStoredRecordWireSize * rs.length ≤ (blob rs).length := by
  rw [blob, length_append, length_encode]
  exact Nat.add_le_add_left (length_flatMap_encodeRecord rs) 4

theorem decodeRecords_blob (h : ∀ r ∈ rs, r.Fits) (hcn : rs.length ≤ maxStoredRecordsPerZone) :
    decodeRecords (blob rs) = .ok rs := by
  have hfr := length_encode 4 rs.length
  have hlen := length_blob rs
  have hdc : decode ((blob rs).take 4) = rs.length := by
    rw [blob, take_left' hfr]
    refine decode_encode_of_lt (lt_of_le_of_lt hcn (by decide))
  have hd : (blob rs).drop 4 = rs.flatMap encodeRecord ++ [] := by
    rw [blob, drop_left' hfr, append_nil]
  unfold decodeRecords
  rw [if_neg (by omega)]
  simp only [hdc, hd]
  rw [if_neg (not_lt.2 hcn), if_neg, decodeLoop_encode h]
  · rfl
  · rw [not_lt, Nat.le_div_iff_mul_le (by decide), Nat.mul_comm]
    omega

variable {m : ZoneMeta}

theorem decodeZoneMeta_encodeZoneMeta (h : m.origin.length < 2 ^ 32) : decodeZoneMeta (encodeZoneMeta m) = .ok m := by
  have hfr := length_encode 4 m.origin.length
  have hlen : (encodeZoneMeta m).length = 8 + m.origin.length := by
    simp only [encodeZoneMeta, prefixed, length_append, length_encode]
    omega
  have htk : (encodeZoneMeta m).take 4 = encode 4 m.origin.length := by
    rw [encodeZoneMeta, prefixed, append_assoc]
    exact take_left' hfr
  have hd : (encodeZoneMeta m).drop 4 = m.origin ++ encode 4 m.defaultTTL.toNat := by
    rw [encodeZoneMeta, prefixed, append_assoc]
    exact drop_left' hfr
  have hdc : decode (encode 4 m.origin.length) = m.origin.length :=
    decode_encode_of_lt (lt_of_lt_of_eq h (by norm_num))
  unfold decodeZoneMeta
  rw [if_neg (by omega)]
  simp only [htk, hdc, hd]
  rw [if_neg (by omega), take_left' rfl, drop_left' rfl,
    take_of_length_le (le_of_eq (length_encode _ _)), decode_encode_uint32]

/-! ## Through the tree -/

variable {root : BucketData}

theorem find_atPath {f : BucketData → BucketData × Option KVError} :
    ∀ {path : List Key} {b c : BucketData}, b.find path = some c →
      (atPath f path b).2 = (f c).2 ∧ (atPath f path b).1.find path = some (f c).1
  | [], b, c, h => by
    cases h
    exact ⟨rfl, rfl⟩
  | k :: ks, b, c, h => by
    rw [find] at h
    cases hk : b.buckets.dlookup k with
    | none => rw [hk] at h; cases h
    | some d =>
      rw [hk] at h
      obtain ⟨her, hfn⟩ := find_atPath (f := f) h
      rw [atPath, hk]
      refine ⟨her, ?_⟩
      rw [find, buckets_mk, dlookup_kinsert]
      exact hfn

theorem find_append : ∀ (ks : List Key) (k : Key) (b : BucketData),
    b.find (ks ++ [k]) = (b.find ks).bind fun c => c.buckets.dlookup k
  | [], k, b => by
    rw [nil_append, find, find, Option.bind_some]
    cases b.buckets.dlookup k <;> rfl
  | j :: ks, k, b => by
    rw [cons_append, find, find]
    cases b.buckets.dlookup j with
    | none => rfl
    | some c => exact find_append ks k c

/-- What `Put` accepts. -/
def Puttable (key value : Key) : Prop :=
  key ≠ [] ∧ key.length ≤ kvMaxKeySize ∧ value.length ≤ kvMaxValueSize

instance (key value : Key) : Decidable (Puttable key value) := inferInstanceAs (Decidable (_ ∧ _ ∧ _))

theorem put_eq {key value : Key} (h : Puttable key value) (b : BucketData) :
    put key value b = (.mk (b.entries.kinsert key value) b.buckets, none) := by
  unfold put
  rw [if_neg fun h0 => h.1 (length_eq_zero_iff.1 h0), if_neg (not_lt.2 h.2.1), if_neg (not_lt.2 h.2.2)]

def metaEntry (m : ZoneMeta) : Entries := [⟨metaKey, encodeZoneMeta m⟩]

def blobs (records : List (Key × List StoredRecord)) : Entries := records.map fun p => ⟨p.1, blob p.2⟩

def Storable (records : List (Key × List StoredRecord)) : Prop :=
  ∀ p ∈ records, (∀ r ∈ p.2, r.Fits) ∧ Puttable p.1 (blob p.2)

instance (records : List (Key × List StoredRecord)) : Decidable (Storable records) :=
  inferInstanceAs (Decidable (∀ p ∈ records, _))

variable {origin : Key}

theorem putRecords_spec : ∀ {records : List (Key × List StoredRecord)} {root b : BucketData},
    Storable records → root.find [zonesKey, origin] = some b → (putRecords origin records root).2 = none ∧
        (putRecords origin records root).1.find [zonesKey, origin] =
          some (.mk (assign b.entries (blobs records)) b.buckets)
  | [], root, .mk es bs, _, h => ⟨rfl, h⟩
  | (name, recs) :: rest, root, b, hs, h => by
    obtain ⟨hft, hpt⟩ := hs _ mem_cons_self
    obtain ⟨her, hfn⟩ := find_atPath (f := put name (blob recs)) h
    rw [put_eq hpt] at her hfn
    have hap : (Op.put zonesKey [origin] name (blob recs)).apply root =
        ((atPath (put name (blob recs)) [zonesKey, origin] root).1, none) := Prod.ext rfl her
    rw [putRecords, encodeRecords_eq hft]
    simp only [hap]
    exact putRecords_spec (fun p hp => hs p (mem_cons_of_mem _ hp)) hfn

theorem zoneBucket_fresh (hw : root.WellFormed) (origin : Key) :
    ∃ root₁ root₂ root₃ err, (Op.createBucketIfNotExists [] zonesKey).apply root = (root₁, none) ∧
      (Op.deleteBucket [zonesKey] origin).apply root₁ = (root₂, err) ∧ err.filter (· ≠ .bucketNotFound) = none ∧
      (Op.createBucket [zonesKey] origin).apply root₂ = (root₃, none) ∧
      root₃.find [zonesKey, origin] = some newBucketData := by
  obtain ⟨root₁, hct, zones, hzn, hwz⟩ : ∃ root₁,
      (Op.createBucketIfNotExists [] zonesKey).apply root = (root₁, none) ∧
        ∃ zones, root₁.find [zonesKey] = some zones ∧ zones.WellFormed := by
    show ∃ root₁, createBucketIfNotExists zonesKey root = (root₁, none) ∧ _
    unfold createBucketIfNotExists createBucket
    cases hz : root.buckets.dlookup zonesKey with
    | none =>
      refine ⟨_, rfl, newBucketData, ?_, wellFormed_newBucketData⟩
      rw [find, buckets_mk, dlookup_kinsert]
      rfl
    | some zones =>
      refine ⟨root, rfl, zones, ?_, hw.dlookup hz⟩
      rw [find, hz]
      rfl
  obtain ⟨her, hdel⟩ := find_atPath (f := deleteBucket origin) hzn
  have hg := dlookup_eq_none.2 fun hmem => ((deleteBucket_spec hwz origin).2.2 origin hmem).2 rfl
  obtain ⟨hok, hnw⟩ := find_atPath (f := createBucket origin) hdel
  have hcr : createBucket origin (deleteBucket origin zones).1 =
      (.mk (deleteBucket origin zones).1.entries
        ((deleteBucket origin zones).1.buckets.kinsert origin newBucketData), none) := by
    rw [createBucket, hg]
    rfl
  rw [hcr] at hok hnw
  refine ⟨root₁, _, _, _, hct, rfl, ?_, Prod.ext rfl hok, ?_⟩
  · have : (deleteBucket origin zones).2 = none ∨ (deleteBucket origin zones).2 = some .bucketNotFound := by
      unfold deleteBucket
      split
      · exact .inl rfl
      · exact .inr rfl
    show ((atPath (deleteBucket origin) [zonesKey] root₁).2).filter _ = none
    rw [her]
    rcases this with h | h <;> rw [h] <;> rfl
  · have hap := find_append [zonesKey] origin (atPath (createBucket origin) [zonesKey]
      (atPath (deleteBucket origin) [zonesKey] root₁).1).1
    rw [hnw, Option.bind_some, buckets_mk, dlookup_kinsert] at hap
    exact hap

variable {records : List (Key × List StoredRecord)}

/-- **`SaveZone`** succeeds on what it can store and leaves exactly that in the zone's bucket. -/
theorem saveZone_spec (origin : Key)
    (hw : root.WellFormed) (hm : (encodeZoneMeta m).length ≤ kvMaxValueSize) (hs : Storable records) :
    (saveZone origin m records root).2 = none ∧ (saveZone origin m records root).1.find [zonesKey, origin] =
        some (.mk (assign (metaEntry m) (blobs records)) []) := by
  obtain ⟨root1, root2, root3, err, h1, h2, h3, h4, hfn⟩ := zoneBucket_fresh hw origin
  have hp : Puttable metaKey (encodeZoneMeta m) := ⟨by decide, by decide, hm⟩
  obtain ⟨her, hmt⟩ := find_atPath (f := put metaKey (encodeZoneMeta m)) hfn
  rw [put_eq hp] at her hmt
  have h5 : (Op.put zonesKey [origin] metaKey (encodeZoneMeta m)).apply root3 =
      ((atPath (put metaKey (encodeZoneMeta m)) [zonesKey, origin] root3).1, none) := Prod.ext rfl her
  unfold saveZone
  simp only [h1, h2, h3, h4, h5]
  exact putRecords_spec hs hmt

theorem assign_eq_append {β : Type} : ∀ {m l : List (Sigma fun _ : Key => β)}, l.NodupKeys →
    (∀ k ∈ l.keys, k ∉ m.keys) → assign m l = l.reverse ++ m
  | _, [], _, _ => rfl
  | m, s :: l, hnd, hnw => by
    rw [nodupKeys_cons] at hnd
    have hfr : m.kinsert s.1 s.2 = s :: m := by
      rw [kinsert_def, kerase_of_notMem_keys (hnw s.1 (by simp))]
    have hcn : assign m (s :: l) = assign (s :: m) l := by
      show assign (m.kinsert s.1 s.2) l = _
      rw [hfr]
    rw [hcn, assign_eq_append hnd.2, reverse_cons, append_assoc, singleton_append]
    intro k hk hmem
    rcases mem_cons.1 (keys_cons ▸ hmem) with rfl | hmem
    · exact hnd.1 hk
    · exact hnw k (by simp [hk]) hmem

def loaded (s : Sigma fun _ : Key => Key) : Option (Key × List StoredRecord) :=
  if [0x5F] <+: s.1 then none else some (s.1, (decodeRecords s.2).toOption.getD [])

theorem loadRecords_eq : ∀ {es : Entries},
    (∀ s ∈ es, ¬ [0x5F] <+: s.1 → ∃ recs, decodeRecords s.2 = .ok recs) → loadRecords es = .ok (es.filterMap loaded)
  | [], _ => rfl
  | ⟨k, v⟩ :: rest, h => by
    have ih := loadRecords_eq fun s hs => h s (mem_cons_of_mem _ hs)
    rw [loadRecords, filterMap_cons]
    by_cases hk : [0x5F] <+: k
    · rw [if_pos hk, ih, loaded, if_pos hk]
    · obtain ⟨recs, hrc⟩ := h ⟨k, v⟩ mem_cons_self hk
      rw [if_neg hk, hrc, ih, loaded, if_neg hk, hrc]
      rfl

/-- **Round trip of the store.** What `SaveZone` stored, `LoadZone` returns, in some order of the owner
names, if no owner name begins with an underscore. -/
theorem loadZone_of_saved (hm : (encodeZoneMeta m).length ≤ kvMaxValueSize) (hs : Storable records)
    (hnd : (records.map Prod.fst).Nodup) (hu : ∀ p ∈ records, ¬ [0x5F] <+: p.1)
    (hfn : root.find [zonesKey, origin] = some (.mk (assign (metaEntry m) (blobs records)) [])) :
    ∃ loaded, loadZone origin root = .ok (m, loaded) ∧ loaded.Perm records := by
  have hmU : [0x5F] <+: metaKey := by decide
  have hky : (blobs records).keys = records.map Prod.fst := by
    rw [blobs, keys, map_map]
    rfl
  have hnt : ∀ k ∈ (blobs records).keys, k ∉ keys (metaEntry m) := by
    intro k hk hmem
    rw [hky] at hk
    obtain ⟨p, hp, rfl⟩ := mem_map.1 hk
    obtain hnm : p.1 = metaKey := by simpa [metaEntry] using hmem
    exact hu p hp (hnm ▸ hmU)
  have hen := assign_eq_append (m := metaEntry m)
    (l := blobs records) (by rw [List.NodupKeys, hky]; exact hnd) hnt
  have hpr : (sortMembers (assign (metaEntry m) (blobs records))).Perm
      (blobs records ++ metaEntry m) := by
    rw [hen]
    exact (sortMembers_perm _).trans ((reverse_perm _).append_right _)
  have hlk : (assign (metaEntry m) (blobs records)).dlookup
      metaKey = some (encodeZoneMeta m) := by
    rw [dlookup_assign, metaEntry, dlookup_cons_eq, dlookup_eq_none.2 fun hmem => ?_]
    · rfl
    · rw [keys, map_reverse, mem_reverse] at hmem
      exact hnt metaKey hmem (by simp [metaEntry])
  have hbl : ∀ p ∈ records, decodeRecords (blob p.2) = .ok p.2 := by
    intro p hp
    have hsz := (length_blob p.2).trans (hs p hp).2.2.2
    refine decodeRecords_blob (hs p hp).1 ?_
    unfold minStoredRecordWireSize kvMaxValueSize at hsz
    unfold maxStoredRecordsPerZone
    omega
  have hor : m.origin.length < 2 ^ 32 := by
    have hlen : (encodeZoneMeta m).length = 4 + m.origin.length + 4 := by
      simp only [encodeZoneMeta, prefixed, length_append, length_encode]
    unfold kvMaxValueSize at hm
    omega
  refine ⟨(sortMembers (assign (metaEntry m) (blobs records))).filterMap Storage.loaded, ?_, ?_⟩
  · rw [loadZone, hfn]
    simp only [entries_mk, hlk, decodeZoneMeta_encodeZoneMeta hor]
    rw [loadRecords_eq]
    · rfl
    · intro s hsm hnu
      rcases mem_append.1 (hpr.subset hsm) with hb | hb
      · obtain ⟨p, hp, rfl⟩ := mem_map.1 hb
        exact ⟨p.2, hbl p hp⟩
      · rw [metaEntry, mem_singleton] at hb
        rw [hb] at hnu
        exact absurd hmU hnu
  · refine (hpr.filterMap _).trans (List.Perm.of_eq ?_)
    rw [filterMap_append, blobs, filterMap_map]
    have hmN : filterMap Storage.loaded (metaEntry m) = [] := by
      rw [metaEntry, filterMap_cons, Storage.loaded, if_pos hmU]
      rfl
    rw [hmN, append_nil]
    conv_rhs => rw [← filterMap_some (l := records)]
    refine filterMap_congr fun p hp => ?_
    rw [Function.comp_apply, Storage.loaded, if_neg (hu p hp), hbl p hp]
    rfl

end NothingDNS.Storage
