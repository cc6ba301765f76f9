import NothingDNS.Zone.Soa
import NothingDNS.Storage.ZoneStore
/-!
# Zones in the embedded database (`internal/zone/kv_persistence.go`)

The record map is iterated by `SaveZone` (`iter`) and in `storedRecordsToZone`, to
copy the records and to look for the SOA record (`order`). The last loop stops
after its first owner name, whatever it is, and nothing rebuilds `z.NS`, so only
some zones survive: `persist_load`.
-/

namespace NothingDNS

open List

open Storage (Key StoredRecord ZoneMeta BucketData)

def octets (t : Text) : Key := t.flatMap String.utf8EncodeChar

def ofOctets (k : Key) : Text := ((ByteArray.mk k.toArray).utf8Decode?.map Array.toList).getD []

def toStored (name : Text) (r : Record) : StoredRecord :=
  { name := octets name, ttl := r.ttl, recordClass := octets r.recordClass, type := octets r.type,
    rdata := octets r.rdata }

def ofStored (r : StoredRecord) : Record :=
  { name := ofOctets r.name, ttl := r.ttl, recordClass := ofOctets r.recordClass, type := ofOctets r.type,
    rdata := ofOctets r.rdata }

/-- A name without records gets no entry, since an entry is made by the first `append`. -/
def zoneToStoredRecords (z : Zone) : List (Key × List StoredRecord) :=
  (z.records.entries.filter fun s => decide (s.2 ≠ [])).map fun s => (octets s.1, s.2.map (toStored s.1))

def typeSOAText : Text := "SOA".toList

/-- The SOA of the owner name the iteration starts with. -/
def firstSOA (z : Zone) (order : List Text) : Option SOARecord :=
  order.head?.bind fun name =>
    ((z.recordsAt name).find? fun r => decide (r.type = typeSOAText)).bind fun r => parseSOAFromRData r.rdata

/-- From `kv_persistence.go:206-243`. -/
def storedRecordsToZone (m : ZoneMeta) (records : List (Key × List StoredRecord)) (order : List Text) : Zone :=
  let z : Zone :=
    { origin := ofOctets m.origin
      defaultTTL := m.defaultTTL
      soa := none
      records := records.foldl (fun rm p =>
        p.2.foldl (fun rm r => appendRecord rm (ofOctets p.1) (ofStored r)) rm) ∅
      ns := [] }
  { z with soa := firstSOA z order }

def persistZone (zoneName : Text) (z : Zone) (iter : List (Key × List StoredRecord)) (root : BucketData) :
    BucketData × Option Storage.SaveError :=
  Storage.saveZone (octets zoneName) { origin := octets z.origin, defaultTTL := z.defaultTTL } iter root

/-- `none` is a zone that is not in the store. -/
def loadFromKV (zoneName : Text) (order : List Text) (root : BucketData) : Except Storage.LoadZoneError (Option Zone) :=
  match Storage.loadZone (octets zoneName) root with
  | .error .zoneNotFound => .ok none
  | .error e => .error e
  | .ok (m, records) => .ok (some (storedRecordsToZone m records order))

@[simp] theorem ofOctets_octets (t : Text) : ofOctets (octets t) = t := by
  have hb : (ByteArray.mk (octets t).toArray) = t.utf8Encode := by
    refine ByteArray.ext (Array.toList_inj.1 ?_)
    rw [utf8Encode, toList_data_toByteArray]
    rfl
  rw [ofOctets, hb, utf8Decode?_utf8Encode]
  simp

theorem octets_injective {t u : Text} (h : octets t = octets u) : t = u := by
  rw [← ofOctets_octets t, h, ofOctets_octets]

/-! ## The record map -/

theorem recordsOf_appendAll (owner name : Text) : ∀ (rs : List StoredRecord) (m : RecordMap),
    recordsOf (rs.foldl (fun rm r => appendRecord rm owner (ofStored r)) m) name =
      if owner = name then recordsOf m name ++ rs.map ofStored else recordsOf m name
  | [], m => by simp
  | r :: rs, m => by
    rw [foldl_cons, recordsOf_appendAll owner name rs, recordsOf_appendRecord]
    split
    · rw [append_assoc]
      rfl
    · rfl

theorem recordsOf_copy (name : Text) : ∀ (records : List (Key × List StoredRecord)) (m : RecordMap),
    recordsOf (records.foldl (fun rm p =>
        p.2.foldl (fun rm r => appendRecord rm (ofOctets p.1) (ofStored r)) rm) m) name = recordsOf m name ++
        (records.filter fun p => decide (ofOctets p.1 = name)).flatMap fun p => p.2.map ofStored
  | [], m => by simp
  | p :: records, m => by
    rw [foldl_cons, recordsOf_copy name records, recordsOf_appendAll]
    by_cases h : ofOctets p.1 = name
    · rw [if_pos h, filter_cons_of_pos (by simpa using h), flatMap_cons, append_assoc]
    · rw [if_neg h, filter_cons_of_neg (by simpa using h)]

theorem filter_entries (name : Text) : ∀ {l : List (Sigma fun _ : Text => List Record)}, l.NodupKeys →
    (l.filter fun s => decide (s.2 ≠ [])).filter (fun s => decide (s.1 = name)) =
      if (l.dlookup name).getD [] = [] then [] else [⟨name, (l.dlookup name).getD []⟩]
  | [], _ => rfl
  | ⟨k, recs⟩ :: l, h => by
    rw [nodupKeys_cons] at h
    have ih := filter_entries name h.2
    by_cases hk : name = k
    · subst hk
      have hnn : l.dlookup name = none := dlookup_eq_none.2 h.1
      rw [hnn] at ih
      rw [dlookup_cons_eq]
      by_cases hrc : recs = []
      · rw [filter_cons_of_neg (by simpa using hrc), ih]
        simp [hrc]
      · rw [filter_cons_of_pos (by simpa using hrc), filter_cons_of_pos (by simp), ih]
        simp [hrc]
    · rw [dlookup_cons_ne _ _ hk, ← ih]
      by_cases hrc : recs = []
      · rw [filter_cons_of_neg (by simpa using hrc)]
      · rw [filter_cons_of_pos (by simpa using hrc), filter_cons_of_neg (by simpa using fun he => hk he.symm)]

variable {z : Zone} {name : Text}

theorem filter_zoneToStoredRecords (z : Zone) (name : Text) :
    (zoneToStoredRecords z).filter (fun p => decide (ofOctets p.1 = name)) =
      if z.recordsAt name = [] then [] else [(octets name, (z.recordsAt name).map (toStored name))] := by
  rw [zoneToStoredRecords, filter_map]
  have hkey : ((fun p : Key × List StoredRecord => decide (ofOctets p.1 = name)) ∘
      fun s : (Sigma fun _ : Text => List Record) => (octets s.1, s.2.map (toStored s.1))) =
      fun s => decide (s.1 = name) := by
    funext s
    simp
  rw [hkey, filter_entries name z.records.nodupKeys]
  have hlk : (z.records.entries.dlookup name).getD [] = z.recordsAt name := rfl
  rw [hlk]
  split <;> rfl

theorem nodup_zoneToStoredRecords (z : Zone) : ((zoneToStoredRecords z).map Prod.fst).Nodup := by
  have hky : (zoneToStoredRecords z).map Prod.fst =
      ((z.records.entries.filter fun s => decide (s.2 ≠ [])).map Sigma.fst).map octets := by
    rw [zoneToStoredRecords, map_map, map_map]
    rfl
  rw [hky]
  refine List.Nodup.map (fun _ _ h => octets_injective h) ?_
  exact (List.NodupKeys.sublist filter_sublist z.records.nodupKeys)

theorem ofStored_toStored {r : Record} (h : r.name = name) : ofStored (toStored name r) = r := by
  subst h
  simp [ofStored, toStored]

theorem recordsAt_storedRecordsToZone {m : ZoneMeta} {records : List (Key × List StoredRecord)}
    (hp : records.Perm (zoneToStoredRecords z)) (hnm : ∀ name, ∀ r ∈ z.recordsAt name, r.name = name)
    (order : List Text) (name : Text) : (storedRecordsToZone m records order).recordsAt name = z.recordsAt name := by
  have hcp := recordsOf_copy name records ∅
  refine hcp.trans ?_
  have hnil : recordsOf ∅ name = [] := rfl
  have hfl := hp.filter fun p => decide (ofOctets p.1 = name)
  rw [filter_zoneToStoredRecords] at hfl
  rw [hnil, nil_append]
  split at hfl
  next hem => rw [perm_nil.1 hfl, hem]; rfl
  next =>
    rw [perm_singleton.1 hfl, flatMap_cons, flatMap_nil, append_nil, map_map]
    conv_rhs => rw [← map_id (z.recordsAt name)]
    exact map_congr_left fun r hr => ofStored_toStored (hnm name r hr)

theorem firstSOA_congr {w : Zone} {n : Text} {order : List Text} (h : w.recordsAt n = z.recordsAt n)
    (hor : order.head? = some n) : firstSOA w order = firstSOA z [n] := by
  unfold firstSOA
  rw [hor, head?_cons, Option.bind_some, Option.bind_some, h]

/-! ## Persisting and loading -/

/-- The sizes and names `PersistZone` can store and `LoadFromKV` does not take for metadata. -/
structure Zone.Persistable (z : Zone) : Prop where
  sizes : Storage.Storable (zoneToStoredRecords z)
  origin : (octets z.origin).length + 8 ≤ Storage.kvMaxValueSize
  underscore : ∀ p ∈ zoneToStoredRecords z, ¬ [0x5F] <+: p.1

theorem persist_load_copy (zoneName : Text) {root : BucketData} (hw : root.WellFormed) (hz : z.Persistable)
    {iter : List (Key × List StoredRecord)} (hir : iter.Perm (zoneToStoredRecords z)) :
    ∃ root' records, persistZone zoneName z iter root = (root', none) ∧
      records.Perm (zoneToStoredRecords z) ∧ ∀ order, loadFromKV zoneName order root' =
        .ok (some (storedRecordsToZone ⟨octets z.origin, z.defaultTTL⟩ records order)) := by
  have hs : Storage.Storable iter := fun p hp => hz.sizes p (hir.subset hp)
  have hm : (Storage.encodeZoneMeta ⟨octets z.origin, z.defaultTTL⟩).length ≤ Storage.kvMaxValueSize := by
    have := hz.origin
    simp only [Storage.encodeZoneMeta, Storage.prefixed, length_append, BigEndian.length_encode]
    omega
  obtain ⟨hok, hfn⟩ := Storage.saveZone_spec (octets zoneName) hw hm hs
  obtain ⟨records, hld, hpr⟩ := Storage.loadZone_of_saved hm hs
    ((hir.map Prod.fst).nodup_iff.2 (nodup_zoneToStoredRecords z))
    (fun p hp => hz.underscore p (hir.subset hp)) hfn
  refine ⟨_, records, Prod.ext rfl hok, hpr.trans hir, fun order => ?_⟩
  unfold loadFromKV persistZone
  rw [hld]

/-- **The database gives a zone back** if its sizes fit, no owner name begins with an underscore, `z.NS`
is empty, the SOA is what its record at the apex says, and the search for that starts at the apex. -/
theorem persist_load {zoneName : Text} {root : BucketData} (hw : root.WellFormed) (hz : z.Persistable)
    (hname : ∀ name, ∀ r ∈ z.recordsAt name, r.name = name) (hns : z.ns = [])
    (hsoa : z.soa = firstSOA z [z.origin]) {iter : List (Key × List StoredRecord)}
    (hiter : iter.Perm (zoneToStoredRecords z)) {order : List Text} (horder : order.head? = some z.origin) :
    ∃ root', persistZone zoneName z iter root = (root', none) ∧ ∃ z', loadFromKV zoneName order root' = .ok (some z') ∧
      z'.origin = z.origin ∧ z'.defaultTTL = z.defaultTTL ∧ z'.soa = z.soa ∧ z'.ns = z.ns ∧
      ∀ name, z'.recordsAt name = z.recordsAt name := by
  obtain ⟨root', records, hsv, hp, hld⟩ := persist_load_copy zoneName hw hz hiter
  have hrc := recordsAt_storedRecordsToZone (m := ⟨octets z.origin, z.defaultTTL⟩) hp hname order
  refine ⟨root', hsv, _, hld order, ofOctets_octets _, rfl, ?_, hns.symm, hrc⟩
  exact (firstSOA_congr (hrc z.origin) horder).trans hsoa.symm

def storedZone : Zone where
  origin := "e.".toList
  defaultTTL := 60
  soa := some ⟨[], 0, "n.e.".toList, "h.e.".toList, 1, 2, 3, 4, 5⟩
  records := ((∅ : RecordMap).insert "a.e.".toList
    [⟨"a.e.".toList, 60, "IN".toList, "A".toList, "192.0.2.1".toList⟩]).insert "e.".toList
    [⟨"e.".toList, 60, "IN".toList, "SOA".toList, "n.e. h.e. 1 2 3 4 5".toList⟩,
      ⟨"e.".toList, 60, "IN".toList, "NS".toList, "n.e.".toList⟩]
  ns := []

theorem persistable_storedZone : storedZone.Persistable := ⟨by decide, by decide, by decide⟩

/-- **A zone with apex NS records never comes back**: whatever the store held, the owners and the order of the
iterations, the loaded zone has another `z.NS`, an empty one (`kv_persistence.go:206-243`). -/
theorem stored_ns_lost (hns : z.ns ≠ []) (zoneName : Text) (root : BucketData)
    (iter : List (Key × List StoredRecord)) (order : List Text) :
    ¬∃ root' z', persistZone zoneName z iter root = (root', none) ∧ loadFromKV zoneName order root' = .ok (some z') ∧
      z'.origin = z.origin ∧ z'.soa = z.soa ∧ (∀ n, n ∈ z'.ns ↔ n ∈ z.ns) ∧
      ∀ name, z'.recordsAt name = z.recordsAt name := by
  rintro ⟨root', z', -, hld, -, -, hsm, -⟩
  have hem : z'.ns = [] := by
    unfold loadFromKV at hld
    split at hld
    · cases hld
    · cases hld
    · cases hld
      rfl
  obtain ⟨n, hn⟩ := exists_mem_of_ne_nil _ hns
  rw [← hsm n, hem] at hn
  cases hn

theorem stored_ns_lost_storedZone :
    ¬∃ root' z', persistZone "e.".toList { storedZone with ns := [⟨"e.".toList, 60, "n.e.".toList⟩] }
        (zoneToStoredRecords storedZone) Storage.newBucketData = (root', none) ∧
      loadFromKV "e.".toList ["e.".toList, "a.e.".toList] root' = .ok (some z') ∧ z'.origin = storedZone.origin ∧
      z'.soa = storedZone.soa ∧ (∀ n, n ∈ z'.ns ↔ n ∈ [NSRecord.mk "e.".toList 60 "n.e.".toList]) ∧
      ∀ name, z'.recordsAt name = storedZone.recordsAt name :=
  @stored_ns_lost { storedZone with ns := [⟨"e.".toList, 60, "n.e.".toList⟩] } (cons_ne_nil _ _) _ _ _ _

/-- The same zone with its NS structure filled in, as the zone file parser does: it comes back without. -/
theorem loaded_without_ns : ∃ z : Zone, z = { storedZone with ns := [⟨"e.".toList, 60, "n.e.".toList⟩] } ∧
      ∃ root' z', persistZone "e.".toList z (zoneToStoredRecords z) Storage.newBucketData = (root', none) ∧
        loadFromKV "e.".toList ["e.".toList, "a.e.".toList] root' = .ok (some z') ∧ z.ns ≠ [] ∧ z'.ns = [] := by
  refine ⟨_, rfl, ?_⟩
  have hz : ({ storedZone with ns := [⟨"e.".toList, 60, "n.e.".toList⟩] } : Zone).Persistable :=
    ⟨persistable_storedZone.sizes, persistable_storedZone.origin, persistable_storedZone.underscore⟩
  obtain ⟨root', records, hsv, -, hld⟩ := persist_load_copy _ Storage.wellFormed_newBucketData hz (List.Perm.refl _)
  exact ⟨root', _, hsv, hld _, cons_ne_nil _ _, rfl⟩

end NothingDNS
