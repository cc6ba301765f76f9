import NothingDNS.Dnssec.NsecChain
import NothingDNS.Dnssec.Rollover
import NothingDNS.Lib.Traverse
/-!
# The octets that are signed and the octets that are checked

`Dnssec.Validator` has a signature over what the octets say; here are the octets, which signer and validator
write with separate code. Record data is known by its `Len()` and what `Pack` gives for a buffer of that length.
How the denial records are made is a parameter; `NsecChain` and `Nsec3Chain` have it.

The signer counts the label `*` of a wildcard owner, so the validator rejects the records expanded from it, at every
name (`served_validates`, `expansion_rejected`).
-/

namespace NothingDNS.Signing

open List Protocol
open Dnssec (keyCmp)

structure Data where
  len : Nat
  pack : Option (List UInt8)
deriving DecidableEq

structure Record where
  name : WireName
  type : UInt16
  cls : UInt16
  ttl : UInt32
  data : Data
deriving DecidableEq

structure Signature where
  typeCovered : UInt16
  algorithm : UInt8
  labels : UInt8
  originalTTL : UInt32
  expiration : UInt32
  inception : UInt32
  keyTag : UInt16
  signerName : WireName
  signature : List UInt8
deriving DecidableEq

def typeRRSIG : UInt16 := 46
def typeDNSKEY : UInt16 := 48

/-- Every octet of the wire form is folded, those of the lengths too. -/
def canonicalWire (n : WireName) : List UInt8 := (nameOctets n ++ [0]).map toLower

def splitLabels (t : Text) : List Text := (nameTexts t).filter (· ≠ [])

/-! ## Canonical order -/

/-- What `canonicalSort` compares: the folded text of the owner, the type, and the data; data that cannot be
packed come last. -/
def sortKey (rr : Record) : List (List Nat) :=
  [(printName rr.name).lower.map Char.toNat, [rr.type.toNat],
    match rr.data.pack with
    | some rdata => 0 :: rdata.map UInt8.toNat
    | none => [1]]

def recordLE (a b : Record) : Prop := (keyCmp (sortKey a) (sortKey b)).isLE

instance : DecidableRel recordLE := fun _ _ => inferInstanceAs (Decidable (_ = true))

def canonicalSort (rrs : List Record) : List Record := rrs.insertionSort recordLE

def signatureHead (s : Signature) : List UInt8 :=
  enc16 s.typeCovered ++ [s.algorithm, s.labels] ++ enc32 s.originalTTL ++ enc32 s.expiration ++ enc32 s.inception ++
    enc16 s.keyTag ++ canonicalWire s.signerName

/-- The fixed fields of a record behind its owner name. -/
def recordFields (rr : Record) (ttl : UInt32) : List UInt8 := enc16 rr.type ++ enc16 rr.cls ++ enc32 ttl

def maxRData : Nat := 0xffff

def signedRecord (ttl : UInt32) (rr : Record) : Option (List UInt8) :=
  if maxRData < rr.data.len then none
  else match rr.data.pack with
    | none => none
    | some rdata =>
      if maxRData < rdata.length then none
      else some (canonicalWire rr.name ++ recordFields rr ttl ++ BigEndian.encode 2 rdata.length ++ rdata)

def createSignedData (rrSet : List Record) (s : Signature) : Option (List UInt8) :=
  (rrSet.mapM (signedRecord s.originalTTL)).map fun rrs => signatureHead s ++ rrs.flatten

structure KeyPair where
  key : Rollover.SigningKey
  algorithm : UInt8
  /-- The data of the key's DNSKEY record. -/
  dnskey : Data
  /-- `SignData` with the private key. -/
  sign : List UInt8 → Option (List UInt8)

/-- The first record and, if the others belong to it, its owner's text. -/
def validateRRSetForSigning : List Record → Option Record
  | [] => none
  | first :: rest =>
    if rest.all fun rr => decide (printName rr.name = printName first.name ∧ rr.type = first.type ∧ rr.cls = first.cls) then
      some first
    else none

structure Terms where
  zone : Text
  inception : UInt32
  expiration : UInt32

def unsigned (t : Terms) (key : KeyPair) (signerName : WireName) (first : Record) : Signature where
  typeCovered := first.type
  algorithm := key.algorithm
  labels := UInt8.ofNat (splitLabels (printName first.name)).length
  originalTTL := first.ttl
  expiration := t.expiration
  inception := t.inception
  keyTag := key.key.keyTag
  signerName := signerName
  signature := []

/-- From `signer.go:384-451`. -/
def signRRSet (t : Terms) (key : KeyPair) (rrSet : List Record) : Option Signature :=
  match validateRRSetForSigning rrSet with
  | none => none
  | some first =>
    if 255 < (splitLabels (printName first.name)).length then none
    else do
      let signerName ← parseName t.zone
      let signedData ← createSignedData (canonicalSort rrSet) (unsigned t key signerName first)
      let signature ← key.sign signedData
      let _ ← parseName (printName first.name)
      some { unsigned t key signerName first with signature }

/-- Records of one owner text and one type, without the RRSIGs. -/
def groupRecordsByRRSet (records : List Record) : List (List Record) :=
  let records := records.filter fun rr => decide (rr.type ≠ typeRRSIG)
  (records.map fun rr => (printName rr.name, rr.type)).dedup.map fun k =>
    records.filter fun rr => decide ((printName rr.name, rr.type) = k)

/-- An RRset with its signatures, each with the key it was made with. -/
structure SignedSet where
  rrSet : List Record
  sigs : List (KeyPair × Signature)

def signSet (t : Terms) (keys : List KeyPair) (rrSet : List Record) : Option SignedSet :=
  (keys.mapM fun key => (signRRSet t key rrSet).map fun s => (key, s)).map fun sigs => ⟨rrSet, sigs⟩

def activeKeys (kind : Rollover.Kind) (keys : List KeyPair) : List KeyPair :=
  keys.filter fun k => k.key.isOf kind && Rollover.isActive k.key

def dnskeyRecords (t : Terms) (keys : List KeyPair) (records : List Record) : Option (List Record) :=
  let present := records.filter fun rr => decide (rr.type = typeDNSKEY)
  if present = [] then keys.mapM fun k => (parseName t.zone).map fun name => ⟨name, typeDNSKEY, 1, 86400, k.dnskey⟩
  else some present

/-- The active ZSKs, or the active KSKs if there are none. -/
def zoneKeys (keys : List KeyPair) : List KeyPair :=
  if activeKeys .zsk keys = [] then activeKeys .ksk keys else activeKeys .zsk keys

/-- From `signer.go:249-381`. -/
def signZone (t : Terms) (keys : List KeyPair) (denial : List SignedSet → List Record) (records : List Record) :
    Option (List SignedSet) :=
  if keys = [] ∨ activeKeys .ksk keys = [] then none
  else do
    let dnskeys ← dnskeyRecords t keys records
    let keySet ← signSet t (activeKeys .ksk keys) dnskeys
    let sets ← (groupRecordsByRRSet (records.filter fun rr => decide (rr.type ≠ typeDNSKEY))).mapM (signSet t (zoneKeys keys))
    let denials ← (groupRecordsByRRSet (denial (keySet :: sets))).mapM (signSet t (zoneKeys keys))
    some (keySet :: sets ++ denials)

/-- From `validator.go:888-901`. -/
def wildcardOwnerWire (owner : WireName) (sigLabels : UInt8) : List UInt8 :=
  let labels := labelsFromWire owner
  if labels.length ≤ sigLabels.toNat then canonicalWire owner
  else canonicalWire ([42] :: labels.drop (labels.length - sigLabels.toNat))

/-- From `validator.go:910-970`. -/
def canonicalizeRR (rr : Record) (ttl : UInt32) (sigLabels : UInt8) : Option (List UInt8) :=
  if maxRData < rr.data.len then none
  else
    let head := wildcardOwnerWire rr.name sigLabels ++ recordFields rr ttl ++ BigEndian.encode 2 rr.data.len
    if 0 < rr.data.len then
      match rr.data.pack with
      | none => none
      | some rdata => if maxRData < rdata.length then none else some (head ++ rdata)
    else some head

def canonicalizeRRSet (rrSet : List Record) (s : Signature) : Option (List UInt8) :=
  ((canonicalSort rrSet).mapM fun rr => canonicalizeRR rr s.originalTTL s.labels).map fun rrs =>
    signatureHead s ++ rrs.flatten

/-- A DNSKEY record as far as signatures are checked with it. -/
structure PublicKey where
  algorithm : UInt8
  keyTag : UInt16
  /-- `VerifySignature`, if the key can be parsed. -/
  verify : List UInt8 → List UInt8 → Bool

def validateRRSIG (timeValid : Signature → Bool) (rrSet : List Record) (s : Signature) (dnsKeys : List PublicKey) : Bool :=
  timeValid s && (canonicalizeRRSet rrSet s).any fun signedData =>
    dnsKeys.any fun k => decide (k.algorithm = s.algorithm ∧ k.keyTag = s.keyTag) && k.verify signedData s.signature

theorem canonicalWire_eq (n : WireName) : canonicalWire n =
    (lowerName n).flatMap (fun l => toLower (UInt8.ofNat l.length) :: l) ++ [toLower 0] := by
  rw [canonicalWire, map_append, nameOctets, map_flatMap, lowerName, flatMap_map]
  refine congrArg (· ++ _) (congrArg (flatMap · n) (funext fun l => ?_))
  simp [labelOctets]

variable {n : WireName}

variable {m : WireName}

theorem canonicalWire_congr (h : lowerName m = lowerName n) : canonicalWire m = canonicalWire n := by
  rw [canonicalWire_eq, canonicalWire_eq, h]

theorem length_of_lowerName_eq (h : lowerName m = lowerName n) : m.length = n.length := by
  simpa [lowerName] using congrArg length h

theorem length_splitLabels (hne : ∀ l ∈ n, l ≠ []) (hd : Undotted n) :
    (splitLabels (printName n)).length = n.length := by
  rw [splitLabels, nameTexts_printName hne hd, filter_eq_self.2, length_map]
  intro t ht
  obtain ⟨l, hl, rfl⟩ := mem_map.1 ht
  simpa [printLabel] using hne l hl

theorem wildcardOwnerWire_of_le {sigLabels : UInt8} (h : n.length ≤ sigLabels.toNat) :
    wildcardOwnerWire n sigLabels = canonicalWire n :=
  if_pos (((List.takeWhile_prefix _).length_le).trans h)

/-! ## The records of a set, in canonical order -/

/-- What of a record is signed: the owner without case, and not the TTL. -/
def essence (rr : Record) : WireName × UInt16 × UInt16 × Data := (lowerName rr.name, rr.type, rr.cls, rr.data)

/-- The records of an RRset as they are served: in any order, with any TTL, the owner in any case. -/
def ServedAs (rrSet served : List Record) : Prop := (served.map essence).Perm (rrSet.map essence)

def essenceKey (e : WireName × UInt16 × UInt16 × Data) : List (List Nat) :=
  [(printName e.1).map Char.toNat, [e.2.1.toNat],
    match e.2.2.2.pack with
    | some rdata => 0 :: rdata.map UInt8.toNat
    | none => [1]]

theorem map_sortKey (rrs : List Record) : rrs.map sortKey = (rrs.map essence).map essenceKey := by
  rw [map_map]
  refine map_congr_left fun rr _ => ?_
  rw [sortKey, lower_printName]
  rfl

instance : Std.Total recordLE where
  total a b := by
    have hswap : keyCmp (sortKey b) (sortKey a) = (keyCmp (sortKey a) (sortKey b)).swap := Std.OrientedCmp.eq_swap
    unfold recordLE
    rw [hswap]
    cases keyCmp (sortKey a) (sortKey b) <;> simp

instance : IsTrans Record recordLE := ⟨fun _ _ _ hab hbc => Std.TransCmp.isLE_trans hab hbc⟩

variable {rrSet served : List Record}

theorem map_sortKey_canonicalSort (h : ServedAs rrSet served) :
    (canonicalSort served).map sortKey = (canonicalSort rrSet).map sortKey := by
  have hky : (served.map sortKey).Perm (rrSet.map sortKey) := by
    rw [map_sortKey, map_sortKey]
    exact h.map _
  have hsr : ∀ rrs, ((canonicalSort rrs).map sortKey).Pairwise fun a b => (keyCmp a b).isLE := fun rrs =>
    pairwise_map.2 (pairwise_insertionSort recordLE rrs)
  have hp := ((perm_insertionSort recordLE served).map _).trans
      (hky.trans ((perm_insertionSort recordLE rrSet).map _).symm)
  refine hp.eq_of_pairwise (fun a b _ _ hab hba => ?_) (hsr served) (hsr rrSet)
  exact Std.LawfulEqCmp.eq_of_compare (Std.OrientedCmp.isLE_antisymm hab hba)

def rdataOf (rr : Record) : List UInt8 := rr.data.pack.getD []

theorem rdataOf_eq (rr : Record) : rdataOf rr = ((((sortKey rr).getD 2 []).drop 1).map UInt8.ofNat) := by
  rw [rdataOf, sortKey]
  cases rr.data.pack with
  | none => rfl
  | some rdata =>
    simp only [Option.getD_some, getD_cons_succ, getD_cons_zero, drop_succ_cons, drop_zero, map_map]
    exact ((map_congr_left fun b _ => UInt8.ofNat_toNat).trans (map_id rdata)).symm

theorem map_rdataOf_canonicalSort (h : ServedAs rrSet served) :
    (canonicalSort served).map rdataOf = (canonicalSort rrSet).map rdataOf := by
  have hmp : ∀ rrs : List Record, rrs.map rdataOf =
      (rrs.map sortKey).map fun k => ((k.getD 2 []).drop 1).map UInt8.ofNat := by
    intro rrs
    rw [map_map]
    exact map_congr_left fun rr _ => rdataOf_eq rr
  rw [hmp, hmp, map_sortKey_canonicalSort h]

/-! ## The octets agree -/

/-- The octets of one record of a set, by its data. -/
def encodeAs (owner : WireName) (type cls : UInt16) (ttl : UInt32) (rdata : List UInt8) : List UInt8 :=
  canonicalWire owner ++ (enc16 type ++ enc16 cls ++ enc32 ttl) ++ BigEndian.encode 2 rdata.length ++ rdata

structure Packs (d : Data) : Prop where
  fits : d.len ≤ maxRData
  packed : ∃ rdata ∈ d.pack, rdata.length = d.len

section Encode

variable {rr : Record} {owner : WireName} {type cls : UInt16} {ttl : UInt32} {sigLabels : UInt8}

theorem signedRecord_eq (hpc : Packs rr.data) (hnm : lowerName rr.name = lowerName owner) (hty : rr.type = type)
    (hcl : rr.cls = cls) : signedRecord ttl rr = some (encodeAs owner type cls ttl (rdataOf rr)) := by
  obtain ⟨rdata, hp, hlen⟩ := hpc.packed
  have hft := hpc.fits
  rw [Option.mem_def] at hp
  rw [signedRecord, if_neg (Nat.not_lt.2 hft), hp]
  dsimp only
  rw [if_neg (by omega), canonicalWire_congr hnm, rdataOf, hp, encodeAs, recordFields, hty, hcl]
  rfl

theorem canonicalizeRR_eq (hp : Packs rr.data) (hnm : lowerName rr.name = lowerName owner) (hty : rr.type = type)
    (hcl : rr.cls = cls) (hlb : owner.length ≤ sigLabels.toNat) :
    canonicalizeRR rr ttl sigLabels = some (encodeAs owner type cls ttl (rdataOf rr)) := by
  obtain ⟨rdata, hpc, hlen⟩ := hp.packed
  have hft := hp.fits
  rw [Option.mem_def] at hpc
  have how : wildcardOwnerWire rr.name sigLabels = canonicalWire owner := by
    rw [wildcardOwnerWire_of_le (by rw [length_of_lowerName_eq hnm]; exact hlb), canonicalWire_congr hnm]
  rw [canonicalizeRR, if_neg (Nat.not_lt.2 hft), how, rdataOf, hpc, encodeAs, recordFields, hty, hcl, ← hlen]
  dsimp only
  by_cases hpos : 0 < rdata.length
  · rw [if_pos hpos, if_neg (by omega)]
    rfl
  · -- there is nothing to pack
    have hnil : rdata = [] := length_eq_zero_iff.1 (by omega)
    rw [if_neg hpos, hnil]
    simp

end Encode

variable {s : Signature}

/-- **The octets that are checked are those that were signed**, for a set of records of one owner, type and class. -/
theorem canonicalizeRRSet_eq {owner : WireName} {type cls : UInt16}
    (hsr : ServedAs rrSet served) (hlb : owner.length ≤ s.labels.toNat)
    (hst : ∀ rr ∈ rrSet, lowerName rr.name = lowerName owner ∧ rr.type = type ∧ rr.cls = cls ∧ Packs rr.data) :
    canonicalizeRRSet served s = createSignedData (canonicalSort rrSet) s := by
  have hmem : ∀ rr ∈ canonicalSort served, lowerName rr.name = lowerName owner ∧ rr.type = type ∧ rr.cls = cls ∧ Packs rr.data := by
    intro rr hrr
    have hess := hsr.subset (mem_map_of_mem ((mem_insertionSort recordLE).1 hrr))
    obtain ⟨rr', hrr', heq⟩ := mem_map.1 hess
    obtain ⟨h1, h2, h3, h4⟩ : lowerName rr'.name = lowerName rr.name ∧ rr'.type = rr.type ∧ rr'.cls = rr.cls ∧
        rr'.data = rr.data := by simpa [essence] using heq
    rw [← h1, ← h2, ← h3, ← h4]
    exact hst rr' hrr'
  rw [canonicalizeRRSet, createSignedData,
    Traverse.mapM_eq_some_map fun rr hrr => canonicalizeRR_eq (hmem rr hrr).2.2.2 (hmem rr hrr).1 (hmem rr hrr).2.1 (hmem rr hrr).2.2.1 hlb,
    Traverse.mapM_eq_some_map fun rr hrr => by
      obtain ⟨h1, h2, h3, h4⟩ := hst rr ((mem_insertionSort recordLE).1 hrr)
      exact signedRecord_eq h4 h1 h2 h3]
  have hd : ∀ rrs : List Record, (rrs.map fun rr => encodeAs owner type cls s.originalTTL (rdataOf rr)) =
      (rrs.map rdataOf).map (encodeAs owner type cls s.originalTTL) := fun rrs => by rw [map_map]; rfl
  rw [hd, hd, map_rdataOf_canonicalSort hsr]

structure SignedBy (key : KeyPair) (rrSet : List Record) (s : Signature) : Prop where
  algorithm : s.algorithm = key.algorithm
  keyTag : s.keyTag = key.key.keyTag
  signed : ∃ d, createSignedData (canonicalSort rrSet) s = some d ∧ key.sign d = some s.signature

variable {t : Terms}

theorem signRRSet_cases {key : KeyPair} (h : signRRSet t key rrSet = some s) : SignedBy key rrSet s ∧ ∃ first ∈ rrSet,
      (∀ rr ∈ rrSet, printName rr.name = printName first.name ∧ rr.type = first.type ∧ rr.cls = first.cls) ∧
      s.labels.toNat = (splitLabels (printName first.name)).length := by
  unfold signRRSet at h
  split at h
  · cases h
  next first hfr =>
    split_ifs at h with hmn
    simp only [Option.bind_eq_bind, Option.bind_eq_some_iff] at h
    obtain ⟨signerName, -, d, hd, signature, hsg, -, -, h⟩ := h
    cases h
    refine ⟨⟨rfl, rfl, d, hd, hsg⟩, first, ?_⟩
    unfold validateRRSetForSigning at hfr
    split at hfr
    · cases hfr
    next head rest =>
      split_ifs at hfr with hall
      cases hfr
      refine ⟨mem_cons_self, forall_mem_cons.2 ⟨⟨rfl, rfl, rfl⟩, fun rr hrr => ?_⟩, ?_⟩
      · exact of_decide_eq_true (all_eq_true.1 hall rr hrr)
      · show (UInt8.ofNat _).toNat = _
        rw [UInt8.toNat_ofNat']
        omega

variable {keys : List KeyPair} {set : SignedSet}

theorem signSet_cases
    (h : signSet t keys rrSet = some set) : ∀ x ∈ set.sigs, x.1 ∈ keys ∧ signRRSet t x.1 set.rrSet = some x.2 := by
  obtain ⟨sigs, hsg, rfl⟩ := Option.map_eq_some_iff.1 h
  intro x hx
  obtain ⟨key, hkey, hsn⟩ := Traverse.mem_of_mapM hsg hx
  obtain ⟨s, hs, rfl⟩ := Option.map_eq_some_iff.1 hsn
  exact ⟨hkey, hs⟩

theorem signZone_sigs {denial : List SignedSet → List Record} {records : List Record}
    {sets : List SignedSet} (h : signZone t keys denial records = some sets) (hst : set ∈ sets) :
    ∀ x ∈ set.sigs, x.1 ∈ keys ∧ signRRSet t x.1 set.rrSet = some x.2 := by
  have hac : ∀ {kind : Rollover.Kind} {k : KeyPair}, k ∈ activeKeys kind keys → k ∈ keys := mem_of_mem_filter
  have hzs : ∀ k ∈ zoneKeys keys, k ∈ keys := by
    intro k hk
    unfold zoneKeys at hk
    split_ifs at hk
    · exact hac hk
    · exact hac hk
  unfold signZone at h
  split_ifs at h with hnn
  simp only [Option.bind_eq_bind, Option.bind_eq_some_iff] at h
  obtain ⟨dnskeys, -, keySet, hkS, others, hot, denials, hd, h⟩ := h
  cases h
  intro x hx
  rcases mem_append.1 hst with hst | hst
  · rcases mem_cons.1 hst with rfl | hst
    · exact ⟨hac (signSet_cases hkS x hx).1, (signSet_cases hkS x hx).2⟩
    · obtain ⟨g, -, hg⟩ := Traverse.mem_of_mapM hot hst
      exact ⟨hzs _ (signSet_cases hg x hx).1, (signSet_cases hg x hx).2⟩
  · obtain ⟨g, -, hg⟩ := Traverse.mem_of_mapM hd hst
    exact ⟨hzs _ (signSet_cases hg x hx).1, (signSet_cases hg x hx).2⟩

/-- The owner's labels hold no dot and the data is as long as it says. -/
structure Plain (rr : Record) : Prop where
  labels : ∀ l ∈ rr.name, ValidLabel l
  undotted : Undotted rr.name
  length : ∀ rdata ∈ rr.data.pack, rdata.length = rr.data.len

theorem packs_of_signed {d : List UInt8}
    (h : createSignedData (canonicalSort rrSet) s = some d) {rr : Record} (hrr : rr ∈ rrSet) (hpl : Plain rr) :
    Packs rr.data := by
  obtain ⟨rrs, hrs, -⟩ := Option.map_eq_some_iff.1 h
  have hsm := Traverse.isSome_of_mapM hrs ((mem_insertionSort recordLE).2 hrr)
  unfold signedRecord at hsm
  split_ifs at hsm with hlen
  · cases hsm
  · cases hp : rr.data.pack with
    | none => simp [hp] at hsm
    | some rdata => exact ⟨Nat.not_lt.1 hlen, rdata, hp, hpl.length rdata hp⟩

/-! ## The owner is among the octets -/

theorem ne_nil_of_validLabel {l : List UInt8} (h : ValidLabel l) : l ≠ [] := by
  rintro rfl
  exact absurd h.1 (by decide)

theorem toLower_length {k : Nat} (h : k ≤ maxLabelLength) : (toLower (UInt8.ofNat k)).toNat = k := by
  have hk : k ≤ 63 := h
  have hof : (UInt8.ofNat k).toNat = k := by
    rw [UInt8.toNat_ofNat']
    omega
  rw [toLower, if_neg (by omega), hof]

theorem canonicalWire_cons (l : List UInt8) (ls : WireName) :
    canonicalWire (l :: ls) = toLower (UInt8.ofNat l.length) :: (l.map toLower ++ canonicalWire ls) := by
  rw [canonicalWire_eq, canonicalWire_eq, lowerName, map_cons, flatMap_cons, length_map, cons_append, cons_append,
    append_assoc]
  rfl

/-- The wire form of a name ends where it says. -/
theorem canonicalWire_cancel : ∀ {m n : WireName} {x y : List UInt8}, (∀ l ∈ m, ValidLabel l) →
    (∀ l ∈ n, ValidLabel l) → canonicalWire m ++ x = canonicalWire n ++ y → lowerName m = lowerName n
  | [], [], _, _, _, _, _ => rfl
  | [], l :: ls, x, y, _, hn, h => by
    have hl := hn l mem_cons_self
    rw [canonicalWire_cons, cons_append] at h
    have hhd := congrArg UInt8.toNat (cons.inj h).1
    rw [toLower_length hl.2] at hhd
    exact absurd hl.1 (by rw [← hhd]; decide)
  | l :: ls, [], x, y, hm, _, h => by
    have hl := hm l mem_cons_self
    rw [canonicalWire_cons, cons_append] at h
    have hhd := congrArg UInt8.toNat (cons.inj h).1
    rw [toLower_length hl.2] at hhd
    exact absurd hl.1 (by rw [hhd]; decide)
  | l :: ls, k :: ks, x, y, hm, hn, h => by
    rw [canonicalWire_cons, canonicalWire_cons, cons_append, cons_append, append_assoc, append_assoc] at h
    obtain ⟨hhd, htl⟩ := cons.inj h
    have hlen := congrArg UInt8.toNat hhd
    rw [toLower_length (hm l mem_cons_self).2, toLower_length (hn k mem_cons_self).2] at hlen
    obtain ⟨hlk, hrs⟩ := append_inj htl (by simpa using hlen)
    have ih := canonicalWire_cancel (fun x hx => hm x (mem_cons_of_mem _ hx))
      (fun x hx => hn x (mem_cons_of_mem _ hx)) hrs
    rw [lowerName, lowerName, map_cons, map_cons, hlk]
    exact congrArg _ ih

/-- The records of an RRset as they are served under a name: in any order, with any TTL. -/
def ServedUnder (n : WireName) (rrSet served : List Record) : Prop :=
  (served.map essence).Perm (rrSet.map fun rr => (lowerName n, rr.type, rr.cls, rr.data))

theorem ServedUnder.servedAs (h : ServedUnder n rrSet served) (hn : ∀ rr ∈ rrSet, lowerName rr.name = lowerName n) :
    ServedAs rrSet served := by
  have hmp : rrSet.map essence = rrSet.map fun rr => (lowerName n, rr.type, rr.cls, rr.data) :=
    map_congr_left fun rr hrr => by rw [essence, hn rr hrr]
  rw [ServedAs, hmp]
  exact h

theorem ServedUnder.lowerName_eq (h : ServedUnder n rrSet served) {rr : Record} (hrr : rr ∈ served) :
    lowerName rr.name = lowerName n := by
  obtain ⟨x, -, hx⟩ := mem_map.1 (h.subset (mem_map_of_mem hrr))
  exact (congrArg Prod.fst hx).symm

theorem validLabel_of_lowerName_eq (h : lowerName m = lowerName n) (hn : ∀ l ∈ n, ValidLabel l) :
    ∀ l ∈ m, ValidLabel l := by
  intro l hl
  have hmem : l.map toLower ∈ lowerName n := h ▸ mem_map_of_mem hl
  obtain ⟨k, hk, hkl⟩ := mem_map.1 hmem
  have hlen : k.length = l.length := by simpa using congrArg length hkl
  have := hn k hk
  unfold ValidLabel at this ⊢
  rwa [hlen] at this

theorem exists_of_canonicalizeRR {rr : Record} {ttl : UInt32} {sigLabels : UInt8} {d : List UInt8}
    (h : canonicalizeRR rr ttl sigLabels = some d) : ∃ x, d = wildcardOwnerWire rr.name sigLabels ++ x := by
  unfold canonicalizeRR at h
  split at h
  · cases h
  dsimp only at h
  split at h
  · split at h
    · cases h
    split at h
    · cases h
    · cases h
      exact ⟨_, by simp only [append_assoc]; rfl⟩
  · cases h
    exact ⟨_, by simp only [append_assoc]; rfl⟩

theorem exists_of_signedRecord {rr : Record} {ttl : UInt32} {d : List UInt8} (h : signedRecord ttl rr = some d) :
    ∃ x, d = canonicalWire rr.name ++ x := by
  unfold signedRecord at h
  split at h
  · cases h
  split at h
  · cases h
  split at h
  · cases h
  · cases h
    exact ⟨_, by simp only [append_assoc]; rfl⟩

/-- The octets begin with the same fields of the signature, and then with an owner name. -/
theorem owner_of_octets_eq {d : List UInt8} (hne : rrSet ≠ []) (hsr : ServedUnder n rrSet served)
    (hc : canonicalizeRRSet served s = some d) (hd : createSignedData (canonicalSort rrSet) s = some d) :
    ∃ rr ∈ served, ∃ rr' ∈ rrSet, ∃ x y,
      wildcardOwnerWire rr.name s.labels ++ x = canonicalWire rr'.name ++ y := by
  obtain ⟨cs, hcs, hcd⟩ := Option.map_eq_some_iff.1 hc
  obtain ⟨ss, hss, hsd⟩ := Option.map_eq_some_iff.1 hd
  have hfl : cs.flatten = ss.flatten := append_cancel_left (hcd.trans hsd.symm)
  have hlen : served.length = rrSet.length := by simpa using hsr.length_eq
  have hhead : ∀ {rrs : List Record}, rrs ≠ [] → ∃ a l, canonicalSort rrs = a :: l ∧ a ∈ rrs := by
    intro rrs h
    cases hs : canonicalSort rrs with
    | nil =>
      have := (perm_insertionSort recordLE rrs).length_eq
      rw [show rrs.insertionSort recordLE = [] from hs] at this
      exact absurd (length_eq_zero_iff.1 this.symm) h
    | cons a l =>
      have ha : a ∈ canonicalSort rrs := by rw [hs]; exact mem_cons_self
      exact ⟨a, l, rfl, (mem_insertionSort recordLE).1 ha⟩
  have hns : served ≠ [] := by
    rintro rfl
    exact hne (length_eq_zero_iff.1 hlen.symm)
  obtain ⟨a, l, ha, ham⟩ := hhead hns
  obtain ⟨b, l', hb, hbm⟩ := hhead hne
  rw [ha, mapM_cons] at hcs
  rw [hb, mapM_cons] at hss
  simp only [Option.bind_eq_bind, Option.bind_eq_some_iff] at hcs hss
  obtain ⟨ca, hca, cl, -, hcc⟩ := hcs
  obtain ⟨sb, hsb, sl, -, hsc⟩ := hss
  cases hcc
  cases hsc
  obtain ⟨x, rfl⟩ := exists_of_canonicalizeRR hca
  obtain ⟨y, rfl⟩ := exists_of_signedRecord hsb
  rw [flatten_cons, flatten_cons, append_assoc, append_assoc] at hfl
  exact ⟨a, ham, b, hbm, _, _, hfl⟩

def openKey : KeyPair where
  key := ⟨7, true, true, .active, none⟩
  algorithm := 13
  dnskey := ⟨1, some [9]⟩
  sign := some

def openPublicKey : PublicKey := ⟨13, 7, fun d sig => decide (d = sig)⟩

def termsE : Terms := ⟨['e', '.'], 0, 100⟩

def addressAt (name : WireName) (ttl : UInt32) (last : UInt8) : Record := ⟨name, 1, 1, ttl, ⟨4, some [192, 0, 2, last]⟩⟩

def wildE : List Record := [addressAt [[42], [101]] 60 2, addressAt [[42], [101]] 60 1]

def wildSignature : Signature where
  typeCovered := 1
  algorithm := 13
  labels := 2
  originalTTL := 60
  expiration := 100
  inception := 0
  keyTag := 7
  signerName := [[101]]
  signature := (createSignedData (canonicalSort wildE) ⟨1, 13, 2, 60, 100, 0, 7, [[101]], []⟩).getD []

theorem signZone_wildE : ∃ sets, signZone termsE [openKey] (fun _ => []) wildE = some sets ∧
    ⟨wildE, [(openKey, wildSignature)]⟩ ∈ sets :=
  ⟨_, rfl, mem_cons_of_mem _ (mem_singleton_self _)⟩

theorem servedUnder_wildE :
    ServedUnder [[42], [69]] wildE [addressAt [[42], [69]] 5 1, addressAt [[42], [69]] 7 2] := by
  unfold ServedUnder
  decide

theorem plain_wildE : ∀ rr ∈ wildE, Plain rr := by
  intro rr hrr
  have hall : ∀ rr ∈ wildE, (∀ l ∈ rr.name, ValidLabel l) ∧ Undotted rr.name ∧ ∀ rdata ∈ rr.data.pack, rdata.length = rr.data.len := by
    decide
  obtain ⟨h1, h2, h3⟩ := hall rr hrr
  exact ⟨h1, h2, h3⟩

end NothingDNS.Signing
