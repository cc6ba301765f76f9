import NothingDNS.Lib.DottedName
/-!
# DNSSEC validation (`internal/dnssec/validator.go`, `trustanchor.go`)

A name is its list of labels, leaf first. The octets a signature covers are modelled by what they encode
(`SignedData`), and digests likewise. The cryptography, the resolver, the clock and the sort of an RRset come in
through `Env`; so does the evaluation of NSEC and NSEC3 records.
-/

namespace NothingDNS.Dnssec

abbrev Label := Text
abbrev Name := List Label

instance : LawfulBEq Name := inferInstance

/-- The name in lower case. On names in ASCII it is that of `strings.ToLower`. -/
def Name.canonical (n : Name) : Name := n.map Text.lower

def Name.Ascii (n : Name) : Prop := ∀ l ∈ n, Text.Ascii l

instance (n : Name) : Decidable n.Ascii := inferInstanceAs (Decidable (∀ l ∈ n, Text.Ascii l))

def typeDS : Nat := 43
def typeRRSIG : Nat := 46
def typeDNSKEY : Nat := 48

structure DNSKEY where
  flags : Nat
  protocol : Nat
  algorithm : Nat
  publicKey : List UInt8
deriving DecidableEq

/-- Digests are collision-free: a digest is told by what it was computed from. -/
inductive Digest where
  | of (digestType : Nat) (owner : Name) (key : DNSKEY)
  /-- Octets that are the digest of no key. -/
  | junk (bytes : List UInt8)
  | none
deriving DecidableEq

structure DS where
  keyTag : Nat
  algorithm : Nat
  digestType : Nat
  digest : Digest
deriving DecidableEq

structure RRSIG where
  typeCovered : Nat
  algorithm : Nat
  labels : Nat
  originalTTL : UInt32
  expiration : UInt32
  inception : UInt32
  keyTag : Nat
  signerName : Name
  signature : List UInt8
deriving DecidableEq

structure NSEC where
  nextDomain : Name
  types : List Nat
deriving DecidableEq

structure NSEC3 where
  hashAlgorithm : Nat
  flags : Nat
  iterations : Nat
  salt : List UInt8
  nextHashed : List UInt8
  types : List Nat
deriving DecidableEq

inductive RData where
  | dnskey (k : DNSKEY)
  | ds (d : DS)
  | rrsig (s : RRSIG)
  | cname (target : Name)
  | nsec (n : NSEC)
  | nsec3 (n : NSEC3)
  | other (bytes : List UInt8)
deriving DecidableEq

structure RR where
  name : Name
  type : Nat
  recordClass : Nat
  data : RData
deriving DecidableEq

structure Message where
  answers : List RR
  authorities : List RR
  nxdomain : Bool
  /-- The type of the first question, if there is one. -/
  qtype : Option Nat
deriving DecidableEq

/-! ## What a signature covers -/

structure CanonicalRR where
  owner : Name
  type : Nat
  recordClass : Nat
  ttl : UInt32
  data : RData
deriving DecidableEq

/-- The RRSIG RDATA without the signature, then the records. -/
structure SignedData where
  typeCovered : Nat
  algorithm : Nat
  labels : Nat
  originalTTL : UInt32
  expiration : UInt32
  inception : UInt32
  keyTag : Nat
  signerName : Name
  rrs : List CanonicalRR
deriving DecidableEq

def wildcardOwner (owner : Name) (sigLabels : Nat) : Name :=
  if owner.length ≤ sigLabels then owner.canonical
  else ['*'] :: Name.canonical (owner.drop (owner.length - sigLabels))

structure Env where
  /-- `CalculateKeyTag`. -/
  keyTag : DNSKEY → Nat
  /-- `ParseDNSKEYPublicKey` and `VerifySignature`. -/
  verify : DNSKEY → SignedData → RRSIG → Bool
  /-- `rrsigTimeValid` at the current time, or `IgnoreTime`. -/
  timeValid : RRSIG → Bool
  /-- `canonicalSort`. -/
  sort : List RR → List RR
  /-- The resolver's answer to a query; `none` is an error. -/
  query : Name → Nat → Option Message
  /-- `verifyDSDenial`. -/
  dsDenial : Message → Name → List RR → Bool
  /-- `wildcardExpansionProven`. -/
  wildcardProven : Message → Name → Nat → Nat → List RR → Bool
  /-- `validateNegativeResponse` does not return Bogus. -/
  negativeProven : Message → Name → List RR → Bool
  maxDelegationDepth : Nat
  requireDNSSEC : Bool

/-- SHA-1, SHA-256 and SHA-384; other types have no digest. -/
def calculateDSDigestFromDNSKEY (owner : Name) (k : DNSKEY) (digestType : Nat) : Digest :=
  if digestType = 1 ∨ digestType = 2 ∨ digestType = 4 then .of digestType owner.canonical k else .none

variable (E : Env)

/-- From `validator.go:837-878`. -/
def canonicalizeRRSet (rrSet : List RR) (s : RRSIG) : SignedData where
  typeCovered := s.typeCovered
  algorithm := s.algorithm
  labels := s.labels
  originalTTL := s.originalTTL
  expiration := s.expiration
  inception := s.inception
  keyTag := s.keyTag
  signerName := s.signerName.canonical
  rrs := (E.sort rrSet).map fun rr =>
    ⟨wildcardOwner rr.name s.labels, rr.type, rr.recordClass, s.originalTTL, rr.data⟩

def RR.key? (rr : RR) : Option DNSKEY :=
  match rr.data with
  | .dnskey k => some k
  | _ => none

def RR.ds? (rr : RR) : Option DS :=
  match rr.data with
  | .ds d => some d
  | _ => none

def RR.sigOver? (type : Nat) (rr : RR) : Option RRSIG :=
  match rr.data with
  | .rrsig s => if s.typeCovered = type then some s else none
  | _ => none

def validateRRSIG (rrSet : List RR) (s : RRSIG) (dnsKeys : List RR) : Bool :=
  E.timeValid s && (dnsKeys.filterMap RR.key?).any fun k =>
    decide (k.algorithm = s.algorithm ∧ E.keyTag k = s.keyTag) && E.verify k (canonicalizeRRSet E rrSet s) s

structure ChainLink where
  zone : Name
  dnsKeys : List RR
deriving DecidableEq

structure TrustAnchor where
  zone : Name
  keyTag : Nat
  algorithm : Nat
  digestType : Nat
  digest : Digest
  publicKey : List UInt8
deriving DecidableEq

/-- From the most specific suffix to the root; `above` are the labels passed so far. -/
def findClosestAnchor (anchors : List TrustAnchor) (above : List Label) : Name → Option (TrustAnchor × List Label)
  | [] => (anchors.find? fun a => decide (a.zone = [])).map (·, above)
  | l :: ls => match anchors.find? fun a => decide (a.zone = l :: ls) with
    | some a => some (a, above)
    | none => findClosestAnchor anchors (above ++ [l]) ls

/-- From `validator.go:497-516`. -/
def fetchDNSKEYAndSigs (zone : Name) : Option (List RR × List RRSIG) :=
  (E.query zone typeDNSKEY).map fun msg =>
    (msg.answers.filter fun rr => decide (rr.type = typeDNSKEY),
      (msg.answers.filter fun rr => decide (rr.type = typeRRSIG)).filterMap (RR.sigOver? typeDNSKEY))

def fetchDS (zone : Name) : Option (List RR × Message) :=
  (E.query zone typeDS).map fun msg => (msg.answers.filter fun rr => decide (rr.type = typeDS), msg)

def maxDelegationOps : Nat := 32

def matchesDS (d : DS) (rr : RR) (k : DNSKEY) : Bool :=
  decide (d.keyTag = E.keyTag k ∧ d.algorithm = k.algorithm ∧ calculateDSDigestFromDNSKEY rr.name k d.digestType = d.digest)

/-- The first `maxDelegationOps` pairs of a DS and a key are compared. -/
def keysMatchingDS (dsRecords childKeys : List RR) : List RR :=
  let pairs := (dsRecords.filterMap RR.ds?).flatMap fun d =>
    childKeys.filterMap fun rr => rr.key?.map fun k => (d, rr, k)
  ((pairs.take maxDelegationOps).filter fun p => matchesDS E p.1 p.2.1 p.2.2).map fun p => p.2.1

def matchesAnchor (anchor : TrustAnchor) (rr : RR) (k : DNSKEY) : Bool :=
  decide (anchor.keyTag = E.keyTag k ∧ anchor.algorithm = k.algorithm) &&
    (decide (anchor.digest ≠ .none ∧ calculateDSDigestFromDNSKEY rr.name k anchor.digestType = anchor.digest) ||
      decide (anchor.publicKey ≠ [] ∧ anchor.publicKey = k.publicKey))

def keysMatchingAnchor (anchor : TrustAnchor) (dnsKeys : List RR) : List RR :=
  dnsKeys.filter fun rr => rr.key?.any (matchesAnchor E anchor rr)

def verifyDNSKEYSelfSignature (keys : List RR) (sigs : List RRSIG) (trustedKSKs : List RR) : Bool :=
  sigs.any fun s => validateRRSIG E keys s trustedKSKs

def verifyDSRRSIG (dsMsg : Message) (dsRecords parentKeys : List RR) : Bool :=
  ((dsMsg.answers.filter fun rr => decide (rr.type = typeRRSIG)).filterMap (RR.sigOver? typeDS)).any fun s =>
    validateRRSIG E dsRecords s parentKeys

inductive ChainError where
  | fetch
  | anchor
  | selfSignature
  | depth
  | denial
  | dsSignature
  | delegation
deriving DecidableEq

/-- The loop over the child zones, from the anchor down; `depth` links are there and `parent` is the
last one. The result is the last link and whether the chain ended at an unsigned delegation. -/
def descend (depth : Nat) (parent : ChainLink) : List Name → Except ChainError (ChainLink × Bool)
  | [] => .ok (parent, false)
  | child :: rest =>
    if E.maxDelegationDepth ≤ depth then .error .depth
    else match fetchDS E child with
      | none => .error .fetch
      | some (dsRecords, dsMsg) =>
        if dsRecords = [] then
          if E.dsDenial dsMsg child parent.dnsKeys then .ok (parent, true) else .error .denial
        else if verifyDSRRSIG E dsMsg dsRecords parent.dnsKeys = false then .error .dsSignature
        else match fetchDNSKEYAndSigs E child with
          | none => .error .fetch
          | some (childKeys, childSigs) =>
            let dsKSKs := keysMatchingDS E dsRecords childKeys
            if dsKSKs = [] then .error .delegation
            else if verifyDNSKEYSelfSignature E childKeys childSigs dsKSKs = false then .error .selfSignature
            else descend (depth + 1) ⟨child, childKeys⟩ rest

/-- `joinLabels(remaining[i:])` for `i` from the last label to the first; the labels of the anchor's
zone are not among them. -/
def childZones (remaining : List Label) : List Name := remaining.tails.dropLast.reverse

/-- From `validator.go:262-385`. -/
def buildChain (anchor : TrustAnchor) (remaining : List Label) : Except ChainError (ChainLink × Bool) :=
  match fetchDNSKEYAndSigs E anchor.zone with
  | none => .error .fetch
  | some (dnsKeys, sigs) =>
    let anchorKSKs := keysMatchingAnchor E anchor dnsKeys
    if anchorKSKs = [] then .error .anchor
    else if verifyDNSKEYSelfSignature E dnsKeys sigs anchorKSKs = false then .error .selfSignature
    else descend E 1 ⟨anchor.zone, dnsKeys⟩ (childZones remaining)

inductive ValidationResult where
  | secure
  | insecure
  | bogus
  | indeterminate
deriving DecidableEq

def maxRRsetsValidated : Nat := 32

def rrSetOf (answers : List RR) (rr : RR) : List RR :=
  answers.filter fun x => decide (x.type ≠ typeRRSIG ∧ x.name = rr.name ∧ x.type = rr.type)

def heads (answers : List RR) : List RR :=
  (answers.filter fun rr => decide (rr.type ≠ typeRRSIG)).pwFilter fun a b => ¬ (a.name = b.name ∧ a.type = b.type)

def findRRSIG (answers : List RR) (name : Name) (type : Nat) : Option RRSIG :=
  (answers.filter fun rr => decide (rr.type = typeRRSIG ∧ rr.name.canonical = name.canonical)).findSome?
    (RR.sigOver? type)

def inBailiwick (owner zone : Name) : Bool := decide (zone.canonical <:+ owner.canonical)

/-- What one RRset contributes: `none` ends the validation as Bogus, `some true` is validated. -/
def validateRRSet (msg : Message) (queryName : Name) (link : ChainLink) (rr : RR) : Option Bool :=
  match findRRSIG msg.answers rr.name rr.type with
  | none =>
    if E.requireDNSSEC ∨ rr.name.canonical = queryName.canonical ∨ inBailiwick rr.name link.zone then none
    else some false
  | some s =>
    if validateRRSIG E (rrSetOf msg.answers rr) s link.dnsKeys = false then none
    else if s.labels < rr.name.length ∧ E.wildcardProven msg rr.name s.labels rr.type link.dnsKeys = false then none
    else some true

/-- From `validator.go:535-630`. -/
def validateMessage (msg : Message) (queryName : Name) (link : ChainLink) : ValidationResult :=
  let sets := heads msg.answers
  let results := sets.map (validateRRSet E msg queryName link)
  if maxRRsetsValidated < sets.length then .bogus
  else if none ∈ results then .bogus
  else if msg.answers = [] ∧ E.negativeProven msg queryName link.dnsKeys = false then .bogus
  else if some false ∈ results then .insecure
  else .secure

/-- From `validator.go:138-229`. -/
def validateResponse (anchors : List TrustAnchor) (msg : Message) (queryName : Name) : ValidationResult :=
  match findClosestAnchor anchors [] queryName.canonical with
  | none => if E.requireDNSSEC then .bogus else .insecure
  | some (anchor, remaining) => match buildChain E anchor remaining with
    | .error .fetch => .indeterminate
    | .error _ => .bogus
    | .ok (_, true) => .insecure
    | .ok (link, false) => validateMessage E msg queryName link

end NothingDNS.Dnssec
