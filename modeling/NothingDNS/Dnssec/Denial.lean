import Mathlib.Data.List.Dedup
import NothingDNS.Lib.Gaps
import NothingDNS.Lib.Base32
import NothingDNS.Dnssec.Validator
/-!
# Authenticated denial of existence (`internal/dnssec/validator.go`)

SHA-1 is a parameter. Names are lists of labels that are not empty and hold no dot. The
NSEC3PARAM of the last link, if there is one, is handed over beside the link's keys.
-/

namespace NothingDNS.Dnssec

def typeNS : Nat := 2
def typeCNAME : Nat := 5
def typeSOA : Nat := 6
def typeNSEC : Nat := 47
def typeNSEC3 : Nat := 50

/-! ## Canonical order -/

/-- The labels from the right, case-folded, as octets. -/
def Name.key (n : Name) : List (List Nat) := (n.canonical.map fun l => l.map Char.toNat).reverse

def canonicalNameCompare (a b : Name) : Ordering := List.compareLex (List.compareLex compare) a.key b.key

/-- From `validator.go:1500-1514`. -/
def nameInRange (name owner next : Name) : Bool :=
  match canonicalNameCompare owner next with
  | .lt => canonicalNameCompare name owner = .gt ∧ canonicalNameCompare name next = .lt
  | .gt => canonicalNameCompare name owner = .gt ∨ canonicalNameCompare name next = .lt
  | .eq => canonicalNameCompare name owner ≠ .eq

/-- From `validator.go:1384-1404`. -/
def validateNSEC (owner queryName : Name) (qtype : Nat) (nsec : NSEC) : Bool :=
  -- the name exists: only the type can be denied
  if owner.canonical = queryName.canonical then qtype ∉ nsec.types
  else nameInRange queryName owner nsec.nextDomain

/-- The wildcards below the query name, below its parent, and so on up to the root. -/
def nsecCoversWildcardOfAncestor (owner : Name) (nsec : NSEC) (queryName : Name) : Bool :=
  queryName.tails.any fun a => nameInRange (['*'] :: a) owner nsec.nextDomain

def nsecProvesNoDS (nsecOwner zone : Name) (nsec : NSEC) : Bool :=
  nsecOwner.canonical = zone.canonical ∧ typeNS ∈ nsec.types ∧ typeDS ∉ nsec.types ∧ typeSOA ∉ nsec.types

def isBlank (c : Char) : Bool := c = ' ' ∨ c = '\t'

def trimDot (t : Text) : Text := if t.getLast? = some '.' then t.dropLast else t

/-- `strings.Split(name, ".")`. -/
def splitDots : Text → List Text
  | [] => [[]]
  | c :: t => if c = '.' then [] :: splitDots t else match splitDots t with
    | [] => [[c]]
    | l :: ls => (c :: l) :: ls

/-- From `labels.go:633-678`. -/
def canonicalWireName (name : Text) : List UInt8 :=
  let name := trimDot ((name.dropWhile isBlank).rdropWhile isBlank)
  ((splitDots name).filter (· ≠ [])).flatMap (fun l =>
    UInt8.ofNat l.length :: l.map fun c => UInt8.ofNat c.toLower.toNat) ++ [0]

def toWireFormat (name : Text) : Option (List UInt8) :=
  if (splitDots (trimDot (Text.trimSpace name))).any fun l => decide (63 < l.length) then none
  else some (canonicalWireName name)

def maxNSEC3Iterations : Nat := 150

structure Nsec3Params where
  algo : Nat
  iter : Nat
  salt : List UInt8
deriving DecidableEq

variable (sha1 : List UInt8 → List UInt8)

/-- From `crypto.go:576-609`. -/
def nsec3Hash (name : Text) (p : Nsec3Params) : Option (List UInt8) :=
  if p.algo ≠ 1 then none
  else if maxNSEC3Iterations < p.iter then none
  else (toWireFormat name).map fun wire => (fun hash => sha1 (hash ++ p.salt))^[p.iter] (sha1 (wire ++ p.salt))

/-- `strings.Join(labels, ".")`, and the root as a dot. -/
def Name.text (n : Name) : Text := if n = [] then ['.'] else ['.'].intercalate n

def hashText (h : List UInt8) : Text := Text.upper (Base32.encode h)

def extractNSEC3Hash (owner : Name) : Text := owner.headD []

def ownerHash (rr : RR) : Text := Text.upper (extractNSEC3Hash rr.name)

def textCompare (a b : Text) : Ordering := List.compareLex compare (a.map Char.toNat) (b.map Char.toNat)

/-- From `validator.go:1321-1332`. -/
def nsec3HashInRange (hash owner next : Text) : Bool :=
  if owner = next then hash ≠ owner
  else if textCompare owner next = .lt then textCompare hash owner = .gt ∧ textCompare hash next = .lt
  else textCompare hash owner = .gt ∨ textCompare hash next = .lt

def RR.nsec? (rr : RR) : Option NSEC :=
  match rr.data with
  | .nsec n => some n
  | _ => none

def RR.nsec3? (rr : RR) : Option NSEC3 :=
  match rr.data with
  | .nsec3 n => some n
  | _ => none

def NSEC3.params (n : NSEC3) : Nsec3Params := ⟨n.hashAlgorithm, n.iterations, n.salt⟩

/-- From `validator.go:1201-1223`. -/
def nsec3SharedParams (rrs : List RR) : Option Nsec3Params :=
  match rrs.mapM RR.nsec3? with
  | some (n :: ns) => if ns.all fun m => decide (m.params = n.params) then some n.params else none
  | _ => none

/-- From `validator.go:1227-1245`. -/
def nsec3NameCovered (name : Name) (p : Nsec3Params) (rrs : List RR) : Bool :=
  match nsec3Hash sha1 name.text p with
  | none => false
  | some h => rrs.any fun rr => rr.nsec3?.any fun n =>
      nsec3HashInRange (hashText h) (ownerHash rr) (hashText n.nextHashed)

/-- The walk over the ancestors of the query name, the longest first. -/
def closestEncloser (p : Nsec3Params) (rrs : List RR) (queryName : Name) : Option Name :=
  queryName.tails.tail.find? fun ancestor => (nsec3Hash sha1 ancestor.text p).any fun h =>
    rrs.any fun rr => decide (ownerHash rr = hashText h)

/-- From `validator.go:1253-1316`. -/
def nsec3ClosestEncloserAndNextCloser (queryName : Name) (rrs : List RR) : Option (Name × Nsec3Params) :=
  match nsec3SharedParams rrs with
  | none => none
  | some p => match closestEncloser sha1 p rrs queryName with
    | none => none
    | some ce =>
      let nextCloser : Name := queryName.drop (queryName.length - ce.length - 1)
      if nsec3NameCovered sha1 nextCloser p rrs then some (ce, p) else none

/-- From `validator.go:1176-1190`. -/
def validateNSEC3ClosestEncloser (queryName : Name) (rrs : List RR) : Bool :=
  match nsec3ClosestEncloserAndNextCloser sha1 queryName rrs with
  | none => false
  | some (ce, p) => nsec3NameCovered sha1 (['*'] :: ce) p rrs

def hashName (t : Text) : Name := if t = [] then [] else [t]

/-- From `validator.go:1407-1457`. -/
def validateNSEC3 (param : Option Nsec3Params) (owner queryName : Name) (qtype : Nat) (n : NSEC3) : Bool :=
  if param.any fun p => decide (p ≠ n.params) then false
  else match nsec3Hash sha1 queryName.text n.params with
    | none => false
    | some h =>
      let ownerText := Text.upper (extractNSEC3Hash owner)
      if hashText h = ownerText then qtype ∉ n.types
      else nameInRange (hashName (hashText h)) (hashName ownerText) (hashName (hashText n.nextHashed))

def optOut : Nat := 1

/-- From `validator.go:1612-1629`. -/
def nsec3ProvesNoDS (owner zone : Name) (n : NSEC3) : Bool :=
  match nsec3Hash sha1 zone.text n.params with
  | none => false
  | some h =>
    let ownerText := Text.upper (extractNSEC3Hash owner)
    if hashText h = ownerText then typeNS ∈ n.types ∧ typeDS ∉ n.types ∧ typeSOA ∉ n.types
    else if nameInRange (hashName (hashText h)) (hashName ownerText) (hashName (hashText n.nextHashed)) then
      n.flags &&& optOut ≠ 0
    else false

/-! ## The records that count -/

variable (E : Env)

def isDenial (rr : RR) : Bool := rr.type = typeNSEC ∨ rr.type = typeNSEC3

/-- The RRset of an NSEC or NSEC3 record among the authorities, names compared without case. -/
def denialSetOf (authorities : List RR) (rr : RR) : List RR :=
  authorities.filter fun x => decide (isDenial x ∧ x.name.canonical = rr.name.canonical ∧ x.type = rr.type)

def denialHeads (authorities : List RR) : List RR :=
  (authorities.filter isDenial).pwFilter fun a b => ¬ (a.name.canonical = b.name.canonical ∧ a.type = b.type)

def authenticatedSet (msg : Message) (dnsKeys : List RR) (rr : RR) : List RR :=
  match findRRSIG msg.authorities rr.name rr.type with
  | none => []
  | some s =>
    if validateRRSIG E (denialSetOf msg.authorities rr) s dnsKeys then denialSetOf msg.authorities rr else []

def authenticatedDenialRRs (msg : Message) (dnsKeys : List RR) : List RR :=
  (denialHeads msg.authorities).flatMap (authenticatedSet E msg dnsKeys)

def maxNSECValidations : Nat := 16

def provesName (param : Option Nsec3Params) (queryName : Name) (qtype : Nat) (rr : RR) : Bool :=
  (decide (rr.type = typeNSEC) && rr.nsec?.any fun n => validateNSEC rr.name queryName qtype n) ||
    (decide (rr.type = typeNSEC3) && rr.nsec3?.any fun n => validateNSEC3 sha1 param rr.name queryName qtype n)

def provesWildcard (queryName : Name) (rr : RR) : Bool :=
  decide (rr.type = typeNSEC) && rr.nsec?.any fun n => nsecCoversWildcardOfAncestor rr.name n queryName

/-- From `validator.go:1049-1155`. -/
def validateNegativeResponse (param : Option Nsec3Params) (msg : Message) (queryName : Name) (dnsKeys : List RR) :
    ValidationResult :=
  match msg.qtype with
  | none => .bogus
  | some qtype =>
    let authenticated := authenticatedDenialRRs E msg dnsKeys
    if authenticated = [] then .bogus
    else if maxNSECValidations < authenticated.length then .bogus
    else
      let nameProofs := (authenticated.filter (provesName sha1 param queryName qtype)).map fun rr => rr.name.canonical
      let wildcardProofs := (authenticated.filter (provesWildcard queryName)).map fun rr => rr.name.canonical
      let nsec3RRs := authenticated.filter fun rr => decide (rr.type = typeNSEC3)
      if msg.nxdomain then
        if nsec3RRs ≠ [] ∧ validateNSEC3ClosestEncloser sha1 queryName nsec3RRs then .secure
        -- no falling back to NSEC when all the records are NSEC3
        else if nsec3RRs ≠ [] ∧ nsec3RRs.length = authenticated.length then .bogus
        else if wildcardProofs ≠ [] ∧ nameProofs.any (fun k : Name => decide (k ∉ wildcardProofs ∨ 2 ≤ wildcardProofs.dedup.length))
          then .secure
        else .bogus
      else if nameProofs ≠ [] then .secure
      else .bogus

/-- From `validator.go:1631-1688`. -/
def verifyDSDenial (msg : Message) (zone : Name) (parentKeys : List RR) : Bool :=
  (authenticatedDenialRRs E msg parentKeys).any fun rr =>
    (decide (rr.type = typeNSEC) && rr.nsec?.any fun n => nsecProvesNoDS rr.name zone n) ||
      (decide (rr.type = typeNSEC3) && rr.nsec3?.any fun n => nsec3ProvesNoDS sha1 rr.name zone n)

/-- From `validator.go:648-694`. -/
def wildcardExpansionProven (msg : Message) (owner : Name) (sigLabels qtype : Nat) (dnsKeys : List RR) : Bool :=
  if owner.length ≤ sigLabels then false
  else
    let nextCloser : Name := owner.drop (owner.length - sigLabels - 1)
    let authenticated := authenticatedDenialRRs E msg dnsKeys
    let counted := authenticated.take maxNSECValidations
    let nsec3RRs := authenticated.filter fun rr => decide (rr.type = typeNSEC3)
    -- the loop returns at the first NSEC that proves it, and gives up when it meets too many records
    if counted.any fun rr => decide (rr.type = typeNSEC ∧ rr.name.canonical ≠ nextCloser.canonical) &&
        rr.nsec?.any fun n => validateNSEC rr.name nextCloser qtype n then true
    else if maxNSECValidations < authenticated.length then false
    else nsec3RRs ≠ [] ∧
      (nsec3ClosestEncloserAndNextCloser sha1 owner nsec3RRs).any fun r => decide (r.1.length = sigLabels)

def Env.withDenial (param : Option Nsec3Params) : Env :=
  { E with
    dsDenial := verifyDSDenial sha1 E
    wildcardProven := wildcardExpansionProven sha1 E
    negativeProven := fun msg queryName dnsKeys =>
      decide (validateNegativeResponse sha1 E param msg queryName dnsKeys ≠ .bogus) }

end NothingDNS.Dnssec
