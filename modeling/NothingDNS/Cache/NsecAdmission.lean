import NothingDNS.Cache.NsecCache
import NothingDNS.Dnssec.AnswerBinding
/-!
# What enters the aggressive NSEC cache (`cmd/nothingdns/pipeline_stages.go:536-569`, `handler.go:194-231`)

The upstream stage validates the response and hands it to `AddFromResponse` with the verdict, which is about the
message: a denial is Secure if enough of its NSEC records carry a signature. All its NSEC records are stored, so one
added on the way is stored with the others (`unsigned_record_cached`).
-/

namespace NothingDNS.NsecCache

open NothingDNS.Dnssec List

structure ReceivedRR where
  rr : RR
  ttl : Nat
deriving DecidableEq

/-- An upstream response that has passed the checks on its ID and question. -/
structure Received where
  answers : List RR
  authorities : List ReceivedRR
  nxdomain : Bool
  qtype : Option Nat
deriving DecidableEq

def Received.message (r : Received) : Message := ⟨r.answers, r.authorities.map ReceivedRR.rr, r.nxdomain, r.qtype⟩

/-- The record as `AddFromResponse` reads it; `minimum` reads the last field of an SOA record. -/
def ReceivedRR.toAuthority (minimum : List UInt8 → Nat) (x : ReceivedRR) : AuthorityRR where
  name := x.rr.name
  ttl := x.ttl
  data := match x.rr.data with
    | .nsec n => if x.rr.type = typeNSEC then .nsec n else .other
    | .other bytes => if x.rr.type = typeSOA then .soa (minimum bytes) else .other
    | _ => .other

structure Pass where
  received : Received
  queryName : Name
  /-- A response policy or DNS64 has answered instead. -/
  replaced : Bool
  now : Nat
  shuffle : List NSECEntry → List NSECEntry

section Stage

variable (E : Env) (anchors : List TrustAnchor) (minimum : List UInt8 → Nat)

/-- The second result of `validateDNSSECResponse`. -/
def dnssecValidated (p : Pass) : Bool := validateResponse E anchors p.received.message p.queryName = .secure

def Pass.call (p : Pass) : AddCall where
  resp := ⟨p.received.nxdomain, p.received.authorities.map (ReceivedRR.toAuthority minimum)⟩
  validated := dnssecValidated E anchors p
  now := p.now
  shuffle := p.shuffle

def cacheStage (c : NSECCache) (p : Pass) : NSECCache :=
  if p.replaced then c
  else if p.received.nxdomain then addFromResponse c (p.call E anchors minimum)
  else c

def ZoneKeys (queryName : Name) (link : ChainLink) : Prop :=
  ∃ anchor remaining, findClosestAnchor anchors [] queryName.canonical = some (anchor, remaining) ∧
    buildChain E anchor remaining = .ok (link, false)

/-- The record belongs to an RRset of the message under a signature that was verified with a key of the zone. -/
def Authenticated (p : Pass) (rr : RR) : Prop :=
  ∃ link, ZoneKeys E anchors p.queryName link ∧ rr ∈ denialSetOf p.received.message.authorities rr ∧
    ∃ s, findRRSIG p.received.message.authorities rr.name rr.type = some s ∧
      validateRRSIG E (denialSetOf p.received.message.authorities rr) s link.dnsKeys = true

/-- A Secure NXDOMAIN that is cached brings no NSEC record beside those under a verified signature. -/
def AllSigned (p : Pass) : Prop :=
  p.replaced = false → p.received.nxdomain = true → dnssecValidated E anchors p = true →
    ∀ rr ∈ p.received.message.authorities, rr.type = typeNSEC → rr.nsec? ≠ none → Authenticated E anchors p rr

/-- The entry stands for an NSEC record of the message under a verified signature. -/
def Backed (p : Pass) (e : NSECEntry) : Prop :=
  ∃ rr ∈ p.received.message.authorities, rr.type = typeNSEC ∧ rr.name = e.owner ∧
    rr.nsec? = some ⟨e.nextDomain, e.types⟩ ∧ dnssecValidated E anchors p = true ∧ Authenticated E anchors p rr

end Stage

section Admission

variable {E : Env} {anchors : List TrustAnchor} {minimum : List UInt8 → Nat}

def Pass.stores (E : Env) (anchors : List TrustAnchor) (p : Pass) : Bool :=
  !p.replaced && p.received.nxdomain && dnssecValidated E anchors p

theorem cacheStage_eq (c : NSECCache) (p : Pass) : cacheStage E anchors minimum c p =
    if p.stores E anchors then addFromResponse c (p.call E anchors minimum) else c := by
  unfold cacheStage Pass.stores addFromResponse Pass.call
  cases p.replaced <;> cases p.received.nxdomain <;> cases dnssecValidated E anchors p <;> rfl

theorem foldl_cacheStage (ps : List Pass) (c : NSECCache) : ps.foldl (cacheStage E anchors minimum) c =
    ((ps.filter (Pass.stores E anchors)).map (Pass.call E anchors minimum)).foldl addFromResponse c := by
  rw [foldl_map, foldl_filter]
  congr 1
  funext c p
  exact cacheStage_eq c p

theorem nsec_of_toAuthority {x : ReceivedRR} {n : NSEC} (h : (x.toAuthority minimum).nsec? = some n) :
    x.rr.type = typeNSEC ∧ x.rr.nsec? = some n := by
  unfold AuthorityRR.nsec? ReceivedRR.toAuthority at h
  unfold RR.nsec?
  cases hd : x.rr.data with
  | nsec m =>
    simp only [hd] at h
    by_cases hty : x.rr.type = typeNSEC
    · simp only [hty, if_true] at h
      exact ⟨hty, h⟩
    · simp [hty] at h
  | other bytes =>
    simp only [hd] at h
    by_cases hty : x.rr.type = typeSOA <;> simp [hty] at h
  | _ => simp [hd] at h

theorem toAuthority_nsec {x : ReceivedRR} {n : NSEC} (hty : x.rr.type = typeNSEC) (h : x.rr.nsec? = some n) :
    (x.toAuthority minimum).data = .nsec n := by
  unfold RR.nsec? at h
  unfold ReceivedRR.toAuthority
  cases hd : x.rr.data with rw [hd] at h
  | nsec m =>
    cases h
    simp [hty]
  | _ => cases h

/-- The RRset and the signature over it are found by the owner, whatever the case of its letters. -/
theorem Authenticated.congr {p : Pass} {rr rr' : RR} (h : Authenticated E anchors p rr)
    (hmem : rr' ∈ p.received.message.authorities) (hdn : isDenial rr' = true)
    (hnm : rr'.name.canonical = rr.name.canonical) (hty : rr'.type = rr.type) : Authenticated E anchors p rr' := by
  obtain ⟨link, hln, -, s, hs, hv⟩ := h
  have hset : denialSetOf p.received.message.authorities rr' = denialSetOf p.received.message.authorities rr := by
    simp only [denialSetOf, hnm, hty]
  refine ⟨link, hln, ?_, s, ?_, ?_⟩
  · simpa [denialSetOf, hmem] using hdn
  · rw [← hs]
    simp only [findRRSIG, hnm, hty]
  · rwa [hset]

section Room

variable {shuffle : List NSECEntry → List NSECEntry} {now : Nat} {soa : Option Nat} {c : NSECCache} {k : Name}

theorem length_addRecord (hroom : c.entries.length < c.maxSize) (x : AuthorityRR) :
    (addRecord shuffle now soa c x).entries.length ≤ c.entries.length + 1 ∧
      (addRecord shuffle now soa c x).maxSize = c.maxSize := by
  unfold addRecord
  split
  · dsimp only
    rw [if_neg]
    · exact ⟨Nat.succ_le_succ (length_filter_le _ _), rfl⟩
    · have := length_filter_le (fun e : NSECEntry => decide (e.owner.canonical ≠ x.name.canonical)) c.entries
      rw [length_cons]
      omega
  · exact ⟨Nat.le_succ _, rfl⟩

theorem owner_mem_addRecord (hroom : c.entries.length < c.maxSize) {x : AuthorityRR}
    (h : (∃ e ∈ c.entries, e.owner.canonical = k) ∨ x.name.canonical = k ∧ x.nsec? ≠ none) :
    ∃ e ∈ (addRecord shuffle now soa c x).entries, e.owner.canonical = k := by
  have hlen := length_filter_le (fun e : NSECEntry => decide (e.owner.canonical ≠ x.name.canonical)) c.entries
  unfold addRecord
  split
  next n hn =>
    dsimp only
    rw [if_neg (by rw [length_cons]; omega)]
    by_cases hk : x.name.canonical = k
    · exact ⟨_, mem_cons_self, hk⟩
    · obtain ⟨e, he, hek⟩ := h.resolve_right fun h => hk h.1
      refine ⟨e, mem_cons_of_mem _ (mem_filter.2 ⟨he, ?_⟩), hek⟩
      rw [hek]
      exact decide_eq_true (Ne.symm hk)
  next hn =>
    refine h.resolve_right fun h => h.2 ?_
    unfold AuthorityRR.nsec?
    split
    next n hd => exact absurd hd (hn n)
    · rfl

/-- Nothing is evicted while there is room: the owner of every NSEC record has an entry. -/
theorem mem_foldl_addRecord : ∀ {xs : List AuthorityRR} {c : NSECCache}, c.entries.length + xs.length ≤ c.maxSize →
    ((∃ e ∈ c.entries, e.owner.canonical = k) ∨ ∃ x ∈ xs, x.name.canonical = k ∧ x.nsec? ≠ none) →
      ∃ e ∈ (xs.foldl (addRecord shuffle now soa) c).entries, e.owner.canonical = k
  | [], _, _, h => h.resolve_right fun ⟨_, hx, _⟩ => not_mem_nil hx
  | x :: xs, c, hroom, h => by
    rw [length_cons] at hroom
    have hlt : c.entries.length < c.maxSize := by omega
    obtain ⟨hlen, hmax⟩ := @length_addRecord shuffle now soa c hlt x
    rw [foldl_cons]
    refine mem_foldl_addRecord (by omega) ?_
    rcases h with he | ⟨y, hy, hyk⟩
    · exact .inl (owner_mem_addRecord hlt (.inl he))
    · rcases mem_cons.1 hy with rfl | hy
      · exact .inl (owner_mem_addRecord hlt (.inr hyk))
      · exact .inr ⟨y, hy, hyk⟩

end Room

/-- **The cache holds only authenticated records** after any run of responses each of which, if it is a Secure
NXDOMAIN, brings no NSEC record that is not under a verified signature; and any other response breaks this in a cache
that has room for it. -/
theorem cached_authenticated (maxSize : Nat) :
    (∀ ps : List Pass, (∀ p ∈ ps, AllSigned E anchors p) →
      ∀ e ∈ (ps.foldl (cacheStage E anchors minimum) (newNSECCache maxSize)).entries, ∃ p ∈ ps, Backed E anchors p e) ∧
    ∀ p : Pass, p.received.authorities.length ≤ maxSize →
      ((∀ e ∈ (cacheStage E anchors minimum (newNSECCache maxSize) p).entries, Backed E anchors p e) ↔
        AllSigned E anchors p) := by
  have hrun : ∀ ps : List Pass, (∀ p ∈ ps, AllSigned E anchors p) →
      ∀ e ∈ (ps.foldl (cacheStage E anchors minimum) (newNSECCache maxSize)).entries, ∃ p ∈ ps, Backed E anchors p e := by
    intro ps hsigned e he
    rw [foldl_cacheStage] at he
    obtain ⟨a, ha, x, hx, hns, hnm⟩ := from_run (List.Subset.refl _) (fun e h => absurd h not_mem_nil) e he
    obtain ⟨p, hp, rfl⟩ := mem_map.1 ha
    obtain ⟨hp, hst⟩ := mem_filter.1 hp
    obtain ⟨y, hy, rfl⟩ := mem_map.1 hx
    simp only [Pass.stores, Bool.and_eq_true, Bool.not_eq_true'] at hst
    obtain ⟨⟨hrp, hnx⟩, hvl⟩ := hst
    obtain ⟨hty, hd⟩ := nsec_of_toAuthority hns
    have hmem : y.rr ∈ p.received.message.authorities := mem_map_of_mem hy
    exact ⟨p, hp, y.rr, hmem, hty, hnm, hd, hvl, hsigned p hp hrp hnx hvl y.rr hmem hty (by rw [hd]; exact Option.some_ne_none _)⟩
  refine ⟨hrun, fun p hroom => ⟨?_, fun hsigned e he => ?_⟩⟩
  · intro h hrp hnx hvl rr hrr hty hns
    obtain ⟨y, hy, rfl⟩ := mem_map.1 hrr
    obtain ⟨n, hn⟩ := Option.ne_none_iff_exists'.1 hns
    have hkept : ∃ e ∈ (cacheStage E anchors minimum (newNSECCache maxSize) p).entries,
        e.owner.canonical = y.rr.name.canonical := by
      rw [cacheStage_eq, if_pos (by simp [Pass.stores, hrp, hnx, hvl]), addFromResponse, if_neg (by simp [Pass.call, hvl]),
        if_neg (by simp [Pass.call, hnx])]
      have hsize : p.received.authorities.length ≤ (newNSECCache maxSize).maxSize := by
        rw [newNSECCache]
        dsimp only
        split <;> omega
      refine mem_foldl_addRecord (by simpa [Pass.call, newNSECCache] using hsize) (.inr ?_)
      refine ⟨y.toAuthority minimum, mem_map_of_mem hy, rfl, ?_⟩
      rw [AuthorityRR.nsec?, toAuthority_nsec hty hn]
      exact Option.some_ne_none _
    obtain ⟨e, he, hek⟩ := hkept
    obtain ⟨rr, -, hrty, hnm, -, -, hau⟩ := h e he
    refine hau.congr hrr ?_ (by rw [hnm, hek]) (by rw [hty, hrty])
    simp [isDenial, hty]
  · obtain ⟨p', hp', hb⟩ := hrun [p] (by simpa using hsigned) e he
    rwa [mem_singleton.1 hp'] at hb

end Admission

/-! ## A denial with one record more -/

def signedB : Env :=
  { nsecEnv zoneB with
    verify := fun _ d _ => decide (d.typeCovered = typeDNSKEY) || (Gaps.links zoneB.owners).any (SignedZone.signs d)
    query := fun z type =>
      if z = [['b']] ∧ type = typeDNSKEY then
        some ⟨keyB ++ [⟨[['b']], typeRRSIG, 1, .rrsig ⟨typeDNSKEY, 8, 1, 0, 0, 0, 0, [['b']], []⟩⟩], [], false, some typeDNSKEY⟩
      else none }

def validatorB : Env := signedB.withDenial id none

def anchorB : TrustAnchor := ⟨[['b']], 0, 8, 2, .of 2 [['b']] ⟨257, 3, 8, []⟩, []⟩

/-- NXDOMAIN with the chain of `b` and the records `extra`. -/
def passB (extra : List RR) : Pass :=
  ⟨⟨[], ((nxdomainB 16).authorities ++ extra).map fun rr => ⟨rr, 60⟩, true, some 16⟩, [['b']], false, 0, id⟩

theorem allSigned_passB : AllSigned validatorB [anchorB] (passB []) := by
  intro _ _ _ rr hrr hty _
  have h : ∀ rr ∈ (passB []).received.message.authorities, rr.type = typeNSEC →
      rr ∈ denialSetOf (passB []).received.message.authorities rr ∧
        (findRRSIG (passB []).received.message.authorities rr.name rr.type).any
          (validateRRSIG validatorB (denialSetOf (passB []).received.message.authorities rr) · keyB) = true := by
    decide
  obtain ⟨hse, hv⟩ := h rr hrr hty
  obtain ⟨s, hs, hv⟩ := Option.any_eq_true _ _ |>.1 hv
  exact ⟨⟨[['b']], keyB⟩, ⟨anchorB, [], by decide, by decide⟩, hse, s, hs, hv⟩

theorem cached_authenticated_b : (⟨[['b']], [['w'], ['b']], [2, 6], 60⟩ : NSECEntry) ∈
        (cacheStage validatorB [anchorB] (fun _ => 0) (newNSECCache 9) (passB [])).entries ∧
      ∀ e ∈ (cacheStage validatorB [anchorB] (fun _ => 0) (newNSECCache 9) (passB [])).entries,
        Backed validatorB [anchorB] (passB []) e :=
  ⟨by decide, ((cached_authenticated 9).2 (passB []) (by decide)).2 allSigned_passB⟩

def forgedB : RR := ⟨[['x'], ['b']], typeNSEC, 1, .nsec ⟨[['z'], ['b']], []⟩⟩

theorem unsigned_record_cached : dnssecValidated validatorB [anchorB] (passB [forgedB]) = true ∧
      findRRSIG (passB [forgedB]).received.message.authorities forgedB.name typeNSEC = none ∧
      (⟨[['x'], ['b']], [['z'], ['b']], [], 60⟩ : NSECEntry) ∈
        (cacheStage validatorB [anchorB] (fun _ => 0) (newNSECCache 4) (passB [forgedB])).entries := by
  decide

end NothingDNS.NsecCache
