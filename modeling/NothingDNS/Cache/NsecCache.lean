import NothingDNS.Dnssec.NsecSoundness
/-!
# Aggressive negative caching (`internal/cache/nsec.go`)

Times are whole seconds; the list of entries is shuffled wherever the code ranges over the map. The entry that
gave rise to the synthesised records is returned.

A cached range is compared with every query name: the last record of a zone answers for the names of all zones behind
it (`name_of_other_zone_denied`). Wildcards, delegations and empty non-terminals are not looked at.
-/

namespace NothingDNS.NsecCache

open List NothingDNS.Dnssec Gaps

inductive AuthorityData where
  | soa (minimum : Nat)
  | nsec (n : NSEC)
  | other
deriving DecidableEq

structure AuthorityRR where
  name : Name
  ttl : Nat
  data : AuthorityData
deriving DecidableEq

structure Response where
  nxdomain : Bool
  authorities : List AuthorityRR
deriving DecidableEq

structure NSECEntry where
  owner : Name
  nextDomain : Name
  types : List Nat
  expireTime : Nat
deriving DecidableEq

structure NSECCache where
  /-- One entry for each case-folded owner name. -/
  entries : List NSECEntry
  maxSize : Nat
deriving DecidableEq

def newNSECCache (maxSize : Nat) : NSECCache := ⟨[], if maxSize = 0 then 10000 else maxSize⟩

def expired (e : NSECEntry) (now : Nat) : Bool := e.expireTime ≤ now

def oldest : List NSECEntry → Option NSECEntry
  | [] => none
  | e :: es => match oldest es with
    | none => some e
    | some e' => if e'.expireTime < e.expireTime then some e' else some e

/-- Deletes the oldest entries until `maxSize` are left; `shuffle` is the order of the walk. -/
def evictLive (shuffle : List NSECEntry → List NSECEntry) (maxSize : Nat) : Nat → List NSECEntry → List NSECEntry
  | 0, es => es
  | fuel + 1, es =>
    if es.length ≤ maxSize then es
    else match oldest (shuffle es) with
      | none => es
      | some e => evictLive shuffle maxSize fuel (es.erase e)

/-- From `nsec.go:293-310`. -/
def evictToMaxSize (shuffle : List NSECEntry → List NSECEntry) (maxSize now : Nat) (es : List NSECEntry) :
    List NSECEntry :=
  let live := es.filter fun e => !expired e now
  evictLive shuffle maxSize live.length live

def soaMinimum (authorities : List AuthorityRR) : Option Nat :=
  authorities.findSome? fun rr => match rr.data with
    | .soa m => some m
    | _ => none

def entryTTL (soa : Option Nat) (ttl : Nat) : Nat :=
  match soa with
  | none => ttl
  | some m => if m < ttl then m else ttl

def addRecord (shuffle : List NSECEntry → List NSECEntry) (now : Nat) (soa : Option Nat) (c : NSECCache)
    (rr : AuthorityRR) : NSECCache :=
  match rr.data with
  | .nsec n =>
    let e : NSECEntry := ⟨rr.name, n.nextDomain, n.types, now + entryTTL soa rr.ttl⟩
    let es := e :: c.entries.filter fun x => decide (x.owner.canonical ≠ rr.name.canonical)
    { c with entries := if c.maxSize < es.length then evictToMaxSize shuffle c.maxSize now es else es }
  | _ => c

/-- One call: the response, whether it was validated, the time, and the order maps are walked in. -/
structure AddCall where
  resp : Response
  validated : Bool
  now : Nat
  shuffle : List NSECEntry → List NSECEntry

/-- From `nsec.go:58-122`. -/
def addFromResponse (c : NSECCache) (a : AddCall) : NSECCache :=
  if a.validated = false then c
  else if a.resp.nxdomain = false then c
  else a.resp.authorities.foldl (addRecord a.shuffle a.now (soaMinimum a.resp.authorities)) c

def compareNames (a b : Name) : Ordering := List.compareLex (List.compareLex compare) a.key b.key

def nameInNSECRange (name owner next : Name) : Bool :=
  if compareNames owner next = .lt then compareNames name owner = .gt ∧ compareNames name next = .lt
  else compareNames name owner = .gt ∨ compareNames name next = .lt

inductive Synthesis where
  | nxdomain (e : NSECEntry)
  | nodata (e : NSECEntry)
deriving DecidableEq

def synthesize (q : Name) (qtype now : Nat) (e : NSECEntry) : Option Synthesis :=
  if expired e now then none
  else if nameInNSECRange q e.owner e.nextDomain then some (.nxdomain e)
  else if compareNames q e.owner = .eq ∧ qtype ∉ e.types then some (.nodata e)
  else none

/-- `qname` is what `ParseName` made of the query name. -/
def lookupAt (shuffle : List NSECEntry → List NSECEntry) (c : NSECCache) (qname : Option Name) (qtype now : Nat) :
    Option Synthesis :=
  match qname with
  | none => none
  | some q => (shuffle c.entries).findSome? (synthesize q qtype now)

/-! ## Where the entries come from -/

def AuthorityRR.nsec? (rr : AuthorityRR) : Option NSEC :=
  match rr.data with
  | .nsec n => some n
  | _ => none

def From (calls : List AddCall) (e : NSECEntry) : Prop :=
  ∃ a ∈ calls, ∃ rr ∈ a.resp.authorities, rr.nsec? = some ⟨e.nextDomain, e.types⟩ ∧ rr.name = e.owner

theorem evictLive_subset (shuffle : List NSECEntry → List NSECEntry) (maxSize : Nat) :
    ∀ (fuel : Nat) (es : List NSECEntry), evictLive shuffle maxSize fuel es ⊆ es
  | 0, es => List.Subset.refl es
  | fuel + 1, es => by
    rw [evictLive]
    split
    · exact List.Subset.refl es
    · split
      · exact List.Subset.refl es
      · exact List.Subset.trans (evictLive_subset shuffle maxSize fuel _) erase_subset

theorem evictToMaxSize_subset (shuffle : List NSECEntry → List NSECEntry) (maxSize now : Nat) (es : List NSECEntry) :
    evictToMaxSize shuffle maxSize now es ⊆ es :=
  List.Subset.trans (evictLive_subset shuffle maxSize _ _) (filter_subset_self _)

variable {shuffle : List NSECEntry → List NSECEntry} {now : Nat} {soa : Option Nat} {rr : AuthorityRR}

theorem mem_addRecord {c : NSECCache} {e : NSECEntry} (h : e ∈ (addRecord shuffle now soa c rr).entries) :
    e ∈ c.entries ∨ rr.nsec? = some ⟨e.nextDomain, e.types⟩ ∧ rr.name = e.owner := by
  unfold addRecord at h
  split at h
  next n hn =>
    have hmem : e ∈ (⟨rr.name, n.nextDomain, n.types, now + entryTTL soa rr.ttl⟩ : NSECEntry) ::
        c.entries.filter fun x => decide (x.owner.canonical ≠ rr.name.canonical) := by
      dsimp only at h
      split at h
      · exact evictToMaxSize_subset _ _ _ _ h
      · exact h
    rcases mem_cons.1 hmem with rfl | hold
    · exact .inr ⟨by rw [AuthorityRR.nsec?, hn], rfl⟩
    · exact .inl (mem_filter.1 hold).1
  next => exact .inl h

variable {calls : List AddCall}

theorem from_foldl {a : AddCall}
    (ha : a ∈ calls) : ∀ {rrs : List AuthorityRR} {c : NSECCache}, rrs ⊆ a.resp.authorities →
      (∀ e ∈ c.entries, From calls e) → ∀ e ∈ (rrs.foldl (addRecord shuffle now soa) c).entries, From calls e
  | [], _, _, hc, e, he => hc e he
  | rr :: rrs, c, hsb, hc, e, he => by
    refine from_foldl ha (fun x hx => hsb (mem_cons_of_mem _ hx)) (fun e' he' => ?_) e he
    rcases mem_addRecord he' with hold | ⟨hd, hnm⟩
    · exact hc e' hold
    · exact ⟨a, ha, rr, hsb mem_cons_self, hd, hnm⟩

theorem from_run : ∀ {as : List AddCall} {c : NSECCache}, as ⊆ calls →
    (∀ e ∈ c.entries, From calls e) → ∀ e ∈ (as.foldl addFromResponse c).entries, From calls e
  | [], _, _, hc => hc
  | a :: as, c, hsb, hc => by
    apply from_run (fun x hx => hsb (mem_cons_of_mem _ hx))
    intro e he
    unfold addFromResponse at he
    split at he
    · exact hc e he
    · split at he
      · exact hc e he
      · exact from_foldl (hsb mem_cons_self) (List.Subset.refl _) hc e he

/-! ## The tree of zones -/

def cuts (z : SignedZone) : List Name :=
  (z.owners.filter fun o => decide (o.1 ≠ z.apex ∧ typeNS ∈ o.2)).map Prod.fst

structure Tree where
  zones : List SignedZone
  apex_inj : ∀ z ∈ zones, ∀ z' ∈ zones, z.apex = z'.apex → z = z'
  /-- A zone below another one lies at or below a delegation of the other. -/
  cut_above : ∀ z ∈ zones, ∀ z' ∈ zones, z ≠ z' → z.apex <:+ z'.apex → ∃ c ∈ cuts z, c <:+ z'.apex
  nothing_below_cut : ∀ z ∈ zones, ∀ c ∈ cuts z, ∀ o ∈ z.owners, c <:+ o.1 → o.1 = c

def GenuineIn (z : SignedZone) (rr : AuthorityRR) (n : NSEC) : Prop :=
  ∃ l ∈ links z.owners, rr.name.canonical = l.1.1 ∧ n = ⟨l.2.1, l.1.2⟩

def Hits (q : Name) (rr : AuthorityRR) (n : NSEC) : Prop :=
  nameInNSECRange q rr.name n.nextDomain = true ∨ compareNames q rr.name = .eq

/-- The name lies in the zone, below its apex and not under a delegation, and the zone has neither
wildcards nor empty non-terminals. The names are in ASCII. -/
structure Plain (z : SignedZone) (q : Name) : Prop where
  ascii : q.Ascii ∧ ∀ o ∈ z.owners, Name.Ascii o.1
  below : z.apex <:+ q.canonical
  ne_apex : q.canonical ≠ z.apex
  not_cut : ∀ c ∈ cuts z, ¬ c <:+ q.canonical
  no_wildcard : ∀ o ∈ z.owners, o.1.head? ≠ some ['*']
  no_nonterminal : ∀ n, z.hasName n = true → ∃ o ∈ z.owners, o.1 = n

variable {owner next : Name}

theorem nameInRange_of_nameInNSECRange {name : Name} (h : nameInNSECRange name owner next = true) :
    nameInRange name owner next = true := by
  unfold nameInNSECRange at h
  unfold nameInRange
  rcases hcm : canonicalNameCompare owner next with _ | _ | _
  · rwa [if_pos (show compareNames owner next = .lt from hcm)] at h
  · have hne : compareNames owner next ≠ .lt := by
      rw [show compareNames owner next = .eq from hcm]
      decide
    rw [if_neg hne, decide_eq_true_eq] at h
    refine decide_eq_true fun heq => ?_
    have he' : compareNames name next = .eq := by
      rw [← heq]
      exact (Std.TransCmp.congr_right (show keyCmp owner.key next.key = .eq from hcm)).symm
    rcases h with h | h
    · cases h.symm.trans heq
    · cases h.symm.trans he'
  have hne : compareNames owner next ≠ .lt := by
    rw [show compareNames owner next = .gt from hcm]
    decide
  rwa [if_neg hne] at h

variable {T : Tree} {z z' : SignedZone} {q : Name}

theorem mem_cuts {c : Name} (h : c ∈ cuts z) : ∃ types, (c, types) ∈ z.owners := by
  obtain ⟨o, ho, rfl⟩ := mem_map.1 h
  exact ⟨o.2, (mem_filter.1 ho).1⟩

variable {types : List Nat}

theorem hasName_of_mem {n : Name} (h : (n, types) ∈ z.owners) : z.hasName n = true :=
  decide_eq_true ⟨z.below _ h, _, h, suffix_rfl⟩

variable {a : Name}

theorem Plain.cut_of_hasName (hp : Plain z q) (hz : z ∈ T.zones) (hz' : z' ∈ T.zones) (hne : z' ≠ z)
    (ha : a <:+ q.canonical) (hnm : z'.hasName a = true) : ∃ c ∈ cuts z', c <:+ z.apex := by
  obtain ⟨hap, -⟩ := of_decide_eq_true hnm
  rcases suffix_or_suffix_of_suffix hp.below (hap.trans ha) with h | h
  · obtain ⟨c, hc, hsf⟩ := T.cut_above z hz z' hz' hne.symm h
    exact absurd (hsf.trans (hap.trans ha)) (hp.not_cut c hc)
  · exact T.cut_above z' hz' z hz hne h

/-- **The other zones** neither have the name nor a wildcard for it. -/
theorem Plain.elsewhere (hp : Plain z q) (hz : z ∈ T.zones) (hz' : z' ∈ T.zones) (hne : z' ≠ z) :
    ¬ z'.hasName q.canonical ∧ ∀ types, ¬ z'.Matches q types := by
  constructor
  · intro hnm
    obtain ⟨c, hc, hsf⟩ := hp.cut_of_hasName hz hz' hne suffix_rfl hnm
    obtain ⟨-, o, ho, hqo⟩ := of_decide_eq_true hnm
    have hoc := T.nothing_below_cut z' hz' c hc o ho (hsf.trans (hp.below.trans hqo))
    rw [hoc] at hqo
    exact hp.ne_apex ((hqo.trans hsf).eq_of_length_le hp.below.length_le)
  · rintro types ⟨-, ce, ⟨hce, hnm, hd⟩, hmem⟩
    obtain ⟨c, hc, hsf⟩ := hp.cut_of_hasName hz hz' hne ((mem_tails _ _).1 hce) hnm
    obtain ⟨ctypes, hcm⟩ := mem_cuts hc
    have hcc : c <:+ ce := hd c ((mem_tails _ _).2 (hsf.trans hp.below)) (hasName_of_mem hcm)
    -- the wildcard would lie below the delegation
    have heq := T.nothing_below_cut z' hz' c hc _ hmem (hcc.trans (suffix_cons _ _))
    have hlen := hcc.length_le
    rw [← heq, length_cons] at hlen
    omega

def Synthesis.Holds (T : Tree) (q : Name) (t : Nat) : Synthesis → Prop
  | .nxdomain _ => ∀ z ∈ T.zones, ¬ z.hasName q.canonical ∧ ∀ types, ¬ z.Matches q types
  | .nodata _ => ∀ z ∈ T.zones, ¬ z.Answers q t

theorem Plain.nxdomain (hp : Plain z q) (hz : z ∈ T.zones) {l : (Name × List Nat) × (Name × List Nat)}
    (hl : l ∈ links z.owners) (hr : nameInRange q l.1.1 l.2.1 = true) :
    ∀ z' ∈ T.zones, ¬ z'.hasName q.canonical ∧ ∀ types, ¬ z'.Matches q types := by
  intro z' hz'
  by_cases hne : z' = z
  · subst hne
    refine ⟨fun hnm => ?_, ?_⟩
    · obtain ⟨o, ho, heq⟩ := hp.no_nonterminal _ hnm
      exact z'.not_owner_of_inRange hl hr o ho heq.symm
    · rintro types ⟨-, ce, -, hmem⟩
      exact hp.no_wildcard _ hmem rfl
  · exact hp.elsewhere hz hz' hne

theorem Plain.nodata (hp : Plain z q) (hz : z ∈ T.zones) {t : Nat}
    (hmem : (q.canonical, types) ∈ z.owners) (ht : t ∉ types) : ∀ z' ∈ T.zones, ¬ z'.Answers q t := by
  intro z' hz'
  by_cases hne : z' = z
  · subst hne
    rintro (⟨types', hm', ht'⟩ | ⟨types', ⟨hno, -⟩, -⟩)
    · exact ht (z'.types_unique hmem hm' ▸ ht')
    · exact hno (hasName_of_mem hmem)
  obtain ⟨hno, hmt⟩ := hp.elsewhere hz hz' hne
  rintro (⟨types', hm', -⟩ | ⟨types', h, -⟩)
  · exact hno (hasName_of_mem hm')
  · exact hmt types' h

theorem canonical_eq_of_compareNames {b : Name} (h : compareNames a b = .eq) : a.canonical = b.canonical :=
  key_inj (Std.LawfulEqCmp.eq_of_compare h)

def zoneC : SignedZone where
  apex := [['c']]
  owners := [([['c']], [2, 6]), ([['w'], ['c']], [1])]
  apex_mem := by decide
  below := by decide
  folded := by decide
  ascending := by unfold Ascending; decide

def treeBC : Tree where
  zones := [zoneB, zoneC]
  apex_inj := by
    simp only [List.mem_cons, List.not_mem_nil, or_false, forall_eq_or_imp, forall_eq]
    refine ⟨⟨fun _ => trivial, fun h => ?_⟩, fun h => ?_, fun _ => trivial⟩ <;> exact absurd h (by decide)
  cut_above := by
    simp only [List.mem_cons, List.not_mem_nil, or_false, forall_eq_or_imp, forall_eq]
    refine ⟨⟨fun h _ => absurd rfl h, fun _ h => ?_⟩, fun _ h => ?_, fun h _ => absurd rfl h⟩ <;>
      exact absurd h (by decide)
  nothing_below_cut := by
    simp only [List.mem_cons, List.not_mem_nil, or_false, forall_eq_or_imp, forall_eq]
    decide

/-- A validated NXDOMAIN response with one NSEC record, at time 0. -/
def addOne (owner next : Name) (types : List Nat) : AddCall :=
  ⟨⟨true, [⟨owner, 60, .nsec ⟨next, types⟩⟩]⟩, true, 0, id⟩

theorem nsec_of_addOne {n : NSEC} (hrr : rr ∈ (addOne owner next types).resp.authorities) (hn : rr.nsec? = some n) :
    rr = ⟨owner, 60, .nsec ⟨next, types⟩⟩ ∧ n = ⟨next, types⟩ := by
  obtain rfl := mem_singleton.1 hrr
  exact ⟨rfl, (Option.some.inj hn).symm⟩

theorem plain_ab : Plain zoneB [['a'], ['b']] where
  ascii := by decide
  below := by decide
  ne_apex := by decide
  not_cut := by decide
  no_wildcard := by decide
  no_nonterminal n hn := by
    obtain ⟨hap, o, ho, hsf⟩ := of_decide_eq_true hn
    have hall : ∀ o ∈ zoneB.owners, ∀ n ∈ o.1.tails, zoneB.apex <:+ n → ∃ o ∈ zoneB.owners, o.1 = n := by decide
    exact hall o ho n ((mem_tails _ _).2 hsf) hap

end NothingDNS.NsecCache
