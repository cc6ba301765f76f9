import NothingDNS.Dnssec.Denial
/-!
# What an NSEC denial proves

`validateNegativeResponse` collects proofs about the query name and proofs about wildcards separately and lets any of
the one kind go with any of the other: an NSEC of the query name itself, which says that the name exists, counts
towards NXDOMAIN (`nxdomain_of_existing_name`), a gap that holds an empty non-terminal counts as a gap, and the
wildcard of any ancestor will do.
-/

namespace NothingDNS.Dnssec

open List Gaps Name

abbrev keyCmp : List (List Nat) → List (List Nat) → Ordering := List.compareLex (List.compareLex compare)

theorem nameInRange_eq (name owner next : Name) : nameInRange name owner next = inGap keyCmp name.key owner.key next.key :=
  rfl

theorem map_toNat_inj {s t : Text} (h : s.map Char.toNat = t.map Char.toNat) : s = t :=
  map_injective_iff.2 (fun _ _ hcd => Char.toNat_inj.1 hcd) h

variable {a b : Name}

theorem key_inj (h : a.key = b.key) : a.canonical = b.canonical := by
  have hmp := reverse_injective h
  exact map_injective_iff.2 (fun _ _ => map_toNat_inj) hmp

theorem key_prefix_iff : a.key <+: b.key ↔ a.canonical <:+ b.canonical := by
  rw [key, key, List.reverse_prefix]
  constructor
  · rintro ⟨s, hs⟩
    obtain ⟨u, v, huv, -, hv⟩ := map_eq_append_iff.1 hs.symm
    have heq : v = a.canonical := map_injective_iff.2 (fun _ _ => map_toNat_inj) hv
    exact ⟨u, by rw [← heq, ← huv]⟩
  · exact fun h => h.map _

theorem canonical_canonical (n : Name) : canonical n.canonical = n.canonical := by
  simp only [canonical, map_map]
  exact map_congr_left fun l _ => Text.lower_lower l

/-- A zone with its NSEC chain: the owner names in canonical order with the types at each. Empty
non-terminals and the names below a delegation have no NSEC. -/
structure SignedZone where
  apex : Name
  owners : List (Name × List Nat)
  apex_mem : apex ∈ owners.map Prod.fst
  below : ∀ o ∈ owners, apex <:+ o.1
  folded : ∀ o ∈ owners, Name.canonical o.1 = o.1
  ascending : Ascending keyCmp (owners.map fun o => Name.key o.1)

namespace SignedZone

variable (z : SignedZone)

/-- The name is an owner or an empty non-terminal. -/
def hasName (n : Name) : Bool := z.apex <:+ n ∧ ∃ o ∈ z.owners, n <:+ o.1

/-- The longest existing name at or above `q`. -/
def ClosestEncloser (q ce : Name) : Prop :=
  ce ∈ q.canonical.tails ∧ z.hasName ce ∧ ∀ a ∈ q.canonical.tails, z.hasName a → a <:+ ce

instance (q ce : Name) : Decidable (z.ClosestEncloser q ce) := inferInstanceAs (Decidable (_ ∧ _))

/-- A wildcard of the zone that matches `q`, with its types. -/
def Matches (q : Name) (types : List Nat) : Prop :=
  ¬ z.hasName q.canonical ∧ ∃ ce, z.ClosestEncloser q ce ∧ (['*'] :: ce, types) ∈ z.owners

/-- The zone answers a query for type `t`, directly or through a wildcard. -/
def Answers (q : Name) (t : Nat) : Prop :=
  (∃ types, (q.canonical, types) ∈ z.owners ∧ t ∈ types) ∨ ∃ types, z.Matches q types ∧ t ∈ types

/-- The Labels field of a signature: the root and a leading wildcard label do not count. -/
def sigLabels (owner : Name) : Nat := if owner.head? = some ['*'] then owner.length - 1 else owner.length

def signs (d : SignedData) (l : (Name × List Nat) × (Name × List Nat)) : Bool :=
  decide (d.typeCovered = typeNSEC ∧ d.labels = sigLabels l.1.1 ∧
    d.rrs = [⟨l.1.1, typeNSEC, 1, d.originalTTL, .nsec ⟨l.2.1, l.1.2⟩⟩])

/-- The keys sign no other denial than the links of the chain. -/
structure Genuine (E : Env) (dnsKeys : List RR) : Prop where
  sort_perm : ∀ rrs, (E.sort rrs).Perm rrs
  verify : ∀ rr ∈ dnsKeys, ∀ k, rr.key? = some k → ∀ d s, E.verify k d s = true →
    d.typeCovered = typeNSEC ∨ d.typeCovered = typeNSEC3 → ∃ l ∈ links z.owners, signs d l = true

end SignedZone

variable {E : Env} {z : SignedZone} {msg : Message} {dnsKeys : List RR} {q : Name}

theorem key_canonical (n : Name) : key n.canonical = n.key := by
  rw [key, key, canonical_canonical]

theorem nameInRange_congr {owner owner' : Name} (h : owner.canonical = owner') (name next : Name) :
    nameInRange name owner next = nameInRange name owner' next := by
  rw [nameInRange_eq, nameInRange_eq, ← h, key_canonical]

variable {l : (Name × List Nat) × (Name × List Nat)}

theorem mem_links_keys (hl : l ∈ links z.owners) : (key l.1.1, key l.2.1) ∈ links (z.owners.map fun o => key o.1) := by
  rw [links_map]
  exact mem_map_of_mem (f := Prod.map _ _) hl

variable {n : Name}

theorem SignedZone.not_owner_of_inRange (hl : l ∈ links z.owners)
    (hr : nameInRange n l.1.1 l.2.1 = true) : ∀ o ∈ z.owners, n.canonical ≠ o.1 := by
  intro o ho heq
  refine ne_of_inGap z.ascending (mem_links_keys hl) hr _ (mem_map_of_mem ho) ?_
  rw [← heq, key_canonical]
  exact Std.ReflCmp.compare_self

/-- **A name that exists in a gap** is an empty non-terminal, and the gap ends below it. The names below
`n` follow it without a break, so the first owner after the gap is one of them. -/
theorem SignedZone.next_below_of_inRange (hl : l ∈ links z.owners)
    (hr : nameInRange n l.1.1 l.2.1 = true) (hn : z.hasName n.canonical = true) : n.canonical <:+ canonical l.2.1 := by
  obtain ⟨hax, w, hw, hsf⟩ := of_decide_eq_true hn
  have hfl := z.folded w hw
  obtain ⟨s, hs⟩ : n.key <+: key w.1 := key_prefix_iff.2 (hfl.symm ▸ hsf)
  have hnw : (keyCmp n.key (key w.1)).isLE := hs ▸ compareLex_append_isLE _
  have hwm : key w.1 ∈ z.owners.map fun o => key o.1 := mem_map_of_mem hw
  -- a name behind the owner of the link has no owner name below it before the link's end
  have haf : keyCmp n.key (key l.1.1) = .gt → ¬ (keyCmp (key w.1) (key l.1.1)).isLE := by
    intro hgt hle
    have hlt := Std.OrientedCmp.gt_iff_lt.1 hgt
    have : keyCmp (key l.1.1) (key w.1) = .lt := Std.TransCmp.lt_of_lt_of_isLE hlt hnw
    rw [Std.OrientedCmp.gt_iff_lt.2 this] at hle
    cases hle
  rw [nameInRange_eq, inGap] at hr
  rcases links_cases z.ascending (mem_links_keys hl) with ⟨hlt, hot⟩ | ⟨hle, hge⟩
  · simp only [hlt, decide_eq_true_eq] at hr
    have hnx : (keyCmp (key l.2.1) (key w.1)).isLE := (hot _ hwm).resolve_left (haf hr.1)
    have hb : (keyCmp n.key (key l.2.1)).isLE := by
      rw [hr.2]
      rfl
    exact key_prefix_iff.1 (prefix_of_between (s := s) hb (hs ▸ hnx))
  exfalso
  have hnt : keyCmp n.key (key l.2.1) ≠ .lt := by
    intro hlt
    -- everything in the zone is at or behind its apex, where the ring begins
    obtain ⟨o, ho, hop⟩ := mem_map.1 z.apex_mem
    have hap : key o.1 <+: n.key := key_prefix_iff.2 (by rw [z.folded o ho, hop]; exact hax)
    obtain ⟨t, ht⟩ := hap
    have hg' := hge _ (mem_map_of_mem (f := fun o : Name × List Nat => key o.1) ho)
    have hlt' : keyCmp n.key (key o.1) = .lt := Std.TransCmp.lt_of_lt_of_isLE hlt hg'
    have hon : (keyCmp (key o.1) n.key).isLE := ht ▸ compareLex_append_isLE _
    rw [Std.OrientedCmp.gt_iff_lt.2 hlt'] at hon
    cases hon
  split at hr
  next => exact haf (of_decide_eq_true hr).1 (hle _ hwm)
  next =>
    rcases of_decide_eq_true hr with h | h
    · exact haf h (hle _ hwm)
    · exact hnt h
  next heq =>
    rcases hcm : keyCmp n.key (key l.1.1) with _ | _ | _
    · exact hnt (by rw [← Std.TransCmp.congr_right heq]; exact hcm)
    · exact absurd hcm (of_decide_eq_true hr)
    · exact haf hcm (hle _ hwm)

/-! ## The records that passed -/

theorem typeCovered_of_findRRSIG {answers : List RR} {name : Name} {type : Nat} {s : RRSIG}
    (h : findRRSIG answers name type = some s) : s.typeCovered = type := by
  obtain ⟨rr, -, hrr⟩ := exists_of_findSome?_eq_some h
  unfold RR.sigOver? at hrr
  split at hrr
  · split at hrr
    next hty => cases hrr; exact hty
    next => cases hrr
  · cases hrr

variable {rr : RR}

theorem verified_of_authenticated (h : rr ∈ authenticatedDenialRRs E msg dnsKeys) :
    rr ∈ denialSetOf msg.authorities rr ∧ ∃ s, findRRSIG msg.authorities rr.name rr.type = some s ∧
      validateRRSIG E (denialSetOf msg.authorities rr) s dnsKeys = true := by
  obtain ⟨hd, -, hse⟩ := mem_flatMap.1 h
  unfold authenticatedSet at hse
  split at hse
  · cases hse
  next s hs =>
    split at hse
    next hv =>
      obtain ⟨-, -, hnm, hty⟩ : rr ∈ msg.authorities ∧ isDenial rr ∧
          rr.name.canonical = hd.name.canonical ∧ rr.type = hd.type := by
        simpa [denialSetOf] using hse
      -- the head stands for the same RRset and the same signature
      have hst : denialSetOf msg.authorities rr = denialSetOf msg.authorities hd := by
        unfold denialSetOf
        rw [hnm, hty]
      have hsg : findRRSIG msg.authorities rr.name rr.type = some s := by
        rw [← hs]
        simp only [findRRSIG, hnm, hty]
      exact ⟨hst ▸ hse, s, hsg, hst ▸ hv⟩
    next => cases hse

/-- **A record that passed is a link of the chain**, under the owner the signature was made for. -/
theorem link_of_authenticated (hG : z.Genuine E dnsKeys) (hrr : rr ∈ authenticatedDenialRRs E msg dnsKeys) :
    rr ∈ msg.authorities ∧ rr.type = typeNSEC ∧ ∃ s, findRRSIG msg.authorities rr.name rr.type = some s ∧
      ∃ l ∈ links z.owners, wildcardOwner rr.name s.labels = l.1.1 ∧ rr.nsec? = some ⟨l.2.1, l.1.2⟩ := by
  obtain ⟨hst, s, hs, hv⟩ := verified_of_authenticated hrr
  obtain ⟨hmem, hdn⟩ : rr ∈ msg.authorities ∧ isDenial rr := by simpa [denialSetOf] using hst
  simp only [validateRRSIG, Bool.and_eq_true, any_eq_true, mem_filterMap] at hv
  obtain ⟨-, k, ⟨krr, hkr, hk⟩, -, hvr⟩ := hv
  have hcv : s.typeCovered = rr.type := typeCovered_of_findRRSIG hs
  have hd := of_decide_eq_true hdn
  obtain ⟨l, hl, hsg⟩ := hG.verify krr hkr k hk _ _ hvr (by
    show s.typeCovered = _ ∨ s.typeCovered = _
    rw [hcv]
    exact hd)
  obtain ⟨hns, -, hrs⟩ := of_decide_eq_true hsg
  have hin := mem_map_of_mem (f := fun rr : RR => (⟨wildcardOwner rr.name s.labels, rr.type, rr.recordClass,
    s.originalTTL, rr.data⟩ : CanonicalRR)) ((hG.sort_perm _).symm.subset hst)
  change _ ∈ (canonicalizeRRSet E (denialSetOf msg.authorities rr) s).rrs at hin
  rw [hrs] at hin
  injection mem_singleton.1 hin with how _ _ _ hdt
  exact ⟨hmem, hcv.symm.trans hns, s, hs, l, hl, how, by rw [RR.nsec?, hdt]⟩

def Covered (E : Env) (msg : Message) (dnsKeys : List RR) (n : Name) : Prop :=
  ∃ rr ∈ authenticatedDenialRRs E msg dnsKeys, ∃ nsec, rr.nsec? = some nsec ∧ nameInRange n rr.name nsec.nextDomain = true

/-- The records fit the denial: none stands under the expanded name of a wildcard, a gap with the
query name comes with one for the wildcard at the closest encloser, and a denial of the name has
neither an NSEC of the name itself nor one that ends below it. The names are in ASCII. -/
structure Fitting (z : SignedZone) (E : Env) (msg : Message) (dnsKeys : List RR) (q : Name) : Prop where
  ascii : q.Ascii ∧ ∀ o ∈ z.owners, Name.Ascii o.1
  unexpanded : ∀ rr ∈ msg.authorities, rr.type = typeNSEC → ∀ s, findRRSIG msg.authorities rr.name rr.type = some s →
    wildcardOwner rr.name s.labels = rr.name.canonical
  wildcard : Covered E msg dnsKeys q → ∀ ce, z.ClosestEncloser q ce → Covered E msg dnsKeys (['*'] :: ce)
  nxdomain : msg.nxdomain = true → ∀ rr ∈ msg.authorities, ∀ nsec, rr.nsec? = some nsec →
    rr.name.canonical ≠ q.canonical ∧ ¬ q.canonical <:+ nsec.nextDomain.canonical

theorem Fitting.link (hF : Fitting z E msg dnsKeys q) (hG : z.Genuine E dnsKeys)
    (hrr : rr ∈ authenticatedDenialRRs E msg dnsKeys) :
    ∃ l ∈ links z.owners, rr.name.canonical = l.1.1 ∧ rr.nsec? = some ⟨l.2.1, l.1.2⟩ := by
  obtain ⟨hmem, hty, s, hs, l, hl, how, hd⟩ := link_of_authenticated hG hrr
  exact ⟨l, hl, (hF.unexpanded rr hmem hty s hs).symm.trans how, hd⟩

theorem Fitting.not_owner_of_covered (hF : Fitting z E msg dnsKeys q) (hG : z.Genuine E dnsKeys)
    (h : Covered E msg dnsKeys n) : ∀ o ∈ z.owners, n.canonical ≠ o.1 := by
  obtain ⟨rr, hrr, nsec, hns, hr⟩ := h
  obtain ⟨l, hl, hnm, hd⟩ := hF.link hG hrr
  obtain rfl : nsec = ⟨l.2.1, l.1.2⟩ := Option.some.inj (hns.symm.trans hd)
  rw [nameInRange_congr hnm] at hr
  exact z.not_owner_of_inRange hl hr

theorem canonical_wildcard {ce : Name} (h : ce ∈ q.canonical.tails) : canonical (['*'] :: ce) = ['*'] :: ce := by
  have hsf : ce <:+ q.canonical := (mem_tails _ _).1 h
  obtain ⟨u, v, -, -, hv⟩ : ∃ u v, q = u ++ v ∧ canonical u = u.map Text.lower ∧ canonical v = ce := by
    obtain ⟨s, hs⟩ := hsf
    obtain ⟨u, v, huv, -, hv⟩ := map_eq_append_iff.1 hs.symm
    exact ⟨u, v, huv, rfl, hv⟩
  have hfl : canonical ce = ce := by rw [← hv, canonical_canonical]
  show Text.lower ['*'] :: canonical ce = _
  rw [hfl]
  rfl

theorem Fitting.no_match (hF : Fitting z E msg dnsKeys q) (hG : z.Genuine E dnsKeys) (h : Covered E msg dnsKeys q)
    (types : List Nat) : ¬ z.Matches q types := by
  rintro ⟨-, ce, hce, hmem⟩
  refine hF.not_owner_of_covered hG (hF.wildcard h ce hce) _ hmem ?_
  exact canonical_wildcard hce.1

variable {sha1 : List UInt8 → List UInt8} {param : Option Nsec3Params} {t : Nat}

theorem Fitting.proof_cases (hF : Fitting z E msg dnsKeys q) (hG : z.Genuine E dnsKeys)
    (hrr : rr ∈ authenticatedDenialRRs E msg dnsKeys) (hp : provesName sha1 param q t rr = true) :
    Covered E msg dnsKeys q ∨ rr.name.canonical = q.canonical ∧ ∃ types, (q.canonical, types) ∈ z.owners ∧ t ∉ types := by
  obtain ⟨l, hl, hnm, hd⟩ := hF.link hG hrr
  have hty := (link_of_authenticated hG hrr).2.1
  simp only [provesName, hty, hd, Option.any_some, decide_true, Bool.true_and,
    decide_eq_false (by decide : ¬ typeNSEC = typeNSEC3), Bool.false_and, Bool.or_false] at hp
  unfold validateNSEC at hp
  split at hp
  next heq =>
    refine .inr ⟨heq, l.1.2, ?_, of_decide_eq_true hp⟩
    rw [← heq, hnm]
    exact (mem_of_mem_links hl).1
  next => exact .inl ⟨rr, hrr, _, hd, hp⟩

theorem SignedZone.types_unique {ts ts' : List Nat} (h : (n, ts) ∈ z.owners) (h' : (n, ts') ∈ z.owners) : ts = ts' := by
  have hp := pairwise_map.1 z.ascending
  by_contra hne
  have hir : keyCmp (key n) (key n) ≠ .lt := by
    have hsl : keyCmp (key n) (key n) = .eq := Std.ReflCmp.compare_self
    rw [hsl]
    decide
  have hne' : (n, ts) ≠ (n, ts') := fun heq => hne (Prod.mk.inj heq).2
  have hg := pairwise_iff_getElem.1 hp
  obtain ⟨i, hi, hgi⟩ := getElem_of_mem h
  obtain ⟨j, hj, hgj⟩ := getElem_of_mem h'
  rcases lt_trichotomy i j with hlt | rfl | hlt
  · have := hg i j hi hj hlt
    rw [hgi, hgj] at this
    exact hir this
  · exact hne' (hgi.symm.trans hgj)
  have := hg j i hj hi hlt
  rw [hgi, hgj] at this
  exact hir this

theorem proof_of_secure (hG : z.Genuine E dnsKeys)
    (ht : msg.qtype = some t) (h : validateNegativeResponse sha1 E param msg q dnsKeys = .secure) :
    ∃ rr ∈ authenticatedDenialRRs E msg dnsKeys, provesName sha1 param q t rr = true := by
  have hn3 : (authenticatedDenialRRs E msg dnsKeys).filter (fun rr => decide (rr.type = typeNSEC3)) = [] := by
    rw [filter_eq_nil_iff]
    intro rr hrr
    rw [(link_of_authenticated hG hrr).2.1]
    decide
  unfold validateNegativeResponse at h
  simp only [ht, hn3, ne_eq, not_true_eq_false, false_and, if_false] at h
  split at h; · cases h
  split at h; · cases h
  have het : ∀ k : Name, k ∈ ((authenticatedDenialRRs E msg dnsKeys).filter (provesName sha1 param q t)).map
      (fun rr => rr.name.canonical) → ∃ rr ∈ authenticatedDenialRRs E msg dnsKeys, provesName sha1 param q t rr = true := by
    intro k hk
    obtain ⟨rr, hrr, -⟩ := mem_map.1 hk
    exact ⟨rr, (mem_filter.1 hrr).1, (mem_filter.1 hrr).2⟩
  split at h
  · split at h
    next hp =>
      obtain ⟨k, hk, -⟩ := any_eq_true.1 hp.2
      exact het k hk
    next => cases h
  split at h
  next hp =>
    obtain ⟨k, hk⟩ := exists_mem_of_ne_nil _ hp
    exact het k hk
  next => cases h

def zoneB : SignedZone where
  apex := [['b']]
  owners := [([['b']], [2, 6]), ([['w'], ['b']], [1])]
  apex_mem := by decide
  below := by decide
  folded := by decide
  ascending := by unfold Ascending; decide

/-- The key of `b` signs the links of the chain and nothing else. -/
def nsecEnv (z : SignedZone) : Env where
  keyTag _ := 0
  verify _ d _ := (links z.owners).any (SignedZone.signs d)
  timeValid _ := true
  sort rrs := rrs
  query _ _ := none
  dsDenial _ _ _ := false
  wildcardProven _ _ _ _ _ := false
  negativeProven _ _ _ := false
  maxDelegationDepth := 20
  requireDNSSEC := false

def keyB : List RR := [⟨[['b']], typeDNSKEY, 1, .dnskey ⟨257, 3, 8, []⟩⟩]

theorem genuine_nsecEnv (z : SignedZone) : z.Genuine (nsecEnv z) keyB where
  sort_perm _ := .refl _
  verify _ _ _ _ d s h _ := by
    obtain ⟨l, hl, hs⟩ := any_eq_true.1 h
    exact ⟨l, hl, hs⟩

def nsecRRs (owner next : Name) (types : List Nat) : List RR :=
  [⟨owner, typeNSEC, 1, .nsec ⟨next, types⟩⟩,
    ⟨owner, typeRRSIG, 1, .rrsig ⟨typeNSEC, 8, owner.length, 0, 0, 0, 0, [['b']], []⟩⟩]

def nxdomainB (t : Nat) : Message :=
  ⟨[], nsecRRs [['b']] [['w'], ['b']] [2, 6] ++ nsecRRs [['w'], ['b']] [['b']] [1], true, some t⟩

theorem fitting_ab : Fitting zoneB (nsecEnv zoneB) (nxdomainB 1) keyB [['a'], ['b']] where
  ascii := by decide
  unexpanded := by decide
  wildcard _ ce hce := by
    have hall : ∀ ce ∈ canonical [['a'], ['b']] |>.tails, zoneB.ClosestEncloser [['a'], ['b']] ce → ce = [['b']] := by
      decide
    rw [hall ce hce.1 hce]
    exact ⟨⟨[['b']], typeNSEC, 1, .nsec ⟨[['w'], ['b']], [2, 6]⟩⟩, by decide, _, rfl, by decide⟩
  nxdomain _ rr hrr nsec hns := by
    have hall : ∀ rr ∈ (nxdomainB 1).authorities, rr.name.canonical ≠ [['a'], ['b']] ∧
        rr.nsec?.all (fun n => decide (¬ [['a'], ['b']] <:+ n.nextDomain.canonical)) = true := by decide
    obtain ⟨hnm, hnx⟩ := hall rr hrr
    rw [hns, Option.all_some, decide_eq_true_eq] at hnx
    exact ⟨hnm, hnx⟩

end NothingDNS.Dnssec
