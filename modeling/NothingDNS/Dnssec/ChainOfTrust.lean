import Mathlib.Data.List.Pairwise
import NothingDNS.Dnssec.Validator
/-!
# What a Secure result means

`World` is the truth the validator tries to establish: the zones, who holds which keys, what each zone publishes
and what has been signed. A zone is `Sound` if neither it nor a zone above it belongs to the adversary.

The validator compares neither the owner of DS records with the zone it asked for, nor the owner and signer of an
answer with the zone of the keys, so an adversary with a zone of its own signs names of others
(`foreign_name_secure`).
-/

namespace NothingDNS.Dnssec

open List

structure World where
  /-- The apexes, case-folded. -/
  zone : Name → Prop
  /-- The zones the adversary owns. -/
  owned : Name → Prop
  holds : Name → DNSKEY → Prop
  /-- A zone publishes an RRset: owner, type, class and data. -/
  publishes : Name → Name → Nat → Nat → List RData → Prop
  signed : DNSKEY → SignedData → Prop

namespace World

variable (W : World)

/-- A zone the adversary owns is above or at `n`. -/
def Controlled (n : Name) : Prop := ∃ a, W.zone a ∧ W.owned a ∧ a <:+ n

def Sound (z : Name) : Prop := W.zone z ∧ ¬ W.Controlled z

def InZone (z n : Name) : Prop := W.zone z ∧ z <:+ n.canonical ∧ ∀ z', W.zone z' → z' <:+ n.canonical → z' <:+ z

/-- The assumptions: ideal signatures, anchors that name keys of their zones, and zones out of the
adversary's hands that sign only what they publish, list keys of their children in DS records and
their own keys in DNSKEY records. -/
structure Honest (E : Env) (anchors : List TrustAnchor) : Prop where
  sort_perm : ∀ rrs, (E.sort rrs).Perm rrs
  verify_signed : ∀ k d s, E.verify k d s = true → W.signed k d
  anchor_zone : ∀ a ∈ anchors, W.Sound a.zone
  anchor_key : ∀ a ∈ anchors, ∀ rr k, matchesAnchor E a rr k = true → W.holds a.zone k
  zone_name : ∀ z, W.zone z → z.head? ≠ some ['*']
  signs_published : ∀ z k d, W.Sound z → W.holds z k → W.signed k d → ∃ owner type cls data,
    W.publishes z owner type cls data ∧ d.rrs.Perm (data.map fun x => ⟨owner, type, cls, d.originalTTL, x⟩)
  ds_child : ∀ z owner cls data, W.Sound z → W.publishes z owner typeDS cls data → W.zone owner
  ds_key : ∀ z owner cls data d, W.Sound z → W.publishes z owner typeDS cls data → RData.ds d ∈ data →
    W.Sound owner → ∃ t k, d.digest = .of t owner k ∧ W.holds owner k
  dnskey_own : ∀ z owner cls data k, W.Sound z → W.publishes z owner typeDNSKEY cls data →
    RData.dnskey k ∈ data → W.holds z k

end World

variable {E : Env} {W : World} {anchors : List TrustAnchor} {rrSet keys : List RR} {z : Name}

def KeysOf (W : World) (z : Name) (keys : List RR) : Prop := ∀ rr ∈ keys, ∀ k, rr.key? = some k → W.holds z k

/-- **A signature under keys of a sound zone**: the zone publishes these data, at the owner name or at
the wildcard above it. -/
theorem published_of_validateRRSIG (hW : W.Honest E anchors) (hz : W.Sound z) {s : RRSIG}
    (hky : KeysOf W z keys) (hv : validateRRSIG E rrSet s keys = true) :
    ∃ owner type cls data, W.publishes z owner type cls data ∧ (rrSet.map RR.data).Perm data ∧
      ∀ rr ∈ rrSet, wildcardOwner rr.name s.labels = owner ∧ rr.type = type ∧ rr.recordClass = cls := by
  simp only [validateRRSIG, Bool.and_eq_true, any_eq_true, mem_filterMap] at hv
  obtain ⟨-, k, ⟨rr, hrr, hk⟩, -, hvr⟩ := hv
  obtain ⟨owner, type, cls, data, hpb, hp⟩ :=
    hW.signs_published z k _ hz (hky rr hrr k hk) (hW.verify_signed _ _ _ hvr)
  have hsr := hW.sort_perm rrSet
  refine ⟨owner, type, cls, data, hpb, ?_, fun x hx => ?_⟩
  · have hd := hp.map CanonicalRR.data
    simp only [canonicalizeRRSet, map_map, Function.comp_def, map_id'] at hd
    exact (hsr.map RR.data).symm.trans hd
  · have hmem : (⟨wildcardOwner x.name s.labels, x.type, x.recordClass, s.originalTTL, x.data⟩ : CanonicalRR) ∈
        (canonicalizeRRSet E rrSet s).rrs := mem_map.2 ⟨x, hsr.symm.subset hx, rfl⟩
    obtain ⟨y, -, hy⟩ := mem_map.1 (hp.subset hmem)
    injection hy with how hty hcl
    exact ⟨how.symm, hty.symm, hcl.symm⟩

variable {rr : RR}

theorem data_of_key? {k : DNSKEY} (h : rr.key? = some k) : rr.data = .dnskey k := by
  unfold RR.key? at h
  split at h
  next hd => cases h; exact hd
  next => cases h

theorem data_of_ds? {d : DS} (h : rr.ds? = some d) : rr.data = .ds d := by
  unfold RR.ds? at h
  split at h
  next hd => cases h; exact hd
  next => cases h

theorem keysOf_selfSigned (hW : W.Honest E anchors) (hz : W.Sound z) {sigs : List RRSIG} {trusted : List RR}
    (hft : fetchDNSKEYAndSigs E z = some (keys, sigs)) (htr : KeysOf W z trusted)
    (hsl : verifyDNSKEYSelfSignature E keys sigs trusted = true) : KeysOf W z keys := by
  obtain ⟨msg, -, heq⟩ := Option.map_eq_some_iff.1 hft
  cases heq
  obtain ⟨s, -, hv⟩ := any_eq_true.1 hsl
  obtain ⟨owner, type, cls, data, hpb, hp, hall⟩ := published_of_validateRRSIG hW hz htr hv
  intro rr hrr k hk
  have hty : typeDNSKEY = type := (of_decide_eq_true (mem_filter.1 hrr).2).symm.trans (hall rr hrr).2.1
  rw [← hty] at hpb
  exact hW.dnskey_own _ _ _ _ k hz hpb (hp.subset (mem_map.2 ⟨rr, hrr, data_of_key? hk⟩))

/-- The names the validator does not look at: the records of a DS answer belong to the zone asked for. -/
def DSNamesMatch (E : Env) : Prop :=
  ∀ z msg, E.query z typeDS = some msg → ∀ rr ∈ msg.answers, rr.type = typeDS → rr.name.canonical = z

variable {parent child : Name} {ds : List RR} {msg : Message}

theorem ds_published (hW : W.Honest E anchors) (hN : DSNamesMatch E) {parentKeys : List RR}
    (hp : W.Sound parent) (hky : KeysOf W parent parentKeys)
    (hft : fetchDS E child = some (ds, msg)) (hne : ds ≠ []) (hsg : verifyDSRRSIG E msg ds parentKeys = true) :
    ∃ cls data, W.publishes parent child typeDS cls data ∧ (ds.map RR.data).Perm data := by
  obtain ⟨m, hq, heq⟩ := Option.map_eq_some_iff.1 hft
  obtain ⟨rfl, rfl⟩ := Prod.mk.inj heq
  obtain ⟨s, -, hv⟩ := any_eq_true.1 hsg
  obtain ⟨owner, type, cls, data, hpb, hpr, hall⟩ := published_of_validateRRSIG hW hp hky hv
  obtain ⟨rr, hrr⟩ := exists_mem_of_ne_nil _ hne
  have hmem := mem_filter.1 hrr
  have hrt : rr.type = typeDS := of_decide_eq_true hmem.2
  obtain ⟨how, hty, -⟩ := hall rr hrr
  rw [← hty, hrt] at hpb
  have hch : owner = child := by
    rw [← hN child m hq rr hmem.1 hrt, ← how, wildcardOwner]
    split
    · rfl
    · -- a wildcard has no delegation
      next hlen =>
      rw [wildcardOwner, if_neg hlen] at how
      have hzn := hW.ds_child parent owner cls data hp hpb
      rw [← how] at hzn
      exact absurd rfl (hW.zone_name _ hzn)
  subst hch
  exact ⟨cls, data, hpb, hpr⟩

theorem keysOf_matchingDS (hW : W.Honest E anchors) {cls : Nat}
    {data : List RData} (hp : W.Sound parent) (hpb : W.publishes parent child typeDS cls data)
    (hpr : (ds.map RR.data).Perm data) (hc : W.Sound child) (childKeys : List RR) :
    KeysOf W child (keysMatchingDS E ds childKeys) := by
  intro rr hrr k hk
  obtain ⟨⟨d, rr', k'⟩, hp', rfl⟩ := mem_map.1 hrr
  obtain ⟨hpa, hmt⟩ := mem_filter.1 hp'
  obtain ⟨d', hd', hin⟩ := mem_flatMap.1 (mem_of_mem_take hpa)
  obtain ⟨x, hx, hxk⟩ := mem_filterMap.1 hin
  obtain ⟨k'', hk'', heq⟩ := Option.map_eq_some_iff.1 hxk
  obtain ⟨rfl, rfl, rfl⟩ : d' = d ∧ x = rr' ∧ k'' = k' := by simpa using heq
  obtain ⟨y, hy, hyd⟩ := mem_filterMap.1 hd'
  have hdt : RData.ds d' ∈ data := hpr.subset (mem_map.2 ⟨y, hy, data_of_ds? hyd⟩)
  obtain ⟨t, key, hd, hh⟩ := hW.ds_key _ _ _ _ d' hp hpb hdt hc
  have hcl := (of_decide_eq_true hmt).2.2
  rw [hd, calculateDSDigestFromDNSKEY] at hcl
  split at hcl <;> cases hcl
  obtain rfl : k'' = k := Option.some.inj (hk''.symm.trans hk)
  exact hh

/-- What is known of a link: its keys belong to the zone, or the adversary decides about the zone. -/
def Trusted (W : World) (link : ChainLink) : Prop :=
  W.Sound link.zone ∧ KeysOf W link.zone link.dnsKeys ∨ W.Controlled link.zone

theorem descend_trusted (hW : W.Honest E anchors) (hN : DSNamesMatch E) :
    ∀ {children : List Name} {depth : Nat} {parent link : ChainLink}, children.Pairwise (· <:+ ·) →
      (W.Controlled parent.zone → ∀ c ∈ children, parent.zone <:+ c) → Trusted W parent →
      descend E depth parent children = .ok (link, false) →
      Trusted W link ∧ link.zone = children.getLast?.getD parent.zone
  | [], _, _, _, _, _, ht, h => by
    cases h
    exact ⟨ht, rfl⟩
  | child :: rest, depth, parent, link, hp, hb, ht, h => by
    rw [descend] at h
    split at h
    · cases h
    cases hds : fetchDS E child with
    | none => simp only [hds] at h; cases h
    | some r =>
      obtain ⟨ds, msg⟩ := r
      simp only [hds] at h
      split at h
      · split at h <;> cases h
      next hne =>
        split at h
        · cases h
        next hsg =>
          cases hky : fetchDNSKEYAndSigs E child with
          | none => simp only [hky] at h; cases h
          | some r =>
            obtain ⟨childKeys, childSigs⟩ := r
            simp only [hky] at h
            split at h
            · cases h
            split at h
            · cases h
            next hsl =>
              have hp' := pairwise_cons.1 hp
              have htr : Trusted W ⟨child, childKeys⟩ := by
                rcases ht with ⟨hsn, hk⟩ | ⟨a, hza, hoa, hsf⟩
                · by_cases hc : W.Controlled child
                  · exact .inr hc
                  · obtain ⟨cls, data, hpb, hpr⟩ :=
                      ds_published hW hN hsn hk hds hne (Bool.not_eq_false _ ▸ hsg)
                    have hch : W.Sound child := ⟨hW.ds_child _ _ _ _ hsn hpb, hc⟩
                    exact .inl ⟨hch, keysOf_selfSigned hW hch hky
                      (keysOf_matchingDS hW hsn hpb hpr hch childKeys) (Bool.not_eq_false _ ▸ hsl)⟩
                · exact .inr ⟨a, hza, hoa, hsf.trans (hb ⟨a, hza, hoa, hsf⟩ child mem_cons_self)⟩
              obtain ⟨hln, hzn⟩ := descend_trusted hW hN hp'.2 (fun _ c hc => hp'.1 c hc) htr h
              refine ⟨hln, hzn.trans ?_⟩
              cases rest with
              | nil => rfl
              | cons c cs => rw [getLast?_cons_cons, getLast?_eq_some_getLast (cons_ne_nil c cs)]; rfl

theorem pairwise_tails : ∀ l : List Label, l.tails.Pairwise fun a b => b <:+ a
  | [] => pairwise_singleton _ _
  | a :: l => by
    rw [tails_cons]
    refine pairwise_cons.2 ⟨fun b hb => ?_, pairwise_tails l⟩
    exact ((mem_tails _ _).1 hb).trans (suffix_cons a l)

theorem pairwise_childZones (remaining : List Label) : (childZones remaining).Pairwise (· <:+ ·) :=
  pairwise_reverse.2 ((pairwise_tails remaining).sublist (dropLast_sublist _))

theorem getLast?_childZones (remaining : List Label) (z : Name) :
    (childZones remaining).getLast?.getD z = if remaining = [] then z else remaining := by
  cases remaining with
  | nil => rfl
  | cons a l =>
    have hne : l.tails ≠ [] := by
      cases l <;> simp
    simp [childZones, dropLast_cons_of_ne_nil hne]

variable {link : ChainLink}

theorem buildChain_trusted (hW : W.Honest E anchors) (hN : DSNamesMatch E) {anchor : TrustAnchor}
    {remaining : List Label} (hmem : anchor ∈ anchors) (h : buildChain E anchor remaining = .ok (link, false)) :
    Trusted W link ∧ link.zone = if remaining = [] then anchor.zone else remaining := by
  have hsn := hW.anchor_zone anchor hmem
  unfold buildChain at h
  cases hft : fetchDNSKEYAndSigs E anchor.zone with
  | none => simp only [hft] at h; cases h
  | some r =>
    obtain ⟨keys, sigs⟩ := r
    simp only [hft] at h
    split at h
    · cases h
    split at h
    · cases h
    next hsl =>
      have hac : KeysOf W anchor.zone (keysMatchingAnchor E anchor keys) := by
        intro rr hrr k hk
        obtain ⟨-, hay⟩ := mem_filter.1 hrr
        rw [hk] at hay
        exact hW.anchor_key anchor hmem rr k hay
      have htr : Trusted W ⟨anchor.zone, keys⟩ :=
        .inl ⟨hsn, keysOf_selfSigned hW hsn hft hac (Bool.not_eq_false _ ▸ hsl)⟩
      obtain ⟨hln, hzn⟩ := descend_trusted hW hN (pairwise_childZones remaining)
        (fun hc => absurd hc hsn.2) htr h
      exact ⟨hln, hzn.trans (getLast?_childZones remaining anchor.zone)⟩

theorem mem_of_findClosestAnchor : ∀ {name above remaining : List Label} {anchor : TrustAnchor},
    findClosestAnchor anchors above name = some (anchor, remaining) → anchor ∈ anchors
  | [], _, _, _, h => by
    obtain ⟨a, ha, heq⟩ := Option.map_eq_some_iff.1 h
    cases heq
    exact mem_of_find?_eq_some ha
  | l :: ls, _, _, _, h => by
    rw [findClosestAnchor] at h
    split at h
    next ha => cases h; exact mem_of_find?_eq_some ha
    next => exact mem_of_findClosestAnchor h

def signingZone (anchors : List TrustAnchor) (queryName : Name) : Option Name :=
  (findClosestAnchor anchors [] queryName.canonical).map fun r => if r.2 = [] then r.1.zone else r.2

theorem exists_head {answers : List RR} (hrr : rr ∈ answers) (hty : rr.type ≠ typeRRSIG) :
    ∃ h ∈ heads answers, h.name = rr.name ∧ h.type = rr.type := by
  by_contra hno
  have hall : ∀ b ∈ heads answers, ¬ (rr.name = b.name ∧ rr.type = b.type) := by
    intro b hb hsm
    exact hno ⟨b, hb, hsm.1.symm, hsm.2.symm⟩
  have hsl := (forall_mem_pwFilter (fun {x y z} hxz => by
    by_cases hxy : x.name = y.name ∧ x.type = y.type
    · right
      rw [← hxy.1, ← hxy.2]
      exact hxz
    · exact .inl hxy) rr _).1 hall rr (mem_filter.2 ⟨hrr, decide_eq_true hty⟩)
  exact hsl ⟨rfl, rfl⟩

theorem validateRRSIG_of_secure {queryName : Name}
    (h : validateMessage E msg queryName link = .secure) (hrr : rr ∈ msg.answers)
    (hty : rr.type ≠ typeRRSIG) : ∃ s, findRRSIG msg.answers rr.name rr.type = some s ∧
      validateRRSIG E (rrSetOf msg.answers rr) s link.dnsKeys = true := by
  obtain ⟨hd, hmem, hnm, hdt⟩ := exists_head hrr hty
  have hst : rrSetOf msg.answers hd = rrSetOf msg.answers rr := by simp only [rrSetOf, hnm, hdt]
  have hrs : validateRRSet E msg queryName link hd = some true := by
    have hin := mem_map_of_mem (f := validateRRSet E msg queryName link) hmem
    unfold validateMessage at h
    simp only at h
    split at h; · cases h
    split at h; · cases h
    next hnn =>
      split at h; · cases h
      split at h; · cases h
      next hfl =>
        rcases hv : validateRRSet E msg queryName link hd with _ | _ | _
        · exact absurd (hv ▸ hin) hnn
        · exact absurd (hv ▸ hin) hfl
        · rfl
  unfold validateRRSet at hrs
  split at hrs
  · split at hrs <;> cases hrs
  next s hs =>
    split at hrs
    · cases hrs
    next hv =>
      rw [hst] at hv
      rw [hnm, hdt] at hs
      exact ⟨s, hs, Bool.not_eq_false _ ▸ hv⟩

theorem wildcardOwner_cases (owner : Name) (sigLabels : Nat) : wildcardOwner owner sigLabels = owner.canonical ∨
      ∃ ce, ce <:+ owner.canonical ∧ wildcardOwner owner sigLabels = ['*'] :: ce := by
  unfold wildcardOwner
  split
  · exact .inl rfl
  · exact .inr ⟨_, (drop_suffix _ owner).map _, rfl⟩

def zoneKey (z : Name) : DNSKEY := ⟨257, 3, 8, z.flatten.map fun c => c.toUInt8⟩

def zoneDS (z : Name) : DS := ⟨0, 8, 2, .of 2 z (zoneKey z)⟩

def publishedSets : List (Name × Name × Nat × Nat × List RData) :=
  [([], [], typeDNSKEY, 1, [.dnskey (zoneKey [])]),
    ([], [['e']], typeDS, 1, [.ds (zoneDS [['e']])]),
    ([], [['b']], typeDS, 1, [.ds (zoneDS [['b']])]),
    ([['b']], [['b']], typeDNSKEY, 1, [.dnskey (zoneKey [['b']])]),
    ([['b']], [['b']], 1, 1, [.other [1]])]

def signsSet (k : DNSKEY) (d : SignedData) : Bool :=
  decide (k = zoneKey [['e']]) || publishedSets.any fun p => decide (k = zoneKey p.1 ∧
    d.rrs = p.2.2.2.2.map fun x => ⟨p.2.1, p.2.2.1, p.2.2.2.1, d.originalTTL, x⟩)

def twoZones : World where
  zone z := z ∈ [[], [['e']], [['b']]]
  owned z := z = [['e']]
  holds z k := k = zoneKey z
  publishes z owner type cls data := (z, owner, type, cls, data) ∈ publishedSets
  signed k d := signsSet k d = true

def sigBy (signer owner : Name) (type : Nat) : RR :=
  ⟨owner, typeRRSIG, 1, .rrsig ⟨type, 8, owner.length, 0, 0, 0, 0, signer, []⟩⟩

def twoZonesEnv : Env where
  keyTag _ := 0
  verify k d _ := signsSet k d
  timeValid _ := true
  sort rrs := rrs
  query z type :=
    if z ∉ [[], [['e']], [['b']]] then none
    else if type = typeDNSKEY then
      some ⟨[⟨z, typeDNSKEY, 1, .dnskey (zoneKey z)⟩, sigBy z z typeDNSKEY], [], false, some typeDNSKEY⟩
    else if type = typeDS then
      some ⟨[⟨z, typeDS, 1, .ds (zoneDS z)⟩, sigBy [] z typeDS], [], false, some typeDS⟩
    else none
  dsDenial _ _ _ := false
  wildcardProven _ _ _ _ _ := false
  negativeProven _ _ _ := false
  maxDelegationDepth := 20
  requireDNSSEC := true

def rootAnchor : TrustAnchor := ⟨[], 0, 8, 2, .of 2 [] (zoneKey []), []⟩

theorem sound_twoZones {z : Name} : twoZones.Sound z ↔ z = [] ∨ z = [['b']] := by
  constructor
  · rintro ⟨hz, hc⟩
    have hmem : z = [] ∨ z = [['e']] ∨ z = [['b']] := by simpa [twoZones] using hz
    rcases hmem with rfl | rfl | rfl
    · exact .inl rfl
    · exact absurd ⟨_, hz, rfl, suffix_rfl⟩ hc
    · exact .inr rfl
  · intro h
    refine ⟨?_, ?_⟩
    · rcases h with rfl | rfl <;> simp [twoZones]
    · rintro ⟨a, -, rfl, hsf⟩
      rcases h with rfl | rfl <;> revert hsf <;> decide

theorem honest_twoZones : twoZones.Honest twoZonesEnv [rootAnchor] where
  sort_perm _ := .refl _
  verify_signed _ _ _ h := h
  anchor_zone a ha := by
    obtain rfl : a = rootAnchor := by simpa using ha
    exact sound_twoZones.2 (.inl rfl)
  anchor_key a ha rr k h := by
    obtain rfl : a = rootAnchor := by simpa using ha
    simp only [matchesAnchor, rootAnchor, calculateDSDigestFromDNSKEY] at h
    simp at h
    exact h.2.2
  zone_name z hz := by
    have hmem : z = [] ∨ z = [['e']] ∨ z = [['b']] := by simpa [twoZones] using hz
    rcases hmem with rfl | rfl | rfl <;> decide
  signs_published z k d hz hk hs := by
    have hne : k ≠ zoneKey [['e']] := by
      rcases sound_twoZones.1 hz with rfl | rfl <;> rw [show k = _ from hk] <;> decide
    have hs' : signsSet k d = true := hs
    simp only [signsSet, hne, decide_false, Bool.false_or, any_eq_true, decide_eq_true_eq] at hs'
    obtain ⟨⟨z', owner, type, cls, data⟩, hp, hkey, hrs⟩ := hs'
    have hky : ∀ z ∈ [[], [['b']]], ∀ p ∈ publishedSets, zoneKey z = zoneKey p.1 → p.1 = z := by decide
    have hzn : z' = z := hky z (by simpa using sound_twoZones.1 hz) _ hp (hk.symm.trans hkey)
    subst hzn
    exact ⟨owner, type, cls, data, hp, hrs ▸ .refl _⟩
  ds_child z owner cls data _ hp := by
    have hall : ∀ p ∈ publishedSets, p.2.2.1 = typeDS → p.2.1 ∈ [[], [['e']], [['b']]] := by decide
    exact hall _ hp rfl
  ds_key z owner cls data d _ hp hd _ := by
    have hall : ∀ p ∈ publishedSets, p.2.2.1 = typeDS → p.2.2.2.2 = [.ds (zoneDS p.2.1)] := by decide
    obtain rfl : data = [.ds (zoneDS owner)] := hall _ hp rfl
    obtain rfl : d = zoneDS owner := by simpa using hd
    exact ⟨2, zoneKey owner, rfl, rfl⟩
  dnskey_own z owner cls data k _ hp hk := by
    have hall : ∀ p ∈ publishedSets, p.2.2.1 = typeDNSKEY → p.2.2.2.2 = [.dnskey (zoneKey p.1)] := by decide
    obtain rfl : data = [.dnskey (zoneKey z)] := hall _ hp rfl
    obtain rfl : k = zoneKey z := by simpa using hk
    rfl

theorem inZone_b {z : Name} (h : twoZones.InZone z [['b']]) : z = [['b']] := by
  have hmem : z = [] ∨ z = [['e']] ∨ z = [['b']] := by simpa [twoZones] using h.1
  have hd : [['b']] <:+ z := h.2.2 [['b']] (by simp [twoZones]) (by decide)
  rcases hmem with rfl | rfl | rfl
  · revert hd; decide
  · revert hd; decide
  · rfl

def addressOfB (bytes : List UInt8) (signer : Name) : Message :=
  ⟨[⟨[['b']], 1, 1, .other bytes⟩, sigBy signer [['b']] 1], [], false, some 1⟩

theorem name_of_mem_addressOfB {bytes : List UInt8} {signer : Name}
    (h : rr ∈ (addressOfB bytes signer).answers) : rr.name = [['b']] := by
  rcases mem_cons.1 h with rfl | h
  · rfl
  · rw [mem_singleton.1 h]; rfl

theorem dsNamesMatch_twoZones : DSNamesMatch twoZonesEnv := by
  intro z msg hq rr hrr _
  simp only [twoZonesEnv] at hq
  split at hq
  · cases hq
  next hz =>
    rw [if_neg (by decide), if_pos trivial] at hq
    cases hq
    have hmem : z = [] ∨ z = [['e']] ∨ z = [['b']] := by simpa using not_not.1 hz
    have hnm : rr.name = z := by
      rcases mem_cons.1 hrr with rfl | hrr
      · rfl
      · rw [mem_singleton.1 hrr]; rfl
    rw [hnm]
    rcases hmem with rfl | rfl | rfl <;> decide

end NothingDNS.Dnssec
