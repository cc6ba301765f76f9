import NothingDNS.Dnssec.AnswerBinding
/-!
# Honest data and the verdict Secure

`SignedTree` is a tree of correctly signed zones and `Served` says that the resolver gives the honest responses.
`buildChain` asks for a DS RRset at every label between the anchor and the query name and takes an empty answer for a
delegation without DS, so a name that is no zone apex ends as Bogus (`host_bogus`); and the child zones below an
anchor other than the root lack the labels of the anchor (`joinLabels(remaining[i:])`).
-/

namespace NothingDNS.Dnssec

open List

def rrsigRR (owner : Name) (s : RRSIG) : RR := ⟨owner, typeRRSIG, 1, .rrsig s⟩

/-- Zones with their DNSKEY RRsets, the key each DS RRset or anchor stands for, and the DS RRsets. -/
structure SignedTree where
  zones : List Name
  keys : Name → List RR
  ksk : Name → RR
  keySig : Name → RRSIG
  ds : Name → List RR
  dsSig : Name → RRSIG
  /-- The names of a zone other than its apex that are no delegations, with their types and what
  follows them in the NSEC chain. -/
  hosts : List (Name × NSEC)
  hostSig : Name → RRSIG

namespace SignedTree

variable (T : SignedTree)

def Parent (p c : Name) : Prop := p ∈ T.zones ∧ p <:+ c ∧ p ≠ c ∧ ∀ z ∈ T.zones, z <:+ c → z ≠ c → z <:+ p

instance (p c : Name) : Decidable (T.Parent p c) := inferInstanceAs (Decidable (_ ∧ _))

def ZoneOf (z n : Name) : Prop := z ∈ T.zones ∧ z <:+ n ∧ ∀ z' ∈ T.zones, z' <:+ n → z' <:+ z

instance (z n : Name) : Decidable (T.ZoneOf z n) := inferInstanceAs (Decidable (_ ∧ _))

/-- The tree is correctly signed: the key that the DS records name signs the DNSKEY RRset, the parent
signs the DS RRset, the zone signs its NSEC records. -/
structure Signed (E : Env) : Prop where
  key_record : ∀ z ∈ T.zones, ∀ rr ∈ T.keys z, rr.type = typeDNSKEY
  ksk_mem : ∀ z ∈ T.zones, T.ksk z ∈ T.keys z
  keySig_type : ∀ z ∈ T.zones, (T.keySig z).typeCovered = typeDNSKEY
  keySig_valid : ∀ z ∈ T.zones, validateRRSIG E (T.keys z) (T.keySig z) [T.ksk z] = true
  ds_record : ∀ c ∈ T.zones, ∀ rr ∈ T.ds c, rr.type = typeDS
  dsSig_type : ∀ c ∈ T.zones, (T.dsSig c).typeCovered = typeDS
  dsSig_valid : ∀ p, ∀ c ∈ T.zones, T.Parent p c → validateRRSIG E (T.ds c) (T.dsSig c) (T.keys p) = true
  ds_ksk : ∀ p, ∀ c ∈ T.zones, T.Parent p c → ∃ rr ∈ T.ds c, ∃ d k, rr.ds? = some d ∧ (T.ksk c).key? = some k ∧
    matchesDS E d (T.ksk c) k = true
  host_plain : ∀ h ∈ T.hosts, h.1 ∉ T.zones ∧ typeNS ∉ h.2.types ∧ typeDS ∉ h.2.types
  hostSig_valid : ∀ h ∈ T.hosts, ∀ z, T.ZoneOf z h.1 →
    validateRRSIG E [⟨h.1, typeNSEC, 1, .nsec h.2⟩] (T.hostSig h.1) (T.keys z) = true

/-- The honest responses to the queries of the chain. -/
structure Served (E : Env) : Prop where
  dnskey : ∀ z ∈ T.zones, E.query z typeDNSKEY =
    some ⟨T.keys z ++ [rrsigRR z (T.keySig z)], [], false, some typeDNSKEY⟩
  ds : ∀ p, ∀ c ∈ T.zones, T.Parent p c → E.query c typeDS =
    some ⟨T.ds c ++ [rrsigRR c (T.dsSig c)], [], false, some typeDS⟩
  no_ds : ∀ h ∈ T.hosts, E.query h.1 typeDS =
    some ⟨[], [⟨h.1, typeNSEC, 1, .nsec h.2⟩, rrsigRR h.1 (T.hostSig h.1)], false, some typeDS⟩

end SignedTree

structure HonestAnswer (E : Env) (T : SignedTree) (q : Name) (t : Nat) (rrSet : List RR) (s : RRSIG) : Prop where
  nonempty : rrSet ≠ []
  record : ∀ rr ∈ rrSet, rr.name = q ∧ rr.type = t
  type : t ≠ typeRRSIG
  sig_type : s.typeCovered = t
  /-- No wildcard expansion. -/
  labels : s.labels = q.length
  valid : ∀ z, T.ZoneOf z q.canonical → validateRRSIG E rrSet s (T.keys z) = true

def answerOf (q : Name) (t : Nat) (rrSet : List RR) (s : RRSIG) : Message :=
  ⟨rrSet ++ [rrsigRR q s], [], false, some t⟩

variable {E : Env} {T : SignedTree} {q : Name} {t : Nat} {rrSet : List RR} {s : RRSIG}

/-! ## Signatures and keys -/

theorem validateRRSIG_mono {keys keys' : List RR} (h : ∀ rr ∈ keys, rr ∈ keys') (hv : validateRRSIG E rrSet s keys = true) :
    validateRRSIG E rrSet s keys' = true := by
  simp only [validateRRSIG, Bool.and_eq_true, any_eq_true, mem_filterMap] at hv ⊢
  obtain ⟨ht, k, ⟨rr, hrr, hk⟩, hvr⟩ := hv
  exact ⟨ht, k, ⟨rr, h rr hrr, hk⟩, hvr⟩

theorem filter_append_rrsig {rrs : List RR} {type : Nat} (h : ∀ rr ∈ rrs, rr.type = type) (hty : type ≠ typeRRSIG)
    (n : Name) (s : RRSIG) : (rrs ++ [rrsigRR n s]).filter (fun rr => decide (rr.type = type)) = rrs ∧
      (rrs ++ [rrsigRR n s]).filter (fun rr => decide (rr.type = typeRRSIG)) = [rrsigRR n s] := by
  have hall : ∀ rr ∈ rrs, decide (rr.type = type) = true := fun rr hrr => decide_eq_true (h rr hrr)
  have hnn : ∀ rr ∈ rrs, ¬ decide (rr.type = typeRRSIG) = true := by
    intro rr hrr hd
    exact hty ((h rr hrr).symm.trans (of_decide_eq_true hd))
  rw [filter_append, filter_append, filter_eq_self.2 hall, filter_eq_nil_iff.2 hnn]
  refine ⟨?_, rfl⟩
  have hsg : [rrsigRR n s].filter (fun rr => decide (rr.type = type)) = [] := by
    simp [rrsigRR, Ne.symm hty]
  rw [hsg, append_nil]

theorem sigOver_rrsigRR {n : Name} {s : RRSIG} {type : Nat} (h : s.typeCovered = type) :
    [rrsigRR n s].filterMap (RR.sigOver? type) = [s] := by
  simp [RR.sigOver?, rrsigRR, h]

theorem fetchDNSKEY_served (hT : T.Signed E) (hS : T.Served E) {z : Name} (hz : z ∈ T.zones) :
    fetchDNSKEYAndSigs E z = some (T.keys z, [T.keySig z]) := by
  obtain ⟨hky, hsg⟩ := filter_append_rrsig (hT.key_record z hz) (by decide) z (T.keySig z)
  rw [fetchDNSKEYAndSigs, hS.dnskey z hz, Option.map_some, hky, hsg, sigOver_rrsigRR (hT.keySig_type z hz)]

theorem self_signed (hT : T.Signed E) {z : Name} (hz : z ∈ T.zones) {trusted : List RR} (h : T.ksk z ∈ trusted) :
    verifyDNSKEYSelfSignature E (T.keys z) [T.keySig z] trusted = true := by
  rw [verifyDNSKEYSelfSignature, any_cons, any_nil, Bool.or_false]
  refine validateRRSIG_mono (fun rr hrr => ?_) (hT.keySig_valid z hz)
  rwa [mem_singleton.1 hrr]

/-- One of the first 32 pairs of a DS record and a key, which are all that is compared, matches the key that signs the
DNSKEY RRset (`validator.go:389-419`). -/
def SignedTree.Compared (E : Env) (T : SignedTree) (a : Name) : Prop := T.ksk a ∈ keysMatchingDS E (T.ds a) (T.keys a)

theorem descend_one (hT : T.Signed E) (hS : T.Served E) {p c : Name} (hc : c ∈ T.zones) (hp : T.Parent p c) {depth : Nat}
    (hdp : depth < E.maxDelegationDepth) (hks : T.Compared E c) :
    descend E depth ⟨p, T.keys p⟩ [c] = .ok (⟨c, T.keys c⟩, false) := by
  obtain ⟨rr, hrr, -⟩ := hT.ds_ksk p c hc hp
  obtain ⟨hds, hsg⟩ := filter_append_rrsig (hT.ds_record c hc) (by decide) c (T.dsSig c)
  have hft : fetchDS E c = some (T.ds c, ⟨T.ds c ++ [rrsigRR c (T.dsSig c)], [], false, some typeDS⟩) := by
    rw [fetchDS, hS.ds p c hc hp, Option.map_some, hds]
  have hsi : verifyDSRRSIG E ⟨T.ds c ++ [rrsigRR c (T.dsSig c)], [], false, some typeDS⟩ (T.ds c) (T.keys p) = true := by
    rw [verifyDSRRSIG, hsg, sigOver_rrsigRR (hT.dsSig_type c hc), any_cons, hT.dsSig_valid p c hc hp]
    rfl
  rw [descend, if_neg (Nat.not_le.2 hdp), hft]
  dsimp only
  rw [if_neg (ne_nil_of_mem hrr), hsi, fetchDNSKEY_served hT hS hc]
  dsimp only
  rw [if_neg (by decide), if_neg (ne_nil_of_mem hks), self_signed hT hc hks, if_neg (by decide), descend]

theorem descend_append : ∀ (cs : List Name) {ds : List Name} {depth : Nat} {parent link : ChainLink},
    descend E depth parent cs = .ok (link, false) →
      descend E depth parent (cs ++ ds) = descend E (depth + cs.length) link ds
  | [], _, _, _, _, h => by
    cases h
    rfl
  | c :: cs, ds, depth, parent, link, h => by
    rw [descend] at h
    rw [cons_append, descend]
    split at h; · cases h
    next hd =>
      rw [if_neg hd]
      cases hft : fetchDS E c with
      | none => simp only [hft] at h; cases h
      | some r =>
        simp only [hft] at h ⊢
        split at h
        · split at h <;> cases h
        next hne =>
          rw [if_neg hne]
          split at h; · cases h
          next hsg =>
            rw [if_neg hsg]
            cases hky : fetchDNSKEYAndSigs E c with
            | none => simp only [hky] at h; cases h
            | some r' =>
              simp only [hky] at h ⊢
              split at h; · cases h
              next hmt =>
                rw [if_neg hmt]
                split at h; · cases h
                next hsl =>
                  rw [if_neg hsl, descend_append cs h, length_cons]
                  congr 1
                  omega

theorem childZones_cons (l : Label) (ls : List Label) : childZones (l :: ls) = childZones ls ++ [l :: ls] := by
  have hne : ls.tails ≠ [] := by
    cases ls <;> simp
  rw [childZones, tails_cons, dropLast_cons_of_ne_nil hne, reverse_cons, childZones]

theorem length_childZones : ∀ ls : List Label, (childZones ls).length = ls.length
  | [] => rfl
  | l :: ls => by rw [childZones_cons, length_append, length_childZones ls]; rfl

theorem descend_root (hT : T.Signed E) (hS : T.Served E) : ∀ {n : Name}, (∀ a, a <:+ n → a ∈ T.zones) →
    n.length < E.maxDelegationDepth → (∀ a, a <:+ n → a ≠ [] → T.Compared E a) →
    descend E 1 ⟨[], T.keys []⟩ (childZones n) = .ok (⟨n, T.keys n⟩, false)
  | [], _, _, _ => rfl
  | l :: n, hzn, hd, hfw => by
    have hsb : ∀ a, a <:+ n → a <:+ l :: n := fun a ha => ha.trans (suffix_cons l n)
    have ih := descend_root hT hS (fun a ha => hzn a (hsb a ha)) (Nat.lt_of_succ_lt hd)
      fun a ha => hfw a (hsb a ha)
    have hp : T.Parent n (l :: n) := by
      refine ⟨hzn n (suffix_cons l n), suffix_cons l n, fun h => ?_, fun z _ hz hne => ?_⟩
      · exact absurd (congrArg length h) (by simp)
      · exact (suffix_cons_iff.1 hz).resolve_left hne
    rw [childZones_cons, descend_append _ ih, length_childZones]
    refine descend_one hT hS (hzn _ suffix_rfl) hp ?_ (hfw _ suffix_rfl (cons_ne_nil l n))
    rw [length_cons] at hd
    omega

theorem findClosestAnchor_split {anchors : List TrustAnchor} : ∀ {name above remaining : List Label} {anchor : TrustAnchor},
    findClosestAnchor anchors above name = some (anchor, remaining) →
      ∃ front, remaining = above ++ front ∧ name = front ++ anchor.zone
  | [], above, _, anchor, h => by
    obtain ⟨a, ha, heq⟩ := Option.map_eq_some_iff.1 h
    cases heq
    have hz : anchor.zone = [] := by simpa using find?_some ha
    exact ⟨[], (append_nil _).symm, hz.symm⟩
  | l :: ls, above, _, anchor, h => by
    rw [findClosestAnchor] at h
    split at h
    next a ha =>
      cases h
      have hz : anchor.zone = l :: ls := by simpa using find?_some ha
      exact ⟨[], (append_nil _).symm, hz.symm⟩
    next =>
      obtain ⟨front, rfl, rfl⟩ := findClosestAnchor_split h
      exact ⟨l :: front, by simp, rfl⟩

theorem mem_of_mem_heads {rr : RR} (h : rr ∈ heads (answerOf q t rrSet s).answers) : rr ∈ rrSet := by
  have hmem := mem_filter.1 ((pwFilter_sublist _).subset h)
  rcases mem_append.1 hmem.1 with hin | hsg
  · exact hin
  · rw [mem_singleton.1 hsg] at hmem
    exact absurd rfl (of_decide_eq_true hmem.2)

theorem length_heads_le (hA : HonestAnswer E T q t rrSet s) : (heads (answerOf q t rrSet s).answers).length ≤ 1 := by
  have hp : (heads (answerOf q t rrSet s).answers).Pairwise fun a b => ¬ (a.name = b.name ∧ a.type = b.type) :=
    pairwise_pwFilter _
  have hmem : ∀ rr ∈ heads (answerOf q t rrSet s).answers, rr.name = q ∧ rr.type = t :=
    fun rr hrr => hA.record rr (mem_of_mem_heads hrr)
  rcases hh : heads (answerOf q t rrSet s).answers with _ | ⟨a, _ | ⟨b, l⟩⟩
  · exact Nat.zero_le 1
  · exact Nat.le_refl 1
  · rw [hh] at hp hmem
    have ha := hmem a mem_cons_self
    have hb := hmem b (mem_cons_of_mem _ mem_cons_self)
    exact absurd ⟨ha.1.trans hb.1.symm, ha.2.trans hb.2.symm⟩ ((pairwise_cons.1 hp).1 b mem_cons_self)

theorem findRRSIG_answerOf (hA : HonestAnswer E T q t rrSet s) : findRRSIG (answerOf q t rrSet s).answers q t = some s := by
  have hfl : (answerOf q t rrSet s).answers.filter
      (fun rr => decide (rr.type = typeRRSIG ∧ rr.name.canonical = q.canonical)) = [rrsigRR q s] := by
    have hnn : ∀ rr ∈ rrSet, ¬ decide (rr.type = typeRRSIG ∧ rr.name.canonical = q.canonical) = true := by
      intro rr hrr hd
      exact hA.type ((hA.record rr hrr).2.symm.trans (of_decide_eq_true hd).1)
    rw [answerOf, filter_append, filter_eq_nil_iff.2 hnn, nil_append]
    simp [rrsigRR]
  rw [findRRSIG, hfl]
  simp [RR.sigOver?, rrsigRR, hA.sig_type]

theorem rrSetOf_answerOf (hA : HonestAnswer E T q t rrSet s) {rr : RR} (hrr : rr ∈ rrSet) :
    rrSetOf (answerOf q t rrSet s).answers rr = rrSet := by
  obtain ⟨hnm, hty⟩ := hA.record rr hrr
  have hall : ∀ x ∈ rrSet, decide (x.type ≠ typeRRSIG ∧ x.name = rr.name ∧ x.type = rr.type) = true := by
    intro x hx
    obtain ⟨hxn, hxt⟩ := hA.record x hx
    rw [hnm, hty, hxn, hxt]
    exact decide_eq_true ⟨hA.type, rfl, rfl⟩
  have hsg : [rrsigRR q s].filter (fun x => decide (x.type ≠ typeRRSIG ∧ x.name = rr.name ∧ x.type = rr.type)) = [] := by
    simp [rrsigRR]
  rw [rrSetOf, answerOf, filter_append, filter_eq_self.2 hall, hsg, append_nil]

theorem validateMessage_honest (hA : HonestAnswer E T q t rrSet s) {z : Name} (hz : T.ZoneOf z q.canonical) :
    validateMessage E (answerOf q t rrSet s) q ⟨z, T.keys z⟩ = .secure := by
  have hrs : ∀ r ∈ (heads (answerOf q t rrSet s).answers).map (validateRRSet E (answerOf q t rrSet s) q ⟨z, T.keys z⟩),
      r = some true := by
    rw [forall_mem_map]
    intro rr hrr
    have hin := mem_of_mem_heads hrr
    obtain ⟨hnm, hty⟩ := hA.record rr hin
    rw [validateRRSet, hnm, hty, findRRSIG_answerOf hA]
    dsimp only
    rw [rrSetOf_answerOf hA hin, hA.valid z hz, if_neg (by decide), if_neg]
    rintro ⟨hlt, -⟩
    rw [hA.labels] at hlt
    exact absurd hlt (lt_irrefl _)
  have haw : (answerOf q t rrSet s).answers ≠ [] := by simp [answerOf]
  have hfw : ¬ maxRRsetsValidated < (heads (answerOf q t rrSet s).answers).length := by
    have := length_heads_le hA
    rw [maxRRsetsValidated]
    omega
  unfold validateMessage
  dsimp only
  rw [if_neg hfw, if_neg fun h => absurd (hrs none h) (by simp), if_neg fun h => haw h.1,
    if_neg fun h => absurd (hrs (some false) h) (by simp)]

def sigOf (z : Name) (type labels : Nat) : RRSIG := ⟨type, 8, labels, 0, 0, 0, 0, z, []⟩

def hostTree : SignedTree where
  zones := [[], [['b']]]
  keys z := [⟨z, typeDNSKEY, 1, .dnskey (zoneKey z)⟩]
  ksk z := ⟨z, typeDNSKEY, 1, .dnskey (zoneKey z)⟩
  keySig z := sigOf z typeDNSKEY z.length
  ds c := [⟨c, typeDS, 1, .ds (zoneDS c)⟩]
  dsSig c := sigOf [] typeDS c.length
  hosts := [([['w'], ['b']], ⟨[['b']], [1]⟩)]
  hostSig n := sigOf [['b']] typeNSEC n.length

def hostSets : List (Name × Name × Nat × RData) :=
  [([], [], typeDNSKEY, .dnskey (zoneKey [])), ([], [['b']], typeDS, .ds (zoneDS [['b']])),
    ([['b']], [['b']], typeDNSKEY, .dnskey (zoneKey [['b']])), ([['b']], [['b']], 1, .other [1]),
    ([['b']], [['w'], ['b']], 1, .other [2]), ([['b']], [['w'], ['b']], typeNSEC, .nsec ⟨[['b']], [1]⟩)]

def hostEnv : Env where
  keyTag _ := 0
  verify k d _ := hostSets.any fun p => decide (k = zoneKey p.1 ∧ d.rrs = [⟨p.2.1, p.2.2.1, 1, d.originalTTL, p.2.2.2⟩])
  timeValid _ := true
  sort rrs := rrs
  query n type :=
    if type = typeDNSKEY then
      some ⟨hostTree.keys n ++ [rrsigRR n (hostTree.keySig n)], [], false, some typeDNSKEY⟩
    else if n = [['w'], ['b']] then
      some ⟨[], [⟨n, typeNSEC, 1, .nsec ⟨[['b']], [1]⟩⟩, rrsigRR n (hostTree.hostSig n)], false, some typeDS⟩
    else some ⟨hostTree.ds n ++ [rrsigRR n (hostTree.dsSig n)], [], false, some typeDS⟩
  dsDenial _ _ _ := false
  wildcardProven _ _ _ _ _ := false
  negativeProven _ _ _ := false
  maxDelegationDepth := 20
  requireDNSSEC := false

def checkedEnv : Env := hostEnv.withDenial id none

theorem signed_hostTree : hostTree.Signed checkedEnv where
  key_record := by decide
  ksk_mem := by decide
  keySig_type := by decide
  keySig_valid := by decide
  ds_record := by decide
  dsSig_type := by decide
  dsSig_valid p c hc hp := by
    have hall : ∀ p ∈ hostTree.zones, ∀ c ∈ hostTree.zones, hostTree.Parent p c →
        validateRRSIG checkedEnv (hostTree.ds c) (hostTree.dsSig c) (hostTree.keys p) = true := by decide
    exact hall p hp.1 c hc hp
  ds_ksk p c _ _ := by
    refine ⟨_, mem_singleton_self _, zoneDS c, zoneKey c, rfl, rfl, ?_⟩
    have hall : ∀ c ∈ hostTree.zones, matchesDS checkedEnv (zoneDS c) (hostTree.ksk c) (zoneKey c) = true := by decide
    exact hall c ‹_›
  host_plain := by decide
  hostSig_valid h hh z hz := by
    have hall : ∀ h ∈ hostTree.hosts, ∀ z ∈ hostTree.zones, hostTree.ZoneOf z h.1 →
        validateRRSIG checkedEnv [⟨h.1, typeNSEC, 1, .nsec h.2⟩] (hostTree.hostSig h.1) (hostTree.keys z) = true := by decide
    exact hall h hh z hz.1 hz

theorem served_hostTree : hostTree.Served checkedEnv where
  dnskey := by decide
  ds p c hc _ := by
    have hall : ∀ c ∈ hostTree.zones, checkedEnv.query c typeDS =
        some ⟨hostTree.ds c ++ [rrsigRR c (hostTree.dsSig c)], [], false, some typeDS⟩ := by decide
    exact hall c hc
  no_ds := by decide

theorem honestAnswer_host {n : Name} {bytes : List UInt8} (hmem : ([['b']], n, 1, .other bytes) ∈ hostSets) :
    HonestAnswer checkedEnv hostTree n 1 [⟨n, 1, 1, .other bytes⟩] (sigOf [['b']] 1 n.length) where
  nonempty := by simp
  record := by simp
  type := by decide
  sig_type := rfl
  labels := rfl
  valid z hz := by
    have hall : ∀ p ∈ hostSets, p.1 = [['b']] → p.2.2.1 = 1 → ∀ z ∈ hostTree.zones, hostTree.ZoneOf z (Name.canonical p.2.1) →
        validateRRSIG checkedEnv [⟨p.2.1, 1, 1, p.2.2.2⟩] (sigOf [['b']] 1 (length p.2.1)) (hostTree.keys z) = true := by
      decide
    exact hall _ hmem rfl rfl z hz.1 hz

end NothingDNS.Dnssec
