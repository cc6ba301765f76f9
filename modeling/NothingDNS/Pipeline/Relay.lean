import NothingDNS.Pipeline.Questions
/-!
# What a validating client makes of a relayed response

For a client with the DO bit the Answer section is passed on with its signatures, now and from the cache. Of the
Authority section `minimizeResponse` keeps the SOA and NS records alone: the denial a negative response or an expanded
wildcard rests on is gone, and the client that validates finds the response Bogus (`negative_relayed_bogus`).
-/

namespace NothingDNS.Dnssec

open List

def Env.atTime (E : Env) (timeValid : RRSIG → Bool) : Env := { E with timeValid := timeValid }

/-- Every signature over an RRset of the answers is made for its owner and not for a wildcard. -/
def SignedDirectly (answers : List RR) : Prop :=
  ∀ rr ∈ heads answers, ∀ s, findRRSIG answers rr.name rr.type = some s → rr.name.length ≤ s.labels

/-- The signatures over the RRsets of the answers are valid at the time. -/
def InTime (answers : List RR) (timeValid : RRSIG → Bool) : Prop :=
  ∀ rr ∈ heads answers, ∀ s, findRRSIG answers rr.name rr.type = some s → timeValid s = true

instance (answers : List RR) : Decidable (SignedDirectly answers) :=
  decidable_of_iff (∀ rr ∈ heads answers, (findRRSIG answers rr.name rr.type).all fun s =>
    decide (rr.name.length ≤ s.labels)) (by
      refine forall₂_congr fun rr _ => ?_
      cases findRRSIG answers rr.name rr.type <;> simp)

variable {E : Env} {msg msg' : Message} {n n' : Name} {link : ChainLink} {rr : RR} {timeValid : RRSIG → Bool}

theorem validateRRSIG_atTime {rrSet keys : List RR} {s : RRSIG} (h : validateRRSIG E rrSet s keys = true)
    (htm : timeValid s = true) : validateRRSIG (E.atTime timeValid) rrSet s keys = true := by
  unfold validateRRSIG at h ⊢
  rw [Bool.and_eq_true] at h ⊢
  exact ⟨htm, h.2⟩

theorem validateRRSet_congr (hans : msg'.answers = msg.answers) (hnm : n'.canonical = n.canonical)
    (hsg : ∀ s, findRRSIG msg.answers rr.name rr.type = some s → rr.name.length ≤ s.labels ∧ timeValid s = true)
    (h : validateRRSet E msg n link rr ≠ none) :
    validateRRSet (E.atTime timeValid) msg' n' link rr = validateRRSet E msg n link rr := by
  unfold validateRRSet at h ⊢
  rw [hans, hnm]
  cases hfn : findRRSIG msg.answers rr.name rr.type with
  | none => rfl
  | some s =>
    obtain ⟨hlb, htm⟩ := hsg s hfn
    rw [hfn] at h
    dsimp only at h ⊢
    have hv : validateRRSIG E (rrSetOf msg.answers rr) s link.dnsKeys = true := by
      by_contra hv
      rw [if_pos (by simpa using hv)] at h
      exact h rfl
    have hv' := validateRRSIG_atTime hv htm
    simp only [hv, hv', Nat.not_lt.2 hlb, Bool.true_eq_false, false_and, if_false]

theorem none_notMem_of_secure (h : validateMessage E msg n link = .secure) :
    none ∉ (heads msg.answers).map (validateRRSet E msg n link) := by
  intro hmem
  unfold validateMessage at h
  dsimp only at h
  rw [if_pos hmem] at h
  split at h <;> cases h

theorem inTime_of_secure (h : validateMessage E msg n link = .secure) : InTime msg.answers E.timeValid := by
  intro rr hrr s hs
  by_contra htm
  refine none_notMem_of_secure h (mem_map.2 ⟨rr, hrr, ?_⟩)
  unfold validateRRSet
  rw [hs]
  dsimp only
  rw [if_pos (by simp [validateRRSIG, htm])]

/-- **Secure by the answers alone.** -/
theorem validateMessage_congr (h : validateMessage E msg n link = .secure) (hne : msg.answers ≠ [])
    (hsg : SignedDirectly msg.answers) (htm : InTime msg.answers timeValid) (hans : msg'.answers = msg.answers)
    (hnm : n'.canonical = n.canonical) : validateMessage (E.atTime timeValid) msg' n' link = .secure := by
  have hnn := none_notMem_of_secure h
  have hrs : (heads msg.answers).map (validateRRSet (E.atTime timeValid) msg' n' link) =
      (heads msg.answers).map (validateRRSet E msg n link) := by
    refine map_congr_left fun rr hrr => validateRRSet_congr hans hnm
      (fun s hs => ⟨hsg rr hrr s hs, htm rr hrr s hs⟩) fun hrr' => ?_
    exact hnn (mem_map.2 ⟨rr, hrr, hrr'⟩)
  unfold validateMessage at h ⊢
  dsimp only at h ⊢
  rw [hans, hrs]
  simp only [hne, false_and, if_false] at h ⊢
  exact h

section Denial

variable {sha1 : List UInt8 → List UInt8} {param : Option Nsec3Params} {keys : List RR}

theorem authenticatedDenialRRs_eq_nil (h : ∀ rr ∈ msg.authorities, isDenial rr = false) :
    authenticatedDenialRRs E msg keys = [] := by
  have hnil : msg.authorities.filter isDenial = [] := filter_eq_nil_iff.2 fun rr hrr => by simp [h rr hrr]
  simp [authenticatedDenialRRs, denialHeads, hnil]

theorem wildcardExpansionProven_eq_false (h : ∀ rr ∈ msg.authorities, isDenial rr = false) (owner : Name)
    (sigLabels qtype : Nat) : wildcardExpansionProven sha1 E msg owner sigLabels qtype keys = false := by
  unfold wildcardExpansionProven
  rw [authenticatedDenialRRs_eq_nil h]
  simp

theorem validateNegativeResponse_eq_bogus (h : ∀ rr ∈ msg.authorities, isDenial rr = false) :
    validateNegativeResponse sha1 E param msg n keys = .bogus := by
  unfold validateNegativeResponse
  rw [authenticatedDenialRRs_eq_nil h]
  split <;> simp

/-- Without a denial in the Authority section a Secure response has answers, none of them expanded from a wildcard. -/
theorem signedDirectly_of_secure (hnd : ∀ rr ∈ msg.authorities, isDenial rr = false)
    (h : validateMessage ((Env.withDenial sha1 E param).atTime timeValid) msg n link = .secure) :
    msg.answers ≠ [] ∧ SignedDirectly msg.answers := by
  constructor
  · intro hnil
    have hbg : validateNegativeResponse sha1 E param msg n link.dnsKeys = .bogus := validateNegativeResponse_eq_bogus hnd
    simp [validateMessage, hnil, heads, Env.atTime, Env.withDenial, hbg] at h
  · intro rr hrr s hs
    by_contra hlt
    refine none_notMem_of_secure h (mem_map.2 ⟨rr, hrr, ?_⟩)
    unfold validateRRSet
    rw [hs]
    dsimp only
    split
    · rfl
    · rw [if_pos ⟨Nat.not_le.1 hlt, wildcardExpansionProven_eq_false hnd _ _ _⟩]

end Denial

end NothingDNS.Dnssec

namespace NothingDNS.Pipeline

open List

open NothingDNS.Dnssec

variable {Client Net Z : Type} {C : Config Client Net Z} {s : State Net} {q : Query Client} {qn : Question}
  {w : World}

def Msg.toMessage (m : Msg) : Message :=
  ⟨m.answers.map Rec.rr, m.authorities.map Rec.rr, m.rcode = rcodeNameError, m.questions.head?.map Question.qtype⟩

def earlierStages (C : Config Client Net Z) (s : State Net) (q : Query Client) (qn : Question) (w : World) :
    List (Handled Net) :=
  filterStages C s q qn w ++
    [cacheStage C s q qn w, nsecCacheStage C s q qn w, splitHorizonStage C s q qn w,
      authoritativeStage C s q qn w, cnameStage C s q qn w, authoritativeOnlyStage C s q, resolverStage C s q qn w]

theorem stages_eq : stages C s q qn w = earlierStages C s q qn w ++ [upstreamStage C s q qn w, noUpstreamStage s q] := by
  rw [stages, earlierStages, append_assoc]
  rfl

/-- The query is forwarded, and the response is neither refused nor replaced. -/
structure Relayed (C : Config Client Net Z) (s : State Net) (q : Query Client) (qn : Question) (w : World)
    (raw m : Msg) : Prop where
  earlier : ∀ x ∈ earlierStages C s q qn w, x = none
  upstream : C.upstream = true
  forwarded : Forwarded C s q qn w raw m
  dns64 : tryDNS64 C s q qn w m = none
  suppressed : w.suppressed = false

variable {rest : List Question} {raw m : Msg}

theorem serve_relayed (hq : q.questions = qn :: rest)
    (h : Relayed C s q qn w raw m) : serve C s q w = (fill C s q qn w m, [reply C.nsTarget q m]) := by
  have hup : upstreamStage C s q qn w = some (fill C s q qn w m, [reply C.nsTarget q m]) := by
    unfold upstreamStage
    rw [if_neg (by simp [h.upstream]), h.forwarded.received]
    dsimp only
    rw [if_neg (by simp [h.forwarded.id, h.forwarded.question]), h.forwarded.validated]
    dsimp only
    rw [h.forwarded.policy, h.dns64, h.suppressed]
    rfl
  have her : (earlierStages C s q qn w).findSome? id = none := findSome?_eq_none_iff.2 h.earlier
  rw [serve, hq]
  dsimp only
  rw [stages_eq, findSome?_append, her, Option.none_or, findSome?_cons, hup]
  rfl

theorem reply_answers (hdo : q.do = true) (nsTarget : List UInt8 → Option Name) (m : Msg) :
    (reply nsTarget q m).answers = m.answers := by
  unfold reply minimizeResponse scrubForClient
  rw [if_pos hdo]
  split <;> rfl

/-- `minimizeResponse` leaves no denial in the Authority section. -/
theorem reply_authorities (nsTarget : List UInt8 → Option Name) (m : Msg) :
    ∀ rr ∈ (reply nsTarget q m).toMessage.authorities, isDenial rr = false := by
  intro rr hrr
  obtain ⟨r, hr, rfl⟩ := mem_map.1 hrr
  have hk := (mem_filter.1 hr).2
  simp only [keptAuthority, decide_eq_true_eq] at hk
  rcases hk with hk | ⟨-, hk⟩ <;> simp [isDenial, hk, typeSOA, typeNS, typeNSEC, typeNSEC3]

theorem aged_answers (age : Nat) (m : Msg) : (m.aged age).answers.map Rec.rr = m.answers.map Rec.rr := by
  unfold Msg.aged
  split
  · rfl
  · rw [Msg.mapTTL, map_map]
    exact map_congr_left fun r _ => (Rec.mapTTL_rr _ r).1

theorem Forwarded.answers (h : Forwarded C s q qn w raw m) : m.answers.map Rec.rr = raw.answers.map Rec.rr := by
  rw [(validateDNSSEC_ok h.validated).answers, receive, map_map]
  rfl

theorem key_congr {qn qn' : Question} (h : qn'.Same qn) (doBit : Bool) :
    C.key qn'.name qn'.qtype doBit = C.key qn.name qn.qtype doBit := by
  have hlw : qn'.name.string.lower = qn.name.string.lower := by
    have hnil : qn'.name = [] ↔ qn.name = [] := by
      rw [← map_eq_nil_iff (f := Text.lower), ← map_eq_nil_iff (f := Text.lower) (l := qn.name)]
      exact iff_of_eq (congrArg (· = []) h.1)
    by_cases hn : qn.name = []
    · rw [hn, hnil.2 hn]
    · rw [Name.string, Name.string, if_neg hn, if_neg (mt hnil.1 hn), lower_flatMap, lower_flatMap]
      exact congrArg _ h.1
  have hlen : qn'.name.string.length = qn.name.string.length := by
    simpa [Text.lower] using congrArg length hlw
  rw [Config.key, Config.key, makeKey, makeKey, hlw, hlen, h.2.1]

variable {e : Entry}

theorem entry_of_fill {now : Nat} (hms : s.get w.now (clientKey C q qn) = none)
    (hnw : w.now ≤ now) (he : (fill C s q qn w m).cache (clientKey C q qn) = some e) (hfr : now < e.expireTime) :
    e.message = m := by
  unfold fill at he
  split at he
  · rw [State.set, State.add] at he
    dsimp only at he
    rw [if_pos rfl] at he
    cases he
    rfl
  split at he
  · dsimp only at he
    split at he <;>
    · rw [State.setNegative, State.add] at he
      dsimp only at he
      rw [if_pos rfl] at he
      cases he
      rfl
  · rw [State.get, he] at hms
    exact absurd hms (by simp [Option.filter]; omega)

theorem serve_hit (hq : q.questions = qn :: rest)
    (hfl : ∀ x ∈ filterStages C s q qn w, x = none) (he : s.get w.now (clientKey C q qn) = some e) :
    ∃ rcode, (serve C s q w).2 =
      [reply C.nsTarget q { e.message.aged (w.now - e.insertedAt) with rcode := rcode }] := by
  have hnn : (filterStages C s q qn w).findSome? id = none := findSome?_eq_none_iff.2 hfl
  rw [serve, hq]
  dsimp only
  rw [stages, findSome?_append, hnn, Option.none_or, findSome?_cons, cacheStage, he]
  by_cases hng : e.isNegative = true
  · exact ⟨e.rcode, by simp [hng]⟩
  · exact ⟨(e.message.aged (w.now - e.insertedAt)).rcode, by simp [hng]⟩

/-- **A relayed Secure response is Secure again**, for the client and for a later client of the cache, exactly if it
has answers and none is signed for a wildcard. -/
theorem relayed_secure {rest : List Question} {raw m : Msg} {E : Env} {sha1 : List UInt8 → List UInt8}
    {param : Option Nsec3Params} {link : ChainLink}
    (hq : q.questions = qn :: rest) (hdo : q.do = true) (h : Relayed C s q qn w raw m)
    (hsecure : validateMessage (Env.withDenial sha1 E param) raw.toMessage qn.name link = .secure) :
    ((∃ r, (serve C s q w).2 = [r] ∧ validateMessage (Env.withDenial sha1 E param) r.toMessage qn.name link = .secure) ↔
      raw.answers ≠ [] ∧ SignedDirectly (raw.answers.map Rec.rr)) ∧
      ∀ (s' : State Net) (q' : Query Client) (qn' : Question) (rest' : List Question) (w' : World) (timeValid : RRSIG → Bool),
        q'.questions = qn' :: rest' → qn'.Same qn → q'.do = true →
        (∀ x ∈ filterStages C s' q' qn' w', x = none) →
        s'.cache (clientKey C q qn) = (serve C s q w).1.cache (clientKey C q qn) →
        w.now ≤ w'.now → s'.get w'.now (clientKey C q qn) ≠ none → InTime (raw.answers.map Rec.rr) timeValid →
        ((∃ r, (serve C s' q' w').2 = [r] ∧
            validateMessage ((Env.withDenial sha1 E param).atTime timeValid) r.toMessage qn'.name link = .secure) ↔
          raw.answers ≠ [] ∧ SignedDirectly (raw.answers.map Rec.rr)) := by
  have hsr := serve_relayed hq h
  -- what is sent has the answers of the upstream response and no denial
  have hiff : ∀ {q' : Query Client} {u : Msg} {a : Name} {timeValid : RRSIG → Bool}, q'.do = true →
      u.answers.map Rec.rr = raw.answers.map Rec.rr → a.canonical = qn.name.canonical →
      InTime (raw.answers.map Rec.rr) timeValid →
      (validateMessage ((Env.withDenial sha1 E param).atTime timeValid) (reply C.nsTarget q' u).toMessage a link = .secure ↔
        raw.answers ≠ [] ∧ SignedDirectly (raw.answers.map Rec.rr)) := by
    intro q' u a timeValid hdo' hans hnm htm
    have hra : (reply C.nsTarget q' u).toMessage.answers = raw.answers.map Rec.rr :=
      (congrArg (map Rec.rr) (reply_answers hdo' _ _)).trans hans
    constructor
    · intro hsc
      obtain ⟨hne, hdr⟩ := signedDirectly_of_secure (reply_authorities _ _) hsc
      rw [hra] at hne hdr
      exact ⟨fun hnil => hne (map_eq_nil_iff.2 hnil), hdr⟩
    · rintro ⟨hne, hdr⟩
      exact validateMessage_congr hsecure (fun hnil => hne (map_eq_nil_iff.1 hnil)) hdr htm hra hnm
  refine ⟨?_, ?_⟩
  · rw [hsr]
    have hfw := hiff (a := qn.name) hdo h.forwarded.answers rfl (inTime_of_secure hsecure)
    exact ⟨fun ⟨r, hr, hsc⟩ => hfw.1 (by cases hr; exact hsc), fun hc => ⟨_, rfl, hfw.2 hc⟩⟩
  · intro s' q' qn' rest' w' timeValid hq' hsm hdo' hfl hcc hnw hfr htm
    have hkey : clientKey C q' qn' = clientKey C q qn := by
      rw [clientKey, clientKey, hdo, hdo']
      exact key_congr hsm true
    obtain ⟨e, he⟩ := Option.ne_none_iff_exists'.1 hfr
    obtain ⟨hen, hep⟩ := Option.filter_eq_some_iff.1 he
    have hms : s.get w.now (clientKey C q qn) = none := by
      have := h.earlier (cacheStage C s q qn w) (by simp [earlierStages])
      exact Option.map_eq_none_iff.1 this
    rw [hcc, hsr] at hen
    have hmg : e.message = m := entry_of_fill hms hnw hen (by simpa using hep)
    rw [← hkey] at he
    obtain ⟨rcode, hr⟩ := serve_hit hq' hfl he
    rw [hr]
    have hch := hiff (u := { e.message.aged (w'.now - e.insertedAt) with rcode := rcode }) (a := qn'.name) hdo'
      ((aged_answers _ _).trans (by rw [hmg, h.forwarded.answers])) hsm.1 htm
    exact ⟨fun ⟨r, hr, hsc⟩ => hch.1 (by cases hr; exact hsc), fun hc => ⟨_, rfl, hch.2 hc⟩⟩

/-! ## The zone `b` and its NSEC chain -/

def relayEnv : Env :=
  Env.withDenial id
    { nsecEnv zoneB with
      verify := fun k d sig => (nsecEnv zoneB).verify k d sig || d.rrs.all fun r => r.owner = [['w'], ['b']] ∧ r.type = typeA }
    none

def linkB : ChainLink := ⟨[['b']], keyB⟩

def doQuery (name : Name) : Query Nat := { addressQuery name with opt := some true }

def stamp (rrs : List RR) : List Rec := rrs.map fun rr => ⟨rr, 60, .own⟩

def signedAnswer (uq : UpstreamQuery) : Option Msg :=
  some (if uq.question.name = [['w'], ['b']] then
    ⟨uq.id, false, false, false, rcodeSuccess, [uq.question],
      stamp [⟨[['w'], ['b']], typeA, 1, .other [192, 0, 2, 1]⟩,
        ⟨[['w'], ['b']], typeRRSIG, 1, .rrsig ⟨typeA, 8, 2, 0, 0, 0, 0, [['b']], []⟩⟩], [], [], none, []⟩
  else ⟨uq.id, false, false, false, rcodeNameError, [uq.question], [], stamp (nxdomainB typeA).authorities, [], none, []⟩)

def relayWorld : World := quietWorld 0 signedAnswer .secure

theorem relayed_secure_address : ∃ r, (serve forwarder (.empty none) (doQuery [['w'], ['b']]) relayWorld).2 = [r] ∧
      validateMessage relayEnv r.toMessage [['w'], ['b']] linkB = .secure := by
  let qn : Question := ⟨[['w'], ['b']], typeA, classIN⟩
  obtain ⟨raw, hrw⟩ : ∃ raw, signedAnswer (forwardQuery qn relayWorld) = some raw := ⟨_, rfl⟩
  refine (@relayed_secure _ _ _ forwarder (.empty none) (doQuery [['w'], ['b']]) qn relayWorld [] raw _ _ _ _ linkB rfl rfl
    ⟨fun x hx => ?_, rfl, ⟨hrw, ?_, ?_, rfl, rfl⟩, rfl, rfl⟩ ?_).1.2 ⟨?_, ?_⟩
  · simp only [earlierStages, filterStages, mem_append, mem_cons, not_mem_nil, or_false] at hx
    rcases hx with (rfl | rfl | rfl | rfl | rfl | rfl | rfl | rfl | rfl) | rfl | rfl | rfl | rfl | rfl | rfl | rfl <;> rfl
  all_goals
    cases hrw
    decide

theorem negative_relayed_bogus :
    (∃ raw, signedAnswer (forwardQuery ⟨[['a'], ['b']], typeA, classIN⟩ relayWorld) = some raw ∧
      validateMessage relayEnv raw.toMessage [['a'], ['b']] linkB = .secure) ∧
    ∃ r, (serve forwarder (.empty none) (doQuery [['a'], ['b']]) relayWorld).2 = [r] ∧
      validateMessage relayEnv r.toMessage [['a'], ['b']] linkB = .bogus :=
  ⟨⟨_, rfl, by decide⟩, _, rfl, by decide⟩

end NothingDNS.Pipeline
