import NothingDNS.Pipeline.UpstreamData
import NothingDNS.Policy.RpzMatch
/-!
# The response-IP policy along the paths of the pipeline

Each path that gets a message from a zone, the resolver or upstream checks it. The cache is not checked, so an entry
outlives a change of the policies, and the reply for the target of an alias is stored unchecked
(`blocked_address_served`); nor are transfers, addresses a rule answers with, those DNS64 makes and those of the query
itself, which a tcp-only rule copies. The best rule over all addresses of a message decides, so a rule that lets one
address pass lets the others pass.
-/

namespace NothingDNS.Pipeline

open List Option

open NothingDNS.Dnssec

variable {Client Net Z : Type} {C : Config Client Net Z} {s : State Net} {q : Query Client} {qn : Question}
  {w : World}

section Rules

variable (C : Config Client Net Z) (rpz : Option (Policy.Engine Net))

def Matching (addr : Addr) (rule : Policy.Rule) : Prop :=
  ∃ e, rpz = some e ∧ e.enabled = true ∧ rule ∈ Policy.hits C.contains e.tables.resp addr

def Blocked (addr : Addr) : Prop := ∃ rule, Matching C rpz addr rule ∧ rule.action ≠ .passThrough

/-- A rule of the given priority, or a better one, lets the address pass. -/
def Passes (priority : Int) (addr : Addr) : Prop :=
  ∃ pass, Matching C rpz addr pass ∧ pass.action = .passThrough ∧ pass.priority ≤ priority

/-- Where a rule blocks one of the addresses, one of at least its priority lets that address pass. -/
def Clean (addrs : List Addr) : Prop :=
  ∀ addr ∈ addrs, ∀ rule, Matching C rpz addr rule → rule.action ≠ .passThrough → Passes C rpz rule.priority addr

/-- The policies can be enforced: no address is blocked beside another that passes at that priority, every rule
that blocks has an effect, and the addresses that are made by rules or by DNS64 are not blocked themselves. -/
structure Enforceable : Prop where
  apart : ∀ addr addr' rule, Matching C rpz addr rule → rule.action ≠ .passThrough →
    Passes C rpz rule.priority addr' → Passes C rpz rule.priority addr
  override : ∀ addr rule, Matching C rpz addr rule → rule.action = .override → C.parseIP rule.overrideData ≠ none
  cname : ∀ addr rule, Matching C rpz addr rule → rule.action = .cname → C.parseName rule.overrideData ≠ none
  made : ∀ rule addr, Loaded C (.empty rpz) rule → rule.action = .override →
    C.parseIP rule.overrideData = some addr → ¬ Blocked C rpz addr
  dns64 : ∀ synth addr addr', C.dns64 = some synth → synth addr = some addr' → ¬ Blocked C rpz addr'

/-- What is not checked has no blocked address: transfers, the replies to queries for the target of an alias, and
under tcp-only rules the query. -/
structure Unblocked (q : Query Client) (w : World) : Prop where
  carried : ∀ rule, Loaded C (.empty rpz) rule → rule.action = .tcpOnly →
    ∀ addr ∈ addresses q.answers, ¬ Blocked C rpz addr
  transfer : ∀ secs, w.transfer = some secs → ∀ sec ∈ secs, ∀ addr ∈ addresses sec.answers, ¬ Blocked C rpz addr
  target : ∀ qn target raw, IsTarget C q qn target → w.upstream (targetQuery q qn target) = some raw →
    ∀ addr ∈ addresses raw.answers, ¬ Blocked C rpz addr

end Rules

/-! ## Addresses of messages -/

theorem addresses_map {f : Rec → Rec} (hf : ∀ r, (f r).address? = r.address?) (rs : List Rec) :
    addresses (rs.map f) = addresses rs := by
  rw [addresses, addresses, filterMap_map]
  exact congrArg (fun g => rs.filterMap g) (funext hf)

theorem Rec.address_mapTTL (f : Nat → Nat) (r : Rec) : (r.mapTTL f).address? = r.address? := by
  unfold mapTTL
  split <;> rfl

theorem addresses_mapTTL (f : Nat → Nat) (m : Msg) : addresses (m.mapTTL f).answers = addresses m.answers :=
  @addresses_map _ (Rec.address_mapTTL f) _

theorem addresses_aged (age : Nat) (m : Msg) : addresses (m.aged age).answers = addresses m.answers := by
  unfold Msg.aged
  split
  · rfl
  · exact addresses_mapTTL _ m

variable {addr : Addr}

theorem mem_addresses {rs : List Rec} : addr ∈ addresses rs ↔ ∃ r ∈ rs, r.address? = some addr := mem_filterMap

variable {m : Msg}

variable {nsTarget : List UInt8 → Option Name}

theorem mem_addresses_reply (h : addr ∈ addresses (reply nsTarget q m).answers) : addr ∈ addresses m.answers := by
  obtain ⟨r, hr, had⟩ := mem_addresses.1 h
  exact mem_addresses.2 ⟨r, mem_reply.1 hr, had⟩

theorem clean_of_unblocked {rpz : Option (Policy.Engine Net)} {addrs : List Addr}
    (h : ∀ addr ∈ addrs, ¬ Blocked C rpz addr) : Clean C rpz addrs :=
  fun addr had rule hrl hac => absurd ⟨rule, hrl, hac⟩ (h addr had)

theorem passThrough_of_none {rule : Policy.Rule} (hs : Enforceable C s.rpz)
    (hrl : Matching C s.rpz addr rule) (h : applyRPZRule C q qn rule = none) : rule.action = .passThrough := by
  cases hac : rule.action with rw [applyRPZRule, hac] at h
  | override => exact absurd (map_eq_none_iff.1 h) (hs.override addr rule hrl hac)
  | cname => exact absurd (map_eq_none_iff.1 h) (hs.cname addr rule hrl hac)
  | nxdomain | nodata | drop | tcpOnly => cases h

theorem clean_of_ipPolicy (hs : Enforceable C s.rpz) (h : ipPolicy C s q qn m = none) :
    Clean C s.rpz (addresses m.answers) := by
  rintro addr had rule ⟨e, he, hen, hh⟩ hac
  have had : addr ∈ m.responseIPs := mem_append_left _ (mem_append_left _ had)
  have hmem := mem_flatMap.2 ⟨addr, had, hh⟩
  have hd : e.responseIPPolicy C.contains m.responseIPs =
      Least.least Policy.Rule.priority (m.responseIPs.flatMap (Policy.hits C.contains e.tables.resp)) := by
    have hne : m.responseIPs ≠ [] := fun hnil => absurd had (by simp [hnil])
    rw [Policy.Engine.responseIPPolicy, if_neg (by simp [hen, hne]), Policy.foldl_scanNets_eq]
    rfl
  cases hb : Least.least Policy.Rule.priority
      (m.responseIPs.flatMap (Policy.hits C.contains e.tables.resp)) with
  | none =>
    rw [Least.least_eq_none.1 hb] at hmem
    cases hmem
  | some best =>
    obtain ⟨hin, hls⟩ := Least.least_eq_some hb
    obtain ⟨addr', ha', hh'⟩ := mem_flatMap.1 hin
    have hmt : Matching C s.rpz addr' best := ⟨e, he, hen, hh'⟩
    rw [ipPolicy, he, bind_some, hd, hb] at h
    exact hs.apart addr addr' rule ⟨e, he, hen, hh⟩ hac ⟨best, hmt, passThrough_of_none hs hmt h, hls rule hmem⟩

theorem clean_of_responsePolicy (hs : Enforceable C s.rpz) (h : responsePolicy C s q qn m = none) :
    Clean C s.rpz (addresses m.answers) :=
  clean_of_ipPolicy hs (or_eq_none_iff.1 h).1

theorem Clean.reply {rpz : Option (Policy.Engine Net)} (h : Clean C rpz (addresses m.answers)) :
    Clean C rpz (addresses (reply nsTarget q m).answers) := fun addr had => h addr (mem_addresses_reply had)

theorem address_synthesizeAnswer {synth : Addr → Option Addr} {r r' : Rec}
    (h : synthesizeAnswer synth r = some r') (had : r'.address? = some addr) : ∃ addr', synth addr' = some addr := by
  unfold synthesizeAnswer at h
  split at h
  next hty =>
    cases h
    unfold Rec.address? at had
    split at had
    · rw [if_neg ?_] at had
      · cases had
      · rcases hty with hty | hty <;> rw [hty] <;> decide
    · cases had
  split at h
  · split at h
    · obtain ⟨addr', ha', rfl⟩ := map_eq_some_iff.1 h
      refine ⟨_, ha'.trans (congrArg some ?_)⟩
      exact RData.other.inj (Rec.data_of_address had)
    · cases h
  · cases h

theorem Plain.clean (hs : Enforceable C s.rpz) (hw : Unblocked C s.rpz q w) (h : Plain C s q qn w m) :
    Clean C s.rpz (addresses m.answers) := by
  refine clean_of_unblocked fun addr had => ?_
  cases h with
  | built sec tc hown hnn =>
    have had : addr ∈ addresses sec.answers := had
    rw [hnn] at had
    cases had
  | policy hl hap hm =>
    rcases applyRPZRule_spec hap hm with ⟨rcode, rfl⟩ | ⟨hac, rfl⟩ | ⟨r, rfl, hr⟩
    · cases had
    · have had : addr ∈ addresses (map Rec.own q.answers) := had
      rw [@addresses_map Rec.own fun _ => rfl] at had
      exact hw.carried _ hl hac addr had
    · obtain ⟨r', hr', hr'addr⟩ := mem_addresses.1 had
      obtain rfl := mem_singleton.1 hr'
      obtain ⟨hac, hp⟩ := hr.2 addr hr'addr
      exact hs.made _ addr hl hac hp
  | transfer hsc hsec =>
    have had : addr ∈ addresses (map Rec.own _) := had
    rw [@addresses_map Rec.own fun _ => rfl] at had
    exact hw.transfer _ hsc _ hsec addr had

/-- **One query obeys the policies**, if the cache does. -/
theorem Sends.clean (hs : Enforceable C s.rpz) (hw : Unblocked C s.rpz q w)
    (hfl : Filled (fun _ m _ => Clean C s.rpz (addresses m.answers)) (fun _ => True) s)
    (h : Sends C s q qn w m) : Clean C s.rpz (addresses m.answers) := by
  cases h with
  | plain hp => exact hp.clean hs hw
  | hit hg rcode =>
    rename_i e
    have hen := hfl.cache _ _ (filter_eq_some_iff.1 hg).1
    rw [← addresses_aged (w.now - e.insertedAt) e.message] at hen
    exact Clean.reply hen
  | stale hcc =>
    rename_i e
    have hen := hfl.cache _ _ hcc
    rw [← addresses_mapTTL (min 30) e.message] at hen
    exact Clean.reply hen
  | nsec hfn => exact Clean.reply nofun
  | zone sec hans hown hpol => exact (clean_of_ipPolicy hs hpol).reply
  | resolved hr hval hpol => exact (clean_of_responsePolicy hs hpol).reply
  | forwarded hf => exact (clean_of_responsePolicy hs hf.policy).reply
  | dns64 hsy hrw hid hq hval hpol =>
    refine Clean.reply (clean_of_unblocked fun addr had => ?_)
    obtain ⟨r', hr', had⟩ := mem_addresses.1 had
    obtain ⟨r, -, hr⟩ := mem_filterMap.1 hr'
    obtain ⟨addr', hmd⟩ := address_synthesizeAnswer hr had
    exact hs.dns64 _ _ _ hsy hmd

/-- What is not checked is not blocked, and new policies find the cache empty. -/
def KeepsPolicy (C : Config Client Net Z) : State Net → Event Client Net → Prop
  | s, .query q w => Unblocked C s.rpz q w
  | s, .reload rpz => Enforceable C rpz ∧ ∀ k, s.cache k = none
  | _, .evict _ => True

def Enforced (C : Config Client Net Z) (s : State Net) : Prop := Enforceable C s.rpz ∧
  Filled (fun _ m _ => Clean C s.rpz (addresses m.answers)) (fun _ => True) s

/-- **The response-IP policy covers every path.** -/
theorem response_ip_enforced {rpz : Option (Policy.Engine Net)} {es : List (Event Client Net)}
    (hrpz : Enforceable C rpz) (h : Run.exec (step C) (.empty rpz) es = some s)
    (hok : Run.Meets (step C) (KeepsPolicy C) (.empty rpz) es) (hw : Unblocked C s.rpz q w) :
    ∀ m ∈ (serve C s q w).2, Clean C s.rpz (addresses m.answers) := by
  obtain ⟨hs, hfl⟩ : Enforced C s := by
    refine Run.invariant (fun s e s' hi hok hs => ?_) es h hok ⟨hrpz, nofun, fun _ _ => trivial⟩
    cases e with cases hs
    | query q w =>
      rw [Enforced, serve_rpz]
      refine ⟨hi.1, hi.2.serve fun qn rest _ =>
        ⟨fun raw m hf => ⟨clean_of_responsePolicy hi.1 hf.policy, fun _ => trivial⟩,
          fun target raw ht hrw => clean_of_unblocked fun addr had => ?_⟩⟩
      refine hok.target qn target raw ht hrw addr ?_
      rw [← addresses_map (fun r => ?_) raw.answers]
      · exact had
      · rfl
    | reload rpz =>
      refine ⟨hok.1, fun k e hk => ?_, fun _ _ => trivial⟩
      exact absurd hk (by simp [hok.2 k])
    | evict keep => exact ⟨hi.1, hi.2.evict keep⟩
  intro m hm
  rcases mem_serve hm with rfl | ⟨qn, hsn⟩
  · exact nofun
  · exact hsn.clean hs hw hfl

/-! ## A blocked address -/

def addressRule (action : Policy.PolicyAction) (priority : Int) : Policy.Rule :=
  ⟨action, .responseIP, [], [], 60, [], priority⟩

def addressPolicy (rules : List (Addr × Policy.Rule)) : Option (Policy.Engine Addr) :=
  some ⟨true, [], fun _ => none, { Policy.Tables.empty with resp := rules }⟩

def passPolicy : Option (Policy.Engine Addr) :=
  addressPolicy [([192, 0, 2, 1], addressRule .nxdomain 2), ([192, 0, 2, 1], addressRule .passThrough 1)]

theorem enforceable_passPolicy : Enforceable forwarder passPolicy := by
  have hrl : ∀ rule addr, Matching forwarder passPolicy addr rule →
      (rule = addressRule .nxdomain 2 ∨ rule = addressRule .passThrough 1) ∧
        Matching forwarder passPolicy addr (addressRule .passThrough 1) := by
    rintro rule addr ⟨e, he, hen, hh⟩
    cases he
    obtain ⟨p, hp, rfl⟩ := mem_map.1 hh
    obtain ⟨hp, hin⟩ := mem_filter.1 hp
    simp only [mem_cons, not_mem_nil, or_false] at hp
    refine ⟨hp.imp (congrArg Prod.snd) (congrArg Prod.snd), _, rfl, hen,
      mem_map.2 ⟨([192, 0, 2, 1], addressRule .passThrough 1), mem_filter.2 ⟨?_, ?_⟩, rfl⟩⟩
    · simp
    · rcases hp with rfl | rfl <;> exact hin
  refine ⟨fun addr _ rule h hac _ => ?_, fun addr rule h hac => ?_, fun addr rule h hac => ?_,
    fun rule addr _ _ hpr => ?_, fun synth _ _ hsy => ?_⟩
  · refine ⟨_, (hrl rule addr h).2, rfl, ?_⟩
    rcases (hrl rule addr h).1 with rfl | rfl <;> decide
  · rcases (hrl rule addr h).1 with rfl | rfl <;> cases hac
  · rcases (hrl rule addr h).1 with rfl | rfl <;> cases hac
  · cases hpr
  · cases hsy

theorem unblocked_forwarder (rpz : Option (Policy.Engine Addr)) (name : Name) (now : Nat)
    (upstream : UpstreamQuery → Option Msg) (verdict : ValidationResult) :
    Unblocked forwarder rpz (addressQuery name) (quietWorld now upstream verdict) := by
  refine ⟨fun _ _ _ addr had => ?_, fun secs h => ?_, fun qn target raw ht => ?_⟩
  · cases had
  · cases h
  · rcases ht with ⟨z, records, h⟩ | ⟨records, h⟩ <;> cases h

theorem response_ip_enforced_pass :
    let w := quietWorld 0 (echo false [192, 0, 2, 1]) .secure
    ∃ m ∈ (serve forwarder (.empty passPolicy) (addressQuery exampleName) w).2,
      addresses m.answers = [[192, 0, 2, 1]] ∧ Clean forwarder passPolicy (addresses m.answers) := by
  intro w
  have h : ∃ m ∈ (serve forwarder (.empty passPolicy) (addressQuery exampleName) w).2,
      addresses m.answers = [[192, 0, 2, 1]] := by decide
  obtain ⟨m, hm, had⟩ := h
  exact ⟨m, hm, had, @response_ip_enforced _ _ _ forwarder (.empty passPolicy) (addressQuery exampleName) w
    passPolicy [] enforceable_passPolicy rfl trivial (unblocked_forwarder _ _ _ _ _) m hm⟩

def blockPolicy : Option (Policy.Engine Addr) := addressPolicy [([192, 0, 2, 1], addressRule .nxdomain 1)]

theorem blocked_address_served :
    let w := quietWorld 0 (echo false [192, 0, 2, 1]) .secure
    let answers := fun (C : Config Nat Addr Unit) s name => (serve C s (addressQuery name) w).2.map (addresses ·.answers)
    answers forwarder (.empty blockPolicy) exampleName = [[]] ∧
      (∃ s, Run.exec (step forwarder) (.empty none) [.query (addressQuery exampleName) w, .reload blockPolicy] = some s ∧
        answers forwarder s exampleName = [[[192, 0, 2, 1]]]) ∧
      ∃ s, Run.exec (step aliasServer) (.empty blockPolicy) [.query (addressQuery exampleName) w] = some s ∧
        answers aliasServer s targetName = [[[192, 0, 2, 1]]] :=
  ⟨by decide, ⟨_, rfl, by decide⟩, _, rfl, by decide⟩

end NothingDNS.Pipeline
