import NothingDNS.Pipeline.Stages
import NothingDNS.Lib.Run
/-!
# What one query can send and store

The two relations say everything later modules need of the stages: how a message that is sent was made (`Sends`), and
what the state is afterwards (`Stores`).
-/

namespace NothingDNS.Pipeline

open List NothingDNS.Dnssec Option

variable {Client Net Z : Type} (C : Config Client Net Z) (s : State Net) (q : Query Client) (qn : Question)
  (w : World)

def Loaded (rule : Policy.Rule) : Prop :=
  ∃ e, s.rpz = some e ∧ ((∃ client, e.clientIPPolicy C.containsClient client = some rule) ∨
    (∃ name, e.qnamePolicy name = some rule) ∨ ∃ ips, e.responseIPPolicy C.contains ips = some rule)

/-- A response made without data from outside. -/
inductive Plain : Msg → Prop
  | built (sec : Sections) (tc : Bool) (hown : ∀ r ∈ sec.answers ++ sec.authorities ++ sec.additionals, r.source = .own)
      (haddr : addresses sec.answers = []) : Plain { q.respond sec with tc := tc }
  | policy {rule : Policy.Rule} {ms : List Msg} {m : Msg} (hl : Loaded C s rule)
      (h : applyRPZRule C q qn rule = some ms) (hm : m ∈ ms) : Plain m
  | transfer {secs : List Sections} {sec : Sections} (h : w.transfer = some secs) (hsec : sec ∈ secs) :
      Plain (q.respond sec.own)

/-- A DNAME or CNAME of the local zones leads from the query name to the target. -/
def IsTarget (target : Name) : Prop :=
  (∃ z records, C.handleAuthoritative z q = .dname records target) ∨
    ∃ records, C.chaseCNAME qn.name = .records records target

inductive TargetRec : Rec → Prop
  | own {r : Rec} (h : r.source = .own) : TargetRec r
  | cached {r r' : Rec} {e : Entry} (target : Name) (he : s.get w.now (C.key target qn.qtype false) = some e)
      (hr' : r' ∈ e.message.answers) (hrr : r.rr = r'.rr) (hsource : r.source = r'.source) : TargetRec r
  | received {r : Rec} {raw : Msg} (target : Name) (h : w.upstream (targetQuery q qn target) = some raw)
      (hr : r ∈ (receive w (targetQuery q qn target) raw).answers) : TargetRec r

structure Forwarded (raw m : Msg) : Prop where
  received : w.upstream (forwardQuery qn w) = some raw
  id : raw.id = w.txid
  question : upstreamResponseMatchesQuestion C qn raw = true
  validated : validateDNSSEC C q (w.validate raw qn.name) (receive w (forwardQuery qn w) raw) = .ok m
  policy : responsePolicy C s q qn m = none

inductive Sends : Msg → Prop
  | plain {m : Msg} (h : Plain C s q qn w m) : Sends m
  | hit {e : Entry} (h : s.get w.now (clientKey C q qn) = some e) (rcode : Nat) :
      Sends (reply C.nsTarget q { e.message.aged (w.now - e.insertedAt) with rcode := rcode })
  | stale {e : Entry} (h : s.cache (clientKey C q qn) = some e) : Sends (reply C.nsTarget q e.message.clamped)
  | nsec {m : Msg} {rcode : Nat} {rs : List Rec}
      (h : C.nsecLookup.find s.nsec qn.name qn.qtype w.now = some (m, rcode, rs)) :
      Sends (reply C.nsTarget q ⟨0, false, true, false, rcode, [⟨qn.name, qn.qtype, classIN⟩], [], rs, [], m.judged, []⟩)
  | zone (sec : Sections) (hans : ∀ r ∈ sec.answers, TargetRec C s q qn w r)
      (hown : ∀ r ∈ sec.authorities ++ sec.additionals, r.source = .own)
      (hpol : ipPolicy C s q qn (q.respond sec) = none) : Sends (reply C.nsTarget q (q.respond sec))
  | resolved {raw m : Msg} (hr : w.resolved = .message raw)
      (hval : validateDNSSEC C q (w.validate raw qn.name) (receiveResolved q raw) = .ok m)
      (hpol : responsePolicy C s q qn m = none) : Sends (reply C.nsTarget q m)
  | forwarded {raw m : Msg} (h : Forwarded C s q qn w raw m) : Sends (reply C.nsTarget q m)
  | dns64 {raw a : Msg} {synth : Addr → Option Addr} (hs : C.dns64 = some synth)
      (hr : w.upstream (dns64Query qn w) = some raw) (hid : raw.id = w.txid64) (hqtype : qn.qtype = typeAAAA)
      (hval : validateDNSSEC C q (w.validate raw qn.name) (receive w (dns64Query qn w) raw) = .ok a)
      (hpol : responsePolicy C s q qn a = none) : Sends (reply C.nsTarget q (synthesizeResponse qn synth a))

inductive Stores : State Net → Prop
  | same : Stores s
  | target {target : Name} {raw : Msg} (ht : IsTarget C q qn target)
      (h : w.upstream (targetQuery q qn target) = some raw) :
      Stores (s.set C w.now (C.key target qn.qtype false) (receive w (targetQuery q qn target) raw)
        ⟨target, qn.qtype, classIN⟩)
  | forwarded {raw m : Msg} (h : Forwarded C s q qn w raw m) : Stores (fill C s q qn w m)

def Fine (h : Handled Net) : Prop :=
  ∀ s' ms, h = some (s', ms) → Stores C s q qn w s' ∧ ∀ m ∈ ms, Sends C s q qn w m

variable {C s q qn w}

theorem fine_none : Fine C s q qn w none := nofun

variable {ms : List Msg}

theorem fine_answered (h : ∀ m ∈ ms, Sends C s q qn w m) : Fine C s q qn w (answered s ms) := by
  rintro _ _ ⟨⟩
  exact ⟨.same, h⟩

theorem sends_error (rcode : Nat) : Sends C s q qn w (q.respond (.error rcode)) :=
  .plain (.built (.error rcode) false (by simp [Sections.error]) rfl)

theorem fine_error (rcode : Nat) : Fine C s q qn w (answered s [q.respond (.error rcode)]) :=
  fine_answered fun _ hm => mem_singleton.1 hm ▸ sends_error rcode

theorem fine_ite {p : Prop} [Decidable p] {a b : Handled Net} (ha : p → Fine C s q qn w a)
    (hb : ¬ p → Fine C s q qn w b) : Fine C s q qn w (if p then a else b) := by
  split
  · exact ha ‹_›
  · exact hb ‹_›

variable {o : Option Policy.Rule}

theorem sends_policy (ho : ∀ rule, o = some rule → Loaded C s rule)
    (h : o.bind (applyRPZRule C q qn) = some ms) : ∀ m ∈ ms, Sends C s q qn w m := by
  obtain ⟨rule, hrl, hap⟩ := bind_eq_some_iff.1 h
  exact fun m hm => .plain (.policy (ho rule hrl) hap hm)

theorem fine_policy (ho : ∀ rule, o = some rule → Loaded C s rule) :
    Fine C s q qn w ((o.bind (applyRPZRule C q qn)).map fun ms => (s, ms)) := by
  intro s' ms h
  obtain ⟨ms', hms, heq⟩ := map_eq_some_iff.1 h
  cases heq
  exact ⟨.same, sends_policy ho hms⟩

variable {rule : Policy.Rule}

theorem loaded_qname {name : Text} (h : (s.rpz.bind fun e => e.qnamePolicy name) = some rule) : Loaded C s rule := by
  obtain ⟨e, he, hrl⟩ := bind_eq_some_iff.1 h
  exact ⟨e, he, .inr (.inl ⟨name, hrl⟩)⟩

theorem loaded_response {ips : List Addr}
    (h : (s.rpz.bind fun e => e.responseIPPolicy C.contains ips) = some rule) : Loaded C s rule := by
  obtain ⟨e, he, hrl⟩ := bind_eq_some_iff.1 h
  exact ⟨e, he, .inr (.inr ⟨ips, hrl⟩)⟩

theorem fine_findSome {α : Type} {l : List α} {f : α → Handled Net} (h : ∀ x ∈ l, Fine C s q qn w (f x)) :
    Fine C s q qn w (l.findSome? f) := by
  intro s' ms heq
  obtain ⟨x, hx, hf⟩ := exists_of_findSome?_eq_some heq
  exact h x hx s' ms hf

theorem sends_of_policy {o : Option (List Msg)} (hsm : ∀ ms', o = some ms' → ∀ m ∈ ms', Sends C s q qn w m)
    (hnn : o = none → ∀ m ∈ ms, Sends C s q qn w m) : ∀ m ∈ o.getD ms, Sends C s q qn w m := by
  cases h : o with
  | none => exact hnn h
  | some ms' => exact hsm ms' h

variable {m : Msg}

theorem sends_ipPolicy (h : ipPolicy C s q qn m = some ms) :
    ∀ m ∈ ms, Sends C s q qn w m := sends_policy (fun _ => loaded_response) h

theorem sends_responsePolicy (h : responsePolicy C s q qn m = some ms) : ∀ m ∈ ms, Sends C s q qn w m := by
  rcases or_eq_some_iff.1 h with h | ⟨-, h⟩
  · exact sends_ipPolicy h
  · obtain ⟨e, hrp, he⟩ := bind_eq_some_iff.1 h
    obtain ⟨n, -, hn⟩ := exists_of_findSome?_eq_some he
    exact sends_policy (fun rule hrl => ⟨e, hrp, .inr (.inl ⟨_, hrl⟩)⟩) hn

variable {verdict : ValidationResult}

theorem sends_refused (h : validateDNSSEC C q verdict m = .error ms) : ∀ m ∈ ms, Sends C s q qn w m := by
  have hms : ms = [q.respond (.error rcodeServerFailure)] := by
    unfold validateDNSSEC at h
    split at h
    · cases h
    split at h
    · cases h
    · cases h
    all_goals
      split at h
      · exact (Except.error.inj h).symm
      · cases h
  rw [hms]
  exact fun m hm => mem_singleton.1 hm ▸ sends_error _

variable {r : Rec}

theorem Rec.data_of_address {addr : Addr} (h : r.address? = some addr) : r.rr.data = .other addr := by
  unfold address? at h
  split at h
  next bytes hd =>
    split at h <;> cases h
    exact hd
  · cases h

def PolicyRec (C : Config Client Net Z) (rule : Policy.Rule) (r : Rec) : Prop :=
  r.source = .own ∧ ∀ addr, r.address? = some addr → rule.action = .override ∧ C.parseIP rule.overrideData = some addr

theorem applyRPZRule_spec (h : applyRPZRule C q qn rule = some ms) (hm : m ∈ ms) :
    (∃ rcode, m = q.respond (.error rcode)) ∨ (rule.action = .tcpOnly ∧ m = q.truncated) ∨
      ∃ r, m = q.respond ⟨false, rcodeSuccess, [r], [], []⟩ ∧ PolicyRec C rule r := by
  unfold applyRPZRule at h
  split at h
  case h_1 =>
    cases h
    exact .inl ⟨_, mem_singleton.1 hm⟩
  case h_2 =>
    cases h
    exact .inl ⟨_, mem_singleton.1 hm⟩
  case h_3 =>
    cases h
    cases hm
  case h_4 => cases h
  case h_5 hac =>
    cases h
    exact .inr (.inl ⟨hac, mem_singleton.1 hm⟩)
  case h_6 hac =>
    obtain ⟨addr, had, rfl⟩ := map_eq_some_iff.1 h
    refine .inr (.inr ⟨_, mem_singleton.1 hm, rfl, fun a ha => ⟨hac, ?_⟩⟩)
    rw [had]
    exact congrArg some (RData.other.inj (Rec.data_of_address ha))
  case h_7 =>
    obtain ⟨target, -, rfl⟩ := map_eq_some_iff.1 h
    exact .inr (.inr ⟨_, mem_singleton.1 hm, rfl, nofun⟩)

variable {h : Handled Net}

theorem fine_filters (hmem : h ∈ filterStages C s q qn w) : Fine C s q qn w h := by
  simp only [filterStages, mem_cons, not_mem_nil, or_false] at hmem
  rcases hmem with rfl | rfl | rfl | rfl | rfl | rfl | rfl | rfl | rfl
  · exact fine_ite (fun _ => fine_error _) fun _ => fine_none
  · refine fine_ite (fun _ => fine_none) fun _ => ?_
    split
    · exact fine_none
    · exact fine_error _
    · exact fine_error _
    next target _ =>
      refine fine_answered fun m hm => ?_
      rw [mem_singleton.1 hm]
      exact .plain (.built ⟨false, rcodeSuccess,
        [⟨⟨qn.name, typeCNAME, classIN, .cname target⟩, 60, .own⟩], [], []⟩ false (by simp) rfl)
  · refine fine_policy fun rule h => ?_
    obtain ⟨client, -, h⟩ := bind_eq_some_iff.1 h
    obtain ⟨e, he, hrl⟩ := bind_eq_some_iff.1 h
    exact ⟨e, he, .inl ⟨client, hrl⟩⟩
  · exact fine_ite (fun _ => fine_error _) fun _ => fine_none
  · exact fine_ite (fun _ => fine_error _) fun _ => fine_none
  · refine fine_ite (fun _ => fine_answered fun m hm => ?_) fun _ => fine_none
    rw [mem_singleton.1 hm]
    exact .plain (.built (.error rcodeSuccess) true (by simp [Sections.error]) rfl)
  · intro s' ms h
    obtain ⟨secs, hsc, heq⟩ := map_eq_some_iff.1 h
    cases heq
    refine ⟨.same, fun m hm => ?_⟩
    obtain ⟨sec, hsec, rfl⟩ := mem_map.1 hm
    exact .plain (.transfer hsc hsec)
  · exact fine_ite (fun _ => fine_error _) fun _ => fine_none
  · exact fine_policy fun _ => loaded_qname

theorem fine_cacheStage : Fine C s q qn w (cacheStage C s q qn w) := by
  intro s' ms h
  obtain ⟨e, he, heq⟩ := map_eq_some_iff.1 h
  cases heq
  refine ⟨.same, fun m hm => ?_⟩
  rw [mem_singleton.1 hm]
  split
  · exact .hit he e.rcode
  · exact .hit he (e.message.aged (w.now - e.insertedAt)).rcode

theorem fine_nsecCacheStage : Fine C s q qn w (nsecCacheStage C s q qn w) := by
  intro s' ms h
  obtain ⟨⟨m, rcode, rs⟩, hfn, heq⟩ := map_eq_some_iff.1 h
  cases heq
  refine ⟨.same, fun m hm => ?_⟩
  rw [mem_singleton.1 hm]
  exact .nsec hfn

theorem sends_unavailable : ∀ m ∈ unavailable C s q qn w, Sends C s q qn w m := by
  unfold unavailable
  split
  next m hm =>
    unfold State.getStale at hm
    split at hm
    · obtain ⟨e, he, rfl⟩ := map_eq_some_iff.1 hm
      exact fun m hm => mem_singleton.1 hm ▸ .stale (filter_eq_some_iff.1 he).1
    · cases hm
  · exact fun m hm => mem_singleton.1 hm ▸ sends_error _

theorem Rec.mapTTL_rr (f : Nat → Nat) (r : Rec) : (r.mapTTL f).rr = r.rr ∧ (r.mapTTL f).source = r.source := by
  unfold mapTTL
  split <;> exact ⟨rfl, rfl⟩

theorem mem_aged_answers {age : Nat} (h : r ∈ (m.aged age).answers) :
    ∃ r' ∈ m.answers, r.rr = r'.rr ∧ r.source = r'.source := by
  unfold Msg.aged at h
  split at h
  · exact ⟨r, h, rfl, rfl⟩
  · obtain ⟨r', hr', rfl⟩ := mem_map.1 h
    exact ⟨r', hr', (Rec.mapTTL_rr _ r').1, (Rec.mapTTL_rr _ r').2⟩

variable {target : Name}

theorem mem_cachedTarget (h : r ∈ cachedTarget C s qn w target) : TargetRec C s q qn w r := by
  unfold cachedTarget at h
  split at h
  · cases h
  next e he =>
    split at h
    · cases h
    · obtain ⟨r', hr', hrr, hsr⟩ := mem_aged_answers (mem_filter.1 h).1
      exact .cached target he hr' hrr hsr

/-- **What resolving a target does**: a reply may be stored, and its answers are used. -/
theorem resolveCNAMETarget_spec (ht : IsTarget C q qn target) :
    Stores C s q qn w (resolveCNAMETarget C s q qn w target).1 ∧
      ∀ r ∈ (resolveCNAMETarget C s q qn w target).2, TargetRec C s q qn w r := by
  unfold resolveCNAMETarget
  split
  · refine ⟨.same, fun r hr => ?_⟩
    obtain ⟨r', -, rfl⟩ := mem_map.1 hr
    exact .own rfl
  split
  · exact ⟨.same, fun r hr => mem_cachedTarget hr⟩
  split
  · exact ⟨.same, nofun⟩
  split
  · exact ⟨.same, nofun⟩
  next raw hrw =>
    refine ⟨?_, fun r hr => .received target hrw (mem_filter.1 hr).1⟩
    dsimp only
    split
    · exact .target ht hrw
    · exact .same

variable {s' : State Net}

theorem fine_local {sec : Sections} {o : Option (List Msg)} (hs : Stores C s q qn w s')
    (hans : ∀ r ∈ sec.answers, TargetRec C s q qn w r)
    (hown : ∀ r ∈ sec.authorities ++ sec.additionals, r.source = .own)
    (hsm : ∀ ms, o = some ms → ∀ m ∈ ms, Sends C s q qn w m)
    (hnn : o = none → ipPolicy C s q qn (q.respond sec) = none) :
    Fine C s q qn w (some (s', o.getD [reply C.nsTarget q (q.respond sec)])) := by
  intro t ms heq
  cases heq
  refine ⟨hs, sends_of_policy hsm fun ho m hm => ?_⟩
  rw [mem_singleton.1 hm]
  exact .zone sec hans hown (hnn ho)

theorem fine_handleZone (z : Z) : Fine C s q qn w (handleZone C s q qn w (C.handleAuthoritative z q)) := by
  cases hz : C.handleAuthoritative z q with
  | chase => exact fine_none
  | sections sec =>
    refine fine_local .same (fun r hr => ?_) (fun r hr => ?_) (fun ms h => sends_ipPolicy h) id
    · obtain ⟨r', -, rfl⟩ := mem_map.1 hr
      exact .own rfl
    · rcases mem_append.1 hr with hr | hr <;> obtain ⟨r', -, rfl⟩ := mem_map.1 hr <;> rfl
  | dname records target =>
    obtain ⟨hst, hrc⟩ := @resolveCNAMETarget_spec _ _ _ C s q qn w _ (.inl ⟨z, records, hz⟩)
    refine fine_local hst (forall_mem_append.2 ⟨fun r hr => ?_, hrc⟩) (by simp) (fun ms h => sends_ipPolicy h) id
    obtain ⟨r', -, rfl⟩ := mem_map.1 hr
    exact .own rfl

theorem fine_cnameStage : Fine C s q qn w (cnameStage C s q qn w) := by
  refine fine_ite (fun _ => fine_none) fun _ => ?_
  split
  · exact fine_none
  · exact fine_error _
  next records target hch =>
    obtain ⟨hst, hrc⟩ := @resolveCNAMETarget_spec _ _ _ C s q qn w _ (.inr ⟨records, hch⟩)
    refine fine_local hst (forall_mem_append.2 ⟨fun r hr => ?_, hrc⟩) (by simp)
      (fun ms h => sends_responsePolicy h) fun h => (or_eq_none_iff.1 h).1
    obtain ⟨r', -, rfl⟩ := mem_map.1 hr
    exact .own rfl

/-! ## Upstream and the resolver -/

theorem sends_tryDNS64 (h : tryDNS64 C s q qn w m = some ms) : ∀ m ∈ ms, Sends C s q qn w m := by
  unfold tryDNS64 at h
  split at h
  · cases h
  rename_i synth hsy
  split at h
  · cases h
  rename_i hcn
  split at h
  · cases h
  rename_i raw hrw
  split at h
  · cases h
  rename_i hid
  split at h
  · cases h
    exact sends_refused ‹_›
  rename_i a hval
  split at h
  · cases h
    exact sends_responsePolicy ‹_›
  rename_i hpol
  split at h
  · cases h
  split at h
  · cases h
  cases h
  have hq : qn.qtype = typeAAAA := by
    have hsh : shouldSynthesize qn m = true := by simpa using (not_or.1 (not_or.1 hcn).2).1
    exact (of_decide_eq_true hsh).1
  exact fun m hm => mem_singleton.1 hm ▸ .dns64 hsy hrw (not_not.1 hid) hq hval hpol

theorem sends_replaced
    (h : (responsePolicy C s q qn m).or (tryDNS64 C s q qn w m) = some ms) : ∀ m ∈ ms, Sends C s q qn w m := by
  rcases or_eq_some_iff.1 h with h | ⟨-, h⟩
  · exact sends_responsePolicy h
  · exact sends_tryDNS64 h

theorem fine_resolverStage : Fine C s q qn w (resolverStage C s q qn w) := by
  refine fine_ite (fun _ => fine_none) fun _ => ?_
  split
  · exact fine_answered sends_unavailable
  · exact fine_error _
  next raw hrw =>
    split
    · exact fine_answered (sends_refused ‹_›)
    next m hval =>
      refine fine_answered (sends_of_policy (fun ms h => sends_replaced h) fun h m hm => ?_)
      rw [mem_singleton.1 hm]
      exact .resolved hrw hval (or_eq_none_iff.1 h).1

theorem fine_upstreamStage : Fine C s q qn w (upstreamStage C s q qn w) := by
  refine fine_ite (fun _ => fine_none) fun _ => ?_
  split
  · exact fine_answered sends_unavailable
  rename_i raw hrw
  refine fine_ite (fun _ => fine_error _) fun hmt => ?_
  split
  · exact fine_answered (sends_refused ‹_›)
  rename_i m hval
  split
  · exact fine_answered (sends_replaced ‹_›)
  rename_i hrp
  have hf : Forwarded C s q qn w raw m :=
    ⟨hrw, not_not.1 (not_or.1 hmt).1, by simpa using (not_or.1 hmt).2, hval, (or_eq_none_iff.1 hrp).1⟩
  rintro _ _ ⟨⟩
  refine ⟨.forwarded hf, ?_⟩
  split
  · exact fun m hm => mem_singleton.1 hm ▸ sends_error _
  · exact fun m hm => mem_singleton.1 hm ▸ .forwarded hf

theorem fine_stages (hmem : h ∈ stages C s q qn w) : Fine C s q qn w h := by
  rcases mem_append.1 hmem with hmem | hmem
  · exact fine_filters hmem
  simp only [mem_cons, not_mem_nil, or_false] at hmem
  rcases hmem with rfl | rfl | rfl | rfl | rfl | rfl | rfl | rfl | rfl
  · exact fine_cacheStage
  · exact fine_nsecCacheStage
  · intro s' ms h
    obtain ⟨client, -, h⟩ := bind_eq_some_iff.1 h
    exact fine_findSome (fun z _ => fine_handleZone _) s' ms h
  · exact fine_findSome fun z _ => fine_handleZone _
  · exact fine_cnameStage
  · exact fine_ite (fun _ => fine_error _) fun _ => fine_none
  · exact fine_resolverStage
  · exact fine_upstreamStage
  · exact fine_error _

theorem serve_spec {rest : List Question} (hq : q.questions = qn :: rest) :
    Stores C s q qn w (serve C s q w).1 ∧ ∀ m ∈ (serve C s q w).2, Sends C s q qn w m := by
  unfold serve
  rw [hq]
  dsimp only
  cases h : (stages C s q qn w).findSome? id with
  | none => exact ⟨.same, nofun⟩
  | some r =>
    obtain ⟨st, hst, heq⟩ := exists_of_findSome?_eq_some h
    exact fine_stages hst r.1 r.2 heq

theorem Stores.rpz (h : Stores C s q qn w s') : s'.rpz = s.rpz := by
  cases h with
  | same => rfl
  | target ht hrw => rfl
  | forwarded hf =>
    unfold fill
    split
    · rfl
    split
    · split <;> rfl
    · rfl

theorem serve_of_no_question (hq : q.questions = []) : serve C s q w = (s, [q.respond (.error rcodeFormatError)]) := by
  rw [serve, hq]

theorem mem_serve (hm : m ∈ (serve C s q w).2) :
    m = q.respond (.error rcodeFormatError) ∨ ∃ qn, Sends C s q qn w m := by
  cases hq : q.questions with
  | nil =>
    rw [serve_of_no_question hq] at hm
    exact .inl (mem_singleton.1 hm)
  | cons qn rest => exact .inr ⟨qn, (serve_spec hq).2 m hm⟩

theorem serve_rpz : (serve C s q w).1.rpz = s.rpz := by
  cases hq : q.questions with
  | nil => rw [serve_of_no_question hq]
  | cons qn rest => exact (serve_spec hq).1.rpz

theorem mem_reply {nsTarget : List UInt8 → Option Name} : (r ∈ (reply nsTarget q m).answers → r ∈ m.answers) ∧
      (r ∈ (reply nsTarget q m).records → r ∈ m.records) := by
  have hrm : ∀ {rs : List Rec} {t : Nat}, r ∈ removeDNSSECRecords rs t → r ∈ rs := by
    intro rs t h
    unfold removeDNSSECRecords at h
    split at h
    · exact h
    · exact (mem_filter.1 h).1
  have hans : r ∈ (reply nsTarget q m).answers → r ∈ m.answers := by
    intro h
    simp only [reply, minimizeResponse, scrubForClient] at h
    split at h <;> split at h <;> first | exact h | exact hrm h
  have hat : r ∈ (reply nsTarget q m).authorities → r ∈ m.authorities := by
    intro h
    have h := (mem_filter.1 h).1
    unfold scrubForClient at h
    dsimp only at h
    split at h <;> split at h <;> first | exact h | exact hrm h
  have had : r ∈ (reply nsTarget q m).additionals → r ∈ m.additionals := by
    intro h
    have h := (mem_filter.1 h).1
    unfold scrubForClient at h
    dsimp only at h
    split at h <;> split at h <;> first | exact h | exact (mem_filter.1 h).1
  refine ⟨hans, fun h => ?_⟩
  simp only [Msg.records, mem_append] at h ⊢
  rcases h with (h | h) | h
  · exact .inl (.inl (hans h))
  · exact .inl (.inr (hat h))
  · exact .inr (had h)

theorem reply_header (nsTarget : List UInt8 → Option Name) (m : Msg) :
    (reply nsTarget q m).id = q.id ∧ (reply nsTarget q m).ad = m.ad ∧ (reply nsTarget q m).judged = m.judged ∧
      (reply nsTarget q m).madeFrom = m.responseIPs ∧
      (reply nsTarget q m).questions = if m.questions = [] then q.questions else m.questions := by
  unfold reply minimizeResponse scrubForClient
  dsimp only
  split <;> split <;> exact ⟨rfl, rfl, rfl, rfl, rfl⟩

/-- **What validation lets through.** -/
structure Passed (C : Config Client Net Z) (verdict : ValidationResult) (raw m : Msg) : Prop where
  answers : m.answers = raw.answers
  authorities : m.authorities = raw.authorities
  additionals : m.additionals = raw.additionals
  questions : m.questions = raw.questions
  judged : C.validator = true → m.judged = some verdict
  ad : C.validator = true → m.ad = true → raw.ad = true ∨ verdict = .secure
  verdict : C.validator = true → C.dnssecEnabled = true → verdict ≠ .bogus ∧ verdict ≠ .indeterminate

variable {raw : Msg}

theorem validateDNSSEC_ok (h : validateDNSSEC C q verdict raw = .ok m) : Passed C verdict raw m := by
  unfold validateDNSSEC at h
  split at h
  next hv =>
    cases h
    exact ⟨rfl, rfl, rfl, rfl, fun hv' => absurd hv' (by simp [hv]), fun hv' => absurd hv' (by simp [hv]),
      fun hv' => absurd hv' (by simp [hv])⟩
  split at h
  · cases h
    exact ⟨rfl, rfl, rfl, rfl, fun _ => rfl, fun _ _ => .inr rfl, fun _ _ => by simp⟩
  · cases h
    exact ⟨rfl, rfl, rfl, rfl, fun _ => rfl, fun _ => .inl, fun _ _ => by simp⟩
  all_goals
    split at h
    · cases h
    next he =>
      cases h
      exact ⟨rfl, rfl, rfl, rfl, fun _ => rfl, fun _ => .inl, fun _ he' => absurd he' he⟩

theorem Passed.records (h : Passed C verdict raw m) : m.records = raw.records := by
  rw [Msg.records, Msg.records, h.answers, h.authorities, h.additionals]

/-! ## What the caches hold -/

/-- Every stored message is as `P` says, every message in the aggressive cache as `N` says. -/
structure Filled (P : Key → Msg → Question → Prop) (N : Msg → Prop) (s : State Net) : Prop where
  cache : ∀ k e, s.cache k = some e → P k e.message e.asked
  nsec : ∀ m ∈ s.nsec, N m

section Filled

variable {P : Key → Msg → Question → Prop} {N : Msg → Prop}

theorem Filled.add (h : Filled P N s) {k : Key} {e : Entry} (he : P k e.message e.asked) : Filled P N (s.add k e) := by
  refine ⟨fun k' e' hk' => ?_, h.nsec⟩
  unfold State.add at hk'
  dsimp only at hk'
  split at hk'
  next heq =>
    cases hk'
    exact heq ▸ he
  · exact h.cache k' e' hk'

structure Admits (P : Key → Msg → Question → Prop) (N : Msg → Prop) (C : Config Client Net Z) (s : State Net)
    (q : Query Client) (qn : Question) (w : World) : Prop where
  forwarded : ∀ raw m, Forwarded C s q qn w raw m → P (clientKey C q qn) m qn ∧ (m.judged = some .secure → N m)
  target : ∀ target raw, IsTarget C q qn target → w.upstream (targetQuery q qn target) = some raw →
    P (C.key target qn.qtype false) (receive w (targetQuery q qn target) raw) ⟨target, qn.qtype, classIN⟩

theorem Filled.stores (h : Filled P N s) (ha : Admits P N C s q qn w) {s' : State Net}
    (hs : Stores C s q qn w s') : Filled P N s' := by
  cases hs with
  | same => exact h
  | target ht hrw => exact h.add (ha.target _ _ ht hrw)
  | forwarded hf =>
    obtain ⟨hp, hn⟩ := ha.forwarded _ _ hf
    unfold fill
    split
    · exact h.add hp
    split
    · split
      next hsec =>
        refine ⟨(h.add hp).cache, forall_mem_cons.2 ⟨hn hsec.2, h.nsec⟩⟩
      · exact h.add hp
    · exact h

theorem Filled.serve (h : Filled P N s)
    (ha : ∀ qn rest, q.questions = qn :: rest → Admits P N C s q qn w) : Filled P N (serve C s q w).1 := by
  cases hq : q.questions with
  | nil =>
    rw [serve_of_no_question hq]
    exact h
  | cons qn rest => exact h.stores (ha qn rest hq) (serve_spec hq).1

theorem Filled.evict (h : Filled P N s) (keep : Key → Bool) :
    Filled P N { s with cache := fun k => if keep k then s.cache k else none } := by
  refine ⟨fun k e hk => ?_, h.nsec⟩
  dsimp only at hk
  split at hk
  · exact h.cache k e hk
  · cases hk

theorem Filled.run {ok : State Net → Event Client Net → Prop}
    (hqr : ∀ s q w qn rest, Filled P N s → q.questions = qn :: rest → ok s (.query q w) → Admits P N C s q qn w)
    {rpz : Option (Policy.Engine Net)} {es : List (Event Client Net)}
    (h : Run.exec (step C) (.empty rpz) es = some s) (hok : Run.Meets (step C) ok (.empty rpz) es) : Filled P N s := by
  refine Run.invariant (fun s e s' hi hok hs => ?_) es h hok
    ⟨nofun, by simp [State.empty]⟩
  cases e with cases hs
  | query q w => exact hi.serve fun qn rest hq => hqr s q w qn rest hi hq hok
  | reload rpz => exact ⟨hi.cache, hi.nsec⟩
  | evict keep => exact hi.evict keep

end Filled

end NothingDNS.Pipeline
