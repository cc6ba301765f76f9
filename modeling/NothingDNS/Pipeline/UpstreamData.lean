import NothingDNS.Pipeline.Spec
/-!
# What is trusted of upstream: matched records, and the AD bit

The forwarding path compares the ID and the question of a reply and validates it, the DNS64 path compares the ID and
validates. The path for the target of a local CNAME or DNAME does neither (`spoofed_target_stored`).

The AD bit is set on a Secure verdict and is otherwise upstream's (`upstream_ad_relayed`); `ad_honest` is for
upstream servers and a resolver that leave it clear.
-/

namespace NothingDNS.Pipeline

open List

open NothingDNS.Dnssec

variable {Client Net Z : Type} {C : Config Client Net Z} {s : State Net} {q : Query Client} {qn : Question}
  {w : World}

/-! ## Matched and validated -/

/-- The reply carries the ID and the one question of its query, and is neither Bogus nor
Indeterminate. -/
def Exchange.Sound (x : Exchange) : Prop :=
  x.id = x.query.id ∧ (∃ got, x.questions = [got] ∧ got.Same x.query.question) ∧
    x.verdict ≠ .bogus ∧ x.verdict ≠ .indeterminate

/-- Every record that came from upstream came in such a reply. -/
def SoundRecords (rs : List Rec) : Prop := ∀ r ∈ rs, ∀ x, r.source = .upstream x → x.Sound

/-- A reply has the question of its query, or the names of both are in ASCII, where `EqualFold` is equality up to ASCII
case. -/
def PlainQuestion (uq : UpstreamQuery) (raw : Msg) : Prop :=
  ∀ got, raw.questions = [got] → got.Same uq.question ∨ got.name.Ascii ∧ uq.question.name.Ascii

/-- Upstream answers the queries for the target of an alias as the other paths demand it, those for DNS64 with their
question, and forwarded ones with a plain question. -/
def World.Matching (w : World) : Prop :=
  ∀ uq raw, w.upstream uq = some raw →
    (uq.purpose = .target → (exchange w uq raw).Sound) ∧
    (uq.purpose = .dns64 → ∃ got, raw.questions = [got] ∧ got.Same uq.question) ∧
    (uq.purpose = .forward → PlainQuestion uq raw)

def OnQuery (p : Query Client → World → Prop) : State Net → Event Client Net → Prop
  | _, .query q w => p q w
  | _, _ => True

variable {raw : Msg}

theorem source_receive {uq : UpstreamQuery} {r : Rec} (h : r ∈ (receive w uq raw).records) :
    r.source = .upstream (exchange w uq raw) := by
  simp only [Msg.records, receive, mem_append, mem_map] at h
  rcases h with (⟨r', -, rfl⟩ | ⟨r', -, rfl⟩) | ⟨r', -, rfl⟩ <;> rfl

theorem soundRecords_receive {uq : UpstreamQuery} (h : (exchange w uq raw).Sound) :
    SoundRecords (receive w uq raw).records := by
  intro r hr x hx
  rw [source_receive hr, Source.upstream.injEq] at hx
  exact hx ▸ h

theorem soundRecords_own {rs : List Rec} (h : ∀ r ∈ rs, r.source = .own) : SoundRecords rs := by
  intro r hr x hx
  rw [h r hr] at hx
  cases hx

variable {m : Msg}

theorem Forwarded.same (h : Forwarded C s q qn w raw m) (ha : PlainQuestion (forwardQuery qn w) raw) :
    ∃ got, raw.questions = [got] ∧ got.Same qn := by
  have hq := h.question
  unfold upstreamResponseMatchesQuestion at hq
  split at hq
  next got hg =>
    rcases ha got hg with hsm | hac
    · exact ⟨got, hg, hsm⟩
    · have hac : got.name.Ascii ∧ qn.name.Ascii := hac
      rw [nameEqual, if_pos hac, Bool.and_eq_true, decide_eq_true_eq, decide_eq_true_eq] at hq
      exact ⟨got, hg, hq.1, hq.2⟩
  · cases hq

theorem Forwarded.sound (hv : C.validator = true) (he : C.dnssecEnabled = true)
    (h : Forwarded C s q qn w raw m) (ha : PlainQuestion (forwardQuery qn w) raw) : SoundRecords m.records := by
  have hp := validateDNSSEC_ok h.validated
  rw [hp.records]
  exact soundRecords_receive ⟨h.id, h.same ha, hp.verdict hv he⟩

theorem Plain.sources (h : Plain C s q qn w m) : ∀ r ∈ m.records, r.source = .own := by
  cases h with
  | built sec tc hown had => exact hown
  | policy hl hap hm =>
    intro r hr
    rcases applyRPZRule_spec hap hm with ⟨rcode, rfl⟩ | ⟨-, rfl⟩ | ⟨r', rfl, hr'⟩
    · cases hr
    · simp only [Msg.records, Query.truncated, mem_append, mem_map] at hr
      rcases hr with (⟨r', -, rfl⟩ | ⟨r', -, rfl⟩) | ⟨r', -, rfl⟩ <;> rfl
    · simp only [Msg.records, Query.respond, append_nil, mem_singleton] at hr
      exact hr ▸ hr'.1
  | transfer hsc hsec =>
    intro r hr
    simp only [Msg.records, Query.respond, Sections.own, mem_append, mem_map] at hr
    rcases hr with (⟨r', -, rfl⟩ | ⟨r', -, rfl⟩) | ⟨r', -, rfl⟩ <;> rfl

theorem mapTTL_records {f : Nat → Nat} {r : Rec} (h : r ∈ (m.mapTTL f).records) :
    ∃ r' ∈ m.records, r.source = r'.source := by
  simp only [Msg.records, Msg.mapTTL, mem_append, mem_map] at h
  rcases h with (⟨r', hr', rfl⟩ | ⟨r', hr', rfl⟩) | ⟨r', hr', rfl⟩
  all_goals exact ⟨r', by simp [Msg.records, hr'], (Rec.mapTTL_rr f r').2⟩

theorem SoundRecords.mapTTL (h : SoundRecords m.records) (f : Nat → Nat) : SoundRecords (m.mapTTL f).records := by
  intro r hr x hx
  obtain ⟨r', hr', hsr⟩ := mapTTL_records hr
  exact h r' hr' x (hsr ▸ hx)

theorem SoundRecords.aged (h : SoundRecords m.records) (age : Nat) : SoundRecords (m.aged age).records := by
  unfold Msg.aged
  split
  · exact h
  · exact h.mapTTL _

theorem SoundRecords.reply (h : SoundRecords m.records) (nsTarget : List UInt8 → Option Name) :
    SoundRecords (reply nsTarget q m).records := fun r hr => h r (mem_reply.2 hr)

theorem admits_sound (hv : C.validator = true) (he : C.dnssecEnabled = true) (hw : w.Matching) :
    Admits (fun _ m _ => SoundRecords m.records) (fun m => SoundRecords m.records) C s q qn w :=
  ⟨fun _ _ hf => have hsn := hf.sound hv he ((hw _ _ hf.received).2.2 rfl)
    ⟨hsn, fun _ => hsn⟩,
    fun _ raw _ hrw => soundRecords_receive ((hw _ raw hrw).1 rfl)⟩

theorem Sends.sound (hv : C.validator = true) (he : C.dnssecEnabled = true) (hw : w.Matching)
    (hs : Filled (fun _ m _ => SoundRecords m.records) (fun m => SoundRecords m.records) s)
    (h : Sends C s q qn w m) : SoundRecords m.records := by
  cases h with
  | plain hp => exact soundRecords_own hp.sources
  | hit hg rcode =>
    refine SoundRecords.reply ?_ _
    exact (hs.cache _ _ (Option.filter_eq_some_iff.1 hg).1).aged _
  | stale hcc =>
    refine SoundRecords.reply ?_ _
    exact (hs.cache _ _ hcc).mapTTL _
  | nsec hfn =>
    refine SoundRecords.reply (fun r hr x hx => ?_) _
    simp only [Msg.records, nil_append, append_nil] at hr
    obtain ⟨r', hr', hsr⟩ := C.nsecLookup.records hfn r hr
    exact hs.nsec _ (C.nsecLookup.mem hfn) r' (by simp [Msg.records, hr']) x (hsr ▸ hx)
  | zone sec hans hown hpol =>
    refine SoundRecords.reply (fun r hr x hx => ?_) _
    simp only [Msg.records, Query.respond, append_assoc] at hr
    rcases mem_append.1 hr with hr | hr
    · cases hans r hr with
      | own hsr =>
        rw [hsr] at hx
        cases hx
      | cached target hg hr' hrr hsr =>
        exact hs.cache _ _ (Option.filter_eq_some_iff.1 hg).1 _ (by simp [Msg.records, hr']) x (hsr ▸ hx)
      | received target hrw hrc => exact soundRecords_receive ((hw _ _ hrw).1 rfl) r (by simp [Msg.records, hrc]) x hx
    · rw [hown r hr] at hx
      cases hx
  | resolved hr hval hpol =>
    refine SoundRecords.reply (fun r hr x hx => ?_) _
    rw [(validateDNSSEC_ok hval).records] at hr
    simp only [Msg.records, receiveResolved, mem_append, mem_map] at hr
    rcases hr with (⟨r', -, rfl⟩ | ⟨r', -, rfl⟩) | ⟨r', -, rfl⟩ <;> cases hx
  | forwarded hf => exact (hf.sound hv he ((hw _ _ hf.received).2.2 rfl)).reply _
  | @dns64 raw a synth hsy hrw hid hq hval hpol =>
    have hp := validateDNSSEC_ok hval
    have hsn : (exchange w (dns64Query qn w) raw).Sound := ⟨hid, (hw _ _ hrw).2.1 rfl, hp.verdict hv he⟩
    refine SoundRecords.reply (fun r hr x hx => ?_) _
    simp only [Msg.records, synthesizeResponse, append_nil] at hr
    obtain ⟨r', hr', hs'⟩ := mem_filterMap.1 hr
    have hsr : r.source = r'.source := by
      unfold synthesizeAnswer at hs'
      split at hs'
      · cases hs'
        rfl
      split at hs'
      · split at hs'
        · obtain ⟨addr, -, rfl⟩ := Option.map_eq_some_iff.1 hs'
          rfl
        · cases hs'
      · cases hs'
    rw [hp.answers] at hr'
    exact soundRecords_receive hsn r' (by simp [Msg.records, hr']) x (hsr ▸ hx)

def forwarder : Config Nat Addr Unit where
  nsTarget _ := none
  minimum _ := 0
  hash := id
  contains net addr := net = addr
  containsClient _ _ := false
  parseIP _ := none
  parseName _ := none
  foldUnicode _ _ := true
  validator := true
  dnssecEnabled := true
  authoritativeOnly := false
  resolver := false
  upstream := true
  dns64 := none
  serveStale := false
  staleGrace := 0
  clampTTL := id
  clampNegativeTTL := id
  nsecLookup := .off
  viewZones _ := []
  findZones _ := []
  isSubdomain _ _ := true
  handleAuthoritative _ _ := .chase
  chaseCNAME _ := .none
  zoneLookup _ _ := []

def exampleName : Name := ["w".toList, "e".toList]
def targetName : Name := ["t".toList, "x".toList]

def addressRec (name : Name) (addr : Addr) : Rec := ⟨⟨name, typeA, classIN, .other addr⟩, 60, .own⟩

def aliasServer : Config Nat Addr Unit :=
  { forwarder with
    findZones := fun _ => [()]
    chaseCNAME := fun _ => .records [⟨⟨exampleName, typeCNAME, classIN, .cname targetName⟩, 60, .own⟩] targetName }

def addressQuery (name : Name) : Query Nat := 
  ⟨7, [⟨name, typeA, classIN⟩], none, false, false, false, some 1, false, [], [], []⟩

def addressMsg (id : Nat) (ad : Bool) (name : Name) (addr : Addr) : Msg :=
  ⟨id, false, ad, false, rcodeSuccess, [⟨name, typeA, classIN⟩], [addressRec name addr], [], [], none, []⟩

def quietWorld (now : Nat) (upstream : UpstreamQuery → Option Msg) (verdict : ValidationResult) : World where
  now := now
  idnaInvalid := false
  acl := .allowed
  rateLimited := false
  badCookie := false
  transfer := none
  blocked := false
  txid := 99
  txid64 := 98
  upstream := upstream
  resolved := .failed
  validate _ _ := verdict
  suppressed := false

def echo (ad : Bool) (addr : Addr) (uq : UpstreamQuery) : Option Msg :=
  some { addressMsg uq.id ad uq.question.name addr with questions := [uq.question] }

/-- Upstream answers with another ID and another question. -/
def spoof (uq : UpstreamQuery) : Option Msg := some (addressMsg (uq.id + 1) false exampleName [192, 0, 2, 66])

theorem matching_echo (now : Nat) (addr : Addr) : (quietWorld now (echo false addr) .secure).Matching := by
  intro uq raw h
  cases h
  have hsm : uq.question.Same uq.question := ⟨rfl, rfl, rfl⟩
  refine ⟨fun _ => ⟨rfl, ⟨_, rfl, hsm⟩, by simp [exchange, quietWorld]⟩, fun _ => ⟨_, rfl, hsm⟩, ?_⟩
  rintro - got ⟨⟩
  exact .inl hsm

def World.ClearAD (w : World) : Prop :=
  (∀ uq raw, w.upstream uq = some raw → raw.ad = false) ∧ ∀ raw, w.resolved = .message raw → raw.ad = false

/-- AD only on a message the validator called Secure. -/
def Honest (m : Msg) : Prop := m.ad = true → m.judged = some .secure

theorem honest_passed (hv : C.validator = true) {verdict : ValidationResult}
    (h : Passed C verdict raw m) (hrw : raw.ad = false) : Honest m := by
  intro had
  rcases h.ad hv had with ha' | hsec
  · rw [hrw] at ha'
    cases ha'
  · rw [h.judged hv, hsec]

theorem Plain.honest (hq : q.ad = true → ∀ rule, Loaded C s rule → rule.action ≠ .tcpOnly)
    (h : Plain C s q qn w m) : Honest m := by
  intro had
  cases h with
  | built sec tc hown har => cases had
  | policy hl hap hm =>
    rcases applyRPZRule_spec hap hm with ⟨rcode, rfl⟩ | ⟨hac, rfl⟩ | ⟨r, rfl, hr⟩
    · cases had
    · exact absurd hac (hq had _ hl)
    · cases had
  | transfer hsc hsec => cases had

theorem Honest.aged (h : Honest m) (age : Nat) : Honest (m.aged age) := by
  unfold Msg.aged
  split <;> exact h

theorem honest_reply (nsTarget : List UInt8 → Option Name) (h : Honest m) : Honest (reply nsTarget q m) := by
  obtain ⟨-, had, hjd, -⟩ := reply_header (q := q) nsTarget m
  unfold Honest
  rw [had, hjd]
  exact h

theorem Sends.honest (hv : C.validator = true) (hw : w.ClearAD)
    (hq : q.ad = true → ∀ rule, Loaded C s rule → rule.action ≠ .tcpOnly)
    (hs : Filled (fun _ m _ => Honest m) (fun m => m.judged = some .secure) s) (h : Sends C s q qn w m) : Honest m := by
  cases h with
  | plain hp => exact hp.honest hq
  | hit hg rcode =>
    refine honest_reply _ ?_
    exact (hs.cache _ _ (Option.filter_eq_some_iff.1 hg).1).aged _
  | stale hcc =>
    refine honest_reply _ ?_
    exact hs.cache _ _ hcc
  | nsec hfn =>
    have hsc := hs.nsec _ (C.nsecLookup.mem hfn)
    exact honest_reply _ fun _ => hsc
  | zone | dns64 => exact honest_reply _ fun had => by cases had
  | resolved hr hval hpol =>
    have hrw := hw.2 _ hr
    exact honest_reply _ (honest_passed hv (validateDNSSEC_ok hval) hrw)
  | forwarded hf =>
    have hrw := hw.1 _ _ hf.received
    exact honest_reply _ (honest_passed hv (validateDNSSEC_ok hf.validated) hrw)

/-- **The AD bit is honest**, if upstream and the resolver leave it clear, and a client that sets it is
not sent to TCP by a policy. -/
theorem ad_honest (hv : C.validator = true) {rpz : Option (Policy.Engine Net)} {es : List (Event Client Net)}
    (hrun : Run.exec (step C) (.empty rpz) es = some s)
    (hok : Run.Meets (step C) (OnQuery fun _ w => w.ClearAD) (.empty rpz) es) :
    ∀ q w, w.ClearAD → (q.ad = true → ∀ rule, Loaded C s rule → rule.action ≠ .tcpOnly) →
      ∀ m ∈ (serve C s q w).2, m.ad = true → m.judged = some .secure := by
  have hs : Filled (fun _ m _ => Honest m) (fun m => m.judged = some .secure) s := by
    refine Filled.run (fun s q w qn rest hs hq hw => ⟨fun raw m hf => ⟨?_, id⟩, fun target raw _ hrw had => ?_⟩)
      hrun hok
    · have hrw := hw.1 _ _ hf.received
      exact honest_passed hv (validateDNSSEC_ok hf.validated) hrw
    · exact absurd ((hw.1 _ raw hrw).symm.trans had) (by simp)
  intro q w hw hq m hm
  rcases mem_serve hm with rfl | ⟨qn, hsn⟩
  · exact fun had => by cases had
  · exact hsn.honest hv hw hq hs

theorem clearAD_echo (now : Nat) (addr : Addr) (verdict : ValidationResult) :
    (quietWorld now (echo false addr) verdict).ClearAD := by
  refine ⟨fun uq raw h => ?_, fun raw h => ?_⟩
  · cases h
    rfl
  · cases h

theorem ad_honest_secure :
    ∃ m ∈ (serve forwarder (.empty none) (addressQuery exampleName) (quietWorld 0 (echo false [192, 0, 2, 1]) .secure)).2,
      m.ad = true ∧ m.judged = some .secure := by
  have h : ∃ m ∈ (serve forwarder (.empty none) (addressQuery exampleName)
      (quietWorld 0 (echo false [192, 0, 2, 1]) .secure)).2, m.ad = true := by decide
  obtain ⟨m, hm, had⟩ := h
  exact ⟨m, hm, had, @ad_honest _ _ _ forwarder (.empty none) rfl none [] rfl trivial _ _
    (clearAD_echo 0 _ _) (nofun) m hm had⟩

theorem upstream_ad_relayed :
    let first := serve forwarder (.empty none) (addressQuery exampleName)
      (quietWorld 0 (echo true [192, 0, 2, 1]) .insecure)
    (∃ m ∈ first.2, m.ad = true ∧ m.judged = some .insecure) ∧
      ∃ m ∈ (serve forwarder first.1 { addressQuery exampleName with client := some 2 }
        (quietWorld 1 (fun _ => none) .insecure)).2, m.ad = true ∧ m.judged = some .insecure := by
  decide

end NothingDNS.Pipeline
