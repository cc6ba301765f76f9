import NothingDNS.Pipeline.Message
import NothingDNS.Policy.Rpz
/-!
# The query pipeline (`cmd/nothingdns/pipeline.go`, `pipeline_stages.go`)

A stage is a partial function: one that does not handle the query leaves the state alone, and the first that is
defined answers. Parameters are what a zone answers (`Server/Authoritative` has it), the parsers, the match of
addresses with prefixes, the clamping of TTLs and the aggressive NSEC cache, of which only where its records
come from is assumed. What the outside decides during a query is arbitrary (`World`). The removal of a cached
entry that has not expired is an event.
-/

namespace NothingDNS.Pipeline

open NothingDNS.Dnssec

/-! ## The response cache -/

/-- `name|qtype|do`, with the lowercased text of the name or its hash. -/
structure Key where
  name : Text
  qtype : Nat
  doBit : Bool
deriving DecidableEq

def maxKeyNameLen : Nat := 128

def makeKey (hash : Text → Text) (name : Name) (qtype : Nat) (doBit : Bool) : Key :=
  ⟨if maxKeyNameLen < name.string.length then hash name.string.lower else name.string.lower, qtype, doBit⟩

structure Entry where
  message : Msg
  isNegative : Bool
  rcode : Nat
  expireTime : Nat
  insertedAt : Nat
  /-- The question the message was obtained for; read by no function. -/
  asked : Question
deriving DecidableEq

/-- What the aggressive NSEC cache answers from the messages it was filled with. -/
structure NsecLookup where
  /-- The message, the response code and the authority section. -/
  find : List Msg → Name → Nat → Nat → Option (Msg × Nat × List Rec)
  mem : ∀ {ms n t now m rcode rs}, find ms n t now = some (m, rcode, rs) → m ∈ ms
  records : ∀ {ms n t now m rcode rs}, find ms n t now = some (m, rcode, rs) →
    ∀ r ∈ rs, ∃ r' ∈ m.authorities, r.source = r'.source

def NsecLookup.off : NsecLookup :=
  ⟨fun _ _ _ _ => none, fun h => absurd h (by simp), fun h => absurd h (by simp)⟩

structure State (Net : Type) where
  cache : Key → Option Entry
  /-- The messages handed to the aggressive NSEC cache as validated. -/
  nsec : List Msg
  rpz : Option (Policy.Engine Net)

/-! ## Configuration and outside -/

inductive ZoneResult where
  /-- `false`: the caller chases a CNAME. -/
  | chase
  | sections (s : Sections)
  /-- The DNAME and the CNAME made from it, and the name they lead to. -/
  | dname (records : List Rec) (target : Name)

inductive Chain where
  | none
  | loop
  | records (rs : List Rec) (target : Name)

structure Config (Client Net Z : Type) where
  nsTarget : List UInt8 → Option Name
  /-- The last field of an SOA record. -/
  minimum : List UInt8 → Nat
  hash : Text → Text
  contains : Net → Addr → Bool
  containsClient : Net → Client → Bool
  parseIP : Text → Option Addr
  parseName : Text → Option Name
  /-- `strings.EqualFold` of two names that are not both ASCII; it folds by code points, so that U+212A is a k. -/
  foldUnicode : Name → Name → Bool
  validator : Bool
  dnssecEnabled : Bool
  authoritativeOnly : Bool
  resolver : Bool
  upstream : Bool
  /-- The address made of an IPv4 address that is not excluded. -/
  dns64 : Option (Addr → Option Addr)
  serveStale : Bool
  staleGrace : Nat
  clampTTL : Nat → Nat
  clampNegativeTTL : Nat → Nat
  nsecLookup : NsecLookup
  /-- The zones of the selected view, in some order. -/
  viewZones : Client → List Z
  /-- `FindZones`. -/
  findZones : Name → List Z
  isSubdomain : Name → Z → Bool
  handleAuthoritative : Z → Query Client → ZoneResult
  chaseCNAME : Name → Chain
  /-- The records of a local zone at the end of a chain. -/
  zoneLookup : Name → Nat → List Rec

inductive AclVerdict where
  | allowed
  | denied
  /-- `none` if the target does not parse. -/
  | redirect (target : Option Name)

inductive Resolved where
  | failed
  | nothing
  | message (m : Msg)

structure World where
  now : Nat
  idnaInvalid : Bool
  acl : AclVerdict
  rateLimited : Bool
  badCookie : Bool
  /-- What a transfer, a NOTIFY or an UPDATE is answered with. -/
  transfer : Option (List Sections)
  blocked : Bool
  txid : Nat
  txid64 : Nat
  /-- The unpacked reply; `none` is an error. -/
  upstream : UpstreamQuery → Option Msg
  resolved : Resolved
  validate : Msg → Name → ValidationResult
  suppressed : Bool

variable {Client Net Z : Type} (C : Config Client Net Z)

def Config.key (name : Name) (qtype : Nat) (doBit : Bool) : Key := makeKey C.hash name qtype doBit

section Cache

variable (s : State Net) (now : Nat) (k : Key)

def State.get : Option Entry := (s.cache k).filter fun e => now < e.expireTime

/-- From `cache.go:511-565`. -/
def State.getStale : Option Msg :=
  if C.serveStale then
    ((s.cache k).filter fun e => e.expireTime ≤ now ∧ now < e.expireTime + C.staleGrace).map fun e => e.message.clamped
  else none

def State.add (e : Entry) : State Net := { s with cache := fun k' => if k' = k then some e else s.cache k' }

def State.set (m : Msg) (asked : Question) : State Net :=
  s.add k ⟨m, false, rcodeSuccess, now + C.clampTTL (extractTTL m), now, asked⟩

/-- The smaller of TTL and minimum of the first SOA record, 0 if there is none. -/
def negativeCacheTTL (m : Msg) : Nat :=
  ((m.authorities.findSome? fun r => match r.rr.data with
    | .other bytes => if r.rr.type = typeSOA then some (min r.ttl (C.minimum bytes)) else none
    | _ => none)).getD 0

def State.setNegative (m : Msg) (asked : Question) : State Net :=
  s.add k ⟨m, true, m.rcode, now + C.clampNegativeTTL (negativeCacheTTL C m), now, asked⟩

end Cache

section Stages

variable (s : State Net) (q : Query Client) (qn : Question) (w : World)

/-- `none`: the query goes on. -/
def applyRPZRule (rule : Policy.Rule) : Option (List Msg) :=
  match rule.action with
  | .nxdomain => some [q.respond (.error rcodeNameError)]
  | .nodata => some [q.respond (.error rcodeSuccess)]
  | .drop => some []
  | .passThrough => none
  | .tcpOnly => some [q.truncated]
  | .override => (C.parseIP rule.overrideData).map fun addr =>
    [q.respond ⟨false, rcodeSuccess,
      [⟨⟨qn.name, if addr.length = 4 then typeA else typeAAAA, classIN, .other addr⟩, rule.ttl, .own⟩], [], []⟩]
  | .cname => (C.parseName rule.overrideData).map fun target =>
    [q.respond ⟨false, rcodeSuccess, [⟨⟨qn.name, typeCNAME, classIN, .cname target⟩, rule.ttl, .own⟩], [], []⟩]

def ipPolicy (m : Msg) : Option (List Msg) :=
  (s.rpz.bind fun e => e.responseIPPolicy C.contains m.responseIPs).bind (applyRPZRule C q qn)

def nsPolicy (m : Msg) : Option (List Msg) :=
  s.rpz.bind fun e => (nsNames C.nsTarget m.authorities).findSome? fun n =>
    (e.qnamePolicy n.string).bind (applyRPZRule C q qn)

def responsePolicy (m : Msg) : Option (List Msg) := (ipPolicy C s q qn m).or (nsPolicy C s q qn m)

def exchange (uq : UpstreamQuery) (raw : Msg) : Exchange :=
  ⟨uq, raw.id, raw.questions, w.validate raw uq.question.name⟩

def receive (uq : UpstreamQuery) (raw : Msg) : Msg :=
  let mark := List.map fun r : Rec => { r with source := .upstream (exchange w uq raw) }
  { raw with
    answers := mark raw.answers
    authorities := mark raw.authorities
    additionals := mark raw.additionals
    judged := none
    madeFrom := [] }

/-- `error`: the message is refused, and the client gets an error. The AD bit is set for a Secure
message and never cleared. -/
def validateDNSSEC (verdict : ValidationResult) (m : Msg) : Except (List Msg) Msg :=
  if C.validator = false then .ok m
  else match verdict with
    | .secure => .ok { m with ad := true, judged := some .secure }
    | .insecure => .ok { m with judged := some .insecure }
    | .bogus =>
      if C.dnssecEnabled then .error [q.respond (.error rcodeServerFailure)]
      else .ok { m with judged := some .bogus }
    | .indeterminate =>
      if C.dnssecEnabled then .error [q.respond (.error rcodeServerFailure)]
      else .ok { m with judged := some .indeterminate }

def synthesizeAnswer (synth : Addr → Option Addr) (r : Rec) : Option Rec :=
  if r.rr.type = typeCNAME ∨ r.rr.type = typeDNAME then some r
  else if r.rr.type = typeA then
    match r.rr.data with
    | .other addr => (synth addr).map fun addr' => { r with rr := ⟨r.rr.name, typeAAAA, classIN, .other addr'⟩ }
    | _ => none
  else none

/-- From `dns64.go:271-348`. -/
def synthesizeResponse (synth : Addr → Option Addr) (a : Msg) : Msg :=
  { a with
    ad := false
    questions := [⟨qn.name, typeAAAA, qn.qclass⟩]
    answers := a.answers.filterMap (synthesizeAnswer synth)
    authorities := []
    additionals := [] }

def shouldSynthesize (m : Msg) : Bool :=
  qn.qtype = typeAAAA ∧ (∀ r ∈ m.answers, r.rr.type ≠ typeAAAA) ∧ m.rcode = rcodeSuccess

def dns64Query : UpstreamQuery := ⟨.dns64, w.txid64, ⟨qn.name, typeA, classIN⟩⟩

/-- The reply to the A query is compared by its ID alone. -/
def tryDNS64 (m : Msg) : Option (List Msg) :=
  match C.dns64 with
  | none => none
  | some synth =>
    if q.cd = true ∨ shouldSynthesize qn m = false ∨ C.upstream = false then none
    else match w.upstream (dns64Query qn w) with
      | none => none
      | some raw =>
        if raw.id ≠ w.txid64 then none
        else match validateDNSSEC C q (w.validate raw qn.name) (receive w (dns64Query qn w) raw) with
          | .error ms => some ms
          | .ok a => match responsePolicy C s q qn a with
            | some ms => some ms
            | none =>
              if a.rcode ≠ rcodeSuccess ∨ a.answers = [] then none
              else if (synthesizeResponse qn synth a).answers = [] then none
              else some [reply C.nsTarget q (synthesizeResponse qn synth a)]

def targetQuery (target : Name) : UpstreamQuery := ⟨.target, q.id, ⟨target, qn.qtype, classIN⟩⟩

/-- The answers of the right type that the cache has for a target. -/
def cachedTarget (target : Name) : List Rec :=
  match s.get w.now (C.key target qn.qtype false) with
  | none => []
  | some e =>
    if e.isNegative then []
    else (e.message.aged (w.now - e.insertedAt)).answers.filter fun r => r.rr.type = qn.qtype

/-- The reply is used and stored as it comes. -/
def resolveCNAMETarget (target : Name) : State Net × List Rec :=
  if C.zoneLookup target qn.qtype ≠ [] then (s, (C.zoneLookup target qn.qtype).map Rec.own)
  else if cachedTarget C s qn w target ≠ [] then (s, cachedTarget C s qn w target)
  else if C.authoritativeOnly = true ∨ C.upstream = false then (s, [])
  else match w.upstream (targetQuery q qn target) with
    | none => (s, [])
    | some raw =>
      let m := receive w (targetQuery q qn target) raw
      (if m.rcode = rcodeSuccess ∧ m.answers ≠ [] then
          s.set C w.now (C.key target qn.qtype false) m ⟨target, qn.qtype, classIN⟩
        else s,
        m.answers.filter fun r => r.rr.type = qn.qtype)

abbrev Handled (Net : Type) := Option (State Net × List Msg)

def answered (ms : List Msg) : Handled Net := some (s, ms)

def validationStage : Handled Net :=
  if w.idnaInvalid then answered s [q.respond (.error rcodeFormatError)] else none

/-- From `pipeline_stages.go:89-107`. -/
def aclStage : Handled Net :=
  if q.client = none then none
  else match w.acl with
    | .allowed => none
    | .denied => answered s [q.respond (.error rcodeRefused)]
    | .redirect none => answered s [q.respond (.error rcodeServerFailure)]
    | .redirect (some target) => answered s [q.respond ⟨false, rcodeSuccess,
        [⟨⟨qn.name, typeCNAME, classIN, .cname target⟩, 60, .own⟩], [], []⟩]

def rpzClientStage : Handled Net :=
  ((q.client.bind fun client => s.rpz.bind fun e => e.clientIPPolicy C.containsClient client).bind
    (applyRPZRule C q qn)).map fun ms => (s, ms)

def rateLimitStage : Handled Net :=
  if w.rateLimited then answered s [q.respond (.error rcodeRefused)] else none

def cookieStage : Handled Net :=
  if w.badCookie then answered s [q.respond (.error rcodeBadCookie)] else none

/-- From `pipeline_stages.go:782-792`. -/
def anyStage : Handled Net :=
  if qn.qtype = typeANY ∧ q.udp = true then
    answered s [{ q.respond (.error rcodeSuccess) with tc := true }]
  else none

def transferStage : Handled Net :=
  w.transfer.map fun responses => (s, responses.map fun sec => q.respond sec.own)

def blocklistStage : Handled Net :=
  if w.blocked then answered s [q.respond (.error rcodeNameError)] else none

def rpzQnameStage : Handled Net :=
  ((s.rpz.bind fun e => e.qnamePolicy qn.name.string).bind (applyRPZRule C q qn)).map fun ms => (s, ms)

def clientKey : Key := C.key qn.name qn.qtype q.do

/-- From `pipeline_stages.go:163-211`. -/
def cacheStage : Handled Net :=
  (s.get w.now (clientKey C q qn)).map fun e =>
    let m := e.message.aged (w.now - e.insertedAt)
    (s, [reply C.nsTarget q (if e.isNegative then { m with rcode := e.rcode } else m)])

/-- The synthesized message has the AD bit set, and a question of class IN. -/
def nsecCacheStage : Handled Net :=
  (C.nsecLookup.find s.nsec qn.name qn.qtype w.now).map fun (m, rcode, rs) =>
    (s, [reply C.nsTarget q
      ⟨0, false, true, false, rcode, [⟨qn.name, qn.qtype, classIN⟩], [], rs, [], m.judged, []⟩])

def handleZone : ZoneResult → Handled Net
  | .chase => none
  | .sections sec =>
    let m := q.respond sec.own
    some (s, (ipPolicy C s q qn m).getD [reply C.nsTarget q m])
  | .dname records target =>
    let (s', answers) := resolveCNAMETarget C s q qn w target
    let m := q.respond ⟨true, rcodeSuccess, records.map Rec.own ++ answers, [], []⟩
    some (s', (ipPolicy C s q qn m).getD [reply C.nsTarget q m])

/-- From `pipeline_stages.go:265-284`. -/
def splitHorizonStage : Handled Net :=
  q.client.bind fun client =>
    ((C.viewZones client).filter (C.isSubdomain qn.name)).findSome? fun z =>
      handleZone C s q qn w (C.handleAuthoritative z q)

def authoritativeStage : Handled Net :=
  (C.findZones qn.name).findSome? fun z => handleZone C s q qn w (C.handleAuthoritative z q)

/-- From `pipeline_stages.go:316-357`. -/
def cnameStage : Handled Net :=
  if C.findZones qn.name |>.isEmpty then none
  else match C.chaseCNAME qn.name with
    | .none => none
    | .loop => answered s [q.respond (.error rcodeServerFailure)]
    | .records records target =>
      let (s', answers) := resolveCNAMETarget C s q qn w target
      let m := q.respond ⟨true, rcodeSuccess, records.map Rec.own ++ answers, [], []⟩
      some (s', (responsePolicy C s q qn m).getD [reply C.nsTarget q m])

def authoritativeOnlyStage : Handled Net :=
  if C.authoritativeOnly then answered s [q.respond (.error rcodeRefused)] else none

def unavailable : List Msg :=
  match s.getStale C w.now (clientKey C q qn) with
  | some m => [reply C.nsTarget q m]
  | none => [q.respond (.error rcodeServerFailure)]

def receiveResolved (raw : Msg) : Msg :=
  let mark := List.map fun r : Rec => { r with source := .resolver }
  { raw with
    id := q.id
    answers := mark raw.answers
    authorities := mark raw.authorities
    additionals := mark raw.additionals
    judged := none
    madeFrom := [] }

/-- From `pipeline_stages.go:375-443`. -/
def resolverStage : Handled Net :=
  if C.resolver = false then none
  else match w.resolved with
    | .failed => answered s (unavailable C s q qn w)
    | .nothing => answered s [q.respond (.error rcodeServerFailure)]
    | .message raw => match validateDNSSEC C q (w.validate raw qn.name) (receiveResolved q raw) with
      | .error ms => answered s ms
      | .ok m => answered s
        (((responsePolicy C s q qn m).or (tryDNS64 C s q qn w m)).getD [reply C.nsTarget q m])

def forwardQuery : UpstreamQuery := ⟨.forward, w.txid, qn⟩

/-- `Name.Equal` (`labels.go:238-254`), which is `strings.EqualFold` on each label. -/
def nameEqual (a b : Name) : Bool := if a.Ascii ∧ b.Ascii then a.canonical = b.canonical else C.foldUnicode a b

/-- From `pipeline_stages.go:604-616`. -/
def upstreamResponseMatchesQuestion (raw : Msg) : Bool :=
  match raw.questions with
  | [got] => nameEqual C got.name qn.name && decide (got.qtype = qn.qtype ∧ got.qclass = qn.qclass)
  | _ => false

def fill (m : Msg) : State Net :=
  if m.rcode = rcodeSuccess ∧ m.answers ≠ [] then s.set C w.now (clientKey C q qn) m qn
  else if m.rcode = rcodeNameError ∨ m.rcode = rcodeSuccess ∧ m.answers = [] then
    let s' := s.setNegative C w.now (clientKey C q qn) m qn
    if m.rcode = rcodeNameError ∧ m.judged = some .secure then { s' with nsec := m :: s'.nsec } else s'
  else s

/-- From `pipeline_stages.go:447-598`. -/
def upstreamStage : Handled Net :=
  if C.upstream = false then none
  else match w.upstream (forwardQuery qn w) with
    | none => answered s (unavailable C s q qn w)
    | some raw =>
      if raw.id ≠ w.txid ∨ upstreamResponseMatchesQuestion C qn raw = false then
        answered s [q.respond (.error rcodeServerFailure)]
      else match validateDNSSEC C q (w.validate raw qn.name) (receive w (forwardQuery qn w) raw) with
        | .error ms => answered s ms
        | .ok m => match (responsePolicy C s q qn m).or (tryDNS64 C s q qn w m) with
          | some ms => answered s ms
          | none => some (fill C s q qn w m,
            if w.suppressed then [q.respond (.error rcodeRefused)] else [reply C.nsTarget q m])

def noUpstreamStage : Handled Net := answered s [q.respond (.error rcodeNameError)]

def filterStages : List (Handled Net) :=
  [validationStage s q w, aclStage s q qn w, rpzClientStage C s q qn, rateLimitStage s q w,
    cookieStage s q w, anyStage s q qn, transferStage s q w, blocklistStage s q w, rpzQnameStage C s q qn]

def stages : List (Handled Net) :=
  filterStages C s q qn w ++
    [cacheStage C s q qn w, nsecCacheStage C s q qn w, splitHorizonStage C s q qn w,
      authoritativeStage C s q qn w, cnameStage C s q qn w, authoritativeOnlyStage C s q,
      resolverStage C s q qn w, upstreamStage C s q qn w, noUpstreamStage s q]

def serve : State Net × List Msg :=
  match q.questions with
  | [] => (s, [q.respond (.error rcodeFormatError)])
  | qn :: _ => ((stages C s q qn w).findSome? id).getD (s, [])

end Stages

inductive Event (Client Net : Type) where
  | query (q : Query Client) (w : World)
  | reload (rpz : Option (Policy.Engine Net))
  | evict (keep : Key → Bool)

def State.empty (rpz : Option (Policy.Engine Net)) : State Net := ⟨fun _ => none, [], rpz⟩

def step (s : State Net) : Event Client Net → Option (State Net)
  | .query q w => some (serve C s q w).1
  | .reload rpz => some { s with rpz := rpz }
  | .evict keep => some { s with cache := fun k => if keep k then s.cache k else none }

end NothingDNS.Pipeline
