import NothingDNS.Dnssec.NsecChain
/-!
# Messages in the query pipeline (`cmd/nothingdns/handler.go`)

Record data is that of `Dnssec`; the octets of an A or AAAA record are its address, and `nsTarget` reads the target of
an NS record. Header fields are kept if a stage or a client reads them.

No function reads `Source`, the exchange a record came in, and `madeFrom`, the addresses of the message a
response was made from. `judged` is the validator's verdict on that message.
-/

namespace NothingDNS.Pipeline

open NothingDNS.Dnssec

def typeA : Nat := 1
def typeAAAA : Nat := 28
def typeDNAME : Nat := 39
def typeOPT : Nat := 41
def typeANY : Nat := 255
def classIN : Nat := 1

def rcodeSuccess : Nat := 0
def rcodeFormatError : Nat := 1
def rcodeServerFailure : Nat := 2
def rcodeNameError : Nat := 3
def rcodeRefused : Nat := 5
def rcodeBadCookie : Nat := 23

structure Question where
  name : Name
  qtype : Nat
  qclass : Nat
deriving DecidableEq

/-- The same name up to ASCII case, type and class. -/
def Question.Same (a b : Question) : Prop :=
  a.name.canonical = b.name.canonical ∧ a.qtype = b.qtype ∧ a.qclass = b.qclass

instance (a b : Question) : Decidable (a.Same b) := inferInstanceAs (Decidable (_ ∧ _))

inductive Purpose where
  | forward
  | dns64
  /-- The target of a CNAME or DNAME of a local zone. -/
  | target
deriving DecidableEq

structure UpstreamQuery where
  purpose : Purpose
  id : Nat
  question : Question
deriving DecidableEq

/-- A query sent upstream with what came back: its ID, its questions and what `ValidateResponse` says
of it. -/
structure Exchange where
  query : UpstreamQuery
  id : Nat
  questions : List Question
  verdict : ValidationResult
deriving DecidableEq

inductive Source where
  /-- Local data, or a policy. -/
  | own
  | resolver
  | upstream (x : Exchange)
deriving DecidableEq

structure Rec where
  rr : RR
  ttl : Nat
  source : Source
deriving DecidableEq

abbrev Addr := List UInt8

def Rec.address? (r : Rec) : Option Addr :=
  match r.rr.data with
  | .other bytes => if r.rr.type = typeA ∨ r.rr.type = typeAAAA then some bytes else none
  | _ => none

def addresses (rs : List Rec) : List Addr := rs.filterMap Rec.address?

structure Msg where
  id : Nat
  aa : Bool
  ad : Bool
  tc : Bool
  rcode : Nat
  questions : List Question
  answers : List Rec
  authorities : List Rec
  additionals : List Rec
  judged : Option ValidationResult
  madeFrom : List Addr
deriving DecidableEq

def Msg.records (m : Msg) : List Rec := m.answers ++ m.authorities ++ m.additionals

/-- `extractResponseIPs`. -/
def Msg.responseIPs (m : Msg) : List Addr := addresses m.answers ++ addresses m.authorities ++ addresses m.additionals

structure Query (Client : Type) where
  id : Nat
  questions : List Question
  /-- The DO bit, if there is an OPT record. -/
  opt : Option Bool
  ad : Bool
  cd : Bool
  udp : Bool
  /-- `none` if the writer has no client address. -/
  client : Option Client
  aa : Bool
  answers : List Rec
  authorities : List Rec
  additionals : List Rec
deriving DecidableEq

/-- The sections of a response the server builds itself. -/
structure Sections where
  aa : Bool
  rcode : Nat
  answers : List Rec
  authorities : List Rec
  additionals : List Rec
deriving DecidableEq

def Sections.error (rcode : Nat) : Sections := ⟨false, rcode, [], [], []⟩

def Rec.own (r : Rec) : Rec := { r with source := .own }

def Sections.own (s : Sections) : Sections :=
  ⟨s.aa, s.rcode, s.answers.map Rec.own, s.authorities.map Rec.own, s.additionals.map Rec.own⟩

section Build

variable {Client : Type} (q : Query Client)

def Query.do (q : Query Client) : Bool := q.opt = some true

def Query.respond (s : Sections) : Msg :=
  ⟨q.id, s.aa, false, false, s.rcode, q.questions, s.answers, s.authorities, s.additionals, none, []⟩

/-- `r.Copy()` with TC and QR set: the client's own AD bit and the records of its query stay (`handler.go:838-845`). -/
def Query.truncated : Msg :=
  ⟨q.id, q.aa, q.ad, true, rcodeSuccess, q.questions, q.answers.map Rec.own, q.authorities.map Rec.own,
    q.additionals.map Rec.own, none, []⟩

def isDNSSECType (t : Nat) : Bool := t = typeRRSIG ∨ t = typeNSEC ∨ t = typeNSEC3

def removeDNSSECRecords (rs : List Rec) (qtype : Nat) : List Rec :=
  if qtype = typeANY then rs
  else rs.filter fun r => ¬ (r.rr.type ≠ qtype ∧ isDNSSECType r.rr.type)

/-- From `handler.go:333-364`. -/
def scrubForClient (m : Msg) : Msg :=
  let m := if q.opt = none then { m with additionals := m.additionals.filter fun r => r.rr.type ≠ typeOPT } else m
  if q.do then m
  else
    let qtype := (q.questions.head?.map Question.qtype).getD 0
    { m with
      answers := removeDNSSECRecords m.answers qtype
      authorities := removeDNSSECRecords m.authorities qtype }

end Build

variable (nsTarget : List UInt8 → Option Name)

def nsNames (authorities : List Rec) : List Name :=
  authorities.filterMap fun r => match r.rr.data with
    | .other bytes => if r.rr.type = typeNS then (nsTarget bytes).map Name.canonical else none
    | _ => none

def keptAuthority (aa : Bool) (r : Rec) : Bool := r.rr.type = typeSOA ∨ (aa = false ∧ r.rr.type = typeNS)

/-- From `handler.go:626-704`. -/
def minimizeResponse (m : Msg) : Msg :=
  { m with
    authorities := m.authorities.filter (keptAuthority m.aa)
    additionals := m.additionals.filter fun r =>
      r.rr.type = typeOPT ∨
        (r.rr.type = typeA ∨ r.rr.type = typeAAAA) ∧ r.rr.name.canonical ∈ nsNames nsTarget m.authorities }

/-- From `handler.go:313-324`. -/
def reply {Client : Type} (q : Query Client) (m : Msg) : Msg :=
  minimizeResponse nsTarget (scrubForClient q
    { m with
      id := q.id
      questions := if m.questions = [] then q.questions else m.questions
      madeFrom := m.responseIPs })

def Rec.mapTTL (f : Nat → Nat) (r : Rec) : Rec := if r.rr.type = typeOPT then r else { r with ttl := f r.ttl }

def Msg.mapTTL (f : Nat → Nat) (m : Msg) : Msg :=
  { m with
    answers := m.answers.map (Rec.mapTTL f)
    authorities := m.authorities.map (Rec.mapTTL f)
    additionals := m.additionals.map (Rec.mapTTL f) }

def Msg.aged (age : Nat) (m : Msg) : Msg := if age = 0 then m else m.mapTTL fun ttl => max 1 (ttl - age)

def Msg.clamped (m : Msg) : Msg := m.mapTTL (min 30)

def extractTTL (m : Msg) : Nat := ((m.answers.find? fun r => 0 < r.ttl).map Rec.ttl).getD 300

end NothingDNS.Pipeline
