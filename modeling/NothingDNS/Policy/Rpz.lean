import Mathlib.Data.Int.Order.Basic
import Mathlib.Data.List.AList
import NothingDNS.Lib.Words
import NothingDNS.Lib.Decimal
import NothingDNS.Lib.Least
/-!
# Response policy zones (`internal/rpz/rpz.go`)

`net.ParseCIDR` and `IPNet.Contains` are parameters: everything below holds for any two functions in their place. A
file is what reading it gives: it does not open, or some lines and then the end or an error of the scanner.
-/

namespace NothingDNS.Policy

inductive PolicyAction where
  | nxdomain
  | nodata
  | cname
  | override
  | drop
  | passThrough
  | tcpOnly
deriving DecidableEq

inductive TriggerType where
  | qname
  | responseIP
  | clientIP
  | nsdname
  | nsip
deriving DecidableEq

structure Rule where
  action : PolicyAction
  trigger : TriggerType
  pattern : Text
  overrideData : Text
  ttl : Nat
  policyName : Text
  priority : Int
deriving DecidableEq

inductive ParseError where
  | tooFewFields
  | noType
  | invalidTTL (field : Text)
deriving DecidableEq

/-- `strings.LastIndex`. -/
def lastIndex (sub : Text) : Text → Option Nat
  | [] => if sub = [] then some 0 else none
  | c :: t => match lastIndex sub t with
    | some i => some (i + 1)
    | none => if sub <+: c :: t then some 0 else none

/-- `strings.Split(t, ".")`. -/
def splitDots : Text → List Text
  | [] => [[]]
  | c :: t =>
    if c = '.' then [] :: splitDots t
    else match splitDots t with
      | [] => [[c]]
      | w :: ws => (c :: w) :: ws

/-- `strings.Trim(t, "\"")`. -/
def trimQuotes (t : Text) : Text := (t.dropWhile (· = '\x22')).rdropWhile (· = '\x22')

def ttlUnit : Text → Option (Nat × Text)
  | [] => some (1, [])
  | c :: t =>
    if c = 's' ∨ c = 'S' then some (1, t)
    else if c = 'm' ∨ c = 'M' then some (60, t)
    else if c = 'h' ∨ c = 'H' then some (3600, t)
    else if c = 'd' ∨ c = 'D' then some (86400, t)
    else if c = 'w' ∨ c = 'W' then some (604800, t)
    else none

/-- The loop over the numbers of a TTL; every turn takes a digit, so the length is fuel enough. -/
def ttlLoop : Nat → Nat → Text → Option Nat
  | _, total, [] => some total
  | 0, _, _ :: _ => none
  | fuel + 1, total, t =>
    let digits := t.takeWhile Text.isDigit
    if digits = [] then none
    else (Text.scanDecimal (2 ^ 32 - 1) 0 digits).bind fun value =>
      (ttlUnit (t.dropWhile Text.isDigit)).bind fun (multiplier, rest) =>
        if 2 ^ 32 - 1 < total + value * multiplier then none else ttlLoop fuel (total + value * multiplier) rest

/-- `none` if the field is not a TTL. -/
def parseTTLField (field : Text) : Except ParseError (Option Nat) :=
  match field with
  | [] => .ok none
  | c :: _ =>
    if Text.isDigit c = false then .ok none
    else match ttlLoop field.length 0 field with
      | none => .error (.invalidTTL field)
      | some ttl => .ok (some ttl)

/-- "24.0.168.192" becomes "192.168.0.0/24". -/
def reverseRPZToCIDR (rpzIP : Text) : Text :=
  match splitDots rpzIP with
  | prefixLen :: part :: parts =>
    let ipParts := (part :: parts).reverse
    let ipParts := ipParts ++ List.replicate (4 - ipParts.length) ['0']
    ['.'].intercalate ipParts ++ '/' :: prefixLen
  | _ => rpzIP

/-- From `rpz.go:338-377`. -/
def parseOwnerName (owner : Text) : TriggerType × Text :=
  let owner := owner.lower
  match lastIndex ".rpz-clientip".toList owner with
  | some i => (.clientIP, reverseRPZToCIDR (owner.take i))
  | none => match lastIndex ".rpz-ip".toList owner with
    | some i => (.responseIP, reverseRPZToCIDR (owner.take i))
    | none => match lastIndex ".rpz-nsdname".toList owner with
      | some i => (.nsdname, owner.take i)
      | none => match lastIndex ".rpz-nsip".toList owner with
        | some i => (.nsip, reverseRPZToCIDR (owner.take i))
        | none => match lastIndex ".rpz-".toList owner with
          | some i => (.qname, owner.take i)
          | none => (.qname, owner)

/-- From `rpz.go:406-447`. -/
def parseAction (rtype rdata : Text) : PolicyAction × Text :=
  if rtype = "CNAME".toList then
    let rawTarget := trimQuotes (Text.trimSpace rdata)
    let target := Text.trimDot rawTarget
    if target.lower = "rpz-passthru".toList then (.passThrough, [])
    else if target.lower = "rpz-drop".toList then (.drop, [])
    else if target.lower = "rpz-tcp-only".toList then (.tcpOnly, [])
    else if rawTarget = ['.'] then (.nxdomain, [])
    else if target = ['*'] then (.nodata, [])
    else if target = [] then (.nodata, [])
    else (.cname, target)
  else if rtype = "A".toList ∨ rtype = "AAAA".toList then (.override, rdata)
  else if rtype = "TXT".toList then
    let is := fun (word : String) => rdata.lower = word.toList ∨ (trimQuotes rdata).lower = word.toList
    if is "drop" then (.drop, [])
    else if is "passthru" then (.passThrough, [])
    else if is "tcp-only" then (.tcpOnly, [])
    else (.nxdomain, [])
  else (.nxdomain, [])

def recordTypes : List Text := ["A", "AAAA", "CNAME", "TXT", "SOA", "NS", "PTR", "MX"].map String.toList

def isClass (field : Text) : Bool := field.upper = "IN".toList ∨ field.upper = "CH".toList

def findType : List Text → Option (List Text × Text × List Text)
  | [] => none
  | f :: fs =>
    if isClass f = false ∧ f.upper ∈ recordTypes then some ([], f.upper, fs)
    else (findType fs).map fun (before, rtype, after) => (f :: before, rtype, after)

/-- The first TTL among the fields, 0 if there is none. -/
def findTTL : List Text → Except ParseError Nat
  | [] => .ok 0
  | f :: fs =>
    if isClass f then findTTL fs
    else match parseTTLField f with
      | .error e => .error e
      | .ok (some ttl) => .ok ttl
      | .ok none => findTTL fs

/-- `none` for a record that is no policy. -/
def parseLine (policies : Text → Option Int) (line policyName : Text) : Except ParseError (Option Rule) :=
  match Text.words line with
  | owner :: f₁ :: f₂ :: f₃ :: fields =>
    match findType (f₁ :: f₂ :: f₃ :: fields) with
    | some (before, rtype, rdata :: _) =>
      if rtype = "SOA".toList ∨ rtype = "NS".toList then .ok none
      else match findTTL before with
        | .error e => .error e
        | .ok ttl =>
          let (trigger, pattern) := parseOwnerName (Text.trimDot owner)
          let (action, overrideData) := parseAction rtype rdata
          .ok (some { action, trigger, pattern, overrideData, ttl, policyName, priority := (policies policyName).getD 0 })
    | _ => .error .noType
  | _ => .error .tooFewFields

structure Tables (Net : Type) where
  qnameRules : AList fun _ : Text => Rule
  /-- `clientIPRules` with `clientActions`. -/
  client : List (Net × Rule)
  /-- `respIPRules` with `respActions`. -/
  resp : List (Net × Rule)

def Tables.empty {Net : Type} : Tables Net := { qnameRules := ∅, client := [], resp := [] }

section Engine

variable {Net IP : Type} (parseCIDR : Text → Option Net) (contains : Net → IP → Bool)

/-- From `rpz.go:450-488`. -/
def addRule (t : Tables Net) (rule : Rule) : Tables Net :=
  match rule.trigger with
  | .qname | .nsdname =>
    match Least.pick Rule.priority (t.qnameRules.lookup rule.pattern.lower) rule with
    | some best => { t with qnameRules := t.qnameRules.insert rule.pattern.lower best }
    | none => t
  | .clientIP => match parseCIDR rule.pattern with
    | none => t
    | some net => { t with client := t.client ++ [(net, rule)] }
  | .responseIP | .nsip => match parseCIDR rule.pattern with
    | none => t
    | some net => { t with resp := t.resp ++ [(net, rule)] }

/-- What reading a file gives: lines, and whether the scanner ends with an error. -/
structure Source where
  lines : List Text
  err : Bool

inductive LoadError where
  | openFailed (file : Text)
  | scanFailed (file : Text)
deriving DecidableEq

def ruleOfLine (policies : Text → Option Int) (file line : Text) : Option Rule :=
  let line := Text.trimSpace line
  if line = [] ∨ line.head? = some ';' ∨ line.head? = some '#' then none
  else match parseLine policies line file with
    | .error _ => none
    | .ok rule => rule

/-- From `rpz.go:173-208`. -/
def loadFile (policies : Text → Option Int) (t : Tables Net) (file : Text) (lines : List Text) : Tables Net :=
  lines.foldl (fun t line => match ruleOfLine policies file line with
    | none => t
    | some rule => addRule parseCIDR t rule) t

/-- The loop of `Load`; the tables are filled as it goes. -/
def loadFiles (policies : Text → Option Int) (read : Text → Option Source) (t : Tables Net) :
    List Text → Tables Net × Option LoadError
  | [] => (t, none)
  | file :: files => match read file with
    | none => (t, some (.openFailed file))
    | some source =>
      if source.err then (loadFile parseCIDR policies t file source.lines, some (.scanFailed file))
      else loadFiles policies read (loadFile parseCIDR policies t file source.lines) files

structure Engine (Net : Type) where
  enabled : Bool
  files : List Text
  policies : Text → Option Int
  tables : Tables Net

/-- From `rpz.go:132-155`. -/
def Engine.load (read : Text → Option Source) (e : Engine Net) : Engine Net × Option LoadError :=
  if e.enabled then
    ({ e with tables := (loadFiles parseCIDR e.policies read .empty e.files).1 },
      (loadFiles parseCIDR e.policies read .empty e.files).2)
  else (e, none)

/-- The keys `QNAMEPolicy` looks up, in its order: the name, then `*.` and each parent. -/
def candidates (qname : Text) : List Text := qname :: (Text.superdomains qname).map ('*' :: '.' :: ·)

def Engine.qnamePolicy (e : Engine Net) (qname : Text) : Option Rule :=
  if e.enabled then (candidates (Text.trimDot qname).lower).findSome? e.tables.qnameRules.lookup else none

def scanNets (rules : List (Net × Rule)) (best : Option Rule) (ip : IP) : Option Rule :=
  rules.foldl (fun best (net, rule) => if contains net ip then Least.pick Rule.priority best rule else best) best

def Engine.clientIPPolicy (e : Engine Net) (clientIP : IP) : Option Rule :=
  if e.enabled then scanNets contains e.tables.client none clientIP else none

def Engine.responseIPPolicy (e : Engine Net) (ips : List IP) : Option Rule :=
  if e.enabled = false ∨ ips = [] then none else ips.foldl (scanNets contains e.tables.resp) none

end Engine

end NothingDNS.Policy
