import Mathlib.Data.List.Sort
import NothingDNS.Lib.Words
import NothingDNS.Zone.Soa
/-!
# Zone files (`internal/zone/writer.go`, `internal/zone/zone.go:212-1005`)

Which file an `$INCLUDE` names, and its text, come in as a parameter; so do the
refusals of absolute, escaping and symbolic paths.
-/

namespace NothingDNS

def stripZoneControlChars (s : Text) : Text := s.filter fun c => decide (c ≠ '\n' ∧ c ≠ '\r' ∧ c ≠ '\x00')

def quoteZoneCharacterString (s : Text) : Text :=
  '"' :: (s.flatMap fun r => if r = '\\' ∨ r = '"' then ['\\', r] else [r]) ++ ['"']

def quotedTypes : List Text := ["TXT".toList, "SPF".toList, "DKIM".toList]

def formatRDataForZone (r : Record) : Text :=
  if r.type.upper ∈ quotedTypes then quoteZoneCharacterString (stripZoneControlChars r.rdata)
  else stripZoneControlChars r.rdata

def relativize (name origin : Text) : Text :=
  if name = origin then ['@']
  else if ('.' :: origin) <:+ name then name.take (name.length - (origin.length + 1)) else name

def writtenTTL (z : Zone) (ttl : UInt32) : Text :=
  Text.decimal (if ttl = 0 then z.defaultTTL else ttl).toNat

def soaLines (z : Zone) (soa : SOARecord) : List Text :=
  ['@' :: '\t' :: (writtenTTL z soa.ttl ++ "\tIN\tSOA\t".toList ++ soa.mname ++ ' ' :: (soa.rname ++ " (".toList)),
    '\t' :: '\t' :: (Text.decimal soa.serial.toNat ++ "\t; serial".toList),
    '\t' :: '\t' :: (Text.decimal soa.refresh.toNat ++ "\t; refresh".toList),
    '\t' :: '\t' :: (Text.decimal soa.retry.toNat ++ "\t; retry".toList),
    '\t' :: '\t' :: (Text.decimal soa.expire.toNat ++ "\t; expire".toList),
    '\t' :: '\t' :: (Text.decimal soa.minimum.toNat ++ "\t; minimum".toList),
    ['\t', ')'], []]

def tabbed (owner ttl cls type rdata : Text) : Text :=
  owner ++ '\t' :: (ttl ++ '\t' :: (cls ++ '\t' :: (type ++ '\t' :: rdata)))

def nsLine (z : Zone) (ns : NSRecord) : Text :=
  tabbed ['@'] (writtenTTL z ns.ttl) "IN".toList "NS".toList ns.nsdname

/-- SOA and NS at the apex are not written from the record map. -/
def writtenAbove (z : Zone) (name : Text) (r : Record) : Bool :=
  decide (name = z.origin ∧ (r.type.upper = "SOA".toList ∨ r.type.upper = "NS".toList))

def recordLine (z : Zone) (r : Record) : Text :=
  tabbed (stripZoneControlChars (relativize r.name z.origin)) (writtenTTL z r.ttl) r.recordClass r.type
    (formatRDataForZone r)

def ownerLines (z : Zone) (name : Text) : List Text :=
  ((z.recordsAt name).filter fun r => !writtenAbove z name r).map (recordLine z)

/-- The order of `sort.Strings`. -/
def textLe : Text → Text → Bool
  | [], _ => true
  | _ :: _, [] => false
  | c :: s, d :: t => if c = d then textLe s t else Nat.blt c.toNat d.toNat

/-- `sort.Strings` of the keys. -/
def sortedNames (z : Zone) : List Text := z.records.keys.insertionSort fun s t => textLe s t = true

def zoneLines (z : Zone) : List Text :=
  ["$ORIGIN ".toList ++ z.origin] ++
    (if 0 < z.defaultTTL then ["$TTL ".toList ++ Text.decimal z.defaultTTL.toNat] else []) ++ [[]] ++
    (match z.soa with
      | none => []
      | some soa => soaLines z soa) ++
    z.ns.map (nsLine z) ++ (if z.ns = [] then [] else [[]]) ++ (sortedNames z).flatMap (ownerLines z)

def writeZone (z : Zone) : Text := Text.unlines (zoneLines z)

/-- The loop of `stripZoneComment`: what is kept of the text. -/
def stripLoop (inQuote escape : Bool) : Text → Text
  | [] => []
  | c :: t =>
    if escape = true then c :: stripLoop inQuote false t
    else if c = '\\' then c :: stripLoop inQuote true t
    else if c = '"' then c :: stripLoop (!inQuote) false t
    else if c = ';' ∧ inQuote = false then []
    else c :: stripLoop inQuote false t

def stripZoneComment (line : Text) : Text := stripLoop false false line

def flush (current : Text) (fields : List Text) : List Text :=
  if current = [] then fields else current :: fields

def parseFieldsLoop (inQuotes escaped inlineQuote : Bool) (current : Text) : Text → List Text
  | [] => flush (if escaped = true then current ++ ['\\'] else current) []
  | r :: rest =>
    if inQuotes = true ∧ escaped = true then parseFieldsLoop inQuotes false inlineQuote (current ++ [r]) rest
    else if r = '\\' then
      if inQuotes = true then parseFieldsLoop inQuotes true inlineQuote current rest
      else parseFieldsLoop inQuotes escaped inlineQuote (current ++ [r]) rest
    else if r = '"' then
      if inQuotes = true then
        if inlineQuote = true then parseFieldsLoop false escaped false current rest
        else current :: parseFieldsLoop false escaped false [] rest
      else if current ≠ [] ∧ ['='] <:+ current then parseFieldsLoop true escaped true current rest
      else flush current (parseFieldsLoop true escaped inlineQuote [] rest)
    else if r = ' ' ∨ r = '\t' ∨ r = '(' then
      if inQuotes = true then parseFieldsLoop inQuotes escaped inlineQuote (current ++ [r]) rest
      else flush current (parseFieldsLoop inQuotes escaped inlineQuote [] rest)
    else if r = ')' then
      if inQuotes = true then parseFieldsLoop inQuotes escaped inlineQuote (current ++ [r]) rest
      else parseFieldsLoop inQuotes escaped inlineQuote current rest
    else parseFieldsLoop inQuotes escaped inlineQuote (current ++ [r]) rest

def parseFields (line : Text) : List Text := parseFieldsLoop false false false [] line

def recordTypes : List Text :=
  ["A", "AAAA", "CNAME", "MX", "NS", "PTR", "SOA", "SRV", "TXT", "CAA", "DNSKEY", "DS", "CDNSKEY", "CDS", "NSEC",
    "RRSIG", "TLSA", "SSHFP", "SPF", "DKIM", "AFSDB", "APL", "CERT", "DHCID", "DNAME", "HINFO", "HIP", "IPSECKEY",
    "KEY", "KX", "LOC", "NAPTR", "NSEC3", "NSEC3PARAM", "OPENPGPKEY", "RP", "SIG", "TA", "SVCB", "HTTPS", "URI",
    "ZONEMD"].map String.toList

def isType (field : Text) : Bool := decide (field.upper ∈ recordTypes)

def recordClasses : List Text := ["IN", "CS", "CH", "HS"].map String.toList

def isClass (field : Text) : Bool := decide (field.upper ∈ recordClasses)

/-- `strconv.ParseUint(s, 10, 32)`. -/
def parseUint (s : Text) : Option Nat := if s = [] then none else Text.scanDecimal maxUint32 0 s

/-- From `zone.go:965-1004`. -/
def parseTTL (s : Text) : Option UInt32 :=
  let s := (Text.trimSpace s).upper
  if s = [] then none
  else
    let (multiplier, s) := ttlSuffix s
    (parseUint s).bind fun val =>
      if 0 < val ∧ maxUint32 / multiplier < val then none else some (.ofNat (val * multiplier))

inductive ParseError where
  | inFile (file : Text) (line : Nat) (e : ParseError)
  | readError (file : Text)
  | unclosedParenthesis (file : Text) (line : Nat)
  | originMissing
  | ttlMissing
  | ttlInvalid
  | unknownDirective (directive : Text)
  | generateArgs
  | generateStep
  | generateRange
  | generateTooLarge (count : Int)
  | generateModifier (iteration : Int)
  | generateRecord (iteration : Int) (e : ParseError)
  | includeArgs
  | includeDepth
  | includeFile (name : Text)
  | invalidRecord
  | missingType
  | soaFields (n : Nat)
  | soaSerial
  | soaRefresh
  | soaRetry
  | soaExpire
  | soaMinimum
deriving DecidableEq

structure Parser where
  filename : Text
  lineNum : Nat
  zone : Zone
  lastOwner : Text
  parenDepth : Int
  lineBuf : Text
  lineStart : Nat
  recordIndented : Bool

/-- The fields before the type: the last TTL and class among them, the type, and the fields after it. -/
def scanHead (ttl : Option UInt32) (cls : Text) : List Text → Option (Option UInt32 × Text × Text × List Text)
  | [] => none
  | field :: rest =>
    if isType field = true then some (ttl, cls, field.upper, rest)
    else match parseTTL field with
      | some ttl => scanHead (some ttl) cls rest
      | none => if isClass field = true then scanHead ttl field.upper rest else scanHead ttl cls rest

/-- From `zone.go:800-847`. -/
def parseSOA (z : Zone) (name : Text) (record : Record) : Except ParseError Zone :=
  match parseFields record.rdata with
  | mname :: rname :: serial :: refresh :: retry :: expire :: minimum :: _ =>
    match parseUint serial, parseTTL refresh, parseTTL retry, parseTTL expire, parseTTL minimum with
    | none, _, _, _, _ => .error .soaSerial
    | some _, none, _, _, _ => .error .soaRefresh
    | some _, some _, none, _, _ => .error .soaRetry
    | some _, some _, some _, none, _ => .error .soaExpire
    | some _, some _, some _, some _, none => .error .soaMinimum
    | some serial, some refresh, some retry, some expire, some minimum =>
      .ok { z with soa := some ⟨name, record.ttl, makeAbsolute mname z.origin, makeAbsolute rname z.origin,
        .ofNat serial, refresh, retry, expire, minimum⟩ }
  | fields => .error (.soaFields fields.length)

/-- From `zone.go:782-797`. -/
def handleSpecialRecord (z : Zone) (name : Text) (record : Record) : Except ParseError Zone :=
  if record.type = "SOA".toList then parseSOA z name record
  else if record.type = "NS".toList then
    .ok { z with ns := z.ns ++ [⟨name, record.ttl, makeAbsolute record.rdata z.origin⟩] }
  else .ok z

/-- The record goes into the map, whatever its name; SOA and NS are kept apart as well. -/
def storeRecord (z : Zone) (record : Record) : Except ParseError Zone :=
  let absName := (makeAbsolute record.name z.origin).lower
  handleSpecialRecord { z with records := appendRecord z.records absName record } absName record

/-- From `zone.go:683-779`. -/
def parseRecordOwned (p : Parser) (line : Text) (ownerInherited : Bool) : Except ParseError Parser :=
  let line := Text.trimSpace (stripZoneComment line)
  if line = [] then .ok p
  else
    let fields := parseFields line
    if fields.length < 2 then .error .invalidRecord
    else
      let owner := if ownerInherited = true then p.lastOwner else fields.headD []
      match scanHead none "IN".toList (if ownerInherited = true then fields else fields.tail) with
      | none => .error .missingType
      | some (ttl, cls, type, rdata) =>
        (storeRecord p.zone ⟨owner, ttl.getD p.zone.defaultTTL, cls, type, Text.unwords rdata⟩).map fun z =>
          { p with zone := z, lastOwner := owner }

/-- `strings.Cut`. -/
def cutAt (c : Char) (s : Text) : Option (Text × Text) :=
  if c ∈ s then some (s.takeWhile fun x => decide (x ≠ c), (s.dropWhile fun x => decide (x ≠ c)).tail) else none

/-- `strconv.Atoi`. -/
def atoi (s : Text) : Option Int :=
  let digits := fun (bound : Nat) (t : Text) => if t = [] then none else Text.scanDecimal bound 0 t
  match s with
  | '-' :: t => (digits (2 ^ 63) t).map fun n => -(n : Int)
  | '+' :: t => (digits (2 ^ 63 - 1) t).map fun n => (n : Int)
  | t => (digits (2 ^ 63 - 1) t).map fun n => (n : Int)

/-- From `zone.go:513-551`. -/
def parseGenerateRange (s : Text) : Except ParseError (Int × Int × Int) :=
  let (range, step) := match cutAt '/' s with
    | none => (s, some 1)
    | some (range, step) => (range, atoi step)
  match step, cutAt '-' range with
  | none, _ => .error .generateStep
  | some step, bounds =>
    if step ≤ 0 then .error .generateStep
    else match bounds.bind fun b => (atoi b.1).bind fun start => (atoi b.2).map fun stop => (start, stop) with
      | none => .error .generateRange
      | some (start, stop) => if stop < start then .error .generateRange else .ok (start, stop, step)

/-- `%0*d` and its kin: a sign, then zeros up to the width, then the digits. -/
def formatPadded (base width : Nat) (val : Int) : Text :=
  let sign := if val < 0 then ['-'] else []
  let digits := Nat.toDigits base val.natAbs
  sign ++ List.replicate (width - sign.length - digits.length) '0' ++ digits

/-- Offset, width and radix, each of which may be left out. -/
def applyGenerateModifier (iter : Int) (modifier : Text) : Option Text :=
  let (offset, rest) := (cutAt ',' modifier).getD (modifier, [])
  let (width, radix) := (cutAt ',' rest).getD (rest, [])
  (if offset = [] then some 0 else atoi offset).bind fun offset =>
    (if width = [] then some 0 else atoi width).bind fun width =>
      if width < 0 then none
      else if radix = [] ∨ radix.lower = ['d'] then some (formatPadded 10 width.toNat (iter + offset))
      else if radix.lower = ['o'] then some (formatPadded 8 width.toNat (iter + offset))
      else if radix.lower = ['x'] then some (formatPadded 16 width.toNat (iter + offset))
      else none

/-- A modifier that is never closed is plain text. -/
def expandGenerate (iter : Int) : Nat → Text → Option Text
  | 0, _ => some []
  | _, [] => some []
  | fuel + 1, c :: t =>
    if c ≠ '$' then (expandGenerate iter fuel t).map (c :: ·)
    else match t with
      | '{' :: t' => match cutAt '}' t' with
        | some (modifier, rest) => (applyGenerateModifier iter modifier).bind fun v =>
            (expandGenerate iter fuel rest).map (v ++ ·)
        | none => (expandGenerate iter fuel t).map (formatPadded 10 0 iter ++ ·)
      | _ => (expandGenerate iter fuel t).map (formatPadded 10 0 iter ++ ·)

def maxGenerateRecords : Int := 65536

/-- From `zone.go:474-510`. -/
def handleGenerate (p : Parser) : List Text → Except ParseError Parser
  | range :: args =>
    if args.length < 3 then .error .generateArgs
    else (parseGenerateRange range).bind fun (start, stop, step) =>
      let count := (stop - start) / step + 1
      if maxGenerateRecords < count then .error (.generateTooLarge count)
      else
        let template := Text.unwords args
        (List.range count.toNat).foldlM (fun p n =>
          let i := start + n * step
          match expandGenerate i template.length template with
          | none => .error (.generateModifier i)
          | some line => (parseRecordOwned p line false).mapError (.generateRecord i)) p
  | [] => .error .generateArgs

/-- From `zone.go:334-370`. -/
def handleControl (handleInclude : Parser → List Text → Except ParseError Parser) (p : Parser) (line : Text) :
    Except ParseError Parser :=
  match Text.words line with
  | [] => .ok p
  | directive :: args =>
    let directive := directive.upper
    if directive = "$ORIGIN".toList then
      match args with
      | [] => .error .originMissing
      | name :: _ => .ok { p with zone := { p.zone with origin := canonicalize name } }
    else if directive = "$TTL".toList then
      match args with
      | [] => .error .ttlMissing
      | value :: _ => match parseTTL value with
        | none => .error .ttlInvalid
        | some ttl => .ok { p with zone := { p.zone with defaultTTL := ttl } }
    else if directive = "$GENERATE".toList then handleGenerate p args
    else if directive = "$INCLUDE".toList then handleInclude p args
    else .error (.unknownDirective directive)

/-- Inside parentheses, and on the line that opens them, quotes do not protect a semicolon. -/
def dropComment (line : Text) : Text :=
  if ';' ∈ line then Text.trimSpace (line.takeWhile fun c => decide (c ≠ ';')) else line

/-- The line begins with white space, so its record belongs to the last owner. -/
def indented (rawLine : Text) : Bool :=
  decide (rawLine.head? = some ' ' ∨ rawLine.head? = some '\t')

/-- The parentheses of a joined record become blanks. -/
def combine (lineBuf : Text) : Text :=
  Text.unwords (Text.words (lineBuf.map fun c => if c = '(' ∨ c = ')' then ' ' else c))

section parse

variable (handleInclude : Parser → List Text → Except ParseError Parser)

def parseLine (p : Parser) (rawLine : Text) : Except ParseError Parser :=
  let line := Text.trimSpace rawLine
  if 0 < p.parenDepth then
    let line := dropComment line
    if line = [] then .ok p
    else
      let lineBuf := p.lineBuf ++ ' ' :: line
      let depth := p.parenDepth + line.count '(' - line.count ')'
      if depth ≤ 0 then
        (parseRecordOwned { p with parenDepth := 0, lineBuf := [] } (combine lineBuf) p.recordIndented).mapError
          (.inFile p.filename p.lineStart)
      else .ok { p with parenDepth := depth, lineBuf := lineBuf }
  else if line = [] ∨ line.head? = some ';' then .ok p
  else if line.head? = some '$' then
    (handleControl handleInclude p line).mapError (.inFile p.filename p.lineNum)
  else if '(' ∈ line ∧ ')' ∉ line then
    .ok { p with
      parenDepth := 1
      lineStart := p.lineNum
      recordIndented := indented rawLine
      lineBuf := dropComment line }
  else (parseRecordOwned p line (indented rawLine)).mapError (.inFile p.filename p.lineNum)

def parseLines (p : Parser) : List (Option Text) → Except ParseError Parser
  | [] => .ok p
  | none :: _ => .error (.readError p.filename)
  | some rawLine :: rest =>
    (parseLine handleInclude { p with lineNum := p.lineNum + 1 } rawLine).bind fun p => parseLines p rest

/-- `bufio.MaxScanTokenSize`. -/
def maxScanTokenSize : Nat := 64 * 1024

def parse (p : Parser) (text : Text) : Except ParseError Zone :=
  (parseLines handleInclude p (Text.scanLines maxScanTokenSize [] text)).bind fun p =>
    if 0 < p.parenDepth then .error (.unclosedParenthesis p.filename p.lineStart) else .ok p.zone

end parse

def newParser (filename : Text) (zone : Zone) (lastOwner : Text) : Parser :=
  ⟨filename, 0, zone, lastOwner, 0, [], 0, false⟩

/-- Name and text of the file that an argument of `$INCLUDE` means in a file. -/
abbrev Files := Text → Text → Except ParseError (Text × Text)

def maxIncludeDepth : Nat := 10

/-- The origin is the file's own while it is read. -/
def handleInclude (files : Files) : Nat → Parser → List Text → Except ParseError Parser
  | _, _, [] => .error .includeArgs
  | 0, _, _ => .error .includeDepth
  | depth + 1, p, name :: args =>
    (files p.filename name).bind fun (file, text) =>
      let origin := match args with
        | [] => p.zone.origin
        | origin :: _ => canonicalize origin
      (parse (handleInclude files depth) (newParser file { p.zone with origin := origin } p.lastOwner) text).map
        fun z => { p with zone := { z with origin := p.zone.origin } }

def emptyZone : Zone := ⟨['.'], 0, none, ∅, []⟩

def parseFile (files : Files) (filename text : Text) : Except ParseError Zone :=
  parse (handleInclude files maxIncludeDepth) (newParser filename emptyZone []) text

end NothingDNS
