import NothingDNS.Zone.Soa
import NothingDNS.Lib.Run
/-!
# Dynamic updates (`internal/transfer/ddns.go:451-779`)

A function that can fail returns the zone it leaves behind and its error.
-/

namespace NothingDNS.Transfer

def typeCNAME : Text := "CNAME".toList
def typeSOA : Text := "SOA".toList
def typeNS : Text := "NS".toList

inductive UpdateOpType where
  | add
  | delete
  | deleteRRSet
  | deleteName
deriving DecidableEq

structure UpdateOperation where
  name : Text
  type : Text
  ttl : UInt32
  rdata : Text
  operation : UpdateOpType
deriving DecidableEq

inductive PrecondType where
  | exists_
  | notExists
  | nameInUse
  | nameNotInUse
  | existsValue
deriving DecidableEq

structure UpdatePrerequisite where
  condition : PrecondType
  name : Text
  type : Text
  rdata : Text

structure UpdateRequest where
  prerequisites : List UpdatePrerequisite
  updates : List UpdateOperation

inductive UpdateError where
  /-- `ErrNotZone` with the name that lies outside. -/
  | notZone (name : Text)
  | prereqFailed (condition : PrecondType)
  | nameControlChar
  | dataControlChar
  | malformedSOA
deriving DecidableEq

/-- From `ddns.go:515-525`. -/
def nameWithinZone (name origin : Text) : Bool :=
  let name := name.lower
  let origin := if ['.'] <:+ origin.lower then origin.lower else origin.lower ++ ['.']
  if ¬ ['.'] <:+ name then true else name = origin ∨ ('.' :: origin) <:+ name

def normalizeZoneOwner (name origin : Text) : Text :=
  let name := (Text.trimSpace name).lower
  let origin := (Text.trimSpace origin).lower
  if ['.'] <:+ name then name else name ++ '.' :: origin

def apexOf (origin : Text) : Text :=
  if ['.'] <:+ origin.lower then origin.lower else origin.lower ++ ['.']

/-- `strings.EqualFold` on ASCII text. -/
def equalFold (s t : Text) : Bool := s.lower = t.lower

section zone

variable (z : Zone)

def zoneNameExists (name : Text) : Bool := z.recordsAt (normalizeZoneOwner name z.origin) ≠ []

def zoneTypeExists (name type : Text) : Bool :=
  (z.recordsAt (normalizeZoneOwner name z.origin)).any fun r => r.type = type

def zoneRecordExists (name type rdata : Text) : Bool :=
  (z.recordsAt (normalizeZoneOwner name z.origin)).any fun r => r.type = type && equalFold r.rdata rdata

def checkPrerequisite (p : UpdatePrerequisite) : Bool :=
  match p.condition with
  | .exists_ => zoneTypeExists z p.name p.type
  | .notExists => !zoneTypeExists z p.name p.type
  | .nameInUse => zoneNameExists z p.name
  | .nameNotInUse => !zoneNameExists z p.name
  | .existsValue =>
    if p.rdata ≠ [] then zoneRecordExists z p.name p.type p.rdata else zoneTypeExists z p.name p.type

def setRecords (name : Text) (recs : List Record) : Zone :=
  { z with records := z.records.insert name recs }

/-- `delete(z.Records, name)` when nothing is left, else the new list. -/
def putRecords (name : Text) (recs : List Record) : Zone :=
  if recs = [] then { z with records := z.records.erase name } else setRecords z name recs

/-- The records for which `drop` holds are taken out; a missing key is left missing. -/
def filterRecords (name : Text) (drop : Record → Bool) : Zone :=
  match z.records.lookup name with
  | none => z
  | some recs => putRecords z name (recs.filter fun r => !drop r)

def deleteRecord (name type rdata : Text) : Zone :=
  filterRecords z (normalizeZoneOwner name z.origin) fun r => r.type = type && equalFold r.rdata rdata

def deleteRRSet (name type : Text) : Zone :=
  filterRecords z (normalizeZoneOwner name z.origin) fun r => r.type = type

def deleteName (name : Text) : Zone :=
  { z with records := z.records.erase (normalizeZoneOwner name z.origin) }

/-- The loop `for i, r := range l { if p r { l[i] = f r; return } }`; `none` if no element matched. -/
def updateFirst (p : Record → Bool) (f : Record → Record) : List Record → Option (List Record)
  | [] => none
  | r :: l => if p r then some (f r :: l) else (updateFirst p f l).map (r :: ·)

def appendRecord (name : Text) (op : UpdateOperation) : Zone :=
  setRecords z name (z.recordsAt name ++ [⟨name, op.ttl, [], op.type, op.rdata⟩])

def applyAddSOA (name : Text) (op : UpdateOperation) : Zone × Option UpdateError :=
  if name ≠ apexOf z.origin then (z, none)
  else match parseSOAFromRData op.rdata with
    | none => (z, some .malformedSOA)
    | some newSOA =>
      if z.soa.any fun soa => !serialIsNewer newSOA.serial soa.serial then (z, none)
      else
        let z := { z with soa := some { newSOA with name := name, ttl := op.ttl } }
        match updateFirst (fun r => r.type = typeSOA) (fun r => { r with ttl := op.ttl, rdata := op.rdata })
            (z.recordsAt name) with
        | some recs => (setRecords z name recs, none)
        | none => (appendRecord z name op, none)

def applyAdd (name : Text) (op : UpdateOperation) : Zone × Option UpdateError :=
  let existing := z.recordsAt name
  if op.type = typeCNAME then
    match updateFirst (fun r => r.type = typeCNAME) (fun r => { r with ttl := op.ttl, rdata := op.rdata })
        existing with
    | some recs => (setRecords z name recs, none)
    | none => if existing ≠ [] then (z, none) else (appendRecord z name op, none)
  else if existing.any fun r => r.type = typeCNAME then (z, none)
  else if op.type = typeSOA then applyAddSOA z name op
  else match updateFirst (fun r => r.type = op.type ∧ r.rdata = op.rdata) (fun r => { r with ttl := op.ttl })
      existing with
    | some recs => (setRecords z name recs, none)
    | none => (appendRecord z name op, none)

def hasControlChar (t : Text) : Bool := t.any fun c => c = '\n' ∨ c = '\r' ∨ c = '\x00'

/-- From `writer.go:92-100`. -/
def validateRecordData (name rdata : Text) : Option UpdateError :=
  if hasControlChar name then some .nameControlChar
  else if hasControlChar rdata then some .dataControlChar
  else none

def applyOperation (op : UpdateOperation) : Zone × Option UpdateError :=
  match op.operation with
  | .add =>
    let name := normalizeZoneOwner op.name z.origin
    match validateRecordData name op.rdata with
    | some err => (z, some err)
    | none => applyAdd z name op
  | .delete => (deleteRecord z op.name op.type op.rdata, none)
  | .deleteRRSet => (deleteRRSet z op.name op.type, none)
  | .deleteName => (deleteName z op.name, none)

end zone

/-- The loop over `update.Updates` (`ddns.go:482-486`). -/
def applyOperations (z : Zone) : List UpdateOperation → Zone × Option UpdateError
  | [] => (z, none)
  | op :: ops => match applyOperation z op with
    | (z, some err) => (z, some err)
    | (z, none) => applyOperations z ops

/-- From `manager.go:658-684`. -/
def incrementSerial (datePrefix : UInt32) (z : Zone) : Zone :=
  match z.soa with
  | none => z
  | some soa =>
    let serial := if serialIsNewer datePrefix soa.serial then datePrefix + 1 else serialIncrement soa.serial
    let soa := { soa with serial }
    let z := { z with soa := some soa }
    match z.records.lookup z.origin with
    | none => z
    | some recs =>
      match updateFirst (fun r => r.type = typeSOA) (fun r => { r with rdata := soa.rdata }) recs with
      | some recs => setRecords z z.origin recs
      | none => z

/-- `validateUpdateWithinZone`: the first name outside the zone. -/
def outsideZone (z : Zone) (update : UpdateRequest) : Option Text :=
  (update.prerequisites.map (·.name) ++ update.updates.map (·.name)).find? fun name =>
    !nameWithinZone name z.origin

/-- From `ddns.go:456-492`. -/
def applyUpdate (datePrefix : UInt32) (z : Zone) (update : UpdateRequest) : Zone × Option UpdateError :=
  match outsideZone z update with
  | some name => (z, some (.notZone name))
  | none => match update.prerequisites.find? fun p => !checkPrerequisite z p with
    | some p => (z, some (.prereqFailed p.condition))
    | none => match applyOperations z update.updates with
      | (z, some err) => (z, some err)
      | (z, none) => (incrementSerial datePrefix z, none)

end NothingDNS.Transfer
