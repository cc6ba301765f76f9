import NothingDNS.Zone.Soa
import NothingDNS.Lib.Run
/-!
# Incremental zone transfer (`ixfr.go`, `slave.go`, `kvjournal.go`)

A record is modelled by its wire image: the printed owner name, the type's code, the TTL and the printed RDATA; of an
SOA record only the serial is kept.
-/

namespace NothingDNS.Transfer

structure RR where
  name : Text
  type : Nat
  ttl : UInt32
  rdata : Text
deriving DecidableEq

inductive Wire where
  | soa (serial : UInt32)
  | rr (r : RR)
deriving DecidableEq

def rrTypeSOA : Nat := 6

structure JournalEntry where
  /-- The serial after the change. -/
  serial : UInt32
  added : List RR
  deleted : List RR
deriving DecidableEq

/-! ## The journal store -/

/-- The files left by `trimJournalToLocked`: those with the `keep` largest serials. -/
def trimJournal (keep : Nat) (dir : List JournalEntry) : List JournalEntry :=
  if dir.length ≤ keep then dir
  else
    let newestFirst := dir.mergeSort fun a b => decide (b.serial ≤ a.serial)
    let toRemove := (newestFirst.drop keep).map JournalEntry.serial
    dir.filter fun e => decide (e.serial ∉ toRemove)

/-- A file is named by its serial, so an entry replaces one with the same serial. -/
def saveEntry (keep : Nat) (dir : List JournalEntry) (entry : JournalEntry) : List JournalEntry :=
  trimJournal keep (dir.filter (fun e => decide (e.serial ≠ entry.serial)) ++ [entry])

def loadEntries (dir : List JournalEntry) : List JournalEntry :=
  dir.mergeSort fun a b => decide (a.serial ≤ b.serial)

/-- A zone with its journal. The last two fields are what has happened to the zone. -/
structure Master where
  records : List RR
  serial : UInt32
  journal : List JournalEntry
  maxJournalSize : Nat
  /-- The files of the journal store and its own limit, if one is configured. -/
  store : Option (List JournalEntry × Nat)
  initial : List RR × UInt32
  changes : List JournalEntry

def applyChange (records : List RR) (entry : JournalEntry) : List RR :=
  records.diff entry.deleted ++ entry.added

def replay (v : List RR × UInt32) : List JournalEntry → List RR × UInt32
  | [] => v
  | e :: es => replay (applyChange v.1 e, e.serial) es

/-- Each change leads to a newer serial and deletes records that are there. -/
def Valid (v : List RR × UInt32) : List JournalEntry → Prop
  | [] => True
  | e :: es => serialIsNewer e.serial v.2 = true ∧ e.deleted.Subperm v.1 ∧ Valid (applyChange v.1 e, e.serial) es

namespace Master

/-- `RecordChange`; `saved` tells whether the journal store took the entry. -/
def recordChange (s : Master) (entry : JournalEntry) (saved : Bool) : Master :=
  let limit := if s.maxJournalSize = 0 then 100 else s.maxJournalSize
  let journal := s.journal ++ [entry]
  { s with
    maxJournalSize := limit
    journal := if limit < journal.length then journal.drop (journal.length - limit) else journal
    store := s.store.map fun d => if saved then (saveEntry d.2 d.1 entry, d.2) else d }

/-- The journal `generateIncrementalIXFR` works with: the one in memory, or the stored one if that is
empty. -/
def usedJournal (s : Master) : List JournalEntry :=
  if s.journal = [] then (s.store.map fun d => loadEntries d.1).getD [] else s.journal

inductive Step where
  | change (entry : JournalEntry) (saved : Bool)
  | setMaxJournalSize (size : Nat)
  /-- `HandleIXFR` keeps the journal it loaded. -/
  | serve
  /-- The process starts again: the journal in memory is empty. -/
  | restart
deriving DecidableEq

def step (s : Master) : Step → Option Master
  | .change entry saved =>
    if serialIsNewer entry.serial s.serial = true ∧ entry.deleted.Subperm s.records then
      some { s.recordChange entry saved with
        records := applyChange s.records entry
        serial := entry.serial
        changes := s.changes ++ [entry] }
    else none
  | .setMaxJournalSize size => some { s with maxJournalSize := if size = 0 then s.maxJournalSize else size }
  | .serve => some { s with journal := s.usedJournal }
  | .restart => some { s with journal := [], maxJournalSize := 100 }

def start (records : List RR) (serial : UInt32) (store : Option Nat) : Master :=
  { records, serial, journal := [], maxJournalSize := 100, store := store.map fun keep => ([], keep),
    initial := (records, serial), changes := [] }

end Master

def changeToRR (r : RR) : Wire :=
  if r.type = rrTypeSOA then .soa (((parseSOAFromRData r.rdata).map SOARecord.serial).getD 0) else .rr r

/-- The diff blocks: old SOA, deletions, new SOA, additions. -/
def diffs (prevSerial : UInt32) : List JournalEntry → List Wire
  | [] => []
  | e :: es => .soa prevSerial :: (e.deleted.map changeToRR ++
      .soa e.serial :: (e.added.map changeToRR ++ diffs e.serial es))

/-- From `ixfr.go:253-368`. -/
def generateIncrementalIXFR (serial : UInt32) (journal : List JournalEntry) (clientSerial : UInt32) :
    Option (List Wire) :=
  (journal.findIdx? fun e => serialIsNewer e.serial clientSerial).bind fun startIdx =>
    if 0 < startIdx ∧ (journal[startIdx - 1]?.map JournalEntry.serial) ≠ some clientSerial then none
    else some (.soa serial :: (diffs clientSerial (journal.drop startIdx) ++ [.soa serial]))

/-- `sorted` are the zone's records in the order the sort leaves them in. -/
def generateAXFRRecords (serial : UInt32) (sorted : List RR) : List Wire :=
  .soa serial :: ((sorted.filter fun r => decide (r.type ≠ rrTypeSOA)).map Wire.rr ++ [.soa serial])

def Master.handleIXFR (s : Master) (clientSerial : UInt32) (sorted : List RR) : List Wire :=
  if serialIsNewer s.serial clientSerial = false then [.soa s.serial]
  else (generateIncrementalIXFR s.serial s.usedJournal clientSerial).getD (generateAXFRRecords s.serial sorted)

abbrev RRMap := AList fun _ : Text => List RR

def RRMap.at (m : RRMap) (name : Text) : List RR := (m.lookup name).getD []

def recordFromRR (r : RR) : RR := { r with name := r.name.lower }

/-- The match of a deletion: the TTL is not part of it. -/
def sameData (r : RR) (x : RR) : Bool := decide (x.type = r.type ∧ x.rdata = r.rdata)

/-- From `slave.go:612-626`. -/
def removeZoneRecord (m : RRMap) (r : RR) : RRMap :=
  match m.lookup r.name with
  | none => m
  | some recs =>
    if recs.any (sameData r) then
      if recs.eraseP (sameData r) = [] then m.erase r.name else m.insert r.name (recs.eraseP (sameData r))
    else m

def addZoneRecord (m : RRMap) (r : RR) : RRMap := m.insert r.name (m.at r.name ++ [r])

/-- The walk over the diff body; every SOA switches between deleting and adding. -/
def applyBody : Bool → Bool → List Wire → RRMap → RRMap
  | _, _, [], m => m
  | deleting, started, .soa _ :: ws, m => applyBody (if started then !deleting else true) true ws m
  | deleting, started, .rr r :: ws, m =>
    applyBody deleting started ws
      (if deleting then removeZoneRecord m (recordFromRR r) else addZoneRecord m (recordFromRR r))

def applyFullZone : List Wire → RRMap → RRMap
  | [], m => m
  | .soa _ :: ws, m => applyFullZone ws m
  | .rr r :: ws, m => applyFullZone ws (addZoneRecord m (recordFromRR r))

inductive TransferError where
  | noRecords
  | noLeadingSOA
  | noBase
deriving DecidableEq

def applyTransferredZone (base : Option RRMap) : List Wire → Except TransferError (Option RRMap × UInt32)
  | [] => .error .noRecords
  | .rr _ :: _ => .error .noLeadingSOA
  | [.soa serial] => .ok (base, serial)
  | .soa serial :: .soa old :: rest => match base with
    | none => .error .noBase
    | some m => .ok (some (applyBody false false (Wire.soa old :: rest).dropLast m), serial)
  | .soa serial :: .rr r :: rest => .ok (some (applyFullZone (.rr r :: rest) ∅), serial)

end NothingDNS.Transfer
