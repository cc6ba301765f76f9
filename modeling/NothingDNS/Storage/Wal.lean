import Mathlib.Data.List.Sort
import NothingDNS.Lib.BigEndian
import NothingDNS.Lib.Crc32
import NothingDNS.Lib.Frames
/-!
# The storage write-ahead log (`storage/wal.go`)

A segment file is a sequence of frames CRC32(4), Type(1), Length(4), data. Three places decide where a file ends:
`readSegment` bounds the length by the segment size option and checks the sum, `findValidEnd` bounds it by the
constant and does not, and the reader works on the files as one stream.
-/

namespace NothingDNS.Storage

open BigEndian

def WALHeaderSize : Nat := 9
def MaxSegmentSize : Nat := 64 * 1024 * 1024

def EntryTypeBegin : UInt8 := 0x10
def EntryTypeCommit : UInt8 := 0x11
def EntryTypeCheckpoint : UInt8 := 0x20

structure WALEntry where
  type : UInt8
  data : List UInt8
deriving DecidableEq

inductive WALError where
  | closed
  | corruptEntry
  | invalidChecksum
  | entryTooLarge
  | rotate
  | write
  | rollback
  | sync
deriving DecidableEq

def payload (e : WALEntry) : List UInt8 := e.type :: (encode 4 e.data.length ++ e.data)

def encodeEntry (e : WALEntry) : List UInt8 :=
  encode 4 (Crc32.checksum (payload e)).toNat ++ payload e

def bodyLength (bs : List UInt8) : Nat := decode ((bs.drop 5).take 4)

/-- From `wal.go:554-590`. -/
def decodeEntry (buf : List UInt8) : Except WALError WALEntry :=
  if buf.length < WALHeaderSize then .error .corruptEntry
  else if decode (buf.take 4) ≠ (Crc32.checksum (buf.drop 4)).toNat then .error .invalidChecksum
  else if MaxSegmentSize < bodyLength buf then .error .corruptEntry
  else if buf.length < WALHeaderSize + bodyLength buf then .error .corruptEntry
  else .ok { type := buf.getD 4 0, data := (buf.drop WALHeaderSize).take (bodyLength buf) }

/-- One turn of `readSegment`, under the segment size option `max`. -/
def readHead (max : Nat) (bs : List UInt8) : Option (WALEntry × Nat) :=
  if bs.length < WALHeaderSize then none
  else if max < bodyLength bs then none
  else if bs.length < WALHeaderSize + bodyLength bs then none
  else match decodeEntry (bs.take (WALHeaderSize + bodyLength bs)) with
    | .error _ => none
    | .ok e => some (e, WALHeaderSize + bodyLength bs)

/-- One turn of `findValidEnd`: lengths only. -/
def boundHead (bs : List UInt8) : Option (Unit × Nat) :=
  if bs.length < WALHeaderSize then none
  else if MaxSegmentSize < bodyLength bs then none
  else if bs.length < WALHeaderSize + bodyLength bs then none
  else some ((), WALHeaderSize + bodyLength bs)

def readSegment (max : Nat) (bytes : List UInt8) : List WALEntry := Frames.values (readHead max) bytes

def findValidEnd (bytes : List UInt8) : Nat := Frames.extent boundHead bytes

/-- `size` is what the handle believes; `bytes` is the file. -/
structure Segment where
  id : Nat
  size : Nat
  bytes : List UInt8
deriving DecidableEq

/-- An open or closed handle together with the files of its segments. -/
structure WAL where
  maxSegmentSize : Nat
  /-- Every segment but the last. -/
  sealed : List Segment
  active : Segment
  /-- `active.file != nil`. -/
  file : Bool
  closed : Bool
  syncErr : Bool
deriving DecidableEq

def WAL.segments (w : WAL) : List Segment := w.sealed ++ [w.active]

abbrev Dir := List (Nat × List UInt8)

def WAL.dir (w : WAL) : Dir := w.segments.map fun s => (s.id, s.bytes)

/-- `normalizeWALOptions`. -/
def normalizeMaxSegmentSize (opt : Int) : Nat := if opt ≤ WALHeaderSize then MaxSegmentSize else opt.toNat

def loadSegments (dir : Dir) : List Segment :=
  (dir.insertionSort fun a b => a.1 ≤ b.1).map fun f => { id := f.1, size := f.2.length, bytes := f.2 }

/-- Cut the active segment at its last complete frame. -/
def truncateTail (s : Segment) : Segment :=
  if findValidEnd s.bytes < s.size then
    { s with size := findValidEnd s.bytes, bytes := s.bytes.take (findValidEnd s.bytes) }
  else s

/-- From `wal.go:116-173`. -/
def openWAL (opt : Int) (dir : Dir) : WAL :=
  match (loadSegments dir).reverse with
  | [] =>
    { maxSegmentSize := normalizeMaxSegmentSize opt, sealed := [], active := { id := 0, size := 0, bytes := [] },
      file := true, closed := false, syncErr := false }
  | active :: before =>
    { maxSegmentSize := normalizeMaxSegmentSize opt, sealed := before.reverse, active := truncateTail active,
      file := true, closed := false, syncErr := false }

def WAL.readAll (w : WAL) : List WALEntry := w.segments.flatMap fun s => readSegment w.maxSegmentSize s.bytes

inductive Fault where
  | none
  /-- The replacement segment cannot be prepared; `sync` if it was the sync of the old one. -/
  | rotate (sync : Bool)
  /-- The file takes `n` octets and then fails; the rollback works or fails too. -/
  | write (n : Nat) (rolledBack : Bool)
deriving DecidableEq

def WAL.createNewSegment (w : WAL) : WAL :=
  { w with sealed := w.sealed ++ [w.active], active := { id := w.active.id + 1, size := 0, bytes := [] }, file := true }

/-- `writeWALBuffer` and, if it fails, `rollbackActiveAppend`. -/
def WAL.writeFrame (fault : Fault) (w : WAL) (buf : List UInt8) : WAL × Except WALError Nat :=
  -- both calls on a nil file fail and leave everything as it is
  if w.file = false then (w, .error .rollback)
  else match fault with
    | .write n true =>
      ({ w with active := { w.active with bytes := (w.active.bytes ++ buf.take n).take w.active.size } }, .error .write)
    | .write n false =>
      ({ w with active := { w.active with bytes := w.active.bytes ++ buf.take n } }, .error .rollback)
    | _ =>
      ({ w with active := { w.active with bytes := w.active.bytes ++ buf, size := w.active.size + buf.length } },
        .ok (w.active.size + buf.length))

/-- From `wal.go:465-498`. -/
def WAL.appendLocked (fault : Fault) (w : WAL) (e : WALEntry) : WAL × Except WALError Nat :=
  if w.maxSegmentSize < w.active.size + (WALHeaderSize + e.data.length) then
    match fault with
    | .rotate sync => ({ w with syncErr := w.syncErr || sync }, .error .rotate)
    | _ => w.createNewSegment.writeFrame fault (encodeEntry e)
  else w.writeFrame fault (encodeEntry e)

/-- From `wal.go:368-428`. -/
def WAL.append (w : WAL) (e : WALEntry) : WAL × Except WALError Nat :=
  if w.closed then (w, .error .closed)
  else if w.syncErr then (w, .error .sync)
  else if w.maxSegmentSize < WALHeaderSize + e.data.length then (w, .error .entryTooLarge)
  else w.appendLocked .none e

def beginMarker (entries : List WALEntry) : WALEntry := { type := EntryTypeBegin, data := encode 8 entries.length }

def commitMarker : WALEntry := { type := EntryTypeCommit, data := [] }

/-- What `AppendBatch` writes, in order. -/
def batchFrames (entries : List WALEntry) : List WALEntry := beginMarker entries :: (entries ++ [commitMarker])

/-- One `appendLocked` after the other, up to the first error; `faults i` is the fault of write `i`. -/
def WAL.appendEach : (Nat → Fault) → WAL → List WALEntry → WAL × Except WALError Unit
  | _, w, [] => (w, .ok ())
  | faults, w, e :: es => match w.appendLocked (faults 0) e with
    | (w', .error err) => (w', .error err)
    | (w', .ok _) => appendEach (fun i => faults (i + 1)) w' es

/-- From `wal.go:688-710`. -/
def WAL.syncLocked (fails : Bool) (w : WAL) : WAL × Except WALError Unit :=
  if w.file = false then ({ w with syncErr := false }, .ok ())
  else if fails then ({ w with syncErr := true }, .error .sync)
  else ({ w with syncErr := false }, .ok ())

/-- From `wal.go:431-463`. -/
def WAL.appendBatch (faults : Nat → Fault) (syncFails : Bool) (w : WAL) (entries : List WALEntry) :
    WAL × Except WALError Unit :=
  if w.closed then (w, .error .closed)
  else if w.syncErr then (w, .error .sync)
  else match w.appendEach faults (batchFrames entries) with
    | (w', .error err) => (w', .error err)
    | (w', .ok _) => w'.syncLocked syncFails

def checkpoint (data : List UInt8) : WALEntry := { type := EntryTypeCheckpoint, data := data }

/-- `Compact` does not look at `closed`. -/
def WAL.compact (w : WAL) (data : List UInt8) : WAL × Except WALError Unit :=
  if w.syncErr then (w, .error .sync)
  else match w.appendLocked .none (checkpoint data) with
    | (w', .error err) => (w', .error err)
    | (w', .ok _) => ((w'.syncLocked false).1.createNewSegment, .ok ())

def WAL.close (w : WAL) : WAL := if w.closed then w else { w with closed := true, file := false }

/-! ## The sequential reader -/

structure WALReader where
  /-- The contents of the segments not opened yet. -/
  todo : List (List UInt8)
  /-- What is left of the open file. -/
  file : Option (List UInt8)
  buf : List UInt8

def WAL.newReader (w : WAL) : WALReader := { todo := w.segments.map (·.bytes), file := none, buf := [] }

/-- The frame at the front of the buffer, if it is there in full. -/
def WALReader.buffered (r : WALReader) : Option (Except WALError (WALEntry × WALReader)) :=
  if r.buf.length < WALHeaderSize then none
  else if MaxSegmentSize < bodyLength r.buf then some (.error .corruptEntry)
  else if r.buf.length < WALHeaderSize + bodyLength r.buf then none
  else match decodeEntry (r.buf.take (WALHeaderSize + bodyLength r.buf)) with
    | .error err => some (.error err)
    | .ok e => some (.ok (e, { r with buf := r.buf.drop (WALHeaderSize + bodyLength r.buf) }))

/-- One read of 4096 octets; at the end of the file it is closed. -/
def WALReader.readFile (r : WALReader) (rest : List UInt8) (todo : List (List UInt8)) : WALReader :=
  match rest with
  | [] => { r with todo := todo, file := none }
  | _ => { todo := todo, file := some (rest.drop 4096), buf := r.buf ++ rest.take 4096 }

/-- Read on, opening the next segment if no file is open; `none` is `io.EOF`. -/
def WALReader.readMore (r : WALReader) : Option WALReader :=
  match r.file, r.todo with
  | some rest, todo => some (r.readFile rest todo)
  | none, [] => none
  | none, seg :: todo => some (r.readFile seg todo)

inductive NextResult where
  | entry (e : WALEntry) (r : WALReader)
  | eof
  | failed (err : WALError)

/-- The loop of `Next`; `none` if the fuel is not enough. -/
def WALReader.nextFrom : Nat → WALReader → Option NextResult
  | 0, _ => none
  | fuel + 1, r => match r.buffered with
    | some (.ok (e, r')) => some (.entry e r')
    | some (.error err) => some (.failed err)
    | none => match r.readMore with
      | none => some .eof
      | some r' => nextFrom fuel r'

def WALReader.work (r : WALReader) : Nat :=
  2 * r.todo.length + r.todo.flatten.length + (r.file.elim 0 fun rest => rest.length + 1)

def WALReader.next (r : WALReader) : Option NextResult := r.nextFrom (r.work + 1)

/-- `Next` until it gives `io.EOF`; `none` if it gives another error or the fuel is not enough. -/
def WALReader.readToEOF : Nat → WALReader → Option (List WALEntry)
  | 0, _ => none
  | fuel + 1, r => match r.next with
    | some (.entry e r') => (readToEOF fuel r').map (e :: ·)
    | some .eof => some []
    | _ => none

end NothingDNS.Storage
