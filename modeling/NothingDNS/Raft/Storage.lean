import NothingDNS.Raft.Step
import NothingDNS.Raft.Wal
/-!
# The data directory of a node (`wal.go`, `snapshot.go`, `integration.go`)

The write-ahead log behind its open handle, the snapshot directory, and what the coming file operations will do. Bytes
appended since the last fsync may be lost from some point on in a crash; a rename may be lost until the directory is
fsynced, and brings back the old file as a whole.
-/

namespace NothingDNS.Raft

open BigEndian

structure LogFile where
  synced : Bytes
  /-- Appended since the last fsync. -/
  pending : Bytes

def LogFile.bytes (f : LogFile) : Bytes := f.synced ++ f.pending

def LogFile.crashes (f : LogFile) : List Bytes := f.pending.inits.map (f.synced ++ ·)

/-- What `w.logFile` refers to. -/
inductive Handle where
  | live
  /-- A file that a rename has replaced: `rewriteLocked` failed before it reopened the log. -/
  | orphan (f : LogFile)
  | closed

structure SnapshotFile where
  /-- The number in the file name. -/
  index : Nat
  bytes : Bytes
  /-- History variable of the payload, see `Payload`. -/
  covers : List Entry
  /-- Whether the rename that created the file has been fsynced. -/
  durable : Bool

structure Disk where
  log : LogFile
  handle : Handle
  /-- What a crash may bring back in place of `log`: a rename has not been fsynced. -/
  shadow : List Bytes
  /-- Newest first. -/
  snapshots : List SnapshotFile

namespace Disk

def opened (d : Disk) : LogFile := match d.handle with
  | .orphan f => f
  | _ => d.log

def setOpened (d : Disk) (f : LogFile) : Disk := match d.handle with
  | .orphan _ => { d with handle := .orphan f }
  | _ => { d with log := f }

def append (d : Disk) (bs : Bytes) : Disk := d.setOpened ⟨d.opened.synced, d.opened.pending ++ bs⟩

def fsync (d : Disk) : Disk := d.setOpened ⟨d.opened.bytes, []⟩

def crashLogs (d : Disk) : List Bytes := d.log.crashes ++ d.shadow

/-- The snapshot files a crash leaves; `keep` says which of the others survive. -/
def crashSnapshots (d : Disk) (keep : SnapshotFile → Bool) : List SnapshotFile :=
  d.snapshots.filter fun f => f.durable || keep f

end Disk

/-! ## Snapshot files -/

/-- AES-256-GCM with the snapshot key, as the source uses it (`snapshot.go:228-248`, `:349-383`);
`nonce` is what the random source yields for a body. -/
structure Sealing where
  gcmSeal : Bytes → Bytes → Bytes
  gcmOpen : Bytes → Bytes → Option Bytes
  nonce : Bytes → Bytes
  length_nonce : ∀ p, (nonce p).length = 12
  length_seal : ∀ n p, (gcmSeal n p).length = p.length + 16
  open_seal : ∀ n p, gcmOpen n (gcmSeal n p) = some p

def encryptedSnapshotMagic : UInt8 := 0xE0
def encryptedSnapshotVersion : Nat := 1
def snapAeadNonceLen : Nat := 12
def maxSnapshotDataBytes : Nat := 2 ^ 30
def maxSnapshotMembership : Nat := 1024
def maxNodeIDBytes : Nat := 256

/-- `writePlainSnapshot` of the snapshot `takeSnapshot` builds: `Index` and `Term` repeat `LastIndex`
and `LastTerm`, and there is no membership. -/
def writePlainSnapshot (snap : Snapshot) : Bytes :=
  encode 8 snap.lastIndex ++ (encode 8 snap.lastTerm ++ (encode 8 snap.lastIndex ++
    (encode 8 snap.lastTerm ++ (encode 8 snap.data.bytes.length ++ (snap.data.bytes ++ encode 4 0)))))

/-- From `snapshot.go:226-250`. -/
def writeSnapshot (key : Option Sealing) (snap : Snapshot) : Bytes :=
  match key with
  | none => writePlainSnapshot snap
  | some k =>
    let plain := writePlainSnapshot snap
    [encryptedSnapshotMagic] ++ encode 2 encryptedSnapshotVersion ++ k.nonce plain ++ k.gcmSeal (k.nonce plain) plain

/-- What the boot sequence reads of a snapshot file: `LastIndex`, `LastTerm`, `Data`. -/
structure SnapshotBody where
  lastIndex : Nat
  lastTerm : Nat
  data : Bytes
deriving DecidableEq

/-- The membership loop; only its errors matter to the caller. -/
def readMembership : Nat → Bytes → Bool
  | 0, _ => true
  | count + 1, bs =>
    if bs.length < 4 then false
    else
      let peerLen := decode (bs.take 4)
      if maxNodeIDBytes < peerLen then false
      else if (bs.drop 4).length < peerLen then false
      else readMembership count (bs.drop (4 + peerLen))

/-- From `snapshot.go:401-469`. -/
def readPlainSnapshot (bs : Bytes) : Option SnapshotBody :=
  if bs.length < 40 then none
  else
    let dataLen := decode ((bs.drop 32).take 8)
    if maxSnapshotDataBytes < dataLen then none
    else if (bs.drop 40).length < dataLen + 4 then none
    else
      let mCount := decode ((bs.drop (40 + dataLen)).take 4)
      if maxSnapshotMembership < mCount then none
      else if readMembership mCount (bs.drop (44 + dataLen)) = false then none
      else some ⟨decode ((bs.drop 16).take 8), decode ((bs.drop 24).take 8), (bs.drop 40).take dataLen⟩

/-- From `snapshot.go:331-346`. -/
def readSnapshot (key : Option Sealing) (bs : Bytes) : Option SnapshotBody :=
  match bs with
  | [] => none
  | b :: rest =>
    if b = encryptedSnapshotMagic then match key with
      | none => none
      | some k =>
        if rest.length < 2 + snapAeadNonceLen then none
        else if decode (rest.take 2) ≠ encryptedSnapshotVersion then none
        else if maxSnapshotDataBytes + 1024 * 1024 < (rest.drop 14).length then none
        else (k.gcmOpen ((rest.drop 2).take 12) (rest.drop 14)).bind readPlainSnapshot
    else readPlainSnapshot bs

/-- The directory entry `Load` picks: the highest number, if above `0`. -/
def latestSnapshot (files : List SnapshotFile) : Option SnapshotFile :=
  files.foldl (fun best f => match best with
    | none => if 0 < f.index then some f else none
    | some b => if b.index < f.index then some f else best) none

/-! ## File operations -/

/-- How a file operation ends. `failed k` is an error; `k` says how far it got:
for a write, the bytes written before it;
for a rewrite, `0` before the rename, `1` at the directory fsync, else at the reopening;
for a snapshot, `0` before the rename, else at the directory fsync. -/
inductive Outcome where
  | ok
  | failed (k : Nat)
deriving DecidableEq

/-- A call on the log or the snapshot store that returned an error, and how far it got. -/
inductive Fault where
  | write (k : Nat)
  | sync
  | truncate (k : Nat)
  | compact (k : Nat)
  | save (k : Nat)
deriving DecidableEq

structure Storage where
  disk : Disk
  /-- The directory after each file operation, newest first. -/
  trace : List Disk
  /-- History variable: the calls that failed, newest first. -/
  faults : List Fault
  /-- What the coming operations do; after the last one they succeed. -/
  outcomes : List Outcome

namespace Storage

def next (s : Storage) : Outcome := s.outcomes.headD .ok

def pop (s : Storage) : Storage := { s with outcomes := s.outcomes.tail }

def put (s : Storage) (d : Disk) : Storage := { s with disk := d, trace := d :: s.trace }

def fail (s : Storage) (f : Fault) : Storage × Bool := ({ s with faults := f :: s.faults }, false)

/-- `WAL.Write`. A write that fails has not written the whole record. -/
def write (s : Storage) (e : Entry) : Storage × Bool :=
  match s.disk.handle, s.next with
  | .closed, _ => s.fail (.write 0)
  | _, .ok => (s.pop.put (s.disk.append (encodeWALEntry e)), true)
  | _, .failed k => (s.pop.put (s.disk.append ((encodeWALEntry e).dropLast.take k))).fail (.write k)

def sync (s : Storage) : Storage × Bool :=
  match s.disk.handle, s.next with
  | .closed, _ => s.fail .sync
  | _, .ok => (s.pop.put s.disk.fsync, true)
  | _, .failed _ => s.pop.fail .sync

def cutTail (s : Storage) (torn : Nat) : Storage :=
  if torn = 0 then s
  else s.put (s.disk.setOpened ⟨s.disk.opened.bytes.take (s.disk.opened.bytes.length - torn), []⟩)

/-- The new file is in place; the handle still refers to the old one. -/
def rename (s : Storage) (es : List Entry) : Storage :=
  s.put { s.disk with
    log := ⟨walMagic ++ records es, []⟩, shadow := s.disk.crashLogs, handle := .orphan s.disk.opened }

/-- `TruncateAfter` and `CompactBefore`: keep the entries that satisfy `keep`. -/
def rewrite (s : Storage) (fault : Nat → Fault) (keep : Entry → Bool) : Storage × Bool :=
  match s.disk.handle, s.next, readAll s.disk.opened.bytes with
  | .closed, _, _ => s.fail (fault 0)
  | _, .failed 0, _ => s.pop.fail (fault 0)
  | _, _, none => s.pop.fail (fault 0)
  | _, o, some (es, torn) =>
    let renamed := (s.pop.cutTail torn).rename (es.filter keep)
    let synced := renamed.put { renamed.disk with shadow := [] }
    match o with
    | .ok => (synced.put { synced.disk with handle := .live }, true)
    | .failed 1 => renamed.fail (fault 1)
    | .failed k => (synced.put { synced.disk with handle := .closed }).fail (fault k)

def saveSnapshot (key : Option Sealing) (s : Storage) (snap : Snapshot) : Storage × Bool :=
  let file : SnapshotFile := ⟨snap.lastIndex, writeSnapshot key snap, snap.data.covers, false⟩
  let present := s.pop.put { s.disk with snapshots := file :: s.disk.snapshots }
  match s.next with
  | .ok => (present.put { present.disk with
      snapshots := present.disk.snapshots.map fun f => { f with durable := true } }, true)
  | .failed 0 => s.pop.fail (.save 0)
  | .failed k => present.fail (.save k)

/-- An operation that leaves no trace in the directory (the hard state has its own file, and the
state machine is in memory). -/
def elsewhere (s : Storage) : Storage × Bool := (s.pop, s.next = .ok)

def host (key : Option Sealing) : Host Storage where
  saveHardState s _ := s.elsewhere
  write := write
  sync := sync
  truncateAfter s keepThrough := s.rewrite .truncate fun e => e.index ≤ keepThrough
  compactBefore s through := s.rewrite .compact fun e => through < e.index
  restore s _ := s.elsewhere
  saveSnapshot := saveSnapshot key
  onSnapshotInstalled s _ := s

def fresh (outcomes : List Outcome) : Storage :=
  ⟨⟨⟨walMagic, []⟩, .live, [], []⟩, [], [], outcomes⟩

end Storage

/-- What `bootstrapState` takes from the snapshot directory (`integration.go:204-221`); index `0` is
no snapshot. A latest file that cannot be read is skipped, and so are all others. -/
def bootSnapshot (key : Option Sealing) (files : List SnapshotFile) : Snapshot :=
  match latestSnapshot files with
  | none => ⟨0, 0, [], []⟩
  | some f => match readSnapshot key f.bytes with
    | some body => if 0 < body.lastIndex then ⟨body.lastIndex, body.lastTerm, body.data, f.covers⟩
        else ⟨0, 0, [], []⟩
    | none => ⟨0, 0, [], []⟩

/-- What a directory with log content `wal` and snapshot files `files` boots into, in place of the
state of `n`: `NewNode`, `NewWAL`, `bootstrapState`. `none`: `NewWAL` fails and the node does not
start. A log that cannot be read is skipped. -/
def bootstrapState (key : Option Sealing) (n : Node Storage) (hs : HardState) (wal : Bytes)
    (files : List SnapshotFile) (outcomes : List Outcome) : Option (Node Storage) :=
  (newWAL wal).map fun wal =>
    let snap := bootSnapshot key files
    let read := (readAll wal).getD ([], 0)
    let disk : Disk := ⟨⟨wal.take (wal.length - read.2), []⟩, .live, [],
      files.map fun f => { f with durable := true }⟩
    { newNode n.id n.peers ⟨disk, [], [], outcomes⟩ with
      currentTerm := hs.currentTerm
      votedFor := hs.votedFor
      lastSnapshot := snap.lastIndex
      lastSnapshotTerm := snap.lastTerm
      snapshotBytes := snap.data
      lastApplied := snap.lastIndex
      commitIndex := snap.lastIndex
      log := read.1.filter fun e => snap.lastIndex < e.index }

end NothingDNS.Raft
