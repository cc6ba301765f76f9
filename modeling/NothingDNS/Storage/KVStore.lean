import Mathlib.Data.List.Sigma
import NothingDNS.Lib.Run
/-!
# The embedded key-value store (`kvstore.go`)

A transaction works on the live tree. Rolling back decodes the data file into
that tree again, and `encoding/json` merges: a map that is there keeps the keys
the input does not mention; of the tree that are the two maps of the root.

The data file is the syntax tree of its JSON text, members in the order the
encoder writes them. A bucket handle is its path; a call on a handle whose bucket
has been deleted is left out.
-/

namespace NothingDNS.Storage

abbrev Key := List UInt8

inductive BucketData where
  | mk (entries : List (Sigma fun _ : Key => List UInt8)) (buckets : List (Sigma fun _ : Key => BucketData))

abbrev Entries := List (Sigma fun _ : Key => List UInt8)
abbrev Buckets := List (Sigma fun _ : Key => BucketData)

namespace BucketData

def entries : BucketData → Entries
  | .mk es _ => es

def buckets : BucketData → Buckets
  | .mk _ bs => bs

@[simp] theorem entries_mk (es : Entries) (bs : Buckets) : (mk es bs).entries = es := rfl

@[simp] theorem buckets_mk (es : Entries) (bs : Buckets) : (mk es bs).buckets = bs := rfl

theorem induct {P : BucketData → Prop} (h : ∀ es bs, (∀ s ∈ bs, P s.2) → P (.mk es bs)) : ∀ b, P b
  | .mk es bs => h es bs (members bs)
where
  members : ∀ (bs : Buckets), ∀ s ∈ bs, P s.2
    | [], _, hs => absurd hs List.not_mem_nil
    | ⟨k, c⟩ :: bs, s, hs => by
      rcases List.mem_cons.1 hs with rfl | hs
      · exact induct h c
      · exact members bs s hs

mutual
/-- Buckets on the longest path, the root included. -/
def height : BucketData → Nat
  | .mk _ bs => heights bs + 1
def heights : Buckets → Nat
  | [] => 0
  | ⟨_, b⟩ :: bs => max b.height (heights bs)
end

/-- The bucket a chain of `Bucket` calls reaches. -/
def find : List Key → BucketData → Option BucketData
  | [], b => some b
  | k :: ks, b => (b.buckets.dlookup k).bind (find ks)

/-- What a transaction sees: which buckets there are, and what `Get` returns in them. -/
def visible (b : BucketData) (path : List Key) : Option (Key → Option (List UInt8)) :=
  (b.find path).map fun c k => c.entries.dlookup k

end BucketData

def newBucketData : BucketData := .mk [] []

/-! ## `encoding/json` -/

/-- Whether the second octet may follow the first one of a sequence of several octets, and how many
octets that sequence has (`utf8.DecodeRuneInString`). -/
def runeStart (b c : UInt8) : Option Nat :=
  if 0xC2 ≤ b ∧ b ≤ 0xDF ∧ 0x80 ≤ c ∧ c ≤ 0xBF then some 2
  else if b = 0xE0 ∧ 0xA0 ≤ c ∧ c ≤ 0xBF then some 3
  else if b = 0xED ∧ 0x80 ≤ c ∧ c ≤ 0x9F then some 3
  else if 0xE1 ≤ b ∧ b ≤ 0xEF ∧ b ≠ 0xED ∧ 0x80 ≤ c ∧ c ≤ 0xBF then some 3
  else if b = 0xF0 ∧ 0x90 ≤ c ∧ c ≤ 0xBF then some 4
  else if 0xF1 ≤ b ∧ b ≤ 0xF3 ∧ 0x80 ≤ c ∧ c ≤ 0xBF then some 4
  else if b = 0xF4 ∧ 0x80 ≤ c ∧ c ≤ 0x8F then some 4
  else none

/-- The size of the rune a string starts with, `none` where it is not UTF-8. -/
def runeLen : Key → Option Nat
  | [] => none
  | [b] => if b < 0x80 then some 1 else none
  | b :: c :: rest =>
    if b < 0x80 then some 1
    else match runeStart b c with
      | none => none
      | some n =>
        let more := rest.take (n - 2)
        if more.length = n - 2 ∧ (more.all fun d => decide (0x80 ≤ d ∧ d ≤ 0xBF)) = true then some n
        else none

/-- How the encoder writes a string: an octet that is not part of a rune becomes U+FFFD. -/
def coerceLoop : Nat → Key → Key
  | 0, _ => []
  | _, [] => []
  | fuel + 1, b :: bs => match runeLen (b :: bs) with
    | none => [0xEF, 0xBF, 0xBD] ++ coerceLoop fuel bs
    | some n => (b :: bs).take n ++ coerceLoop fuel ((b :: bs).drop n)

def coerceUTF8 (k : Key) : Key := coerceLoop k.length k

def validLoop : Nat → Key → Bool
  | _, [] => true
  | 0, _ => false
  | fuel + 1, b :: bs => match runeLen (b :: bs) with
    | none => false
    | some n => validLoop fuel ((b :: bs).drop n)

/-- `utf8.ValidString`. -/
def validUTF8 (k : Key) : Bool := validLoop k.length k

def sortMembers {β : Type} (l : List (Sigma fun _ : Key => β)) : List (Sigma fun _ : Key => β) :=
  l.mergeSort fun a b => decide (a.1 ≤ b.1)

def members {β : Type} (l : List (Sigma fun _ : Key => β)) : List (Sigma fun _ : Key => β) :=
  (sortMembers l).map fun s => ⟨coerceUTF8 s.1, s.2⟩

mutual
def marshal : BucketData → BucketData
  | .mk es bs => .mk (members es) (members (marshalAll bs))
def marshalAll : Buckets → Buckets
  | [] => []
  | ⟨k, b⟩ :: bs => ⟨k, marshal b⟩ :: marshalAll bs
end

/-- An object decoded into a map: every member is assigned, the others stay. -/
def assign {β : Type} (m l : List (Sigma fun _ : Key => β)) : List (Sigma fun _ : Key => β) :=
  l.foldl (fun m s => m.kinsert s.1 s.2) m

mutual
def unmarshal : BucketData → BucketData
  | .mk es bs => .mk (assign [] es) (assign [] (unmarshalAll bs))
def unmarshalAll : Buckets → Buckets
  | [] => []
  | ⟨k, b⟩ :: bs => ⟨k, unmarshal b⟩ :: unmarshalAll bs
end

def readInto (root file : BucketData) : BucketData :=
  .mk (assign root.entries file.entries) (assign root.buckets (unmarshalAll file.buckets))

/-- The decoder's limit on nested objects; a bucket takes two levels. -/
def maxNestingDepth : Nat := 10000

def kvMaxKeySize : Nat := 255
def kvMaxValueSize : Nat := 4 * 1024 * 1024

inductive KVError where
  | bucketExists
  | bucketNotFound
  | keyRequired
  | keyTooLarge
  | valueTooLarge
  | keyNotFound
  /-- `Bucket` returned nil, there is no handle to call. -/
  | noHandle
deriving DecidableEq

/-- The calls of a writable transaction. The empty path is the transaction itself, which has buckets
but no entries. -/
inductive Op where
  | createBucket (path : List Key) (name : Key)
  | createBucketIfNotExists (path : List Key) (name : Key)
  | deleteBucket (path : List Key) (name : Key)
  | put (bucket : Key) (path : List Key) (key : Key) (value : List UInt8)
  | delete (bucket : Key) (path : List Key) (key : Key)
deriving DecidableEq

def createBucket (name : Key) (b : BucketData) : BucketData × Option KVError :=
  if (b.buckets.dlookup name).isSome then (b, some .bucketExists)
  else (.mk b.entries (b.buckets.kinsert name newBucketData), none)

def createBucketIfNotExists (name : Key) (b : BucketData) : BucketData × Option KVError :=
  if (b.buckets.dlookup name).isSome then (b, none) else createBucket name b

def deleteBucket (name : Key) (b : BucketData) : BucketData × Option KVError :=
  if (b.buckets.dlookup name).isSome then (.mk b.entries (b.buckets.kerase name), none)
  else (b, some .bucketNotFound)

/-- From `kvstore.go:942-967`. -/
def put (key : Key) (value : List UInt8) (b : BucketData) : BucketData × Option KVError :=
  if key.length = 0 then (b, some .keyRequired)
  else if kvMaxKeySize < key.length then (b, some .keyTooLarge)
  else if kvMaxValueSize < value.length then (b, some .valueTooLarge)
  else (.mk (b.entries.kinsert key value) b.buckets, none)

def delete (key : Key) (b : BucketData) : BucketData × Option KVError :=
  if (b.entries.dlookup key).isSome then (.mk (b.entries.kerase key) b.buckets, none)
  else (b, some .keyNotFound)

/-- A method called on the handle at the end of a path. -/
def atPath (f : BucketData → BucketData × Option KVError) : List Key → BucketData → BucketData × Option KVError
  | [], b => f b
  | k :: ks, b => match b.buckets.dlookup k with
    | none => (b, some .noHandle)
    | some c =>
      let (c', err) := atPath f ks c
      (.mk b.entries (b.buckets.kinsert k c'), err)

def Op.apply : Op → BucketData → BucketData × Option KVError
  | .createBucket path name => atPath (Storage.createBucket name) path
  | .createBucketIfNotExists path name => atPath (Storage.createBucketIfNotExists name) path
  | .deleteBucket path name => atPath (Storage.deleteBucket name) path
  | .put bucket path key value => atPath (Storage.put key value) (bucket :: path)
  | .delete bucket path key => atPath (Storage.delete key) (bucket :: path)

/-- The tree a transaction has made of the one it found; a failing call changes nothing and the
transaction may go on. -/
def runOps (ops : List Op) (root : BucketData) : BucketData :=
  ops.foldl (fun b op => (op.apply b).1) root

structure Store where
  root : BucketData
  /-- The data file, `none` before the first save. -/
  file : Option BucketData

inductive LoadError where
  | notExist
  /-- The file cannot be opened or read. -/
  | unreadable
  /-- `exceeded max depth`: the decoder checks the whole input before it assigns anything. -/
  | json
deriving DecidableEq

/-- `load`: the root afterwards and the error. -/
def load (file : Option BucketData) (readable : Bool) (root : BucketData) : BucketData × Option LoadError :=
  match file with
  | none => (root, some .notExist)
  | some f =>
    if readable = false then (root, some .unreadable)
    else if maxNestingDepth < 2 * f.height then (root, some .json)
    else (readInto root f, none)

namespace Store

/-- From `kvstore.go:804-836`. -/
def rollback (s : Store) (readable : Bool) : Store × Option LoadError :=
  match load s.file readable s.root with
  | (_, some .notExist) => ({ s with root := newBucketData }, none)
  | (root, err) => ({ s with root }, err)

inductive Save where
  /-- An error before or at the rename. -/
  | failed
  /-- The rename is done, syncing the directory fails. -/
  | unsynced
  | saved
deriving DecidableEq

/-- From `kvstore.go:757-800`. -/
def commit (s : Store) (save : Save) (readable : Bool) : Store × Bool :=
  match save with
  | .failed => ({ s with root := (load s.file readable s.root).1 }, false)
  | .unsynced =>
    ({ root := (load (some (marshal s.root)) readable s.root).1, file := some (marshal s.root) }, false)
  | .saved => ({ s with file := some (marshal s.root) }, true)

/-- `OpenKVStore` on an empty directory. -/
def init : Store := { root := newBucketData, file := none }

inductive Step where
  | update (ops : List Op)
  /-- The process ends and the store is opened again. -/
  | reopen
deriving DecidableEq

def step (s : Store) : Step → Option Store
  | .update ops =>
    let (s', ok) := ({ s with root := runOps ops s.root } : Store).commit .saved true
    if ok then some s' else none
  | .reopen => match load s.file true newBucketData with
    | (root, none) => some { s with root }
    | (root, some .notExist) => some { s with root }
    | (_, some _) => none

end Store

end NothingDNS.Storage
