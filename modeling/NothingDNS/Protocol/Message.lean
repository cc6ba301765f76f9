import NothingDNS.Protocol.NameRoundTrip
import NothingDNS.Lib.DottedName
/-!
# Messages on the wire (`internal/protocol`)

The flags of the header are their sixteen bits, of which each is one field. A record's data is known by its Go type
and the octets it packs to; how the types that `createRData` knows read their octets is a parameter.
-/

namespace NothingDNS.Protocol

def isValidLabelChar (c : Char) : Bool :=
  ('a' ≤ c ∧ c ≤ 'z') ∨ ('A' ≤ c ∧ c ≤ 'Z') ∨ ('0' ≤ c ∧ c ≤ '9') ∨ c = '-' ∨ c = '_' ∨ c = '*'

/-- `ValidateLabel`; the empty label passes. -/
def validateLabel (t : Text) : Bool :=
  decide (t.length ≤ maxLabelLength) && decide (t.head? ≠ some '-') && decide (t.getLast? ≠ some '-')
    && t.all isValidLabelChar

def labelBytes (t : Text) : List UInt8 := t.map fun c => UInt8.ofNat c.toNat

/-- From `labels.go:125-156`. -/
def parseName (t : Text) : Option WireName :=
  let t := t.trimDot
  if t = [] then some []
  else
    let labels := t.splitOn '.'
    if labels.length ≤ maxLabels ∧ (nameOctets (labels.map labelBytes)).length + 1 ≤ maxNameLength ∧
        labels.all validateLabel = true then
      some (labels.map labelBytes)
    else none

def printLabel (l : List UInt8) : Text := l.map fun b => Char.ofNat b.toNat

def printName (n : WireName) : Text :=
  if n = [] then ['.'] else n.flatMap fun l => printLabel l ++ ['.']

/-! ## Records and messages -/

/-- `protocol.RData`: the octets the data packs to, under its Go type. `RDataTSIG` is
defined by the package `transfer`. -/
inductive RData where
  | tsig (octets : List UInt8)
  | raw (octets : List UInt8)
  | parsed (octets : List UInt8)
deriving DecidableEq

def RData.octets : RData → List UInt8
  | .tsig o | .raw o | .parsed o => o

structure Question where
  name : WireName
  qtype : UInt16
  qclass : UInt16
deriving DecidableEq

structure ResourceRecord where
  name : WireName
  type : UInt16
  cls : UInt16
  ttl : UInt32
  data : RData
deriving DecidableEq

structure Message where
  id : UInt16
  flags : UInt16
  questions : List Question := []
  answers : List ResourceRecord := []
  authorities : List ResourceRecord := []
  additionals : List ResourceRecord := []
  /-- The body of a DSO message, which has no sections. -/
  rawBody : List UInt8 := []
deriving DecidableEq

def Message.rcode (m : Message) : Nat := m.flags.toNat % 16

def Message.isDSO (m : Message) : Bool := m.flags.toNat / 2 ^ 11 % 16 = 6

def enc16 (x : UInt16) : List UInt8 := BigEndian.encode 2 x.toNat
def enc32 (x : UInt32) : List UInt8 := BigEndian.encode 4 x.toNat

def packQuestion (s : Packer) (q : Question) : Option Packer :=
  (packName q.name s).map fun s => s.write (enc16 q.qtype ++ enc16 q.qclass)

def recordTail (r : ResourceRecord) : List UInt8 :=
  enc16 r.type ++ enc16 r.cls ++ enc32 r.ttl ++ BigEndian.encode 2 r.data.octets.length ++ r.data.octets

def packRecord (s : Packer) (r : ResourceRecord) : Option Packer :=
  if r.data.octets.length ≤ 0xffff then (packName r.name s).map fun s => s.write (recordTail r) else none

def packSections (m : Message) (s : Packer) : Option Packer := do
  let s ← m.questions.foldlM packQuestion s
  let s ← m.answers.foldlM packRecord s
  let s ← m.authorities.foldlM packRecord s
  m.additionals.foldlM packRecord s

def headerOctets (m : Message) : List UInt8 :=
  enc16 m.id ++ enc16 m.flags ++ BigEndian.encode 2 m.questions.length ++ BigEndian.encode 2 m.answers.length
    ++ BigEndian.encode 2 m.authorities.length ++ BigEndian.encode 2 m.additionals.length

def nameLength (n : WireName) : Nat := (nameOctets n).length + 1

/-- `WireLength`, which counts every name in full. -/
def wireLength (m : Message) : Nat :=
  12 + (m.questions.map fun q => nameLength q.name + 4).sum
    + ((m.answers ++ m.authorities ++ m.additionals).map fun r => nameLength r.name + 10 + r.data.octets.length).sum

def countsFit (m : Message) : Bool :=
  decide (m.questions.length ≤ 0xffff) && decide (m.answers.length ≤ 0xffff)
    && decide (m.authorities.length ≤ 0xffff) && decide (m.additionals.length ≤ 0xffff)

/-- `Pack` into a buffer of 65535 octets. -/
def packMessage (m : Message) : Option (List UInt8) :=
  if m.isDSO then
    if 12 + m.rawBody.length ≤ 65535 then
      some (enc16 m.id ++ enc16 m.flags ++ List.replicate 8 0 ++ m.rawBody)
    else none
  else if countsFit m ∧ wireLength m ≤ 65535 then (packSections m ⟨headerOctets m, []⟩).map Packer.buf
  else none

def readAt (buf : List UInt8) (off k : Nat) : Option Nat :=
  if off + k ≤ buf.length then some (BigEndian.decode ((buf.drop off).take k)) else none

def nameAt (buf : List UInt8) (off : Nat) : Option (WireName × Nat) :=
  match unpackName buf off with
  | .ok (n, len) => some (n, off + len)
  | .error _ => none

/-- The record and the offset behind it; likewise below. -/
def unpackQuestion (buf : List UInt8) (off : Nat) : Option (Question × Nat) := do
  let (name, off) ← nameAt buf off
  let qtype ← readAt buf off 2
  let qclass ← readAt buf (off + 2) 2
  pure (⟨name, .ofNat qtype, .ofNat qclass⟩, off + 4)

/-- How the data of a type is read: the type, the message, the offset and RDLENGTH. -/
abbrev RDataReader := UInt16 → List UInt8 → Nat → Nat → Option RData

def unpackRecord (D : RDataReader) (buf : List UInt8) (off : Nat) : Option (ResourceRecord × Nat) := do
  let (name, off) ← nameAt buf off
  let type ← readAt buf off 2
  let cls ← readAt buf (off + 2) 2
  let ttl ← readAt buf (off + 4) 4
  let rdlength ← readAt buf (off + 8) 2
  guard (off + 10 + rdlength ≤ buf.length)
  let data ← D (.ofNat type) buf (off + 10) rdlength
  pure (⟨name, .ofNat type, .ofNat cls, .ofNat ttl, data⟩, off + 10 + rdlength)

def unpackMany {α : Type} (f : Nat → Option (α × Nat)) : Nat → Nat → Option (List α × Nat)
  | 0, off => some ([], off)
  | k + 1, off => do
    let (x, off) ← f off
    let (xs, off) ← unpackMany f k off
    pure (x :: xs, off)

def unpackSection {α : Type} (f : Nat → Option (α × Nat)) (bound count off : Nat) : Option (List α × Nat) :=
  if count ≤ bound then unpackMany f count off else none

def maxQuestions : Nat := 256
def maxRecords : Nat := 512

/-- From `message.go:437-547`. -/
def unpackMessage (D : RDataReader) (buf : List UInt8) : Option Message := do
  guard (12 ≤ buf.length)
  let id ← readAt buf 0 2
  let flags ← readAt buf 2 2
  let header : Message := { id := .ofNat id, flags := .ofNat flags }
  if header.isDSO then pure { header with rawBody := buf.drop 12 }
  else
    let qd ← readAt buf 4 2
    let an ← readAt buf 6 2
    let ns ← readAt buf 8 2
    let ar ← readAt buf 10 2
    let (questions, off) ← unpackSection (unpackQuestion buf) maxQuestions qd 12
    let (answers, off) ← unpackSection (unpackRecord D buf) maxRecords an off
    let (authorities, off) ← unpackSection (unpackRecord D buf) maxRecords ns off
    let (additionals, _) ← unpackSection (unpackRecord D buf) maxRecords ar off
    pure { header with questions, answers, authorities, additionals }

/-- The types of `createRData`. -/
def knownTypes : List UInt16 :=
  [1, 28, 5, 39, 2, 12, 15, 16, 13, 17, 18, 24, 25, 99, 29, 6, 33, 36, 37, 257, 256, 35, 42, 44, 55, 45, 52, 49, 43,
    59, 48, 60, 32768, 61, 46, 47, 50, 51, 41, 64, 65, 63]

/-- The code's reader: known types through their own `Unpack`, all others as they are. -/
def codeRData (parse : UInt16 → List UInt8 → Nat → Nat → Option (List UInt8)) : RDataReader :=
  fun type buf off len =>
    if type ∈ knownTypes then (parse type buf off len).map .parsed else some (.raw ((buf.drop off).take len))

end NothingDNS.Protocol
