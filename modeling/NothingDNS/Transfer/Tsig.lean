import NothingDNS.Protocol.Message
/-!
# Transaction signatures (`internal/transfer/tsig.go`)

What the package takes from `internal/protocol` and from `crypto/hmac` is a parameter, `Wire`: the message codec, the
name codec and the keyed hashes. `time.Now` is given in nanoseconds since 1970; the wire carries whole seconds.
-/

namespace NothingDNS.Tsig

open NothingDNS.Protocol (RData Question ResourceRecord Message WireName RDataReader)

def typeSOA : UInt16 := 6
def typeTSIG : UInt16 := 250
def classANY : UInt16 := 255

structure TSIGKey where
  name : Text
  algorithm : Text
  secret : List UInt8
deriving DecidableEq

structure TSIGRecord where
  algorithm : Text
  timeSigned : Nat
  fudge : UInt16
  mac : List UInt8
  originalID : UInt16
  error : UInt16
  otherData : List UInt8
deriving DecidableEq

inductive Hash where
  | sha1
  | sha256
  | sha384
  | sha512
deriving DecidableEq

structure Wire where
  /-- `Message.Pack` into a buffer of 65535 octets. -/
  packMessage : Message → Option (List UInt8)
  unpackMessage : List UInt8 → Option Message
  parseName : Text → Option WireName
  /-- `PackName` without a compression map. -/
  packName : WireName → Option (List UInt8)
  /-- `UnpackName` at offset 0: the printed name and the octets consumed. -/
  unpackName : List UInt8 → Option (Text × Nat)
  hmac : Hash → List UInt8 → List UInt8 → List UInt8
  /-- The entry the iteration over the full high-water map meets first. -/
  victim : List (Text × Nat) → Nat

/-- The codecs of `internal/protocol`, over a reader of RDATA. -/
def protocolWire (D : RDataReader) (hmac : Hash → List UInt8 → List UInt8 → List UInt8)
    (victim : List (Text × Nat) → Nat) : Wire where
  packMessage := Protocol.packMessage
  unpackMessage := Protocol.unpackMessage D
  parseName := Protocol.parseName
  packName := Protocol.packNameLower
  unpackName octets := match Protocol.unpackName octets 0 with
    | .ok (n, len) => some (Protocol.printName n, len)
    | .error _ => none
  hmac := hmac
  victim := victim

inductive Error where
  | noTSIG
  | dataType
  | record
  | algorithm
  | time
  | signedData
  | mac
  | replay
deriving DecidableEq

def readInt (k : Nat) (bs : List UInt8) : Option (Nat × List UInt8) :=
  if bs.length < k then none else some (BigEndian.decode (bs.take k), bs.drop k)

def readBytes (k : Nat) (bs : List UInt8) : Option (List UInt8 × List UInt8) :=
  if bs.length < k then none else some (bs.take k, bs.drop k)

variable (W : Wire)

/-- From `tsig.go:338-416`. -/
def unpackTSIGRecord (data : List UInt8) : Option TSIGRecord := do
  guard (10 ≤ data.length)
  let (algorithm, consumed) ← W.unpackName data
  let (timeSigned, bs) ← readInt 6 (data.drop consumed)
  let (fudge, bs) ← readInt 2 bs
  let (macLen, bs) ← readInt 2 bs
  let (mac, bs) ← readBytes macLen bs
  let (originalID, bs) ← readInt 2 bs
  let (error, bs) ← readInt 2 bs
  let (otherLen, bs) ← readInt 2 bs
  let (otherData, _) ← readBytes otherLen bs
  pure
    { algorithm := algorithm.trimDot, timeSigned, fudge := .ofNat fudge, mac,
      originalID := .ofNat originalID, error := .ofNat error, otherData }

/-- The canonical wire form of a name given as text. -/
def nameOctets (name : Text) : Option (List UInt8) := W.parseName name >>= W.packName

/-- `encodeTSIGTimeSigned` and the six octets it is written as. -/
def timeOctets (timeSigned : Nat) : Option (List UInt8) :=
  if timeSigned < 2 ^ 48 then some (BigEndian.encode 6 timeSigned) else none

/-- From `tsig.go:261-324`. -/
def packTSIGRecord (tsig : TSIGRecord) : Option (List UInt8) := do
  guard (tsig.mac.length < 2 ^ 16 ∧ tsig.otherData.length < 2 ^ 16)
  let algo ← nameOctets W tsig.algorithm
  let time ← timeOctets tsig.timeSigned
  pure (algo ++ time ++ BigEndian.encode 2 tsig.fudge.toNat
    ++ BigEndian.encode 2 tsig.mac.length ++ tsig.mac
    ++ BigEndian.encode 2 tsig.originalID.toNat ++ BigEndian.encode 2 tsig.error.toNat
    ++ BigEndian.encode 2 tsig.otherData.length ++ tsig.otherData)

def hashOf (algorithm : Text) : Option Hash :=
  if algorithm.lower = "hmac-sha1".toList then some .sha1
  else if algorithm.lower = "hmac-sha256".toList then some .sha256
  else if algorithm.lower = "hmac-sha384".toList then some .sha384
  else if algorithm.lower = "hmac-sha512".toList then some .sha512
  -- `hmac-md5.sig-alg.reg.int` is refused like an unknown algorithm
  else none

def calculateMAC (secret data : List UInt8) (algorithm : Text) : Option (List UInt8) :=
  (hashOf algorithm).map fun h => W.hmac h secret data

def cloneMessageWithoutTSIG (msg : Message) : Message :=
  { msg with additionals := msg.additionals.filter fun rr => rr.type ≠ typeTSIG }

def previousOctets (previousMAC : List UInt8) : List UInt8 :=
  if previousMAC = [] then [] else BigEndian.encode 2 previousMAC.length ++ previousMAC

-- The error code and the other data are written as zero whatever the record holds,
-- and the original ID the caller passes is not used.
/-- From `tsig.go:663-743`. -/
def buildSignedData (msg : Message) (keyName : Text) (previousMAC : List UInt8) (algorithm : Text)
    (timeSigned : Nat) (fudge : UInt16) : Option (List UInt8) := do
  let message ← W.packMessage (cloneMessageWithoutTSIG msg)
  let key ← nameOctets W keyName
  let algo ← nameOctets W algorithm
  let time ← timeOctets timeSigned
  pure (previousOctets previousMAC ++ message ++ key ++ BigEndian.encode 2 classANY.toNat
    ++ BigEndian.encode 4 0 ++ algo ++ time ++ BigEndian.encode 2 fudge.toNat
    ++ BigEndian.encode 2 0 ++ BigEndian.encode 2 0)

def second : Nat := 1000000000

/-- The record the sender appends to the message's additional section. -/
def signMessage (now : Nat) (msg : Message) (key : TSIGKey) (fudge : UInt16) : Option ResourceRecord := do
  let timeSigned := now / second
  let signedData ← buildSignedData W msg key.name [] key.algorithm timeSigned fudge
  let mac ← calculateMAC W key.secret signedData key.algorithm
  let rdata ← packTSIGRecord W
    { algorithm := key.algorithm, timeSigned, fudge, mac, originalID := msg.id, error := 0, otherData := [] }
  let name ← W.parseName key.name
  pure { name, type := typeTSIG, cls := classANY, ttl := 0, data := .tsig rdata }

/-- The largest accepted `time_signed` of each key name. -/
abbrev HighWater := List (Text × Nat)

def HighWater.get (w : HighWater) (keyName : Text) : Option Nat := List.lookup keyName w

def HighWater.set (w : HighWater) (keyName : Text) (t : Nat) : HighWater :=
  (keyName, t) :: w.filter fun e => e.1 ≠ keyName

def tsigReplayKeyCap : Nat := 10000

/-- From `tsig.go:520-543`. -/
def checkReplay (w : HighWater) (keyName : Text) (timeSigned fudge : Nat) : Except Error HighWater :=
  match w.get keyName with
  | some prev =>
    if timeSigned + fudge < prev then .error .replay
    else if prev < timeSigned then .ok (w.set keyName timeSigned)
    else .ok w
  | none =>
    let w : HighWater := if tsigReplayKeyCap ≤ w.length then w.eraseIdx (W.victim w) else w
    .ok (w.set keyName timeSigned)

def findTSIGRecord (msg : Message) : Option ResourceRecord :=
  msg.additionals.find? fun rr => rr.type = typeTSIG

def hasTSIG (msg : Message) : Bool := msg.additionals.any fun rr => rr.type = typeTSIG

/-- The fields of the record, if its data has the Go type `RDataTSIG`. -/
def tsigOf (rr : ResourceRecord) : Except Error TSIGRecord :=
  match rr.data with
  | .tsig octets => match unpackTSIGRecord W octets with
    | some ts => .ok ts
    | none => .error .record
  | _ => .error .dataType

/-- The MAC the key gives the message under the time and fudge of `ts`. -/
def expectedMAC (msg : Message) (key : TSIGKey) (previousMAC : List UInt8) (ts : TSIGRecord) : Option (List UInt8) := do
  let signedData ← buildSignedData W msg key.name previousMAC key.algorithm ts.timeSigned ts.fudge
  calculateMAC W key.secret signedData key.algorithm

def inWindow (now : Nat) (ts : TSIGRecord) : Bool :=
  ts.timeSigned * second ≤ now + ts.fudge.toNat * second
    && now ≤ ts.timeSigned * second + ts.fudge.toNat * second

def verifyMessage (now : Nat) (w : HighWater) (msg : Message) (key : TSIGKey) (previousMAC : List UInt8) :
    Except Error HighWater := do
  let rr ← match findTSIGRecord msg with
    | some rr => pure rr
    | none => throw .noTSIG
  let ts ← tsigOf W rr
  if ts.algorithm.lower ≠ key.algorithm.lower then throw .algorithm
  if !inWindow now ts then throw .time
  let mac ← match expectedMAC W msg key previousMAC ts with
    | some mac => pure mac
    | none => throw .signedData
  if ts.mac ≠ mac then throw .mac
  checkReplay W w key.name ts.timeSigned ts.fudge.toNat

/-- The MAC the next message of the transfer is chained to: that of the first record
of the type TSIG whose data is `RDataTSIG`, and nothing if there is none. -/
def extractMAC (msg : Message) : Option (List UInt8) :=
  match msg.additionals.findSome? (fun rr => match rr.type, rr.data with
    | 250, .tsig octets => some octets
    | _, _ => none) with
  | some octets => (unpackTSIGRecord W octets).map TSIGRecord.mac
  | none => some []

variable {W}

theorem verifyMessage_ok {now : Nat} {w w' : HighWater} {msg : Message} {key : TSIGKey}
    {previousMAC : List UInt8} (h : verifyMessage W now w msg key previousMAC = .ok w') :
    ∃ rr ts, findTSIGRecord msg = some rr ∧ tsigOf W rr = .ok ts
      ∧ ts.algorithm.lower = key.algorithm.lower ∧ inWindow now ts = true
      ∧ expectedMAC W msg key previousMAC ts = some ts.mac
      ∧ checkReplay W w key.name ts.timeSigned ts.fudge.toNat = .ok w' := by
  unfold verifyMessage at h
  cases hrr : findTSIGRecord msg with
  | none => simp [hrr, bind, Except.bind, throw, throwThe, MonadExceptOf.throw] at h
  | some rr =>
    cases hts : tsigOf W rr with
    | error e => simp [hrr, hts, bind, Except.bind, pure, Except.pure] at h
    | ok ts =>
      simp only [hrr, hts, bind, Except.bind, pure, Except.pure, throw, throwThe, MonadExceptOf.throw] at h
      by_cases hal : ts.algorithm.lower = key.algorithm.lower
      · cases hw : inWindow now ts with
        | false => simp [hal, hw] at h
        | true =>
          cases hmac : expectedMAC W msg key previousMAC ts with
          | none => simp [hal, hw, hmac] at h
          | some mac =>
            by_cases heq : ts.mac = mac
            · simp only [hal, hw, hmac, heq, ne_eq, not_true, ite_false, Bool.not_true, Bool.false_eq_true] at h
              exact ⟨rr, ts, rfl, hts, hal, hw, by rw [hmac, heq], h⟩
            · simp [hal, hw, hmac, heq] at h
      · simp [hal] at h

end NothingDNS.Tsig
