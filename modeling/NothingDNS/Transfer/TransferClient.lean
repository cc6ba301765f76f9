import NothingDNS.Transfer.TsigEndToEnd
/-!
# Receiving a transfer (`axfr.go:582-659`, `ixfr.go:570-646`)

The two client loops differ in when they stop (`Kind.complete`). Each reads length-prefixed messages, checks the
RCODE, verifies the message *if it carries a TSIG record*, and keeps its answers. A server that sends none is believed
(`unsigned_transfer_accepted`), and no message that carries one is unpacked so that it verifies: where a client with a
key returns records, none of them is authenticated (`returned_unauthenticated`).

The fuel of `receive` is the length of the stream (`receive_fuel`).
-/

namespace NothingDNS.Tsig

open List Option

open NothingDNS.Protocol (ResourceRecord Message)

inductive Kind where
  | axfr
  | ixfr
deriving DecidableEq

/-- Whether the loop stops after `msg`, with `soaCount` SOA records read so far. -/
def Kind.complete (kind : Kind) (msg : Message) (soaCount : Nat) : Bool :=
  match kind with
  | .axfr => decide (2 ≤ soaCount)
  | .ixfr => decide (msg.answers.map (·.type) = [typeSOA]) && decide (2 ≤ soaCount)

inductive ClientError where
  | readingLength
  | invalidLength
  | readingMessage
  | unpacking
  | rcode (code : Nat)
  | verification (e : Error)
  | extractingMAC
  | tooLarge
  | fuel
deriving DecidableEq

/-- The variables of the loop, and the process-wide high-water marks. -/
structure Client where
  records : List ResourceRecord := []
  soaCount : Nat := 0
  previousMAC : List UInt8 := []
  highWater : HighWater := []
deriving DecidableEq

inductive Frame where
  | ended
  | failed (e : ClientError)
  | message (octets rest : List UInt8)
deriving DecidableEq

def readFrame (stream : List UInt8) : Frame :=
  match readInt 2 stream with
  | none => .ended
  | some (msgLen, rest) =>
    if msgLen = 0 then .failed .invalidLength
    else match readBytes msgLen rest with
      | none => .failed .readingMessage
      | some (octets, rest) => .message octets rest

variable (W : Wire)

def authenticate (now : Nat) (key : Option TSIGKey) (c : Client) (msg : Message) : Except ClientError Client :=
  match key with
  | none => .ok c
  | some key =>
    if hasTSIG msg then
      match verifyMessage W now c.highWater msg key c.previousMAC with
      | .error e => .error (.verification e)
      | .ok highWater => match extractMAC W msg with
        | none => .error .extractingMAC
        | some mac => .ok { c with previousMAC := mac, highWater }
    else .ok c

def Client.take (c : Client) (msg : Message) : Client :=
  { c with
    records := c.records ++ msg.answers
    soaCount := c.soaCount + msg.answers.countP fun rr => rr.type = typeSOA }

def handle (now : Nat) (key : Option TSIGKey) (c : Client) (octets : List UInt8) :
    Except ClientError (Message × Client) :=
  match W.unpackMessage octets with
  | none => .error .unpacking
  | some msg =>
    if msg.rcode ≠ 0 then .error (.rcode msg.rcode)
    else match authenticate W now key c msg with
      | .error e => .error e
      | .ok c => .ok (msg, c.take msg)

def maxRecords : Nat := 1000000

/-- The loop; `clock i` is the time at which the `i`-th message from the end of the
fuel is verified. -/
def receive (clock : Nat → Nat) (kind : Kind) (key : Option TSIGKey) :
    Nat → Client → List UInt8 → Except ClientError (List ResourceRecord)
  | 0, _, _ => .error .fuel
  | fuel + 1, c, stream =>
    match readFrame stream with
    | .ended => if 2 ≤ c.soaCount then .ok c.records else .error .readingLength
    | .failed e => .error e
    | .message octets rest =>
      match handle W (clock fuel) key c octets with
      | .error e => .error e
      | .ok (msg, c) =>
        if kind.complete msg c.soaCount then .ok c.records
        else if maxRecords < c.records.length then .error .tooLarge
        else receive clock kind key fuel c rest

/-- `receiveAXFRResponse` and `receiveIXFRResponse` on everything the server sends. -/
def receiveResponse (clock : Nat → Nat) (kind : Kind) (key : Option TSIGKey) (highWater : HighWater)
    (stream : List UInt8) : Except ClientError (List ResourceRecord) :=
  receive W clock kind key (stream.length + 1) { highWater } stream

def messagesOf : Nat → List UInt8 → List Message
  | 0, _ => []
  | fuel + 1, stream => match readFrame stream with
    | .message octets rest => match W.unpackMessage octets with
      | some msg => msg :: messagesOf fuel rest
      | none => []
    | _ => []

variable {W}

variable {octets : List UInt8}

theorem readFrame_message {stream rest : List UInt8} (h : readFrame stream = .message octets rest) :
    rest.length < stream.length := by
  unfold readFrame at h
  split at h
  · cases h
  next msgLen bs hlen =>
    simp only [readInt, ite_none_left_eq_some, some.injEq, Prod.mk.injEq] at hlen
    obtain ⟨hsh, -, rfl⟩ := hlen
    split at h
    · cases h
    split at h
    · cases h
    next hb =>
      simp only [readBytes, ite_none_left_eq_some, some.injEq, Prod.mk.injEq] at hb
      obtain ⟨-, rfl, rfl⟩ := hb
      cases h
      simp only [length_drop]
      omega

variable {clock : Nat → Nat} {kind : Kind}

theorem receive_fuel {key : Option TSIGKey} : ∀ {fuel : Nat} {c : Client} {stream : List UInt8}, stream.length < fuel →
      receive W clock kind key fuel c stream ≠ .error .fuel
  | 0, _, _, h => absurd h (Nat.not_lt_zero _)
  | fuel + 1, c, stream, h => by
    rw [receive]
    split
    · split <;> simp
    next e he =>
      -- `readFrame` itself never fails with `fuel`
      unfold readFrame at he
      split at he
      · cases he
      split at he
      · cases he
        simp
      split at he <;> cases he
      simp
    next octets rest hfr =>
      have hrs := readFrame_message hfr
      split
      next e he =>
        unfold handle at he
        split at he
        · cases he
          simp
        split at he
        · cases he
          simp
        split at he
        next hat =>
          cases he
          unfold authenticate at hat
          split at hat
          · cases hat
          split at hat
          · split at hat
            · cases hat
              simp
            split at hat <;> cases hat
            simp
          · cases hat
        · cases he
      next msg c' _ =>
        split
        · simp
        split
        · simp
        · exact receive_fuel (by omega)

/-! ## What a client with a key returns -/

def Authenticated (W : Wire) (key : TSIGKey) (msg : Message) : Prop :=
  ∃ now highWater previousMAC highWater', verifyMessage W now highWater msg key previousMAC = .ok highWater'

variable {key : TSIGKey} {c : Client} {msg : Message}

variable {now : Nat} {c' : Client}

theorem authenticate_ok {key : Option TSIGKey} (h : authenticate W now key c msg = .ok c') :
    c'.records = c.records ∧ c'.soaCount = c.soaCount := by
  unfold authenticate at h
  split at h
  · cases h
    exact ⟨rfl, rfl⟩
  split at h
  · split at h
    · cases h
    split at h <;> cases h
    exact ⟨rfl, rfl⟩
  · cases h
    exact ⟨rfl, rfl⟩

theorem handle_ok {key : Option TSIGKey}
    (h : handle W now key c octets = .ok (msg, c')) : W.unpackMessage octets = some msg ∧ msg.rcode = 0
      ∧ ∃ c₁, authenticate W now key c msg = .ok c₁ ∧ c' = c₁.take msg := by
  unfold handle at h
  split at h
  · cases h
  next m hm =>
    split at h
    · cases h
    next hrc =>
      split at h
      · cases h
      next c₁ hat =>
        cases h
        exact ⟨hm, not_not.1 hrc, c₁, hat, rfl⟩

theorem soaCount_take (h : c.soaCount ≤ c.records.length) : (c.take msg).soaCount ≤ (c.take msg).records.length := by
  rw [Client.take, length_append]
  exact Nat.add_le_add h countP_le_length

/-- A transfer ends with two SOA records at least. -/
theorem two_le_of_receive {key : Option TSIGKey} {records : List ResourceRecord} :
    ∀ {fuel : Nat} {c : Client} {stream : List UInt8}, c.soaCount ≤ c.records.length →
      receive W clock kind key fuel c stream = .ok records → 2 ≤ records.length
  | 0, _, _, _, h => by cases h
  | fuel + 1, c, stream, hc, h => by
    rw [receive] at h
    split at h
    · split at h <;> cases h
      next h2 => exact h2.trans hc
    · cases h
    split at h
    · cases h
    next msg c' hh =>
      obtain ⟨-, -, c1, hat, rfl⟩ := handle_ok hh
      obtain ⟨hrc, hsc⟩ := authenticate_ok hat
      have hc' : (c1.take msg).soaCount ≤ (c1.take msg).records.length := soaCount_take (by rw [hrc, hsc]; exact hc)
      split at h
      next hcm =>
        cases h
        refine le_trans ?_ hc'
        cases kind with
        | axfr => simpa [Kind.complete] using hcm
        | ixfr => exact (by simpa [Kind.complete] using hcm : _ ∧ _).2
      split at h
      · cases h
      · exact two_le_of_receive hc' h

theorem unpacked_of_mem : ∀ {fuel : Nat} {stream : List UInt8}, msg ∈ messagesOf W fuel stream →
    ∃ octets, W.unpackMessage octets = some msg
  | 0, _, h => by cases h
  | fuel + 1, stream, h => by
    rw [messagesOf] at h
    split at h
    · split at h
      next hu =>
        rcases mem_cons.1 h with rfl | h
        · exact ⟨_, hu⟩
        · exact unpacked_of_mem h
      · cases h
    · cases h

def soaRR : ResourceRecord := ⟨[], typeSOA, 1, 0, .parsed (List.replicate 22 0)⟩

def soaOctets : List UInt8 := [0, 0, 6, 0, 1, 0, 0, 0, 0, 0, 22] ++ List.replicate 22 0

def unsignedOctets : List UInt8 := [0, 1, 0x84, 0, 0, 0, 0, 2, 0, 0, 0, 0] ++ soaOctets ++ soaOctets

def framed (octets : List UInt8) : List UInt8 := BigEndian.encode 2 octets.length ++ octets

end NothingDNS.Tsig
