import NothingDNS.Raft.Types
import NothingDNS.Lib.BigEndian
/-!
# Frames of the Raft transport (`internal/cluster/raft/encoding.go:26-172`)

A message is its type and the payload `encodeNative` makes of it. The writer compares the payload with the limit
before it is sealed, the reader the frame: a payload closer to the limit than nonce and tag are long is written and
never read (`sealed_frame_unreadable`).
-/

namespace NothingDNS.Raft

open List BigEndian Option

def frameHeaderSize : Nat := 5
def maxRPCMessageBytes : Nat := 16 * 1024 * 1024

/-- `cipher.AEAD`; the message type is the additional data. -/
structure AEAD where
  nonceSize : Nat
  overhead : Nat
  aeadSeal : Bytes → UInt8 → Bytes → Bytes
  aeadOpen : Bytes → UInt8 → Bytes → Option Bytes
  length_seal : ∀ nonce t p, (aeadSeal nonce t p).length = p.length + overhead
  open_seal : ∀ nonce t p, aeadOpen nonce t (aeadSeal nonce t p) = some p

structure Outgoing (aead : Option AEAD) where
  msgType : UInt8
  payload : Bytes
  nonce : Bytes
  length_nonce : ∀ k ∈ aead, nonce.length = k.nonceSize

variable {aead : Option AEAD}

def Outgoing.body (m : Outgoing aead) : Bytes :=
  match aead with
  | none => m.payload
  | some k => m.nonce ++ k.aeadSeal m.nonce m.msgType m.payload

/-- The octets written; `none` is an error, before anything is written. -/
def writeFramed (m : Outgoing aead) : Option Bytes :=
  if maxRPCMessageBytes < m.payload.length then none
  else some (m.msgType :: (encode 4 m.body.length ++ m.body))

/-- The message type, the payload and the rest of the stream; `none` is an error. -/
def readFrameBytes (aead : Option AEAD) (bs : Bytes) : Option ((UInt8 × Bytes) × Bytes) :=
  if bs.length < frameHeaderSize then none
  else
    let msgType := bs.headD 0
    let length := decode ((bs.drop 1).take 4)
    let rest := bs.drop 5
    if maxRPCMessageBytes < length then none
    else match aead with
      | none => if rest.length < length then none else some ((msgType, rest.take length), rest.drop length)
      | some k =>
        if length < k.nonceSize + k.overhead then none
        else if rest.length < length then none
        else (k.aeadOpen ((rest.take length).take k.nonceSize) msgType ((rest.take length).drop k.nonceSize)).map
          fun payload => ((msgType, payload), rest.drop length)

def readFrames (aead : Option AEAD) : Nat → Bytes → Option (List (UInt8 × Bytes) × Bytes)
  | 0, bs => some ([], bs)
  | n + 1, bs => (readFrameBytes aead bs).bind fun r => (readFrames aead n r.2).map fun r' => (r.1 :: r'.1, r'.2)

theorem length_body (m : Outgoing aead) :
    m.body.length = (aead.elim 0 fun k => k.nonceSize + k.overhead) + m.payload.length := by
  unfold Outgoing.body
  split
  · simp
  next k m =>
    rw [length_append, k.length_seal, m.length_nonce k rfl, Option.elim]
    omega

theorem readFrameBytes_written {m : Outgoing aead} {octets : Bytes} (h : writeFramed m = some octets)
    (hlt : m.body.length < 2 ^ 32) (rest : Bytes) : readFrameBytes aead (octets ++ rest) =
      if maxRPCMessageBytes < m.body.length then none else some ((m.msgType, m.payload), rest) := by
  unfold writeFramed at h
  split at h
  · cases h
  cases h
  have hlen : decode (((m.msgType :: (encode 4 m.body.length ++ m.body) ++ rest).drop 1).take 4) = m.body.length := by
    rw [cons_append, drop_succ_cons, drop_zero, append_assoc, take_left' (length_encode _ _)]
    exact decode_encode_of_lt hlt
  have hd : (m.msgType :: (encode 4 m.body.length ++ m.body) ++ rest).drop 5 = m.body ++ rest := by
    rw [cons_append, drop_succ_cons, append_assoc, drop_left' (length_encode _ _)]
  have hsh : ¬ (m.msgType :: (encode 4 m.body.length ++ m.body) ++ rest).length < frameHeaderSize := by
    simp only [length_append, length_cons, length_encode, frameHeaderSize]
    omega
  have hb : ¬ (m.body ++ rest).length < m.body.length := by simp
  unfold readFrameBytes
  rw [if_neg hsh]
  simp only [hlen, hd, if_neg hb, take_left, drop_left]
  by_cases hmx : maxRPCMessageBytes < m.body.length
  · rw [if_pos hmx, if_pos hmx]
  rw [if_neg hmx, if_neg hmx]
  cases aead with
  | none => rfl
  | some k =>
    have hmn : ¬ m.body.length < k.nonceSize + k.overhead := by
      rw [length_body, Option.elim]
      omega
    have hnn := m.length_nonce k rfl
    simp only [if_neg hmn]
    rw [Outgoing.body, take_left' hnn, drop_left' hnn]
    exact congrArg (Option.map _) (k.open_seal _ _ _)

/-- **Every frame is read back**, in order and to its end, if nonce and tag fit below the limit too. -/
theorem readFrames_written : ∀ {ms : List (Outgoing aead)} {frames : List Bytes} {rest : Bytes},
    ms.mapM writeFramed = some frames → (∀ m ∈ ms, m.body.length ≤ maxRPCMessageBytes) →
    readFrames aead ms.length (frames.flatten ++ rest) = some (ms.map fun m => (m.msgType, m.payload), rest)
  | [], frames, rest, h, _ => by
    cases h
    rfl
  | m :: ms, frames, rest, h, hfit => by
    simp only [mapM_cons, bind_eq_bind, bind_eq_some_iff, Option.pure_def, some.injEq] at h
    obtain ⟨octets, hm, frames', hms, rfl⟩ := h
    have ih := @readFrames_written ms frames' rest hms fun m' hm' => hfit m' (mem_cons_of_mem _ hm')
    have hm' := hfit m mem_cons_self
    rw [length_cons, readFrames, flatten_cons, append_assoc,
      readFrameBytes_written hm (lt_of_le_of_lt hm' (by decide)), if_neg (not_lt.2 hm'), bind_some, ih]
    rfl

def tagging : AEAD where
  nonceSize := 12
  overhead := 16
  aeadSeal _ _ p := p ++ replicate 16 0
  aeadOpen _ _ c := some (c.take (c.length - 16))
  length_seal _ _ p := by simp
  open_seal _ _ p := by simp

def zeros (n : Nat) : Outgoing (some tagging) := ⟨1, replicate n 0, replicate 12 0, by rintro k ⟨⟩; rfl⟩

theorem readFrames_written_two : ∃ frames, [zeros 2, zeros 0].mapM writeFramed = some frames ∧
      readFrames (some tagging) 2 (frames.flatten ++ []) = some ([(1, [0, 0]), (1, [])], []) :=
  ⟨_, rfl, @readFrames_written _ [zeros 2, zeros 0] _ [] rfl (by decide)⟩

theorem zeros_unreadable {n : Nat} (hn : n ≤ maxRPCMessageBytes) (hln : maxRPCMessageBytes < 28 + n) :
    ∃ octets, writeFramed (zeros n) = some octets ∧ readFrameBytes (some tagging) (octets ++ []) = none := by
  have hlen : (zeros n).body.length = 28 + n := by
    rw [length_body, zeros, length_replicate]
    rfl
  have hac : ¬ maxRPCMessageBytes < (zeros n).payload.length := by
    rw [zeros, length_replicate]
    exact not_lt.2 hn
  refine ⟨_, if_neg hac, ?_⟩
  unfold maxRPCMessageBytes at hn
  rw [readFrameBytes_written (if_neg hac) (by omega), if_pos (by omega)]

/-- A payload of 16 MiB is accepted, and its frame is refused. -/
theorem sealed_frame_unreadable : ∃ octets, writeFramed (zeros maxRPCMessageBytes) = some octets ∧
      readFrameBytes (some tagging) (octets ++ []) = none :=
  zeros_unreadable le_rfl (by omega)

end NothingDNS.Raft
