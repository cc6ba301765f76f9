import NothingDNS.Transfer.TsigRoundTrip
import NothingDNS.Protocol.Reencode
import NothingDNS.Protocol.NameText
/-!
# TSIG from the signer's octets to the verifier

Over the message codec of `internal/protocol` no signature arrives: `createRData` (`record.go:326-424`) does not know
the type, so the record comes out as `RDataRaw` and is refused, whoever signed the message (`signed_message_rejected`).
-/

namespace NothingDNS.Tsig

open List Protocol

theorem unpackMany_forall {α : Type} {f : Nat → Option (α × Nat)} {P : α → Prop}
    (hf : ∀ off x last, f off = some (x, last) → P x) :
    ∀ {k off last : Nat} {xs : List α}, unpackMany f k off = some (xs, last) → ∀ x ∈ xs, P x
  | 0, _, _, _, h => by
    cases h
    exact fun _ hx => absurd hx (by simp)
  | k + 1, off, last, xs, h => by
    simp only [unpackMany, Option.bind_eq_bind, Option.bind_eq_some_iff, Option.pure_def, Option.some.injEq] at h
    obtain ⟨⟨x, off1⟩, hx, ⟨xs', last'⟩, hxs, hp⟩ := h
    cases hp
    intro y hy
    obtain rfl | hy := mem_cons.1 hy
    · exact hf _ _ _ hx
    · exact unpackMany_forall hf hxs y hy

variable {octets : List UInt8}

variable {got : Message}

theorem unpackMessage_additionals {D : RDataReader} (h : unpackMessage D octets = some got) :
    ∀ rr ∈ got.additionals, ∃ type buf off len, D type buf off len = some rr.data := by
  simp only [unpackMessage, Option.bind_eq_bind, Option.bind_eq_some_iff] at h
  obtain ⟨-, -, id, -, flags, -, h⟩ := h
  split at h
  · cases h
    exact fun _ hrr => absurd hrr (by simp)
  · simp only [Option.bind_eq_some_iff] at h
    obtain ⟨qd, -, an, -, ns, -, ar, -, ⟨q, o1⟩, -, ⟨a, o2⟩, -, ⟨n, o3⟩, -, ⟨r, o4⟩, hr, h⟩ := h
    cases h
    refine unpackMany_forall (fun off x last hx => ?_) (unpackSection_some hr)
    obtain ⟨name, e, t, c, ttl, len, data, -, -, -, -, -, hd, hp⟩ := unpackRecord_some hx
    cases hp
    exact ⟨_, _, _, _, hd⟩

/-- `createRData` (`record.go:326-424`) has no case for TSIG: no record it reads has the type `RDataTSIG`. -/
theorem tsigOf_codeRData {parse : UInt16 → List UInt8 → Nat → Nat → Option (List UInt8)} {W : Wire} {rr : ResourceRecord}
    (h : unpackMessage (codeRData parse) octets = some got) (hfn : findTSIGRecord got = some rr) :
    tsigOf W rr = .error .dataType := by
  obtain ⟨type, buf, off, len, hd⟩ := unpackMessage_additionals h rr (mem_of_find?_eq_some hfn)
  unfold codeRData at hd
  split at hd
  · obtain ⟨o, -, ho⟩ := Option.map_eq_some_iff.1 hd
    rw [tsigOf, ← ho]
  · rw [tsigOf, ← Option.some.inj hd]

theorem not_verified_codeRData {parse : UInt16 → List UInt8 → Nat → Nat → Option (List UInt8)} {W : Wire} {now : Nat}
    {w w' : HighWater} {key : TSIGKey} {mac : List UInt8} (h : unpackMessage (codeRData parse) octets = some got) :
    verifyMessage W now w got key mac ≠ .ok w' := by
  intro hok
  obtain ⟨rr, ts, hfn, hts, -⟩ := verifyMessage_ok hok
  rw [tsigOf_codeRData h hfn] at hts
  cases hts

theorem verifyMessage_codeRData {parse : UInt16 → List UInt8 → Nat → Nat → Option (List UInt8)} {W : Wire}
    (h : unpackMessage (codeRData parse) octets = some got)
    (now : Nat) (w w' : HighWater) (key : TSIGKey) (mac : List UInt8) : verifyMessage W now w got key mac ≠ .ok w' :=
  not_verified_codeRData h

def soaQuery : Message := { id := 1, flags := 0x100, questions := [⟨[], typeSOA, 1⟩] }

def testKey : TSIGKey := ⟨"key.".toList, "hmac-sha256".toList, [1, 2, 3]⟩

def codeWire : Wire :=
  protocolWire (Protocol.codeRData fun _ buf off len => some ((buf.drop off).take len)) (fun _ _ _ => [7]) (fun _ => 0)

/-- What a receiver unpacks of a message that was signed and packed. -/
def Wire.received (W : Wire) (now : Nat) (msg : Message) (key : TSIGKey) (fudge : UInt16) : Option Message := do
  let rr ← signMessage W now msg key fudge
  let octets ← W.packMessage (msg.addRecord rr)
  W.unpackMessage octets

/-- **No signed message is accepted**: whatever message is signed with whatever key, the receiver of its octets does not
accept it, at any time and with any replay table. -/
theorem signed_message_rejected (parse : UInt16 → List UInt8 → Nat → Nat → Option (List UInt8))
    (hmac : Hash → List UInt8 → List UInt8 → List UInt8) (victim : List (Text × Nat) → Nat) (msg : Message)
    (key : TSIGKey) (fudge : UInt16) (now now' : Nat) (w : HighWater) (mac : List UInt8) :
    ¬∃ got ∈ (protocolWire (codeRData parse) hmac victim).received now msg key fudge,
      ∃ w', verifyMessage (protocolWire (codeRData parse) hmac victim) now' w got key mac = .ok w' := by
  rintro ⟨got, hg, w', hok⟩
  simp only [Wire.received, Option.bind_eq_bind, Option.mem_def, Option.bind_eq_some_iff] at hg
  obtain ⟨-, -, octets, -, hun⟩ := hg
  exact not_verified_codeRData hun hok

theorem verifyMessage_codeRData_query : ∃ got, codeWire.received (100 * second) soaQuery testKey 300 = some got ∧
    ∀ w', verifyMessage codeWire (100 * second) [] got testKey [] ≠ .ok w' := by
  obtain ⟨got, hg⟩ := Option.isSome_iff_exists.1
    (show (codeWire.received (100 * second) soaQuery testKey 300).isSome by decide +kernel)
  refine ⟨got, hg, ?_⟩
  simp only [Wire.received, Option.bind_eq_bind, Option.bind_eq_some_iff] at hg
  obtain ⟨-, -, octets, -, hun⟩ := hg
  exact fun w' => verifyMessage_codeRData hun _ _ w' _ _

theorem signed_query_rejected :
    (codeWire.received (100 * second) soaQuery testKey 300).map (verifyMessage codeWire (100 * second) [] · testKey [])
      = some (.error .dataType) := by
  decide +kernel

end NothingDNS.Tsig
