import NothingDNS.Transfer.Tsig
/-!
# Signing and verifying

What the signer's record says to the verifier, for any codec: the record's octets read
back as the record (`unpackTSIGRecord_pack`), a message that reaches the verifier with
that record and the same octets under it is accepted (`verifyMessage_signed`), and two
messages with the same digest input have the same octets, time and fudge
(`buildSignedData_inj`).
-/

namespace NothingDNS.Tsig

open List BigEndian

open NothingDNS.Protocol (RData ResourceRecord Message)

theorem readInt_encode {k x : Nat} (h : x < 256 ^ k) (rest : List UInt8) :
    readInt k (encode k x ++ rest) = some (x, rest) := by
  have hlen : (encode k x).length = k := length_encode k x
  rw [readInt, if_neg (by rw [length_append, hlen]; omega)]
  rw [take_append_of_le_length hlen.ge, drop_append_of_le_length hlen.ge, take_of_length_le hlen.le, drop_of_length_le
    hlen.le, decode_encode_of_lt h, nil_append]

theorem readBytes_append (bs rest : List UInt8) : readBytes bs.length (bs ++ rest) = some (bs, rest) := by
  rw [readBytes, if_neg (by rw [length_append]; omega)]
  simp

variable {W : Wire}

def NameReadsBack (W : Wire) (algorithm : Text) : Prop :=
  ∀ octets, nameOctets W algorithm = some octets → ∀ rest, ∃ printed,
    W.unpackName (octets ++ rest) = some (printed, octets.length) ∧ printed.trimDot.lower = algorithm.lower

variable {t : Nat} {octets : List UInt8}

theorem timeOctets_some (h : timeOctets t = some octets) : t < 2 ^ 48 ∧ octets = encode 6 t := by
  unfold timeOctets at h
  split at h
  · exact ⟨‹_›, (Option.some.inj h).symm⟩
  · cases h

variable {ts : TSIGRecord}

theorem unpackTSIGRecord_pack (h : packTSIGRecord W ts = some octets) (hnm : NameReadsBack W ts.algorithm) :
    ∃ algorithm, unpackTSIGRecord W octets = some { ts with algorithm } ∧ algorithm.lower = ts.algorithm.lower := by
  simp only [packTSIGRecord, guard, Option.bind_eq_bind, Option.bind_eq_some_iff, Option.pure_def,
    Option.some.injEq] at h
  obtain ⟨_, hg, algo, hal, time, htm, rfl⟩ := h
  obtain ⟨htm, rfl⟩ := timeOctets_some htm
  split at hg
  case isFalse => cases hg
  rename_i hlen
  obtain ⟨hmac, hot⟩ := hlen
  nth_rewrite 2 [← append_nil ts.otherData]
  simp only [append_assoc]
  obtain ⟨printed, hu, hlw⟩ := hnm algo hal _
  refine ⟨printed.trimDot, ?_, hlw⟩
  have hfd : ts.fudge.toNat < 256 ^ 2 := ts.fudge.toNat_lt
  have hid : ts.originalID.toNat < 256 ^ 2 := ts.originalID.toNat_lt
  have her : ts.error.toNat < 256 ^ 2 := ts.error.toNat_lt
  have ht' : ts.timeSigned < 256 ^ 6 := by omega
  have hmac' : ts.mac.length < 256 ^ 2 := by omega
  have ho' : ts.otherData.length < 256 ^ 2 := by omega
  unfold unpackTSIGRecord
  rw [hu]
  simp only [guard, length_append, length_encode, Option.bind_eq_bind, Option.bind_some,
    drop_left, readInt_encode ht', readInt_encode hfd, readInt_encode hmac', readBytes_append,
    readInt_encode hid, readInt_encode her, readInt_encode ho', Option.pure_def]
  rw [if_pos (by omega)]
  simp

variable {w : HighWater} {keyName : Text}

theorem checkReplay_ok {fudge : Nat}
    (h : ∀ prev ∈ w.get keyName, prev ≤ t) : ∃ w', checkReplay W w keyName t fudge = .ok w' := by
  unfold checkReplay
  cases hp : w.get keyName with
  | none => exact ⟨_, rfl⟩
  | some prev =>
    have hle : prev ≤ t := h prev hp
    simp only
    rw [if_neg (by omega)]
    split <;> exact ⟨_, rfl⟩

variable {now : Nat} {msg : Message} {key : TSIGKey} {rr : ResourceRecord}

variable {fudge : UInt16}

theorem signMessage_some (h : signMessage W now msg key fudge = some rr) :
    ∃ data mac rdata name, buildSignedData W msg key.name [] key.algorithm (now / second) fudge = some data
      ∧ calculateMAC W key.secret data key.algorithm = some mac
      ∧ packTSIGRecord W ⟨key.algorithm, now / second, fudge, mac, msg.id, 0, []⟩ = some rdata
      ∧ rr = ⟨name, typeTSIG, classANY, 0, .tsig rdata⟩ := by
  simp only [signMessage, Option.bind_eq_bind, Option.bind_eq_some_iff, Option.pure_def, Option.some.injEq] at h
  obtain ⟨data, hd, mac, hmac, rdata, hrd, name, -, rfl⟩ := h
  exact ⟨data, mac, rdata, name, hd, hmac, hrd, rfl⟩

theorem verifyMessage_signed {now' : Nat} {got : Message}
    {rr' : ResourceRecord} (hsg : signMessage W now msg key fudge = some rr) (hnm : NameReadsBack W key.algorithm)
    (hp : W.packMessage (cloneMessageWithoutTSIG got) = W.packMessage (cloneMessageWithoutTSIG msg))
    (hfn : findTSIGRecord got = some rr') (hd : rr'.data = rr.data)
    (her : now / second * second ≤ now' + fudge.toNat * second)
    (hla : now' ≤ now / second * second + fudge.toNat * second)
    (hrp : ∀ prev ∈ w.get key.name, prev ≤ now / second) : ∃ w', verifyMessage W now' w got key [] = .ok w' := by
  obtain ⟨data, mac, rdata, name, hb, hmac, hrd, rfl⟩ := signMessage_some hsg
  obtain ⟨algorithm, hu, hal⟩ := unpackTSIGRecord_pack hrd hnm
  have hts : tsigOf W rr' = .ok ⟨algorithm, now / second, fudge, mac, msg.id, 0, []⟩ := by
    rw [tsigOf, hd]
    simp [hu]
  have hw : inWindow now' ⟨algorithm, now / second, fudge, mac, msg.id, 0, []⟩ = true := by
    simp [inWindow, her, hla]
  have hep : expectedMAC W got key [] ⟨algorithm, now / second, fudge, mac, msg.id, 0, []⟩ = some mac := by
    rw [buildSignedData, ← hp, ← buildSignedData] at hb
    simp [expectedMAC, hb, hmac]
  obtain ⟨w', hw'⟩ := checkReplay_ok hrp
  refine ⟨w', ?_⟩
  simp only [verifyMessage, hfn, hts, hal, hw, hep, bind, Except.bind, pure, Except.pure, ne_eq, not_true,
    ite_false, Bool.not_true, Bool.false_eq_true]
  exact hw'

/-! ## The digest input -/

theorem buildSignedData_inj {m m' : Message} {algorithm : Text} {t' : Nat} {fudge' : UInt16}
    {data : List UInt8} (h : buildSignedData W m keyName [] algorithm t fudge = some data)
    (h' : buildSignedData W m' keyName [] algorithm t' fudge' = some data) :
    (∃ octets, W.packMessage (cloneMessageWithoutTSIG m) = some octets
        ∧ W.packMessage (cloneMessageWithoutTSIG m') = some octets) ∧ t = t' ∧ fudge = fudge' := by
  simp only [buildSignedData, previousOctets, if_true, Option.bind_eq_bind, Option.bind_eq_some_iff, Option.pure_def,
    Option.some.injEq] at h h'
  obtain ⟨o, ho, k, hk, a, ha, time, htm, rfl⟩ := h
  obtain ⟨o', ho', k', hk', a', ha', time', htm', heq⟩ := h'
  obtain rfl : k = k' := Option.some.inj (hk.symm.trans hk')
  obtain rfl : a = a' := Option.some.inj (ha.symm.trans ha')
  obtain ⟨ht, rfl⟩ := timeOctets_some htm
  obtain ⟨ht', rfl⟩ := timeOctets_some htm'
  -- behind the message everything has a fixed length, so the parts are equal one by one
  simp only [nil_append, append_cancel_right_eq] at heq
  obtain ⟨heq, hf⟩ := append_inj' heq (by simp)
  obtain ⟨heq, ht6⟩ := append_inj' heq (by simp)
  simp only [append_cancel_right_eq] at heq
  have hfd : fudge' = fudge := by
    apply UInt16.toNat_inj.1
    rw [← decode_encode_of_lt (k := 2) (x := fudge.toNat) fudge.toNat_lt, ← hf, decode_encode_of_lt fudge'.toNat_lt]
  have htm : t' = t := by
    rw [← decode_encode_of_lt (k := 6) (x := t) (by omega), ← ht6, decode_encode_of_lt (by omega)]
  exact ⟨⟨o, ho, heq ▸ ho'⟩, htm.symm, hfd.symm⟩

end NothingDNS.Tsig
