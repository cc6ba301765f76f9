import Mathlib.Algebra.Group.Nat.Defs
import NothingDNS.Zone.Types
import NothingDNS.Lib.Decimal
/-!
# SOA data as text (`internal/zone/kv_persistence.go:245-362`, `manager.go:57-73`, `656-684`)

What `SOARecord.rdata` prints, `parseSOAFromRData` reads back, if the two names
are fields of some SOA text (`Token`).
-/

namespace NothingDNS

open List Text

/-- The loop of `parseRDataFields`, with `inQuotes` and `current` as it goes. -/
def fieldsLoop (inQuotes : Bool) (current : Text) : Text → List Text
  | [] => if current ≠ [] then [current] else []
  | r :: rest =>
    if r = '"' then fieldsLoop (!inQuotes) (current ++ [r]) rest
    else if (r = ' ' ∨ r = '\t') ∧ inQuotes = false then
      if current ≠ [] then current :: fieldsLoop false [] rest else fieldsLoop false [] rest
    else fieldsLoop inQuotes (current ++ [r]) rest

def parseRDataFields (rdata : Text) : List Text := fieldsLoop false [] rdata

/-- `1<<32 - 1`. -/
def maxUint32 : Nat := 2 ^ 32 - 1

def parseUint32 (s : Text) : Option Nat := Text.scanDecimal maxUint32 0 s

/-- The multiplier of a duration suffix, and the text before it (`kv_persistence.go:329-347`). -/
def ttlSuffix (s : Text) : Nat × Text :=
  match s.getLast? with
  | some 'S' => (1, s.dropLast)
  | some 'M' => (60, s.dropLast)
  | some 'H' => (3600, s.dropLast)
  | some 'D' => (86400, s.dropLast)
  | some 'W' => (604800, s.dropLast)
  | _ => (1, s)

/-- From `kv_persistence.go:323-362`. -/
def parseTTLValue (s : Text) : Option Nat :=
  let s := (Text.trimSpace s).upper
  if s = [] then none
  else
    let (multiplier, s) := ttlSuffix s
    (parseUint32 s).bind fun val =>
      if 0 < val ∧ maxUint32 / multiplier < val then none else some (val * multiplier)

def parseSOAFromRData (rdata : Text) : Option SOARecord :=
  match parseRDataFields rdata with
  | mname :: rname :: serial :: refresh :: retry :: expire :: minimum :: _ =>
    some ⟨[], 0, mname, rname, .ofNat ((parseUint32 serial).getD 0), .ofNat ((parseTTLValue refresh).getD 0),
      .ofNat ((parseTTLValue retry).getD 0), .ofNat ((parseTTLValue expire).getD 0),
      .ofNat ((parseTTLValue minimum).getD 0)⟩
  | _ => none

def SOARecord.rdata (soa : SOARecord) : Text :=
  soa.mname ++ ' ' :: (soa.rname ++ ' ' :: (Text.decimal soa.serial.toNat ++ ' ' ::
    (Text.decimal soa.refresh.toNat ++ ' ' :: (Text.decimal soa.retry.toNat ++ ' ' ::
      (Text.decimal soa.expire.toNat ++ ' ' :: Text.decimal soa.minimum.toNat)))))

def serialIsNewer (s₁ s₂ : UInt32) : Bool :=
  if s₁ = s₂ then false else if s₂ < s₁ then s₁ - s₂ < 0x80000000 else 0x80000000 < s₂ - s₁

def serialIncrement (s : UInt32) : UInt32 := s + 1

theorem serialIsNewer_iff {a b : UInt32} : serialIsNewer a b = true ↔ 0 < (a - b).toNat ∧ (a - b).toNat < 2 ^ 31 := by
  have ha := a.toNat_lt
  have hb := b.toNat_lt
  have hh : (0x80000000 : UInt32).toNat = 2 ^ 31 := rfl
  unfold serialIsNewer
  split
  next h => simp [h]
  next h =>
    have hne : a.toNat ≠ b.toNat := fun he => h (UInt32.toNat_inj.1 he)
    split
    · next hlt =>
      rw [UInt32.lt_iff_toNat_lt] at hlt
      rw [decide_eq_true_eq, UInt32.lt_iff_toNat_lt, hh, UInt32.toNat_sub]
      omega
    · next hlt =>
      rw [UInt32.lt_iff_toNat_lt] at hlt
      rw [decide_eq_true_eq, UInt32.lt_iff_toNat_lt, hh, UInt32.toNat_sub, UInt32.toNat_sub]
      omega

/-- Text that the scanner takes in as a part of one field, leaving it inside quotes or not. -/
def Partial (q : Bool) (t : Text) : Prop :=
  ∀ current rest, fieldsLoop false current (t ++ rest) = fieldsLoop q (current ++ t) rest

def Token (t : Text) : Prop := t ≠ [] ∧ Partial false t

theorem Partial.nil : Partial false [] := by
  intro current rest
  simp

variable {q : Bool} {t : Text}

theorem Partial.quote (h : Partial q t) : Partial (!q) (t ++ ['"']) := by
  intro current rest
  rw [append_assoc, singleton_append, h, fieldsLoop, if_pos rfl, append_assoc]

theorem Partial.snoc {r : Char} (h : Partial q t) (hq : r ≠ '"')
    (hb : ¬ ((r = ' ' ∨ r = '\t') ∧ q = false)) : Partial q (t ++ [r]) := by
  intro current rest
  rw [append_assoc, singleton_append, h, fieldsLoop, if_neg hq, if_neg hb, append_assoc]

theorem Partial.of_plain {s : Text} (h : Partial false t)
    (hs : ∀ c ∈ s, c ≠ '"' ∧ c ≠ ' ' ∧ c ≠ '\t') : Partial false (t ++ s) := by
  induction s generalizing t with
  | nil => rwa [append_nil]
  | cons c s ih =>
    obtain ⟨hq, hsp, htb⟩ := hs c mem_cons_self
    have hc : Partial false (t ++ [c]) := h.snoc hq (by simp [hsp, htb])
    have := ih hc fun d hd => hs d (mem_cons_of_mem _ hd)
    rwa [append_assoc, singleton_append] at this

theorem token_decimal (n : Nat) : Token (decimal n) := by
  refine ⟨decimal_ne_nil n, ?_⟩
  have := Partial.nil.of_plain (s := decimal n) fun c hc => ?_
  · rwa [nil_append] at this
  · obtain ⟨hsp, hq, -⟩ := isDigit_plain (decimal_digits n c hc)
    refine ⟨hq, ?_, ?_⟩ <;> rintro rfl <;> exact absurd hsp (by decide)

theorem Token.fields_cons (h : Token t) (rest : Text) :
    parseRDataFields (t ++ ' ' :: rest) = t :: parseRDataFields rest := by
  rw [parseRDataFields, h.2, nil_append, fieldsLoop, if_neg (by decide), if_pos (by simp), if_pos h.1]
  rfl

theorem Token.fields_singleton (h : Token t) : parseRDataFields t = [t] := by
  have := h.2 [] []
  rw [append_nil, nil_append, fieldsLoop, if_pos h.1] at this
  exact this

theorem fieldsLoop_cons : ∀ {s : Text} {q : Bool} {current f g : Text} {l : List Text},
    Partial q current → fieldsLoop q current s = f :: g :: l → Token f ∧ ∃ s', parseRDataFields s' = g :: l
  | [], q, current, f, g, l, hp, h => by
    rw [fieldsLoop] at h
    split at h
    · injection h with _ h
      cases h
    · cases h
  | r :: s, q, current, f, g, l, hp, h => by
    rw [fieldsLoop] at h
    by_cases hq : r = '"'
    · rw [if_pos hq] at h
      subst hq
      exact fieldsLoop_cons hp.quote h
    rw [if_neg hq] at h
    by_cases hb : (r = ' ' ∨ r = '\t') ∧ q = false
    · rw [if_pos hb] at h
      obtain ⟨-, rfl⟩ := hb
      split at h
      · injection h with hf h
        subst hf
        exact ⟨⟨‹_›, hp⟩, s, h⟩
      · exact fieldsLoop_cons .nil h
    · rw [if_neg hb] at h
      exact fieldsLoop_cons (hp.snoc hq hb) h

theorem parseUint32_decimal (n : UInt32) : parseUint32 (decimal n.toNat) = some n.toNat :=
  scanDecimal_decimal (by have := n.toNat_lt; rw [maxUint32]; omega)

theorem ttlSuffix_decimal (n : Nat) : ttlSuffix (decimal n) = (1, decimal n) := by
  have hd := decimal_digits n
  unfold ttlSuffix
  split <;> first | rfl | (rename_i h; exact absurd (hd _ (mem_of_getLast? h)) (by decide))

theorem parseTTLValue_decimal (n : UInt32) : parseTTLValue (decimal n.toNat) = some n.toNat := by
  have hd := decimal_digits n.toNat
  have htr : trimSpace (decimal n.toNat) = decimal n.toNat :=
    trimSpace_eq_self (fun c hc => (isDigit_plain (hd c (mem_of_head? hc))).1)
      fun c hc => (isDigit_plain (hd c (mem_of_getLast? hc))).1
  have hup : (decimal n.toNat).upper = decimal n.toNat := by
    rw [upper, map_congr_left fun c hc => (isDigit_plain (hd c hc)).2.2, map_id']
  have hmx : ¬ (0 < n.toNat ∧ maxUint32 / 1 < n.toNat) := by
    have := n.toNat_lt
    rw [maxUint32]
    omega
  unfold parseTTLValue
  rw [htr, hup, if_neg (decimal_ne_nil _), ttlSuffix_decimal]
  dsimp only
  rw [parseUint32_decimal, Option.bind_some, if_neg hmx, Nat.mul_one]

/-- What `parseSOAFromRData` can know of a record: everything but its owner and TTL. -/
def SOARecord.data (soa : SOARecord) : SOARecord := { soa with name := [], ttl := 0 }

variable {soa : SOARecord}

theorem parseSOAFromRData_rdata (hm : Token soa.mname) (hr : Token soa.rname) :
    parseSOAFromRData soa.rdata = some soa.data := by
  have hfl : parseRDataFields soa.rdata = [soa.mname, soa.rname, decimal soa.serial.toNat,
      decimal soa.refresh.toNat, decimal soa.retry.toNat, decimal soa.expire.toNat,
      decimal soa.minimum.toNat] := by
    rw [SOARecord.rdata, hm.fields_cons, hr.fields_cons, (token_decimal _).fields_cons, (token_decimal _).fields_cons,
      (token_decimal _).fields_cons, (token_decimal _).fields_cons, (token_decimal _).fields_singleton]
  unfold parseSOAFromRData
  rw [hfl]
  simp [parseUint32_decimal, parseTTLValue_decimal, SOARecord.data]

theorem token_of_parseSOAFromRData {rdata : Text}
    (h : parseSOAFromRData rdata = some soa) : Token soa.mname ∧ Token soa.rname ∧ soa.data = soa := by
  unfold parseSOAFromRData at h
  split at h
  next hf =>
    cases h
    obtain ⟨hm, s, hs⟩ := fieldsLoop_cons .nil hf
    exact ⟨hm, (fieldsLoop_cons .nil hs).1, rfl⟩
  · cases h

end NothingDNS
