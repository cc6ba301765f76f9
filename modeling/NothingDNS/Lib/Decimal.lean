import NothingDNS.Lib.DottedName
/-!
# Decimal numbers in text

`decimal` prints a natural number; `scanDecimal` reads one digit after the other and stops with an error at the first
value above a bound, or at a character that is no digit.
-/

namespace Text

def isDigit (c : Char) : Bool := '0' ≤ c ∧ c ≤ '9'

def decimal (n : Nat) : Text := Nat.toDigits 10 n

/-- `none` is an error: a character that is no digit, or a value above `bound`. -/
def scanDecimal (bound v : Nat) : Text → Option Nat
  | [] => some v
  | c :: t =>
    if isDigit c = false then none
    else
      let v := v * 10 + (c.toNat - '0'.toNat)
      if bound < v then none else scanDecimal bound v t

theorem digitChar_spec : ∀ {d : Nat}, d < 10 → isDigit d.digitChar = true ∧ d.digitChar.toNat - '0'.toNat = d := by
  decide

theorem decimal_digits (n : Nat) : ∀ c ∈ decimal n, isDigit c = true := by
  induction n using Nat.strong_induction_on with
  | _ n ih =>
    rcases Nat.lt_or_ge n 10 with hlt | hge
    · rw [decimal, Nat.toDigits_of_lt_base hlt]
      simpa using (digitChar_spec hlt).1
    · rw [decimal, Nat.toDigits_of_base_le (by decide) hge]
      intro c hc
      rcases List.mem_append.1 hc with hc | hc
      · exact ih (n / 10) (by omega) c hc
      · rw [List.mem_singleton.1 hc]
        exact (digitChar_spec (Nat.mod_lt _ (by decide))).1

theorem decimal_ne_nil (n : Nat) : decimal n ≠ [] := by
  rcases Nat.lt_or_ge n 10 with hlt | hge
  · rw [decimal, Nat.toDigits_of_lt_base hlt]
    simp
  · rw [decimal, Nat.toDigits_of_base_le (by decide) hge]
    simp

theorem scanDecimal_append (bound : Nat) : ∀ (s t : Text) (v : Nat),
    scanDecimal bound v (s ++ t) = (scanDecimal bound v s).bind fun v => scanDecimal bound v t
  | [], _, _ => rfl
  | c :: s, t, v => by
    simp only [List.cons_append, scanDecimal]
    split
    · rfl
    split
    · rfl
    · exact scanDecimal_append bound s t _

theorem scanDecimal_decimal {bound n : Nat} (h : n ≤ bound) : scanDecimal bound 0 (decimal n) = some n := by
  induction n using Nat.strong_induction_on with
  | _ n ih =>
    have hdg : ∀ v d, d < 10 → v * 10 + d ≤ bound →
        scanDecimal bound v [d.digitChar] = some (v * 10 + d) := by
      intro v d hd hle
      obtain ⟨h1, h2⟩ := digitChar_spec hd
      simp only [scanDecimal, h1, h2, Bool.true_eq_false, if_false, if_neg (not_lt.2 hle)]
    rcases Nat.lt_or_ge n 10 with hlt | hge
    · rw [decimal, Nat.toDigits_of_lt_base hlt, hdg 0 n hlt (by omega)]
      congr 1
      omega
    · have hrc := ih (n / 10) (by omega) (by omega)
      rw [decimal] at hrc
      rw [decimal, Nat.toDigits_of_base_le (by decide) hge, scanDecimal_append, hrc, Option.bind_some,
        hdg _ _ (Nat.mod_lt _ (by decide)) (by omega)]
      congr 1
      omega

theorem isDigit_plain {c : Char} (h : isDigit c = true) : isSpace c = false ∧ c ≠ '"' ∧ c.toUpper = c := by
  simp only [isDigit, decide_eq_true_eq] at h
  have hlo : 48 ≤ c.val.toNat := UInt32.le_iff_toNat_le.1 h.1
  have hhi : c.val.toNat ≤ 57 := UInt32.le_iff_toNat_le.1 h.2
  have hne : ∀ d : Char, d.val.toNat < 48 → c ≠ d := by
    rintro d hd rfl
    omega
  refine ⟨isSpace_of_lt (show 32 < c.val.toNat by omega), hne '"' (by decide), ?_⟩
  · unfold Char.toUpper
    rw [dif_neg]
    rintro ⟨hge, -⟩
    have : 97 ≤ c.val.toNat := UInt32.le_iff_toNat_le.1 hge
    omega

end Text
