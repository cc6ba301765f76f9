import Mathlib.Data.List.Infix
import Mathlib.Data.List.DropRight
import Mathlib.Tactic.Common
/-!
# Dotted names as text

A domain name in presentation form is a list of characters; stripping its
leftmost label is cutting it after the first dot. `superdomains` lists what is
left after each cut, nearest first, and `Under` is the order this gives:
`Under p n` says that `n` is a name below `p`.
-/

abbrev Text := List Char

instance : LawfulBEq Text := inferInstance

namespace Text

open List

/-! ## Case and white space -/

/-- `strings.ToLower` on ASCII text. -/
def lower (t : Text) : Text := t.map Char.toLower

/-- `strings.ToUpper` on ASCII text. -/
def upper (t : Text) : Text := t.map Char.toUpper

def isSpace (c : Char) : Bool :=
  c = ' ' ∨ c = '\t' ∨ c = '\n' ∨ c = '\x0b' ∨ c = '\x0c' ∨ c = '\r'

/-- `strings.TrimSpace` on ASCII text. -/
def trimSpace (t : Text) : Text := (t.dropWhile isSpace).rdropWhile isSpace

/-- Text of octets below 128, on which Go's functions for case and white space are those of this module. Elsewhere they
go by code points, and octets that are no UTF-8 become U+FFFD. -/
def Ascii (t : Text) : Prop := ∀ c ∈ t, c.toNat < 128

instance (t : Text) : Decidable t.Ascii :=
  decidable_of_iff (t.all (fun c => decide (c.toNat < 128)) = true) (by simp [Ascii])

variable {c : Char}

theorem isSpace_of_lt (h : 32 < c.toNat) : isSpace c = false := by
  simp only [isSpace, decide_eq_false_iff_not]
  rintro (rfl | rfl | rfl | rfl | rfl | rfl) <;> exact absurd h (by decide)

def trimDot (t : Text) : Text := if t.getLast? = some '.' then t.dropLast else t

theorem toLower_cases (c : Char) :
    c.toLower = c ∨ 65 ≤ c.val.toNat ∧ c.val.toNat ≤ 90 ∧ c.toLower.val.toNat = c.val.toNat + 32 := by
  unfold Char.toLower
  split
  next h =>
    have hlo : 65 ≤ c.val.toNat := UInt32.le_iff_toNat_le.1 h.1
    have hhi : c.val.toNat ≤ 90 := UInt32.le_iff_toNat_le.1 h.2
    refine .inr ⟨hlo, hhi, ?_⟩
    rw [UInt32.toNat_add]
    exact Nat.mod_eq_of_lt (by show c.val.toNat + 32 < 4294967296; omega)
  · exact .inl rfl

theorem toNat_toLower (c : Char) : c.toLower.toNat = if 65 ≤ c.toNat ∧ c.toNat ≤ 90 then c.toNat + 32 else c.toNat := by
  unfold Char.toLower
  split
  next h =>
    have hup : 65 ≤ c.toNat ∧ c.toNat ≤ 90 := ⟨UInt32.le_iff_toNat_le.1 h.1, UInt32.le_iff_toNat_le.1 h.2⟩
    rw [if_pos hup]
    show (c.val + 32).toNat = c.val.toNat + 32
    rw [UInt32.toNat_add]
    exact Nat.mod_eq_of_lt (by show c.toNat + 32 < 4294967296; omega)
  next h =>
    rw [if_neg fun hup => h ⟨UInt32.le_iff_toNat_le.2 hup.1, UInt32.le_iff_toNat_le.2 hup.2⟩]

theorem toLower_eq_iff {d : Char} (hd : d.val.toNat < 65 ∨ 90 < d.val.toNat ∧ d.val.toNat < 97) :
    c.toLower = d ↔ c = d := by
  rcases toLower_cases c with h | ⟨hlo, hhi, hv⟩
  · rw [h]
  · constructor
    · rintro rfl
      omega
    · rintro rfl
      omega

theorem toLower_toLower (c : Char) : c.toLower.toLower = c.toLower := by
  rcases toLower_cases c with h | ⟨hlo, hhi, hv⟩
  · rw [h, h]
  · rcases toLower_cases c.toLower with h | ⟨-, hh', -⟩
    · exact h
    · omega

theorem lower_lower (t : Text) : lower (lower t) = lower t := by
  rw [lower, lower, map_map]
  exact map_congr_left fun c _ => toLower_toLower c

theorem isSpace_toLower (c : Char) : isSpace c.toLower = isSpace c := by
  have h : ∀ d : Char, (d.val.toNat < 65 ∨ 90 < d.val.toNat ∧ d.val.toNat < 97) →
      (c.toLower = d ↔ c = d) := fun _ => toLower_eq_iff
  simp only [isSpace, h ' ' (by decide), h '\t' (by decide), h '\n' (by decide), h '\x0b' (by decide),
    h '\x0c' (by decide), h '\r' (by decide)]

variable {t : Text}

theorem lower_eq_nil : lower t = [] ↔ t = [] := map_eq_nil_iff

theorem lower_append (s t : Text) : lower (s ++ t) = lower s ++ lower t := map_append

theorem trimSpace_eq_self (hh : ∀ c, t.head? = some c → isSpace c = false)
    (hls : ∀ c, t.getLast? = some c → isSpace c = false) : trimSpace t = t := by
  have hd : t.dropWhile isSpace = t := by
    cases t with
    | nil => rfl
    | cons c t => rw [dropWhile_cons_of_neg (by simp [hh c rfl])]
  rw [trimSpace, hd, rdropWhile_eq_self_iff]
  intro hne
  simpa using hls _ (getLast?_eq_some_getLast hne)

theorem head_trimSpace (h : (trimSpace t).head? = some c) : isSpace c = false := by
  obtain ⟨s, hs⟩ := List.rdropWhile_prefix isSpace (t.dropWhile isSpace)
  have hfr : (t.dropWhile isSpace).head? = some c := by
    rw [← hs, head?_append]
    change (trimSpace t).head?.or s.head? = some c
    rw [h, Option.some_or]
  have := head?_dropWhile_not isSpace t
  rwa [hfr] at this

/-! ## Cutting at dots -/

/-- What follows the first dot, if anything does: the loops of the zone lookups break where nothing
is left (`dot < 0 || dot+1 >= len(current)`). -/
def parent : Text → Option Text
  | [] => none
  | c :: t => if c = '.' then (if t = [] then none else some t) else parent t

def superdomains : Text → List Text
  | [] => []
  | c :: t => if c = '.' ∧ t ≠ [] then t :: superdomains t else superdomains t

def Under (p n : Text) : Prop := p ≠ [] ∧ ('.' :: p) <:+ n

instance (p n : Text) : Decidable (Under p n) := inferInstanceAs (Decidable (_ ∧ _))

variable {p : Text}

theorem mem_superdomains : ∀ {n : Text}, p ∈ superdomains n ↔ Under p n
  | [] => by simp [superdomains, Under]
  | c :: t => by
    have hcn : Under p (c :: t) ↔ (c = '.' ∧ p = t ∧ t ≠ []) ∨ Under p t := by
      rw [Under, Under, suffix_cons_iff, cons.injEq]
      constructor
      · rintro ⟨hp, ⟨rfl, rfl⟩ | h⟩
        · exact .inl ⟨rfl, rfl, hp⟩
        · exact .inr ⟨hp, h⟩
      · rintro (⟨rfl, rfl, hp⟩ | ⟨hp, h⟩)
        · exact ⟨hp, .inl ⟨rfl, rfl⟩⟩
        · exact ⟨hp, .inr h⟩
    rw [hcn, superdomains]
    by_cases hc : c = '.' ∧ t ≠ []
    · rw [if_pos hc, mem_cons, mem_superdomains]
      constructor
      · rintro (rfl | h)
        · exact .inl ⟨hc.1, rfl, hc.2⟩
        · exact .inr h
      · rintro (⟨-, rfl, -⟩ | h)
        · exact .inl rfl
        · exact .inr h
    · rw [if_neg hc, mem_superdomains]
      constructor
      · exact .inr
      · rintro (⟨h, -, ht⟩ | h)
        · exact absurd ⟨h, ht⟩ hc
        · exact h

variable {n : Text}

theorem Under.length_lt (h : Under p n) : p.length < n.length := by
  have := h.2.length_le
  rw [length_cons] at this
  omega

theorem Under.ne (h : Under p n) : p ≠ n := by
  rintro rfl
  exact absurd h.length_lt (lt_irrefl _)

theorem Under.suffix (h : Under p n) : p <:+ n := (suffix_cons '.' p).trans h.2

theorem Under.trans {q : Text} (h₁ : Under p q) (h₂ : Under q n) : Under p n := ⟨h₁.1, h₁.2.trans h₂.suffix⟩

theorem pairwise_superdomains : ∀ n : Text, (superdomains n).Pairwise fun a b => Under b a
  | [] => .nil
  | c :: t => by
    rw [superdomains]
    split
    · exact .cons (fun b hb => mem_superdomains.1 hb) (pairwise_superdomains t)
    · exact pairwise_superdomains t

theorem superdomains_of_append : ∀ (pre : Text), p ≠ [] →
    ∃ l, superdomains (pre ++ '.' :: p) = l ++ p :: superdomains p ∧ ∀ x ∈ l, Under p x
  | [], hp => ⟨[], by simp [superdomains, hp], by simp⟩
  | c :: pre, hp => by
    obtain ⟨l, hl, hall⟩ := superdomains_of_append pre hp
    rw [cons_append, superdomains]
    by_cases hc : c = '.' ∧ pre ++ '.' :: p ≠ []
    · refine ⟨(pre ++ '.' :: p) :: l, by rw [if_pos hc, hl, cons_append], ?_⟩
      rw [forall_mem_cons]
      exact ⟨⟨hp, suffix_append _ _⟩, hall⟩
    · exact ⟨l, by rw [if_neg hc, hl], hall⟩

theorem Under.split (h : Under p n) : ∃ l, superdomains n = l ++ p :: superdomains p ∧ ∀ x ∈ l, Under p x := by
  obtain ⟨hp, pre, rfl⟩ := h
  exact superdomains_of_append pre hp

end Text
