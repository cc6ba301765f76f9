import Mathlib.Data.Nat.ModEq
import Mathlib.Tactic.Common
/-!
# Base32hex without padding

The encoder keeps the octets read so far in a 32-bit word and the number of its low bits that are
still to be written. Texts of inputs of one length are in the order of the inputs
(`compareLex_encode`).
-/

namespace Base32

open Nat List

/-- The inner loop: five bits at a time, from the top; what is left are fewer than five. -/
def drain (bits : Nat) : Nat → List Nat × Nat
  | n + 5 => ((bits >>> n) % 32 :: (drain bits n).1, (drain bits n).2)
  | n => ([], n)

/-- The outer loop, and the last digit, filled up with zero bits. -/
def digits (bits bitsLen : Nat) : List UInt8 → List Nat
  | [] => if 0 < bitsLen then [(bits <<< (5 - bitsLen)) % 32] else []
  | b :: data =>
    let bits' := (bits <<< 8 ||| b.toNat) % 2 ^ 32
    let r := drain bits' (bitsLen + 8)
    r.1 ++ digits bits' r.2 data

def alphabet : List Char := "0123456789abcdefghijklmnopqrstuv".toList

def encode (data : List UInt8) : List Char := (digits 0 0 data).map fun d => alphabet.getD d '0'

variable {a b : Nat}

theorem compare_mul_add {k a' b' : Nat} (hb : b < k) (hb' : b' < k) :
    compare (a * k + b) (a' * k + b') = (compare a a').then (compare b b') := by
  rcases lt_trichotomy a a' with h | rfl | h
  · have hle : (a + 1) * k ≤ a' * k := Nat.mul_le_mul_right k h
    rw [Nat.compare_eq_lt.2 h, Nat.compare_eq_lt.2 (by rw [Nat.add_mul] at hle; omega)]
    rfl
  · rw [Nat.compare_eq_eq.2 (rfl : a = a), Nat.compare_eq_ite_lt, Nat.compare_eq_ite_lt]
    simp
  · have hle : (a' + 1) * k ≤ a * k := Nat.mul_le_mul_right k h
    rw [Nat.compare_eq_gt.2 h, Nat.compare_eq_gt.2 (by rw [Nat.add_mul] at hle; omega)]
    rfl

variable {α : Type*}

theorem compareLex_append {cmp : α → α → Ordering} : ∀ {d d' e e' : List α}, d.length = d'.length →
    List.compareLex cmp (d ++ e) (d' ++ e') = (List.compareLex cmp d d').then (List.compareLex cmp e e')
  | [], [], _, _, _ => rfl
  | a :: d, a' :: d', e, e', h => by
    rw [cons_append, cons_append, List.compareLex_cons_cons, List.compareLex_cons_cons,
      compareLex_append (succ.inj h), Ordering.then_assoc]

theorem compareLex_map {β : Type*} {cmp : α → α → Ordering} {cmp' : β → β → Ordering} {f : α → β} :
    ∀ {l l' : List α}, (∀ a ∈ l, ∀ b ∈ l', cmp' (f a) (f b) = cmp a b) →
      List.compareLex cmp' (l.map f) (l'.map f) = List.compareLex cmp l l'
  | [], [], _ => rfl
  | [], _ :: _, _ => rfl
  | _ :: _, [], _ => rfl
  | a :: l, b :: l', h => by
    rw [map_cons, map_cons, List.compareLex_cons_cons, List.compareLex_cons_cons,
      h a mem_cons_self b mem_cons_self,
      compareLex_map fun x hx y hy => h x (mem_cons_of_mem _ hx) y (mem_cons_of_mem _ hy)]

theorem mod_two_pow_add (x n m : Nat) : x % 2 ^ (n + m) = (x >>> n) % 2 ^ m * 2 ^ n + x % 2 ^ n := by
  rw [pow_add, mod_mul, shiftRight_eq_div_pow, mul_comm, add_comm]

theorem drain_rest (x : Nat) : ∀ n, (drain x n).2 = n % 5
  | n + 5 => by rw [drain, drain_rest x n, add_mod_right]
  | 0 | 1 | 2 | 3 | 4 => rfl

theorem drain_length (x : Nat) : ∀ n, (drain x n).1.length = n / 5
  | n + 5 => by rw [drain, length_cons, drain_length x n]; omega
  | 0 | 1 | 2 | 3 | 4 => rfl

theorem compareLex_drain (x y : Nat) : ∀ n,
    (List.compareLex compare (drain x n).1 (drain y n).1).then (compare (x % 2 ^ (n % 5)) (y % 2 ^ (n % 5)))
      = compare (x % 2 ^ n) (y % 2 ^ n)
  | n + 5 => by
    rw [drain, drain, List.compareLex_cons_cons, add_mod_right, Ordering.then_assoc, compareLex_drain x y n,
      mod_two_pow_add x n 5, mod_two_pow_add y n 5, compare_mul_add (mod_lt _ n.two_pow_pos) (mod_lt _ n.two_pow_pos)]
    rfl
  | 0 | 1 | 2 | 3 | 4 => rfl

variable {x n : Nat}

theorem shift_mod (h : n ≤ 5) : (x <<< (5 - n)) % 32 = (x % 2 ^ n) * 2 ^ (5 - n) := by
  have h32 : (32 : Nat) = 2 ^ n * 2 ^ (5 - n) := by
    rw [← Nat.pow_add, Nat.add_sub_cancel' h]
  rw [Nat.shiftLeft_eq, h32, Nat.mul_mod_mul_right]

theorem word_mod (b : UInt8) (h : n < 5) :
    ((x <<< 8 ||| b.toNat) % 2 ^ 32) % 2 ^ (n + 8) = x % 2 ^ n * 2 ^ 8 + b.toNat := by
  have hd : 2 ^ (n + 8) ∣ 2 ^ 32 := Nat.pow_dvd_pow 2 (by omega)
  have hb : b.toNat < 2 ^ 8 := b.toNat_lt
  rw [Nat.mod_mod_of_dvd _ hd, ← Nat.shiftLeft_add_eq_or_of_lt hb, Nat.add_comm n 8, mod_two_pow_add,
    Nat.shiftRight_eq_div_pow, Nat.shiftLeft_eq, Nat.add_comm (x * 2 ^ 8), Nat.add_mul_div_right _ _ (Nat.two_pow_pos 8),
    Nat.div_eq_of_lt hb, Nat.add_mul_mod_self_right, Nat.mod_eq_of_lt hb, Nat.zero_add]

/-- Induction over the octets: the digits still to come are in the order of the bits left and the
octets that follow. -/
theorem compareLex_digits : ∀ {data data' : List UInt8} {x y n : Nat}, data.length = data'.length → n < 5 →
    List.compareLex compare (digits x n data) (digits y n data') =
      (compare (x % 2 ^ n) (y % 2 ^ n)).then (List.compareLex compare (data.map UInt8.toNat) (data'.map UInt8.toNat))
  | [], [], x, y, n, _, hn => by
    rw [digits, digits]
    split
    next hpos =>
      have hk : 0 < 2 ^ (5 - n) := Nat.two_pow_pos _
      have h : compare (x % 2 ^ n * 2 ^ (5 - n) + 0) (y % 2 ^ n * 2 ^ (5 - n) + 0) = _ := compare_mul_add hk hk
      rw [Nat.add_zero, Nat.add_zero] at h
      rw [List.compareLex_cons_cons, shift_mod hn.le, shift_mod hn.le, h]
      simp
    next hzr =>
      obtain rfl : n = 0 := by omega
      simp [Nat.mod_one]
  | b :: data, b' :: data', x, y, n, hlen, hn => by
    have hrs := Nat.mod_lt (n + 8) (by omega : 0 < 5)
    rw [digits, digits]
    simp only [drain_rest]
    rw [compareLex_append (by rw [drain_length, drain_length]), compareLex_digits (Nat.succ.inj hlen) hrs, ←
      Ordering.then_assoc, compareLex_drain, word_mod b hn, word_mod b' hn, compare_mul_add b.toNat_lt b'.toNat_lt,
      map_cons, map_cons, List.compareLex_cons_cons, Ordering.then_assoc]

theorem lt_of_mem_digits {d : Nat} : ∀ {data : List UInt8} {x n : Nat}, d ∈ digits x n data → d < 32 := by
  have hd : ∀ x n, d ∈ (drain x n).1 → d < 32 := by
    intro x n
    induction n using Nat.strong_induction_on with
    | _ n ih =>
      match n with
      | n + 5 =>
        intro h
        rw [drain] at h
        rcases mem_cons.1 h with rfl | h
        · exact Nat.mod_lt _ (by decide)
        · exact ih n (by omega) h
      | 0 | 1 | 2 | 3 | 4 => intro h; cases h
  intro data
  induction data with
  | nil =>
    intro x n h
    rw [digits] at h
    split at h
    · rw [mem_singleton.1 h]
      exact Nat.mod_lt _ (by decide)
    · cases h
  | cons b data ih =>
    intro x n h
    rw [digits] at h
    rcases mem_append.1 h with h | h
    · exact hd _ _ h
    · exact ih h

def code (d : Nat) : Nat := ((alphabet.getD d '0').toUpper).toNat

theorem compare_code (ha : a < 32) (hb : b < 32) : compare (code a) (code b) = compare a b := by
  have hall : ∀ a b : Fin 32, compare (code a) (code b) = compare a.val b.val := by decide +kernel
  exact hall ⟨a, ha⟩ ⟨b, hb⟩

variable {data data' : List UInt8}

theorem compareLex_encode_of {f : Char → Nat}
    (hf : ∀ a b : Fin 32, compare (f (alphabet.getD a '0')) (f (alphabet.getD b '0')) = compare a.val b.val)
    (h : data.length = data'.length) : List.compareLex compare ((encode data).map f) ((encode data').map f)
      = List.compareLex compare (data.map UInt8.toNat) (data'.map UInt8.toNat) := by
  rw [encode, encode, map_map, map_map]
  calc List.compareLex compare ((digits 0 0 data).map (f ∘ fun d => alphabet.getD d '0')) _
      = List.compareLex compare (digits 0 0 data) (digits 0 0 data') :=
        compareLex_map fun a ha b hb => hf ⟨a, lt_of_mem_digits ha⟩ ⟨b, lt_of_mem_digits hb⟩
    _ = List.compareLex compare (data.map UInt8.toNat) (data'.map UInt8.toNat) := by
        rw [compareLex_digits h (by decide)]
        simp [mod_one]

/-- **The texts of octet strings of one length are in the order of the octets**, in upper case. -/
theorem compareLex_encode (h : data.length = data'.length) :
    List.compareLex compare ((encode data).map fun c => c.toUpper.toNat) ((encode data').map fun c => c.toUpper.toNat)
      = List.compareLex compare (data.map UInt8.toNat) (data'.map UInt8.toNat) :=
  compareLex_encode_of (fun a b => compare_code a.isLt b.isLt) h

theorem compareLex_encode_lower (h : data.length = data'.length) :
    List.compareLex compare ((encode data).map Char.toNat) ((encode data').map Char.toNat)
      = List.compareLex compare (data.map UInt8.toNat) (data'.map UInt8.toNat) :=
  compareLex_encode_of (by decide +kernel) h

end Base32
