import Mathlib.Algebra.Order.Group.Nat
import Mathlib.Data.List.Induction
import Mathlib.Tactic.Common
import Mathlib.Tactic.Ring
/-!
# Big-endian integers

Fixed-width big-endian encoding of naturals, as every wire and file format here uses it. `encode k` writes the low `8
* k` bits; `decode` reads any number of octets.
-/

namespace BigEndian

open List

def encode : Nat → Nat → List UInt8
  | 0, _ => []
  | k + 1, x => encode k (x / 256) ++ [UInt8.ofNat x]

def decode (bs : List UInt8) : Nat := bs.foldl (fun acc b => acc * 256 + b.toNat) 0

@[simp] theorem length_encode (k x : Nat) : (encode k x).length = k := by
  induction k generalizing x with
  | zero => rfl
  | succ k ih => simp [encode, ih]

theorem encode_succ (k x : Nat) : encode (k + 1) x = UInt8.ofNat (x / 256 ^ k) :: encode k x := by
  induction k generalizing x with
  | zero => simp [encode]
  | succ k ih => rw [encode, ih, encode, Nat.div_div_eq_div_mul, ← pow_succ', cons_append]

theorem decode_concat (bs : List UInt8) (b : UInt8) : decode (bs ++ [b]) = decode bs * 256 + b.toNat := by
  simp [decode]

theorem decode_append (bs cs : List UInt8) : decode (bs ++ cs) = decode bs * 256 ^ cs.length + decode cs := by
  induction cs using reverseRecOn with
  | nil => simp [decode]
  | append_singleton cs c ih =>
    rw [← append_assoc, decode_concat, ih, decode_concat, length_append, length_singleton, pow_succ]
    ring

theorem encode_add (m k x : Nat) : encode (m + k) x = encode m (x / 256 ^ k) ++ encode k x := by
  induction k generalizing x with
  | zero => simp [encode]
  | succ k ih => rw [← Nat.add_assoc, encode, ih, encode, Nat.div_div_eq_div_mul, ← pow_succ', append_assoc]

theorem decode_lt (bs : List UInt8) : decode bs < 256 ^ bs.length := by
  induction bs using reverseRecOn with
  | nil => simp [decode]
  | append_singleton bs b ih =>
    have hb := b.toNat_lt
    rw [decode_concat, length_append, length_singleton, pow_succ]
    omega

theorem decode_encode (k x : Nat) : decode (encode k x) = x % 256 ^ k := by
  induction k generalizing x with
  | zero => simp [encode, decode, Nat.mod_one]
  | succ k ih =>
    have hb : (UInt8.ofNat x).toNat = x % 256 := by simp
    rw [encode, decode_concat, ih, hb, pow_succ, Nat.mul_comm (256 ^ k), Nat.mod_mul]
    ring

theorem decode_encode_of_lt {k x : Nat} (h : x < 256 ^ k) : decode (encode k x) = x := by
  rw [decode_encode, Nat.mod_eq_of_lt h]

theorem encode_decode (bs : List UInt8) : encode bs.length (decode bs) = bs := by
  induction bs using reverseRecOn with
  | nil => rfl
  | append_singleton bs b ih =>
    have hb := b.toNat_lt
    rw [length_append, length_singleton, encode, decode_concat]
    have hd : (decode bs * 256 + b.toNat) / 256 = decode bs := by omega
    have hmd : UInt8.ofNat (decode bs * 256 + b.toNat) = b := by
      apply UInt8.toNat_inj.1
      simp only [UInt8.toNat_ofNat']
      omega
    rw [hd, hmd, ih]

theorem decode_injective {bs cs : List UInt8} (hlen : bs.length = cs.length) (h : decode bs = decode cs) : bs = cs := by
  rw [← encode_decode bs, ← encode_decode cs, hlen, h]

end BigEndian
