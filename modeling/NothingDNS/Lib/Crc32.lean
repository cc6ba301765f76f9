import Mathlib.Logic.Function.Iterate
import Mathlib.Tactic.Common
/-!
# CRC-32 (IEEE 802.3)

The reflected CRC-32 of Go's `hash/crc32`, one bit at a time. A checksum can be
continued: `update` on two pieces is `update` on their concatenation.
-/

namespace Crc32

def bit (c : UInt32) : UInt32 := if c &&& 1 = 1 then (c >>> 1) ^^^ 0xEDB88320 else c >>> 1

def byte (c : UInt32) (b : UInt8) : UInt32 := Nat.iterate bit 8 (c ^^^ b.toUInt32)

/-- `crc32.Update(crc, crc32.IEEETable, bs)`. -/
def update (crc : UInt32) (bs : List UInt8) : UInt32 := ~~~ (bs.foldl byte (~~~ crc))

/-- `crc32.ChecksumIEEE`. -/
def checksum (bs : List UInt8) : UInt32 := update 0 bs

theorem update_append (c : UInt32) (xs ys : List UInt8) : update (update c xs) ys = update c (xs ++ ys) := by
  simp [update, List.foldl_append]

/-! ## One changed octet is always noticed -/

theorem bit_injective : Function.Injective bit := by
  intro c d h
  have hsh : ∀ x : UInt32, (x >>> 1).toBitVec.msb = false := by
    intro x
    rw [UInt32.toBitVec_shiftRight]
    simp [BitVec.msb_ushiftRight]
  -- the polynomial has its highest bit set, so the highest bit tells which branch was taken
  have hp : ∀ x : UInt32, ((x >>> 1) ^^^ 0xEDB88320).toBitVec.msb = true := by
    intro x
    rw [UInt32.toBitVec_xor, BitVec.msb_xor, hsh]
    decide
  have hlw : ∀ x : UInt32, (x &&& 1).toNat = x.toNat % 2 := by
    intro x
    rw [UInt32.toNat_and]
    exact Nat.and_one_is_mod _
  have hh : ∀ x : UInt32, (x >>> 1).toNat = x.toNat / 2 := by
    intro x
    rw [UInt32.toNat_shiftRight]
    rfl
  have hon : ∀ x : UInt32, x &&& 1 = 1 ↔ x.toNat % 2 = 1 := by
    intro x
    rw [← UInt32.toNat_inj, hlw]
    rfl
  have hsm : c >>> 1 = d >>> 1 → c.toNat % 2 = d.toNat % 2 → c = d := by
    intro hs hm
    have hdv := congrArg UInt32.toNat hs
    rw [hh, hh] at hdv
    apply UInt32.toNat_inj.1
    omega
  unfold bit at h
  split at h <;> split at h <;> rename_i hc hd <;> rw [hon] at hc hd
  · exact hsm ((UInt32.xor_left_inj _).1 h) (by omega)
  · have := congrArg (fun x : UInt32 => x.toBitVec.msb) h
    simp only [hp, hsh] at this
    cases this
  · have := congrArg (fun x : UInt32 => x.toBitVec.msb) h
    simp only [hp, hsh] at this
    cases this
  · exact hsm h (by omega)

theorem byte_injective (b : UInt8) : Function.Injective fun c => byte c b := by
  intro c d h
  exact (UInt32.xor_left_inj _).1 (bit_injective.iterate 8 h)

theorem byte_ne {b b' : UInt8} (h : b ≠ b') (c : UInt32) : byte c b ≠ byte c b' := by
  intro heq
  have hx := (UInt32.xor_right_inj _).1 (bit_injective.iterate 8 heq)
  refine h (UInt8.toNat_inj.1 ?_)
  have := congrArg UInt32.toNat hx
  simpa using this

theorem foldl_byte_injective (bs : List UInt8) : Function.Injective fun c => bs.foldl byte c := by
  induction bs with
  | nil => exact fun _ _ h => h
  | cons b bs ih => exact fun c d h => byte_injective b (ih h)

theorem checksum_ne_of_octet (xs ys : List UInt8) {b b' : UInt8} (h : b ≠ b') :
    checksum (xs ++ b :: ys) ≠ checksum (xs ++ b' :: ys) := by
  intro heq
  have hfl := UInt32.not_inj.1 heq
  simp only [List.foldl_append, List.foldl_cons] at hfl
  exact byte_ne h _ (foldl_byte_injective ys hfl)

/-- The check value of the ASCII digits `1` to `9`. -/
example : checksum [49, 50, 51, 52, 53, 54, 55, 56, 57] = 0xCBF43926 := by decide +kernel

end Crc32
