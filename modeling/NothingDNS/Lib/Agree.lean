import Mathlib.Data.List.Basic
import Mathlib.Order.Lattice
import Mathlib.Tactic.Common
/-!
# Lists that agree up to an index

`Agree k X Y`: the first `k` elements of `X` and `Y` are the same (and, where one list is shorter than `k`, so is the
other).
-/

def Agree {E : Type} (k : Nat) (X Y : List E) : Prop := X.take k = Y.take k

namespace Agree

open List

variable {E : Type} {j k m : Nat} {X Y Z : List E}

theorem refl (k : Nat) (X : List E) : Agree k X X := rfl

theorem symm (h : Agree k X Y) : Agree k Y X := Eq.symm h

theorem trans (h₁ : Agree k X Y) (h₂ : Agree k Y Z) : Agree k X Z := Eq.trans h₁ h₂

theorem mono (h : Agree k X Y) (hj : j ≤ k) : Agree j X Y := by
  have := congrArg (take j) h
  rwa [take_take, take_take, min_eq_left hj] at this

theorem zero (X Y : List E) : Agree 0 X Y := rfl

theorem getElem? (h : Agree k X Y) {i : Nat} (hi : i < k) : X[i]? = Y[i]? := by
  have := congrArg (fun Z : List E => Z[i]?) h
  simpa [hi] using this

theorem le_length (h : Agree k X Y) (hk : k ≤ Y.length) : k ≤ X.length := by
  have := congrArg length h
  rw [length_take, length_take] at this
  omega

theorem take_left (hk : k ≤ m) : Agree k (X.take m) X := by
  rw [Agree, take_take, min_eq_left hk]

theorem append_left (hk : k ≤ X.length) : Agree k (X ++ Y) X := by
  rw [Agree, take_append_of_le_length hk]

theorem append_iff : Agree k (X ++ Y) (X ++ Z) ↔ Agree (k - X.length) Y Z := by
  rw [Agree, take_append, take_append, append_cancel_left_eq, Agree]

theorem of_isPrefix (h : X <+: Y) (hk : k ≤ X.length) : Agree k X Y := by
  obtain ⟨Z, rfl⟩ := h
  exact (append_left hk).symm

/-- If `X` agrees with `Y` up to `k` but does not contain the first `m` elements of `Y`, then the
difference lies past `k`. -/
theorem lt_of_not_isPrefix (h : Agree k X Y) (hn : ¬ Y.take m <+: X) : k < m := by
  by_contra hle
  have hm : Agree m X Y := h.mono (not_lt.1 hle)
  exact hn (by rw [← hm]; exact List.take_prefix m X)

theorem le_of_getElem?_ne (h : Agree k X Y) {i : Nat} (hn : X[i]? ≠ Y[i]?) : k ≤ i := by
  by_contra hlt
  exact hn (h.getElem? (not_le.1 hlt))

end Agree
