import Mathlib.Order.Lattice
import Mathlib.Data.List.Induction
import Mathlib.Tactic.Common
import Mathlib.Tactic.Order
/-!
# The first of the least

A loop that keeps the best element so far and replaces it only by a strictly better
one ends with an element of least key, if there was any.
-/

namespace Least

open List

variable {α β : Type} [LinearOrder β] (key : α → β)

/-- `if best == nil || key a < key best { best = a }`. -/
def pick : Option α → α → Option α
  | none, a => some a
  | some b, a => if key a < key b then some a else some b

def least (l : List α) : Option α := l.foldl (pick key) none

variable {key}

theorem foldl_pick_some (key : α → β) : ∀ (l : List α) (b : α), ∃ a, l.foldl (pick key) (some b) = some a ∧ (a = b ∨ a ∈ l) ∧
    key a ≤ key b ∧ ∀ c ∈ l, key a ≤ key c
  | [], b => ⟨b, rfl, .inl rfl, le_rfl, by simp⟩
  | c :: l, b => by
    rw [foldl_cons, pick]
    split_ifs with hlt
    · obtain ⟨a, ha, hmem, hc, hall⟩ := foldl_pick_some key l c
      refine ⟨a, ha, .inr ?_, hc.trans hlt.le, ?_⟩
      · rcases hmem with rfl | hmem
        · exact mem_cons_self
        · exact mem_cons_of_mem _ hmem
      · rw [forall_mem_cons]
        exact ⟨hc, hall⟩
    · obtain ⟨a, ha, hmem, hb, hall⟩ := foldl_pick_some key l b
      refine ⟨a, ha, hmem.imp id (mem_cons_of_mem _), hb, ?_⟩
      rw [forall_mem_cons]
      exact ⟨hb.trans (not_lt.1 hlt), hall⟩

theorem least_eq_none {l : List α} : least key l = none ↔ l = [] := by
  cases l with
  | nil => simp [least]
  | cons b l =>
    obtain ⟨a, ha, -⟩ := foldl_pick_some key l b
    have hfl : least key (b :: l) = some a := ha
    simp [hfl]

theorem least_eq_some {l : List α} {a : α} (h : least key l = some a) : a ∈ l ∧ ∀ c ∈ l, key a ≤ key c := by
  cases l with
  | nil => cases h
  | cons b l =>
    obtain ⟨a', ha, hmem, hb, hall⟩ := foldl_pick_some key l b
    obtain rfl : a' = a := Option.some.inj (ha.symm.trans h)
    refine ⟨?_, ?_⟩
    · rcases hmem with rfl | hmem
      · exact mem_cons_self
      · exact mem_cons_of_mem _ hmem
    · rw [forall_mem_cons]
      exact ⟨hb, hall⟩

/-- Going on from the best so far is the same as comparing it with the best of the rest. -/
theorem foldl_pick (b : Option α) (l : List α) : l.foldl (pick key) b = (least key l).elim b (pick key b) := by
  induction l using List.reverseRecOn with
  | nil => rfl
  | append_singleton l a ih =>
    rw [least, foldl_append, foldl_append, ih, foldl_cons, foldl_cons, foldl_nil, foldl_nil]
    change _ = (pick key (least key l) a).elim b (pick key b)
    cases least key l with
    | none => rfl
    | some m =>
      cases b with
      | none =>
        simp only [Option.elim_some, pick]
        split_ifs <;> rfl
      | some x =>
        simp only [Option.elim_some, pick]
        split_ifs <;> simp only [Option.elim_some, pick] <;> split_ifs <;> first | rfl | order

end Least
