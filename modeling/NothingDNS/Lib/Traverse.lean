import Mathlib.Data.List.Basic
import Mathlib.Data.Option.Basic
import Mathlib.Tactic.Common
/-!
# Loops that stop at the first failure

`List.mapM` over `Option` is the loop that turns each element and gives up at the first that fails. It
succeeds if and only if every turn does, and what it gives is what the turns gave (`mapM_eq_some`).
-/

namespace Traverse

open List

variable {α β : Type} {f : α → Option β} {l : List α} {bs : List β}

theorem mapM_eq_some : ∀ {l : List α} {bs : List β}, l.mapM f = some bs ↔ l.map f = bs.map some
  | [], bs => by
    rw [mapM_nil, map_nil, eq_comm, eq_comm (b := bs.map some), map_eq_nil_iff]
    exact Option.some_inj
  | a :: l, [] => by simp [Option.bind_eq_some_iff]
  | a :: l, b :: bs => by
    rw [map_cons, map_cons, cons.injEq, ← mapM_eq_some]
    simp [Option.bind_eq_some_iff]

theorem mapM_eq_some_map {g : α → β} (h : ∀ a ∈ l, f a = some (g a)) : l.mapM f = some (l.map g) := by
  rw [mapM_eq_some, map_map]
  exact map_congr_left h

theorem isSome_of_mapM (h : l.mapM f = some bs) {a : α} (ha : a ∈ l) : (f a).isSome = true := by
  have hmem : f a ∈ bs.map some := mapM_eq_some.1 h ▸ mem_map_of_mem ha
  obtain ⟨b, -, hb⟩ := mem_map.1 hmem
  rw [← hb]
  rfl

theorem mem_of_mapM (h : l.mapM f = some bs) {b : β} (hb : b ∈ bs) : ∃ a ∈ l, f a = some b := by
  have hmem : some b ∈ l.map f := mapM_eq_some.1 h ▸ mem_map_of_mem hb
  exact mem_map.1 hmem

end Traverse
