import Mathlib.Data.List.Nodup
import Mathlib.Tactic.Common
/-!
# Loops over a snapshot of a table

A table is a list of records with distinct tags. A loop goes over some of the records as they were when
it began, and for each of them changes or removes the record of its tag in the table. As the tags differ,
no turn sees what another one did: every record is changed once (`foldl_filter`).
-/

namespace Snapshot

open List

variable {α κ : Type} {tag : α → κ}

theorem map_filterMap_sublist {change : α → Option α} (htag : ∀ a b, change a = some b → tag b = tag a) :
    ∀ table : List α, ((table.filterMap change).map tag).Sublist (table.map tag)
  | [] => .slnil
  | a :: table => by
    rw [filterMap_cons]
    split
    next => exact (map_filterMap_sublist htag table).cons _
    next b hb =>
      rw [map_cons, map_cons, htag a b hb]
      exact (map_filterMap_sublist htag table).cons_cons _

variable [DecidableEq κ]

def update (tag : α → κ) (change : α → Option α) (table : List α) (a : α) : List α :=
  table.filterMap fun b => if tag b = tag a then change b else some b

theorem map_cons_of_fresh {a : α} {table : List α} (h : tag a ∉ table.map tag) (f : α → α) :
    (a :: table).map (fun b => if tag b = tag a then f b else b) = f a :: table := by
  rw [map_cons, if_pos rfl]
  refine congrArg _ ((map_congr_left fun b hb => if_neg fun htag => h ?_).trans (map_id table))
  exact htag ▸ mem_map_of_mem hb

/-- In the table, the record of `a`'s tag is `a` itself. -/
def Current (tag : α → κ) (table : List α) (a : α) : Prop := ∀ b ∈ table, tag b = tag a → b = a

section Update

variable {change : α → Option α} {table : List α} {a b : α}

theorem update_keep (hcr : Current tag table a) (h : change a = some a) : update tag change table a = table := by
  refine (filterMap_congr fun c hc => ?_).trans filterMap_some
  split_ifs with hca
  · rw [hcr c hc hca, h]
  · rfl

theorem update_set (hcr : Current tag table a) (h : change a = some b) :
    update tag change table a = table.map fun c => if tag c = tag a then b else c := by
  rw [update, ← filterMap_eq_map]
  refine filterMap_congr fun c hc => ?_
  rw [Function.comp_apply]
  split_ifs with hca
  · rw [hcr c hc hca, h]
  · rfl

theorem update_remove (hcr : Current tag table a) (h : change a = none) :
    update tag change table a = table.filter fun c => tag c ≠ tag a := by
  rw [update, ← filterMap_eq_filter]
  refine filterMap_congr fun c hc => ?_
  by_cases hca : tag c = tag a
  · rw [hcr c hc hca]
    simp [h, Option.guard]
  · simp [hca, Option.guard]

end Update

theorem Current.update {change : α → Option α} {table : List α} {a c : α} (hc : Current tag table c)
    (htag : ∀ a b, change a = some b → tag b = tag a) (hne : tag c ≠ tag a) :
    Current tag (update tag change table a) c := by
  intro b hb hbc
  obtain ⟨b', hb', hch⟩ := mem_filterMap.1 hb
  split_ifs at hch with ha
  · exact absurd (hbc.symm.trans ((htag b' b hch).trans ha)) hne
  · cases hch
    exact hc b hb' hbc

variable {change : α → Option α} {step : List α → α → List α}
  (hstep : ∀ table a, Current tag table a → step table a = update tag change table a)
  (htag : ∀ a b, change a = some b → tag b = tag a)
include hstep htag

theorem foldl_eq : ∀ {l table : List α}, (l.map tag).Nodup → (∀ a ∈ l, Current tag table a) →
    l.foldl step table = table.filterMap fun b => if tag b ∈ l.map tag then change b else some b
  | [], table, _, _ => by simp
  | a :: l, table, hnd, hcr => by
    rw [map_cons, nodup_cons] at hnd
    rw [forall_mem_cons] at hcr
    have hne : ∀ c ∈ l, tag c ≠ tag a := fun c hc h => hnd.1 (h ▸ mem_map_of_mem hc)
    rw [foldl_cons, hstep table a hcr.1,
      foldl_eq hnd.2 fun c hc => (hcr.2 c hc).update htag (hne c hc), update, filterMap_filterMap]
    refine filterMap_congr fun b _ => ?_
    by_cases hb : tag b = tag a
    · simp only [hb, if_true, map_cons, mem_cons, true_or]
      cases hch : change b with
      | none => rfl
      | some b' => simp only [Option.bind_some, htag b b' hch, hb, if_neg hnd.1]
    · simp [hb]

/-- **Each of the chosen records is changed once.** -/
theorem foldl_filter {table : List α} (hnd : (table.map tag).Nodup) (chosen : α → Bool) :
    (table.filter chosen).foldl step table = table.filterMap fun b => if chosen b then change b else some b := by
  have hij := inj_on_of_nodup_map hnd
  have hsb : ((table.filter chosen).map tag).Nodup := hnd.sublist (filter_sublist.map tag)
  rw [foldl_eq hstep htag hsb fun a ha b hb h => hij hb (mem_of_mem_filter ha) h]
  refine filterMap_congr fun b hb => ?_
  have hcs : tag b ∈ (table.filter chosen).map tag ↔ chosen b = true := by
    rw [mem_map]
    constructor
    · rintro ⟨c, hc, htc⟩
      obtain ⟨hc, hch⟩ := mem_filter.1 hc
      exact hij hc hb htc ▸ hch
    · exact fun h => ⟨b, mem_filter.2 ⟨hb, h⟩, rfl⟩
  simp only [hcs]

theorem foldl_self {table : List α} (hnd : (table.map tag).Nodup) :
    table.foldl step table = table.filterMap change := by
  have hall := foldl_filter hstep htag hnd fun _ => true
  rwa [filter_true, show (fun b => if true = true then change b else some b) = change from rfl] at hall

end Snapshot
