import Mathlib.Algebra.Order.Field.Basic
import Mathlib.Tactic.Linarith
/-!
# Token buckets

A bucket holds at most `B` tokens, gains `r` of them in a unit of time, and each request that is let through takes
one. `Exact` ties the level to the times of the requests that were: the level is what every window up to now has
left of its `B + r * w`, and there is a window with no more left than that.
-/

namespace TokenBucket

open List

variable {K : Type} [Field K] [LinearOrder K] [IsStrictOrderedRing K]

structure Exact (B r now v : K) (ts : List K) : Prop where
  past : ∀ a ∈ ts, a ≤ now
  nonneg : 0 ≤ v
  le : v ≤ B
  upper : ∀ s ≤ now, ts.countP (s ≤ ·) + v ≤ B + r * (now - s)
  lower : ∃ s ≤ now, B + r * (now - s) ≤ ts.countP (s ≤ ·) + v
  bound : ∀ s e, s ≤ e → ts.countP (fun a => s ≤ a ∧ a ≤ e) ≤ B + r * (e - s)

variable {B r now v t : K} {ts : List K}

theorem Exact.full (hB : 0 ≤ B) (hr : 0 ≤ r) : Exact B r now B [] := by
  have hpos {w : K} (hw : 0 ≤ w) := mul_nonneg hr hw
  refine ⟨by simp, hB, le_rfl, fun s hs => ?_, ⟨now, le_rfl, by simp⟩, fun s e hse => ?_⟩
  · simpa using hpos (sub_nonneg.2 hs)
  · simpa using add_nonneg hB (hpos (sub_nonneg.2 hse))

theorem Exact.advance (h : Exact B r now v ts) (hr : 0 ≤ r) (ht : now ≤ t) :
    Exact B r t (min (v + r * (t - now)) B) ts := by
  have hsp (s : K) : r * (t - s) = r * (t - now) + r * (now - s) := by
    rw [← mul_add, sub_add_sub_cancel]
  have hg : 0 ≤ r * (t - now) := mul_nonneg hr (sub_nonneg.2 ht)
  refine ⟨fun a ha => (h.past a ha).trans ht, le_min (add_nonneg h.nonneg hg) (h.nonneg.trans h.le),
    min_le_right _ _, fun s hs => ?_, ?_, h.bound⟩
  · rcases le_or_gt s now with hsn | hsn
    · have := h.upper s hsn
      have := min_le_left (v + r * (t - now)) B
      rw [hsp s]
      linarith
    · -- a window that starts now is still empty
      have hzr : ts.countP (s ≤ ·) = 0 := by
        simpa using fun a ha => (h.past a ha).trans_lt hsn
      have := mul_nonneg hr (sub_nonneg.2 hs)
      have := min_le_right (v + r * (t - now)) B
      rw [hzr]
      push_cast
      linarith
  · rcases le_total (v + r * (t - now)) B with hft | hov
    · obtain ⟨s, hs, hlw⟩ := h.lower
      refine ⟨s, hs.trans ht, ?_⟩
      rw [min_eq_left hft, hsp s]
      linarith
    · refine ⟨t, le_rfl, ?_⟩
      rw [min_eq_right hov]
      simp

theorem Exact.take (h : Exact B r now v ts) (hr : 0 ≤ r) (hv : 1 ≤ v) : Exact B r now (v - 1) (now :: ts) := by
  refine ⟨?_, sub_nonneg.2 hv, (sub_le_self v zero_le_one).trans h.le, fun s hs => ?_, ?_, fun s e hse => ?_⟩
  · simpa using h.past
  · have := h.upper s hs
    rw [countP_cons_of_pos (by simpa using hs)]
    push_cast
    linarith
  · obtain ⟨s, hs, hlw⟩ := h.lower
    refine ⟨s, hs, ?_⟩
    rw [countP_cons_of_pos (by simpa using hs)]
    push_cast
    linarith
  · by_cases hin : s ≤ now ∧ now ≤ e
    · have := h.upper s hin.1
      have hle : ts.countP (fun a => s ≤ a ∧ a ≤ e) ≤ ts.countP (s ≤ ·) := countP_mono_left (by simp +contextual)
      have hle : (ts.countP (fun a => s ≤ a ∧ a ≤ e) : K) ≤ ts.countP (s ≤ ·) := by exact_mod_cast hle
      have := mul_le_mul_of_nonneg_left (sub_le_sub_right hin.2 s) hr
      rw [countP_cons_of_pos (by simpa using hin)]
      push_cast
      linarith
    · rw [countP_cons_of_neg (by simpa using hin)]
      exact h.bound s e hse

/-- Too few tokens for a request: with it, some window that ends now would be over its bound. -/
theorem Exact.refuse (h : Exact B r now v ts) (hv : v < 1) :
    ∃ s ≤ now, B + r * (now - s) < ts.countP (fun a => s ≤ a ∧ a ≤ now) + 1 := by
  obtain ⟨s, hs, hlw⟩ := h.lower
  have hsm : ts.countP (fun a => s ≤ a ∧ a ≤ now) = ts.countP (s ≤ ·) :=
    countP_congr fun a ha => by simp [h.past a ha]
  refine ⟨s, hs, ?_⟩
  rw [hsm]
  linarith

end TokenBucket
