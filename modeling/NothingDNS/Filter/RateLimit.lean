import Mathlib.Algebra.Order.Ring.Rat
import Mathlib.Data.Finset.Dedup
import Mathlib.Data.Finset.Order
import Mathlib.Data.List.AList
import Mathlib.Data.List.Induction
import NothingDNS.Lib.TokenBucket
/-!
# The rate limit of a client (`internal/filter/ratelimit.go`)

Times and tokens are numbers of an ordered field, so the arithmetic is exact. The table is iterated in any order, so
`evictOldest` is any function here. While there is room for all clients it is not called, and the limiter is a token
bucket for each of them (`rate_limit_exact`): a bucket that is pruned has filled up again.
-/

namespace NothingDNS.Filter

open List TokenBucket Option

section Table

variable {Key K β : Type} [DecidableEq Key] {bs : AList fun _ : Key => β} {key : Key}

theorem length_lt_of_new {keys : List Key} {n : Nat} (hkn : ∀ key ∈ bs, key ∈ keys) (hfw : keys.length ≤ n)
    (hkey : key ∈ keys) (hnn : bs.lookup key = none) : bs.entries.length < n := by
  have hnd : (key :: bs.keys).Nodup := nodup_cons.2 ⟨AList.lookup_eq_none.1 hnn, bs.keys_nodup⟩
  have := (subperm_of_subset hnd (cons_subset.2 ⟨hkey, hkn⟩)).length_le
  simp only [AList.keys, List.keys, length_cons, length_map] at this
  omega

variable [Field K] [LinearOrder K] {lastTime : β → K} {now : K}

/-- What was last used more than five minutes ago goes. -/
def dropStale (lastTime : β → K) (bs : AList fun _ : Key => β) (now : K) : AList fun _ : Key => β :=
  ⟨bs.entries.filter fun e => ¬lastTime e.2 < now - 300, bs.nodupKeys.sublist filter_sublist⟩

theorem mem_lookup_dropStale {b : β} :
    b ∈ (dropStale lastTime bs now).lookup key ↔ b ∈ bs.lookup key ∧ ¬lastTime b < now - 300 := by
  rw [AList.mem_lookup_iff, AList.mem_lookup_iff, dropStale, mem_filter, decide_eq_true_iff]

theorem mem_of_mem_dropStale (h : key ∈ dropStale lastTime bs now) : key ∈ bs := by
  obtain ⟨b, hb⟩ := isSome_iff_exists.1 (AList.lookup_isSome.2 h)
  exact AList.lookup_isSome.1 (isSome_of_mem (mem_lookup_dropStale.1 hb).1)

end Table

variable {Key K : Type} [Field K] [LinearOrder K]

def elapsedSecondsSince (lastTime now : K) : K := if now < lastTime then 0 else now - lastTime

def refill (rate : K) (burst : Nat) (tokens lastTime now : K) : K :=
  let tokens := tokens + rate * elapsedSecondsSince lastTime now
  if (burst : K) < tokens then (burst : K) else tokens

structure Bucket (K : Type) where
  tokens : K
  lastTime : K

abbrev Buckets (Key K : Type) := AList fun _ : Key => Bucket K

structure RateLimiter (Key K : Type) where
  rate : K
  burst : Nat
  maxBuckets : Nat
  evictOldest : Buckets Key K → Buckets Key K

namespace RateLimiter

variable [DecidableEq Key] (rl : RateLimiter Key K) (bs : Buckets Key K)

/-- From `ratelimit.go:69-109`. -/
def allow (key : Key) (now : K) : Buckets Key K × Bool :=
  match bs.lookup key with
  | none =>
    let bs := if rl.maxBuckets ≤ bs.entries.length then rl.evictOldest bs else bs
    (bs.insert key ⟨rl.burst - 1, now⟩, true)
  | some b =>
    let tokens := refill rl.rate rl.burst b.tokens b.lastTime now
    if tokens < 1 then (bs.insert key ⟨tokens, now⟩, false) else (bs.insert key ⟨tokens - 1, now⟩, true)

def pruneStale (now : K) : Buckets Key K := dropStale Bucket.lastTime bs now

inductive Event (Key K : Type) where
  | allow (key : Key) (now : K)
  | prune (now : K)

def Event.time : Event Key K → K
  | .allow _ now | .prune now => now

/-- The table and the times of the requests that were allowed, for each client. -/
def step (s : Buckets Key K × (Key → List K)) : Event Key K → Buckets Key K × (Key → List K)
  | .allow key now =>
    let (bs, allowed) := rl.allow s.1 key now
    (bs, if allowed then Function.update s.2 key (now :: s.2 key) else s.2)
  | .prune now => (pruneStale s.1 now, s.2)

def run (events : List (Event Key K)) : Buckets Key K × (Key → List K) := events.foldl rl.step (∅, fun _ => [])

def level (key : Key) (now : K) : K :=
  ((bs.lookup key).map fun b => min (b.tokens + rl.rate * (now - b.lastTime)) rl.burst).getD rl.burst

variable {rl bs} {key : Key} {now t : K}

theorem level_insert {x : K} (hx : x ≤ rl.burst) (k : Key) :
    rl.level (bs.insert key ⟨x, now⟩) k now = if k = key then x else rl.level bs k now := by
  unfold level
  split
  next h =>
    rw [h, AList.lookup_insert]
    simp [hx]
  next h => rw [AList.lookup_insert_ne h]

variable [IsStrictOrderedRing K]

omit [DecidableEq Key] in
theorem rate_nonneg (hr : (rl.burst : K) ≤ 300 * rl.rate) : 0 ≤ rl.rate := by
  have : (0 : K) ≤ rl.burst := Nat.cast_nonneg _
  linarith

theorem level_advance (hr : 0 ≤ rl.rate) (ht : now ≤ t) :
    rl.level bs key t = min (rl.level bs key now + rl.rate * (t - now)) rl.burst := by
  have hg : 0 ≤ rl.rate * (t - now) := mul_nonneg hr (sub_nonneg.2 ht)
  unfold level
  cases bs.lookup key with
  | none => exact (min_eq_right (le_add_of_nonneg_right hg)).symm
  | some b =>
    have hsm : rl.rate * (t - b.lastTime) = rl.rate * (now - b.lastTime) + rl.rate * (t - now) := by
      rw [← mul_add, sub_add_sub_cancel']
    simp only [map_some, getD_some]
    rw [← min_add_add_right, min_assoc, min_eq_right (le_add_of_nonneg_right hg), hsm, add_assoc]

theorem allow_eq (hrm : bs.lookup key = none → bs.entries.length < rl.maxBuckets) (hb : 1 ≤ rl.burst)
    (hls : ∀ b ∈ bs.lookup key, b.lastTime ≤ now) :
    rl.allow bs key now = (bs.insert key ⟨if 1 ≤ rl.level bs key now then rl.level bs key now - 1
      else rl.level bs key now, now⟩, decide (1 ≤ rl.level bs key now)) := by
  unfold allow level
  cases hl : bs.lookup key with
  | none =>
    have hon : (1 : K) ≤ rl.burst := by exact_mod_cast hb
    simp [(hrm hl).not_ge, hon]
  | some b =>
    have hmn (x : K) : (if (rl.burst : K) < x then (rl.burst : K) else x) = min x rl.burst := by
      rw [min_comm, min_def_lt]
    simp only [refill, elapsedSecondsSince, if_neg (hls b hl).not_gt, hmn, map_some, getD_some]
    split
    next h => simp [h.not_ge]
    next h => simp [not_lt.1 h]

structure Inv (rl : RateLimiter Key K) (keys : List Key) (now : K) (s : Buckets Key K × (Key → List K)) : Prop where
  exact : ∀ key, Exact (rl.burst : K) rl.rate now (rl.level s.1 key now) (s.2 key)
  known : ∀ key ∈ s.1, key ∈ keys
  bucket : ∀ key, ∀ b ∈ s.1.lookup key, b.lastTime ≤ now ∧ 0 ≤ b.tokens

variable {keys : List Key} {s : Buckets Key K × (Key → List K)}

theorem Inv.advance (h : rl.Inv keys now s) (hr : 0 ≤ rl.rate) (ht : now ≤ t) : rl.Inv keys t s := by
  refine ⟨fun key => ?_, h.known, fun key b hb => ⟨(h.bucket key b hb).1.trans ht, (h.bucket key b hb).2⟩⟩
  rw [level_advance hr ht]
  exact (h.exact key).advance hr ht

theorem Inv.allow (h : rl.Inv keys now s) (hr : 0 ≤ rl.rate) (hb : 1 ≤ rl.burst) (hfw : keys.length ≤ rl.maxBuckets)
    (hkey : key ∈ keys) : rl.Inv keys now (rl.step s (.allow key now)) := by
  have heq := allow_eq (length_lt_of_new h.known hfw hkey) hb fun b hl => (h.bucket key b hl).1
  obtain ⟨x, ts, hst, hx⟩ : ∃ x ts, rl.step s (.allow key now) = (s.1.insert key ⟨x, now⟩, Function.update s.2 key ts) ∧
      Exact (rl.burst : K) rl.rate now x ts := by
    simp only [step, heq]
    split
    next hon => exact ⟨_, _, by simp [hon], (h.exact key).take hr hon⟩
    next hon => exact ⟨_, _, by simp [hon], h.exact key⟩
  rw [hst]
  refine ⟨fun k => ?_, fun k hk => ?_, fun k b hl => ?_⟩
  · dsimp only
    rw [level_insert hx.le]
    split
    next hk => rwa [hk, Function.update_self]
    next hk =>
      rw [Function.update_of_ne hk]
      exact h.exact k
  · rcases (AList.mem_insert _).1 hk with rfl | hk
    · exact hkey
    · exact h.known k hk
  · rcases eq_or_ne k key with rfl | hk
    · cases (AList.lookup_insert _).symm.trans hl
      exact ⟨le_rfl, hx.nonneg⟩
    · exact h.bucket k b ((AList.lookup_insert_ne hk).symm.trans hl)

/-- A bucket that is pruned was full. -/
theorem Inv.level_pruneStale (h : rl.Inv keys now s) (hr : (rl.burst : K) ≤ 300 * rl.rate) (key : Key) :
    rl.level (pruneStale s.1 now) key now = rl.level s.1 key now := by
  cases hnw : (pruneStale s.1 now).lookup key with
  | some b => rw [level, level, hnw, (mem_lookup_dropStale.1 hnw).1]
  | none =>
    cases hold : s.1.lookup key with
    | none => rw [level, level, hnw, hold]
    | some b =>
      have hst : b.lastTime < now - 300 := by
        by_contra hfr
        exact nomatch hnw.symm.trans (mem_lookup_dropStale.2 ⟨hold, hfr⟩)
      have hfl : (rl.burst : K) ≤ b.tokens + rl.rate * (now - b.lastTime) := by
        have hpos := (h.bucket key b hold).2
        have := mul_le_mul_of_nonneg_left (show 300 ≤ now - b.lastTime by linarith) (rate_nonneg hr)
        linarith
      simp [level, hnw, hold, hfl]

theorem Inv.prune (h : rl.Inv keys now s) (hr : (rl.burst : K) ≤ 300 * rl.rate) :
    rl.Inv keys now (rl.step s (.prune now)) := by
  refine ⟨fun key => ?_, fun key hk => h.known key (mem_of_mem_dropStale hk),
    fun key b hl => h.bucket key b (mem_lookup_dropStale.1 hl).1⟩
  rw [step, h.level_pruneStale hr]
  exact h.exact key

theorem inv_run (hr : (rl.burst : K) ≤ 300 * rl.rate) (hb : 1 ≤ rl.burst) (hfw : keys.length ≤ rl.maxBuckets)
    {events : List (Event Key K)} (hsr : events.Pairwise (·.time ≤ ·.time))
    (hky : ∀ key now, .allow key now ∈ events → key ∈ keys) (hnw : ∀ e ∈ events, e.time ≤ now) :
    rl.Inv keys now (rl.run events) := by
  have hr0 := rate_nonneg hr
  induction events using List.reverseRecOn generalizing now with
  | nil => exact ⟨fun _ => .full (Nat.cast_nonneg _) hr0, by simp [run], by simp [run]⟩
  | append_singleton events e ih =>
    obtain ⟨hsr, -, hls⟩ := pairwise_append.1 hsr
    have hiv := ih hsr (fun key now hmem => hky key now (by simp [hmem])) fun x hx => hls x hx e (by simp)
    rw [run, foldl_append]
    refine Inv.advance ?_ hr0 (hnw e (by simp))
    cases e with
    | allow key now => exact hiv.allow hr0 hb hfw (hky key now (by simp))
    | prune now => exact hiv.prune hr

/-- **The limiter is an exact token bucket.** -/
theorem rate_limit_exact (hr : (rl.burst : K) ≤ 300 * rl.rate) (hb : 1 ≤ rl.burst) (hfew : keys.length ≤ rl.maxBuckets)
    {events : List (Event Key K)} (hsorted : events.Pairwise (·.time ≤ ·.time))
    (hkeys : ∀ key now, .allow key now ∈ events → key ∈ keys) (key : Key) :
    (∀ s e, s ≤ e → ((rl.run events).2 key).countP (fun a => s ≤ a ∧ a ≤ e) ≤ rl.burst + rl.rate * (e - s)) ∧
    ∀ before now after, events = before ++ .allow key now :: after → (rl.allow (rl.run before).1 key now).2 = false →
      ∃ s ≤ now, rl.burst + rl.rate * (now - s) < ((rl.run before).2 key).countP (fun a => s ≤ a ∧ a ≤ now) + 1 := by
  constructor
  · obtain ⟨now, hnw⟩ := (events.map Event.time).toFinset.exists_le
    exact ((inv_run hr hb hfew hsorted hkeys fun e he => hnw _ (by simpa using ⟨e, he, rfl⟩)).exact key).bound
  · rintro before now after rfl hrf
    obtain ⟨hbf, -, hle⟩ := pairwise_append.1 hsorted
    have hiv : rl.Inv keys now (rl.run before) := inv_run hr hb hfew hbf
      (fun key now hmem => hkeys key now (by simp [hmem])) fun x hx => hle x hx (.allow key now) (by simp)
    rw [allow_eq (length_lt_of_new hiv.known hfew (hkeys key now (by simp))) hb fun b hl => (hiv.bucket key b hl).1] at hrf
    exact (hiv.exact key).refuse (not_le.1 (of_decide_eq_false hrf))

theorem rate_limit_exact_two : let rl : RateLimiter Unit ℚ := ⟨1, 2, 1, id⟩
    (rl.run [.allow () 0, .allow () 0, .prune 1]).2 () = [0, 0] ∧
      ((rl.run [.allow () 0, .allow () 0, .prune 1]).2 ()).countP (fun a => 0 ≤ a ∧ a ≤ 1) ≤ (3 : ℚ) := by
  refine ⟨by decide +kernel, ((@rate_limit_exact Unit ℚ _ _ _ ⟨1, 2, 1, id⟩ _ [()] ?_ ?_ ?_ _ ?_ ?_ ()).1 0 1 ?_).trans ?_⟩
  all_goals first | exact fun _ _ _ => mem_singleton.2 rfl | decide +kernel

end RateLimiter

end NothingDNS.Filter
