import NothingDNS.Filter.RateLimit
import NothingDNS.Lib.Run
/-!
# Response rate limiting (`internal/filter/rrl.go`)

A bucket is suppressed from a time on and `pruneStale` goes by another, `lastTime`. `Allow` sets both, so a window of
at most five minutes is over before the bucket goes. `LogSuperlative` sets `suppressed` only: a bucket that was not
used for a while goes within its window, and the next response is allowed (`suppression_pruned`).
-/

namespace NothingDNS.Filter

open List

variable {Key K : Type}

/-- `suppressed` is absent where the source has the zero time. -/
structure RrlBucket (K : Type) where
  tokens : K
  lastTime : K
  suppressed : Option K
deriving DecidableEq

abbrev RrlBuckets (Key K : Type) := AList fun _ : Key => RrlBucket K

structure RRL (Key K : Type) where
  rate : K
  burst : Nat
  window : K
  maxBuckets : Nat
  evictOldest : RrlBuckets Key K → RrlBuckets Key K

namespace RRL

inductive Event (Key K : Type) where
  | allow (key : Key) (now : K)
  | logSuperlative (key : Key) (now : K) (queryLen responseLen : Int)
  | prune (now : K)

def Event.time : Event Key K → K
  | .allow _ now | .logSuperlative _ now _ _ | .prune now => now

def Event.key : Event Key K → Option Key
  | .allow key _ | .logSuperlative key .. => some key
  | .prune _ => none

variable [DecidableEq Key] [Field K] [LinearOrder K] (rrl : RRL Key K) (bs : RrlBuckets Key K)

def addBucket (key : Key) (now : K) : RrlBuckets Key K :=
  let bs := if rrl.maxBuckets ≤ bs.entries.length then rrl.evictOldest bs else bs
  bs.insert key ⟨rrl.burst - 1, now, none⟩

/-- From `rrl.go:135-185`. -/
def allow (key : Key) (now : K) : RrlBuckets Key K × Bool × Bool :=
  match bs.lookup key with
  | none => (rrl.addBucket bs key now, true, false)
  | some b =>
    if b.suppressed.any fun t => now - t < rrl.window then (bs, false, true)
    else
      let tokens := refill rrl.rate rrl.burst b.tokens b.lastTime now
      if tokens < 1 then (bs.insert key ⟨tokens, now, some now⟩, false, true)
      else (bs.insert key ⟨tokens - 1, now, none⟩, true, false)

/-- From `rrl.go:191-227`. -/
def logSuperlative (key : Key) (now : K) (queryLen responseLen : Int) : RrlBuckets Key K :=
  if queryLen = 0 then bs
  else if (responseLen / queryLen : K) < 50 then bs
  else match bs.lookup key with
    | none => rrl.addBucket bs key now
    | some b =>
      let tokens := b.tokens - responseLen / queryLen
      if tokens < 0 then bs.insert key { b with tokens := 0, suppressed := some now }
      else bs.insert key { b with tokens }

def pruneStale (now : K) : RrlBuckets Key K := dropStale RrlBucket.lastTime bs now

structure State (Key K : Type) where
  clock : K
  buckets : RrlBuckets Key K

/-- Calls come at non-decreasing times. -/
def step (s : State Key K) (e : Event Key K) : Option (State Key K) :=
  if s.clock ≤ e.time then some ⟨e.time, match e with
    | .allow key now => (rrl.allow s.buckets key now).1
    | .logSuperlative key now queryLen responseLen => rrl.logSuperlative s.buckets key now queryLen responseLen
    | .prune now => pruneStale s.buckets now⟩
  else none

/-- The key is one of `keys`, and a bucket that `LogSuperlative` suppresses was used so late that it outlives its
window. -/
def Timely (keys : List Key) (s : State Key K) (e : Event Key K) : Prop :=
  (∀ key ∈ e.key, key ∈ keys) ∧ match e with
    | .logSuperlative key now queryLen responseLen => ∀ b ∈ s.buckets.lookup key, (50 : K) ≤ responseLen / queryLen →
        b.tokens < responseLen / queryLen → now + rrl.window ≤ b.lastTime + (300 : ℕ)
    | _ => True

structure Inv (keys : List Key) (s : State Key K) : Prop where
  known : ∀ key ∈ s.buckets, key ∈ keys
  window : ∀ key, ∀ b ∈ s.buckets.lookup key, ∀ t ∈ b.suppressed, t + rrl.window ≤ b.lastTime + 300

/-- What a step keeps: a bucket within its window is still there, suppressed since then or since now. -/
structure Next (keys : List Key) (s s' : State Key K) : Prop extends rrl.Inv keys s' where
  kept : ∀ key, ∀ b ∈ s.buckets.lookup key, ∀ t ∈ b.suppressed, s'.clock < t + rrl.window →
    ∃ b' ∈ s'.buckets.lookup key, b'.suppressed = some t ∨ b'.suppressed = some s'.clock

/-- The key is suppressed from `t` on, until the window is over. -/
structure Suppressed (key : Key) (t : K) (s : State Key K) : Prop where
  le : t ≤ s.clock
  bucket : s.clock < t + rrl.window → ∃ b ∈ s.buckets.lookup key, ∃ t' ∈ b.suppressed, t ≤ t'

variable {rrl} {keys : List Key} {key : Key} {now t : K} {s s' : State Key K} {e : Event Key K}

theorem step_clock (hs : rrl.step s e = some s') : s.clock ≤ e.time ∧ s'.clock = e.time := by
  unfold RRL.step at hs
  split at hs <;> cases hs
  exact ⟨‹_›, rfl⟩

theorem Inv.same (h : rrl.Inv keys s) : rrl.Next keys s ⟨now, s.buckets⟩ :=
  { h with kept := fun _ b hb _ ht _ => ⟨b, hb, .inl ht⟩ }

theorem Inv.insert (h : rrl.Inv keys s) (hkey : key ∈ keys) {b' : RrlBucket K}
    (hw : ∀ t ∈ b'.suppressed, t + rrl.window ≤ b'.lastTime + 300)
    (hkp : ∀ b ∈ s.buckets.lookup key, ∀ t ∈ b.suppressed, now < t + rrl.window →
      b'.suppressed = some t ∨ b'.suppressed = some now) : rrl.Next keys s ⟨now, s.buckets.insert key b'⟩ := by
  refine ⟨⟨fun k hk => ?_, fun k b hb => ?_⟩, fun k b hb t ht hlt => ?_⟩
  · rcases (AList.mem_insert _).1 hk with rfl | hk
    · exact hkey
    · exact h.known k hk
  · rcases eq_or_ne k key with rfl | hk
    · cases (AList.lookup_insert _).symm.trans hb
      exact hw
    · exact h.window k b ((AList.lookup_insert_ne hk).symm.trans hb)
  · rcases eq_or_ne k key with rfl | hk
    · exact ⟨b', AList.lookup_insert _, hkp b hb t ht hlt⟩
    · exact ⟨b, (AList.lookup_insert_ne hk).trans hb, .inl ht⟩

theorem Inv.addBucket (h : rrl.Inv keys s) (hfw : keys.length ≤ rrl.maxBuckets) (hkey : key ∈ keys)
    (hnn : s.buckets.lookup key = none) : rrl.Next keys s ⟨now, rrl.addBucket s.buckets key now⟩ := by
  rw [RRL.addBucket, if_neg (length_lt_of_new h.known hfw hkey hnn).not_ge]
  exact h.insert hkey (by simp) (by simp [hnn])

variable [IsStrictOrderedRing K]

theorem Inv.step (hw : rrl.window ≤ 300) (hfw : keys.length ≤ rrl.maxBuckets) (h : rrl.Inv keys s)
    (hok : rrl.Timely keys s e) (hs : rrl.step s e = some s') : rrl.Next keys s s' := by
  obtain ⟨hky, hok⟩ := hok
  unfold RRL.step at hs
  split at hs <;> cases hs
  cases e with
  | prune now =>
    refine ⟨⟨fun key hk => h.known key (mem_of_mem_dropStale hk),
      fun key b hb => h.window key b (mem_lookup_dropStale.1 hb).1⟩, fun key b hb t ht hlt => ?_⟩
    have hls := h.window key b hb t ht
    have hfr : now - 300 ≤ b.lastTime := sub_le_iff_le_add.2 (hlt.le.trans hls)
    exact ⟨b, mem_lookup_dropStale.2 ⟨hb, hfr.not_gt⟩, .inl ht⟩
  | allow key now =>
    have hkey := hky key rfl
    dsimp only [RRL.allow, Event.time]
    split
    next hnn => exact h.addBucket hfw hkey hnn
    next b hl =>
      split
      · exact h.same
      next hov =>
        split
        · exact h.insert hkey (by simpa using hw) fun _ _ _ _ _ => .inr rfl
        · refine h.insert hkey (by simp) fun b' hb' t ht hlt => absurd ?_ hov
          cases hl.symm.trans hb'
          exact (Option.any_eq_true _ _).2 ⟨t, ht, decide_eq_true (sub_lt_iff_lt_add'.2 hlt)⟩
  | logSuperlative key now queryLen responseLen =>
    have hkey := hky key rfl
    dsimp only [RRL.logSuperlative, Event.time]
    split
    · exact h.same
    split
    · exact h.same
    next hrt =>
      split
      next hnn => exact h.addBucket hfw hkey hnn
      next b hl =>
        split
        next hng =>
          refine h.insert hkey ?_ fun _ _ _ _ _ => .inr rfl
          simpa using hok b hl (not_lt.1 hrt) (sub_neg.1 hng)
        next =>
          refine h.insert hkey (h.window key b hl) fun b' hb' t ht _ => .inl ?_
          cases hl.symm.trans hb'
          exact ht

theorem Suppressed.step (h : rrl.Suppressed key t s) (hs : rrl.step s e = some s') (hn : rrl.Next keys s s') :
    rrl.Suppressed key t s' := by
  obtain ⟨hle, hcl⟩ := step_clock hs
  have ht : t ≤ s'.clock := h.le.trans (hle.trans_eq hcl.symm)
  refine ⟨ht, fun hlt => ?_⟩
  obtain ⟨b, hb, t', ht', htt'⟩ := h.bucket (lt_of_le_of_lt (hle.trans_eq hcl.symm) hlt)
  obtain ⟨b', hb', hsn | hsn⟩ := hn.kept key b hb t' ht' (hlt.trans_le (add_le_add_left htt' _))
  · exact ⟨b', hb', t', hsn, htt'⟩
  · exact ⟨b', hb', _, hsn, ht⟩

theorem Suppressed.allow_eq (h : rrl.Suppressed key t s) (hnw : s.clock ≤ now) (hlt : now < t + rrl.window) :
    rrl.allow s.buckets key now = (s.buckets, false, true) := by
  obtain ⟨b, hb, t', ht', hle⟩ := h.bucket (hnw.trans_lt hlt)
  have hin : now - t' < rrl.window := sub_lt_iff_lt_add'.2 (hlt.trans_le (add_le_add_left hle _))
  rw [allow, hb]
  simp [show b.suppressed = some t' from ht', hin]

/-- **A key that becomes suppressed stays so for the window.** -/
theorem suppression_lasts (hw : rrl.window ≤ 300) (hfew : keys.length ≤ rrl.maxBuckets) {start : K}
    {before after : List (Event Key K)} {s₁ s₂ : State Key K} (hbefore : Run.exec rrl.step ⟨start, ∅⟩ before = some s)
    (hstep : rrl.step s e = some s₁) (hafter : Run.exec rrl.step s₁ after = some s₂)
    (hok : Run.Meets rrl.step (rrl.Timely keys) ⟨start, ∅⟩ (before ++ e :: after))
    (hsuppressed : ∃ b ∈ s₁.buckets.lookup key, b.suppressed = some e.time) (hnow : s₂.clock ≤ now)
    (hlt : now < e.time + rrl.window) : (rrl.allow s₂.buckets key now).2 = (false, true) := by
  obtain ⟨ho1, ho2⟩ := hok.of_append hbefore
  have hiv : rrl.Inv keys s :=
    Run.invariant (fun _ _ _ hi hok hs => (hi.step hw hfew hok hs).toInv) before hbefore ho1 ⟨by simp, by simp⟩
  obtain ⟨b, hb, hsp⟩ := hsuppressed
  have hfr : rrl.Suppressed key e.time s₁ := ⟨(step_clock hstep).2.ge, fun _ => ⟨b, hb, _, hsp, le_rfl⟩⟩
  have hls := @Run.invariant _ _ rrl.step _ (fun s => rrl.Inv keys s ∧ rrl.Suppressed key e.time s)
    (fun _ _ _ hi hok hs => ⟨(hi.1.step hw hfew hok hs).toInv, hi.2.step hs (hi.1.step hw hfew hok hs)⟩)
    after _ _ hafter (ho2.tail hstep) ⟨(hiv.step hw hfew ho2.1 hstep).toInv, hfr⟩
  rw [hls.2.allow_eq hnow hlt]

def defaults : RRL Unit ℚ := ⟨5, 20, 10, 10000, id⟩

theorem suppression_lasts_ratio :
    ∃ s, Run.exec defaults.step ⟨0, ∅⟩ [.allow () 0, .logSuperlative () 1 1 50, .prune 2] = some s ∧
      (defaults.allow s.buckets () 10).2 = (false, true) := by
  refine ⟨_, rfl, @suppression_lasts _ _ _ _ _ defaults [()] () 10 _ (.logSuperlative () 1 1 50) _ ?_ ?_ 0 [.allow () 0]
    [.prune 2] _ _ rfl rfl rfl ?_ ?_ ?_ ?_⟩
  on_goal 3 =>
    refine ⟨⟨by simp, trivial⟩, ⟨by simp, fun b hb _ _ => ?_⟩, ⟨by simp, trivial⟩, trivial⟩
    cases hb
  all_goals decide +kernel

theorem suppression_pruned : ∃ s s₁ s₂, Run.exec defaults.step ⟨0, ∅⟩ [.allow () 0] = some s ∧
    defaults.step s (.logSuperlative () 299 1 50) = some s₁ ∧ (∃ b ∈ s₁.buckets.lookup (), b.suppressed = some 299) ∧
    Run.exec defaults.step s₁ [.prune 301] = some s₂ ∧ (defaults.allow s₂.buckets () 301).2 = (true, false) := by
  refine ⟨_, _, _, rfl, rfl, ?_, rfl, ?_⟩
  · decide +kernel
  · decide +kernel

end RRL

end NothingDNS.Filter
