import Mathlib.Algebra.Group.Nat.Defs
import NothingDNS.Lib.Run
import NothingDNS.Cluster.Gossip
/-!
# One leader in a term (`gossip_election.go`)

The critical sections of `leaderMu`, one after the other in any order.

A leader that is known stays the leader of its term, and a term that is left does not come back
(`Later`). Two things break this. `DetectSplitBrain` forgets the leader and keeps the term, so the next
announcement of that term is taken from anybody (`two_leaders_of_term`). And the term is a `uint64`.
-/

namespace NothingDNS.Cluster

inductive LeaderStep where
  | election (term : UInt64)
  | leader (now : Nat) (leaderID : NodeID) (term : UInt64)
  | heartbeat (now : Nat) (leaderID : NodeID) (term : UInt64)
  | checkLeaderHealth (now : Nat)
  | startElection
  | endElection
  | detectSplitBrain
  | stepDown
deriving DecidableEq

def LeaderStep.run (self : NodeID) (l : Leadership) : LeaderStep → Leadership
  | .election term => handleElection l term
  | .leader now leaderID term => handleLeader self now l leaderID term
  | .heartbeat now leaderID term => handleHeartbeat self now l leaderID term
  | .checkLeaderHealth now => (Cluster.checkLeaderHealth now l).1
  | .startElection => Cluster.startElection l
  | .endElection => Cluster.endElection l
  | .detectSplitBrain => (Cluster.detectSplitBrain l).1
  | .stepDown => Cluster.stepDown l

def leaderStep (self : NodeID) (l : Leadership) (a : LeaderStep) : Option Leadership := some (a.run self l)

/-- No split brain is detected, and no term is counted up past the last one. -/
def LeaderStep.Safe (l : Leadership) : LeaderStep → Prop
  | .detectSplitBrain => (Cluster.detectSplitBrain l).2 = false
  | .checkLeaderHealth now => (Cluster.checkLeaderHealth now l).2 = true → l.leaderTerm.toNat + 1 < 2 ^ 64
  | .stepDown => l.isLeader = true → l.leaderTerm.toNat + 1 < 2 ^ 64
  | _ => True

instance LeaderStep.decidableSafe (l : Leadership) : ∀ a : LeaderStep, Decidable (a.Safe l)
  | .detectSplitBrain => inferInstanceAs (Decidable (_ = _))
  | .checkLeaderHealth _ => inferInstanceAs (Decidable (_ → _))
  | .stepDown => inferInstanceAs (Decidable (_ → _))
  | .election _ => .isTrue trivial
  | .leader _ _ _ => .isTrue trivial
  | .heartbeat _ _ _ => .isTrue trivial
  | .startElection => .isTrue trivial
  | .endElection => .isTrue trivial

/-! ## What a step does to term and leader -/

/-- The term went up, or it is the same and a leader that was known still is the leader. -/
def Later (l l' : Leadership) : Prop :=
  l.leaderTerm < l'.leaderTerm ∨
    l'.leaderTerm = l.leaderTerm ∧ (l.currentLeader ≠ [] → l'.currentLeader = l.currentLeader)

section Later

variable {l l' l'' : Leadership}

theorem Later.refl (l : Leadership) : Later l l := .inr ⟨rfl, fun _ => rfl⟩

theorem Later.trans (h : Later l l') (h' : Later l' l'') : Later l l'' := by
  rcases h with hlt | ⟨heq, hsm⟩ <;> rcases h' with hlt' | ⟨he', hs'⟩
  · exact .inl (UInt64.lt_trans hlt hlt')
  · exact .inl (he' ▸ hlt)
  · exact .inl (heq ▸ hlt')
  · refine .inr ⟨he'.trans heq, fun hne => ?_⟩
    have hmd := hsm hne
    exact (hs' (hmd ▸ hne)).trans hmd

theorem Later.le (h : Later l l') : l.leaderTerm ≤ l'.leaderTerm := by
  rcases h with hlt | ⟨heq, -⟩
  · exact UInt64.le_of_lt hlt
  · exact heq ▸ UInt64.le_refl _

theorem Later.of_same (htr : l'.leaderTerm = l.leaderTerm) (hld : l'.currentLeader = l.currentLeader) : Later l l' :=
  .inr ⟨htr, fun _ => hld⟩

theorem lt_add_one {t : UInt64} (h : t.toNat + 1 < 2 ^ 64) : t < t + 1 := by
  rw [UInt64.lt_iff_toNat_lt, UInt64.toNat_add]
  have hmd : (t.toNat + UInt64.toNat 1) % 2 ^ 64 = t.toNat + 1 := Nat.mod_eq_of_lt h
  omega

theorem adopt_later (self : NodeID) (now : Nat) {leaderID : NodeID} {term : UInt64} (htr : ¬ term < l.leaderTerm)
    (h : l.leaderTerm < term ∨ l.currentLeader = [] ∨ leaderID = l.currentLeader) :
    Later l (l.adopt self now leaderID term) := by
  by_cases hlt : l.leaderTerm < term
  · exact .inl hlt
  · refine .inr ⟨UInt64.le_antisymm (UInt64.not_lt.1 hlt) (UInt64.not_lt.1 htr), fun hne => ?_⟩
    exact (h.resolve_left hlt).resolve_left hne

end Later

section Steps

variable (self : NodeID) (now : Nat) (l : Leadership)

theorem handleElection_same (term : UInt64) :
    (handleElection l term).leaderTerm = l.leaderTerm ∧ (handleElection l term).currentLeader = l.currentLeader ∧
      (handleElection l term).isLeader = l.isLeader := by
  unfold handleElection
  split_ifs <;> exact ⟨rfl, rfl, rfl⟩

theorem handleLeader_later (leaderID : NodeID) (term : UInt64) : Later l (handleLeader self now l leaderID term) := by
  unfold handleLeader
  split_ifs with hst had
  · exact .refl l
  · exact adopt_later self now hst had
  · exact .refl l

theorem handleHeartbeat_later (leaderID : NodeID) (term : UInt64) :
    Later l (handleHeartbeat self now l leaderID term) := by
  unfold handleHeartbeat
  split_ifs with hst had
  · exact .refl l
  · exact adopt_later self now hst (had.imp_right .inl)
  · exact .of_same rfl rfl
  · exact .refl l

theorem checkLeaderHealth_later (h : (checkLeaderHealth now l).2 = true → l.leaderTerm.toNat + 1 < 2 ^ 64) :
    Later l (checkLeaderHealth now l).1 := by
  unfold checkLeaderHealth at h ⊢
  split
  · exact .refl l
  next hkn =>
    rw [if_neg hkn] at h
    split
    next hold =>
      rw [if_pos hold] at h
      exact .inl (lt_add_one (h rfl))
    next => exact .refl l

theorem detectSplitBrain_later (h : (detectSplitBrain l).2 = false) : Later l (detectSplitBrain l).1 := by
  unfold detectSplitBrain at h ⊢
  split
  next hsp =>
    rw [if_pos hsp] at h
    cases h
  next => exact .refl l

theorem stepDown_later (h : l.isLeader = true → l.leaderTerm.toNat + 1 < 2 ^ 64) : Later l (stepDown l) := by
  unfold stepDown
  split_ifs with hld
  · exact .inl (lt_add_one (h hld))
  · exact .refl l

theorem LeaderStep.later (a : LeaderStep) (hsf : a.Safe l) : Later l (a.run self l) := by
  cases a with
  | election term => exact .of_same (handleElection_same l term).1 (handleElection_same l term).2.1
  | leader now leaderID term => exact handleLeader_later self now l leaderID term
  | heartbeat now leaderID term => exact handleHeartbeat_later self now l leaderID term
  | checkLeaderHealth now => exact checkLeaderHealth_later now l hsf
  | startElection | endElection => exact .of_same rfl rfl
  | detectSplitBrain => exact detectSplitBrain_later l hsf
  | stepDown => exact stepDown_later l hsf

end Steps

def FlagFits (self : NodeID) (l : Leadership) : Prop := l.isLeader = true ↔ l.currentLeader = self

section Flag

variable {self : NodeID} {l : Leadership}

theorem FlagFits.of_same {l' : Leadership} (h : FlagFits self l) (hfl : l'.isLeader = l.isLeader)
    (hld : l'.currentLeader = l.currentLeader) : FlagFits self l' := by
  rw [FlagFits, hfl, hld]
  exact h

theorem adopt_flagFits (now : Nat) (leaderID : NodeID) (term : UInt64) : FlagFits self (l.adopt self now leaderID term) :=
  decide_eq_true_iff

theorem FlagFits.of_none (hsl : self ≠ []) (hfl : l.isLeader = false) (hld : l.currentLeader = []) :
    FlagFits self l := by
  rw [FlagFits, hfl, hld]
  exact ⟨nofun, fun h => absurd h.symm hsl⟩

theorem handleLeader_flagFits (h : FlagFits self l) (now : Nat) (leaderID : NodeID) (term : UInt64) :
    FlagFits self (handleLeader self now l leaderID term) := by
  unfold handleLeader
  split_ifs
  · exact h
  · exact adopt_flagFits now leaderID term
  · exact h

theorem handleHeartbeat_flagFits (h : FlagFits self l) (now : Nat) (leaderID : NodeID) (term : UInt64) :
    FlagFits self (handleHeartbeat self now l leaderID term) := by
  unfold handleHeartbeat
  split_ifs
  · exact h
  · exact adopt_flagFits now leaderID term
  · exact h.of_same rfl rfl
  · exact h

theorem checkLeaderHealth_flagFits (h : FlagFits self l) (now : Nat) : FlagFits self (checkLeaderHealth now l).1 := by
  unfold checkLeaderHealth
  split
  · exact h
  · split
    · exact h.of_same rfl rfl
    · exact h

theorem detectSplitBrain_flagFits (hsl : self ≠ []) (h : FlagFits self l) : FlagFits self (detectSplitBrain l).1 := by
  unfold detectSplitBrain
  split
  · exact .of_none hsl rfl rfl
  · exact h

theorem stepDown_flagFits (hsl : self ≠ []) (h : FlagFits self l) : FlagFits self (stepDown l) := by
  unfold stepDown
  split_ifs
  · exact .of_none hsl rfl rfl
  · exact h

theorem LeaderStep.flagFits (hsl : self ≠ []) (h : FlagFits self l) (a : LeaderStep) : FlagFits self (a.run self l) := by
  cases a with
  | election term => exact h.of_same (handleElection_same l term).2.2 (handleElection_same l term).2.1
  | leader now leaderID term => exact handleLeader_flagFits h now leaderID term
  | heartbeat now leaderID term => exact handleHeartbeat_flagFits h now leaderID term
  | checkLeaderHealth now => exact checkLeaderHealth_flagFits h now
  | startElection | endElection => exact h.of_same rfl rfl
  | detectSplitBrain => exact detectSplitBrain_flagFits hsl h
  | stepDown => exact stepDown_flagFits hsl h

end Flag

section Runs

variable {self : NodeID} {l l' : Leadership} {steps : List LeaderStep}

theorem later_of_run (h : Run.exec (leaderStep self) l steps = some l')
    (hsf : Run.Meets (leaderStep self) (fun l a => a.Safe l) l steps) : Later l l' := by
  refine Run.invariant (?_ : ∀ m a m', Later l m → _ → _ → Later l m') steps h hsf (.refl l)
  rintro m a _ hm ha ⟨⟩
  exact hm.trans (a.later self m ha)

theorem flagFits_of_run (hsl : self ≠ []) (h : Run.exec (leaderStep self) l steps = some l') (hl : FlagFits self l) :
    FlagFits self l' := by
  refine Run.invariant (?_ : ∀ m a m', FlagFits self m → True → _ → FlagFits self m') steps h
    (.of_forall (fun _ _ => trivial) l steps) hl
  rintro m a _ hm - ⟨⟩
  exact a.flagFits hsl hm

/-- **One leader per term**, as long as no split brain is detected and no term is counted past the
last: in a run from the start the term does not go down, leaders held in one term are the same, and
the flag says that the leader is the node itself. -/
theorem one_leader_per_term (hself : self ≠ []) (before after : List LeaderStep)
    (hsafe : Run.Meets (leaderStep self) (fun l a => a.Safe l) .new (before ++ after))
    (hl : Run.exec (leaderStep self) .new before = some l) (hl' : Run.exec (leaderStep self) l after = some l') :
    l.leaderTerm ≤ l'.leaderTerm ∧ (l'.isLeader = true ↔ l'.currentLeader = self) ∧
      (l.leaderTerm = l'.leaderTerm → l.currentLeader ≠ [] → l'.currentLeader ≠ [] →
        l.currentLeader = l'.currentLeader) := by
  have hlr : Later l l' := later_of_run hl' (hsafe.of_append hl).2
  have hst : FlagFits self .new := ⟨nofun, fun h => absurd h.symm hself⟩
  refine ⟨hlr.le, flagFits_of_run hself hl' (flagFits_of_run hself hl hst), fun htr hne _ => ?_⟩
  rcases hlr with hlt | ⟨-, hsm⟩
  · exact absurd (htr ▸ hlt) (UInt64.lt_irrefl _)
  · exact (hsm hne).symm

end Runs

theorem one_leader_per_term_stepDown :
    let l := (LeaderStep.leader 1 ['s'] 1).run ['s'] .new
    let l' := [LeaderStep.stepDown, .leader 2 ['a'] 2].foldl (LeaderStep.run ['s']) l
    l.leaderTerm ≤ l'.leaderTerm ∧ (l'.isLeader = true ↔ l'.currentLeader = ['s']) ∧
      (l.leaderTerm = l'.leaderTerm → l.currentLeader ≠ [] → l'.currentLeader ≠ [] →
        l.currentLeader = l'.currentLeader) :=
  one_leader_per_term (by decide) [.leader 1 ['s'] 1] [.stepDown, .leader 2 ['a'] 2] (by decide) rfl rfl

theorem two_leaders_of_term :
    let l := (LeaderStep.leader 1 ['s'] 1).run ['s'] .new
    let l' := [LeaderStep.election 2, .detectSplitBrain, .leader 2 ['a'] 1].foldl (LeaderStep.run ['s']) l
    l.leaderTerm = l'.leaderTerm ∧ l.currentLeader = ['s'] ∧ l'.currentLeader = ['a'] := by
  decide

end NothingDNS.Cluster
