import NothingDNS.Lib.Agree
import NothingDNS.Lib.Quorum
import Mathlib.Logic.Function.Basic
/-!
# Leader-based log replication, in the abstract

A message-free account of what a leader-based consensus protocol does. A state
records each node's term, log and commit index, who voted for whom, who has led
which term, the log of each term's leader, and what each node has acknowledged.
A request "in flight" is not part of the state: whatever a leader of term `T`
sends is a part of `leaderLog T`, which only grows.
-/

namespace Consensus

structure State (N E : Type) where
  term : N → Nat
  /-- The whole log of a node, whatever part of it is kept as a snapshot. -/
  log : N → List E
  commit : N → Nat
  /-- Voter, term, candidate. -/
  voted : N → Nat → N → Prop
  led : N → Nat → Prop
  leaderLog : Nat → List E
  /-- `acked q T` is the highest index of `leaderLog T` that `q` has acknowledged in term `T`. -/
  acked : N → Nat → Nat

namespace State

def init (N E : Type) : State N E where
  term := fun _ => 0
  log := fun _ => []
  commit := fun _ => 0
  voted := fun _ _ _ => False
  led := fun _ _ => False
  leaderLog := fun _ => []
  acked := fun _ _ => 0

variable {N E : Type} [DecidableEq N] (s : State N E)

def advance (q : N) (t : Nat) : State N E := { s with term := Function.update s.term q t }

def vote (q : N) (T : Nat) (c : N) : State N E :=
  { s with voted := fun q' T' c' => s.voted q' T' c' ∨ (q' = q ∧ T' = T ∧ c' = c) }

def lead (c : N) : State N E :=
  { s with
    led := fun c' T' => s.led c' T' ∨ (c' = c ∧ T' = s.term c)
    leaderLog := Function.update s.leaderLog (s.term c) (s.log c) }

def propose (c : N) (e : E) : State N E :=
  { s with
    log := Function.update s.log c (s.log c ++ [e])
    leaderLog := Function.update s.leaderLog (s.term c) (s.log c ++ [e]) }

def replace (q : N) (X : List E) : State N E := { s with log := Function.update s.log q X }

def ack (q : N) (m : Nat) : State N E :=
  { s with
    acked := Function.update s.acked q
      (Function.update (s.acked q) (s.term q) (max (s.acked q (s.term q)) m)) }

def setCommit (q : N) (k : Nat) : State N E := { s with commit := Function.update s.commit q k }

/-! ## What the operations leave alone -/

variable {s} {q q' c : N} {t T k m : Nat} {X : List E} {e : E}

@[simp] theorem advance_term_self : (s.advance q t).term q = t := by simp [advance]

theorem advance_term_of_ne (h : q' ≠ q) : (s.advance q t).term q' = s.term q' := by simp [advance, h]

theorem term_le_advance (h : s.term q ≤ t) (q' : N) : s.term q' ≤ (s.advance q t).term q' := by
  by_cases hq : q' = q
  · subst hq
    simpa using h
  · rw [advance_term_of_ne hq]

omit [DecidableEq N] in
@[simp] theorem lead_leaderLog_self : (s.lead c).leaderLog (s.term c) = s.log c := by simp [lead]

omit [DecidableEq N] in
theorem lead_leaderLog_of_ne (h : T ≠ s.term c) : (s.lead c).leaderLog T = s.leaderLog T := by
  simp [lead, h]

@[simp] theorem propose_log_self : (s.propose c e).log c = s.log c ++ [e] := by simp [propose]

theorem propose_log_of_ne (h : q ≠ c) : (s.propose c e).log q = s.log q := by simp [propose, h]

@[simp] theorem propose_leaderLog_self : (s.propose c e).leaderLog (s.term c) = s.log c ++ [e] := by
  simp [propose]

theorem propose_leaderLog_of_ne (h : T ≠ s.term c) : (s.propose c e).leaderLog T = s.leaderLog T := by
  simp [propose, h]

@[simp] theorem replace_log_self : (s.replace q X).log q = X := by simp [replace]

theorem replace_log_of_ne (h : q' ≠ q) : (s.replace q X).log q' = s.log q' := by simp [replace, h]

@[simp] theorem ack_acked_self : (s.ack q m).acked q (s.term q) = max (s.acked q (s.term q)) m := by
  simp [ack]

theorem ack_acked_of_ne (h : q' ≠ q ∨ T ≠ s.term q) : (s.ack q m).acked q' T = s.acked q' T := by
  by_cases hq : q' = q
  · subst hq
    simp [ack, h.resolve_left (not_not_intro rfl)]
  · simp [ack, hq]

theorem acked_le_ack (q' : N) (T : Nat) : s.acked q' T ≤ (s.ack q m).acked q' T := by
  by_cases h : q' = q ∧ T = s.term q
  · obtain ⟨rfl, rfl⟩ := h
    rw [ack_acked_self]
    exact le_max_left _ _
  · rw [ack_acked_of_ne (not_and_or.1 h)]

@[simp] theorem setCommit_self : (s.setCommit q k).commit q = k := by simp [setCommit]

theorem setCommit_of_ne (h : q' ≠ q) : (s.setCommit q k).commit q' = s.commit q' := by
  simp [setCommit, h]

end State

end Consensus
