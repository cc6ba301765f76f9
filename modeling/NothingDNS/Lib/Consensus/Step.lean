import NothingDNS.Lib.Consensus.Safety
import Mathlib.Logic.Relation
/-!
# Steps of the abstract protocol

`Step q` is one of the seven operations, performed by node `q` under its guard;
`Steps q` is any number of them. A concrete protocol refines this one when each
of its transitions is matched by `Steps q` for the node that moved. What it gets
back: the invariant (`Steps.inv`), a frame (`Steps.frame`), and the order `Le`
along which everything said about a message in flight stays true (`Steps.le`).
-/

namespace Consensus

variable {N E : Type} [DecidableEq N] {members : Finset N} {termOf : E → Nat}

variable (members termOf) in
inductive Step (q : N) : State N E → State N E → Prop
  | advance {s : State N E} {t : Nat} (hlt : s.term q < t) : Step q s (s.advance q t)
  | vote {s : State N E} {c : N} (huniq : ∀ c', s.voted q (s.term q) c' → c' = c)
      (hle : s.term q ≤ s.term c)
      (hup : s.term c = s.term q → (∀ c', ¬ s.led c' (s.term q)) →
        UpToDate termOf (s.log c) (s.log q)) : Step q s (s.vote q (s.term q) c)
  | lead {s : State N E} (hmaj : ∃ Q, Majority members Q ∧ ∀ p ∈ Q, s.voted p (s.term q) q) :
      Step q s (s.lead q)
  | propose {s : State N E} {e : E} (hl : s.led q (s.term q)) (he : termOf e = s.term q) :
      Step q s (s.propose q e)
  | replace {s : State N E} {c : N} {X : List E} (hl : s.led c (s.term q)) (hne : c ≠ q)
      (hpre : X <+: s.log q ∨ X <+: s.leaderLog (s.term q))
      (hkeep : ∀ k, Agree k (s.log q) (s.leaderLog (s.term q)) →
        Agree k X (s.leaderLog (s.term q))) : Step q s (s.replace q X)
  | ack {s : State N E} {c : N} {m : Nat} (hl : s.led c (s.term q))
      (hm : m ≤ (s.leaderLog (s.term q)).length)
      (hag : Agree m (s.log q) (s.leaderLog (s.term q))) : Step q s (s.ack q m)
  | setCommit {s : State N E} {k T i : Nat} (hT : T ≤ s.term q) (hk : k ≤ i)
      (hc : s.Committed members termOf T i) (hag : Agree k (s.log q) (s.leaderLog T)) :
      Step q s (s.setCommit q k)

variable (members termOf) in
def Steps (q : N) : State N E → State N E → Prop := Relation.ReflTransGen (Step members termOf q)

structure State.Le (s s' : State N E) : Prop where
  term : ∀ q, s.term q ≤ s'.term q
  led : ∀ c T, s.led c T → s'.led c T
  leaderLog : ∀ c T, s.led c T → s.leaderLog T <+: s'.leaderLog T
  acked : ∀ q T, s.acked q T ≤ s'.acked q T
  /-- A node's log does not change while its term has no leader. -/
  log : ∀ q, s'.term q = s.term q → (∀ c, ¬ s'.led c (s'.term q)) → s'.log q = s.log q

namespace State.Le

omit [DecidableEq N]

theorem refl (s : State N E) : s.Le s :=
  ⟨fun _ => le_rfl, fun _ _ h => h, fun _ _ _ => List.prefix_refl _, fun _ _ => le_rfl, fun _ _ _ => rfl⟩

theorem trans {s t u : State N E} (h₁ : s.Le t) (h₂ : t.Le u) : s.Le u where
  term q := (h₁.term q).trans (h₂.term q)
  led c T hl := h₂.led c T (h₁.led c T hl)
  leaderLog c T hl := (h₁.leaderLog c T hl).trans (h₂.leaderLog c T (h₁.led c T hl))
  acked q T := (h₁.acked q T).trans (h₂.acked q T)
  log q htr hun := by
    have hl1 := h₁.term q
    have hl2 := h₂.term q
    have ht : t.term q = u.term q := by omega
    rw [h₂.log q ht.symm hun]
    refine h₁.log q (by omega) fun c hl => hun c ?_
    rw [← ht]
    exact h₂.led c _ hl

theorem agree {s s' : State N E} (h : s.Le s') {c : N} {T k : Nat} (hl : s.led c T)
    (hk : k ≤ (s.leaderLog T).length) : Agree k (s.leaderLog T) (s'.leaderLog T) :=
  .of_isPrefix (h.leaderLog c T hl) hk

theorem committed {s s' : State N E} (h : s.Le s') {T i : Nat} (hc : s.Committed members termOf T i) :
    s'.Committed members termOf T i := by
  obtain ⟨⟨⟨c, hl⟩, j, e, rfl, he, ht⟩, Q, hQ, ha⟩ := hc
  have hj : j + 1 ≤ (s.leaderLog T).length := (List.getElem?_eq_some_iff.1 he).1
  refine ⟨⟨⟨c, h.led c T hl⟩, j, e, rfl, ?_, ht⟩, Q, hQ, fun q hq => (ha q hq).trans (h.acked q T)⟩
  rw [← (h.agree hl hj).getElem? (Nat.lt_succ_self j), he]

end State.Le

namespace Step

variable {q : N} {s s' : State N E}

theorem inv (h : Step members termOf q s s') (hi : Inv members termOf s) : Inv members termOf s' := by
  cases h with
  | advance hlt => exact hi.advance hlt
  | vote hu hle hup => exact hi.vote hu hle hup
  | lead hmaj => exact hi.lead hmaj
  | propose hl he => exact hi.propose hl he
  | replace hl hne hpre hkp => exact hi.replace hl hne hpre hkp
  | ack hl hm hag => exact hi.ack hl hm hag
  | setCommit hT hk hc hag => exact hi.setCommit hT hk hc hag

theorem frame (h : Step members termOf q s s') {p : N} (hp : p ≠ q) :
    s'.term p = s.term p ∧ s'.log p = s.log p ∧ s'.commit p = s.commit p := by
  cases h with
  | advance => exact ⟨State.advance_term_of_ne hp, rfl, rfl⟩
  | vote | lead | ack => exact ⟨rfl, rfl, rfl⟩
  | propose => exact ⟨rfl, State.propose_log_of_ne hp, rfl⟩
  | replace => exact ⟨rfl, State.replace_log_of_ne hp, rfl⟩
  | setCommit => exact ⟨rfl, rfl, State.setCommit_of_ne hp⟩

theorem le (h : Step members termOf q s s') (hi : Inv members termOf s) : s.Le s' := by
  cases h with
  | advance hlt =>
    exact { State.Le.refl s with term := State.term_le_advance (le_of_lt hlt), log := fun _ _ _ => rfl }
  | vote | setCommit => exact { State.Le.refl s with log := fun _ _ _ => rfl }
  | lead hmaj =>
    refine ⟨fun _ => le_rfl, fun c T hl => .inl hl, ?_, fun _ _ => le_rfl, fun _ _ _ => rfl⟩
    intro c T hl
    by_cases hT : T = s.term q
    · -- the term is led already, and only by this node
      subst hT
      have hc : c = q := (hi.lead hmaj).leader_unique (.inl hl) (.inr ⟨rfl, rfl⟩)
      subst hc
      rw [State.lead_leaderLog_self, hi.leading c _ hl rfl]
    · rw [State.lead_leaderLog_of_ne hT]
  | propose hl _ =>
    refine ⟨fun _ => le_rfl, fun _ _ h => h, ?_, fun _ _ => le_rfl, ?_⟩
    · intro c T hl'
      by_cases hT : T = s.term q
      · subst hT
        rw [State.propose_leaderLog_self, hi.leading q _ hl rfl]
        exact List.prefix_append _ _
      · rw [State.propose_leaderLog_of_ne hT]
    · intro p htr hun
      by_cases hp : p = q
      · subst hp
        exact absurd hl (hun p)
      · exact State.propose_log_of_ne hp
  | @replace c _ hl _ _ _ =>
    refine ⟨fun _ => le_rfl, fun _ _ h => h, fun _ _ _ => List.prefix_refl _, fun _ _ => le_rfl, ?_⟩
    intro p htr hun
    by_cases hp : p = q
    · subst hp
      exact absurd hl (hun c)
    · exact State.replace_log_of_ne hp
  | ack => exact { State.Le.refl s with acked := State.acked_le_ack, log := fun _ _ _ => rfl }

end Step

namespace Steps

variable {q : N} {s s' : State N E}

theorem refl (s : State N E) : Steps members termOf q s s := Relation.ReflTransGen.refl

theorem tail {t : State N E} (h : Steps members termOf q s t) (hs : Step members termOf q t s') :
    Steps members termOf q s s' := Relation.ReflTransGen.tail h hs

theorem trans {t : State N E} (h₁ : Steps members termOf q s t) (h₂ : Steps members termOf q t s') :
    Steps members termOf q s s' := Relation.ReflTransGen.trans h₁ h₂

theorem inv (h : Steps members termOf q s s') (hi : Inv members termOf s) : Inv members termOf s' := by
  induction h with
  | refl => exact hi
  | tail _ hs ih => exact hs.inv ih

theorem frame (h : Steps members termOf q s s') {p : N} (hp : p ≠ q) :
    s'.term p = s.term p ∧ s'.log p = s.log p ∧ s'.commit p = s.commit p := by
  induction h with
  | refl => exact ⟨rfl, rfl, rfl⟩
  | tail _ hs ih =>
    obtain ⟨h1, h2, h3⟩ := hs.frame hp
    exact ⟨h1.trans ih.1, h2.trans ih.2.1, h3.trans ih.2.2⟩

theorem le (h : Steps members termOf q s s') (hi : Inv members termOf s) : s.Le s' := by
  induction h with
  | refl => exact .refl s
  | tail hss hs ih => exact ih.trans (hs.le (inv hss hi))

end Steps

end Consensus
