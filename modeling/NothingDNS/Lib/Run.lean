import Mathlib.Tactic.Common
/-!
# Runs of a guarded step function

A system is a partial step function on states, driven by a list of actions. This
module has the run, the condition "every step of the run meets `ok`", and the
invariant rule every safety theorem below goes through.
-/

namespace Run

variable {S A : Type} (step : S → A → Option S)

/-- The state after performing `as` from `s`, if every action is enabled in its turn. -/
def exec (s : S) : List A → Option S
  | [] => some s
  | a :: as => match step s a with
    | some s' => exec s' as
    | none => none

/-- Every action of the run meets `ok` in the state it is taken in. -/
def Meets (ok : S → A → Prop) (s : S) : List A → Prop
  | [] => True
  | a :: as => ok s a ∧ match step s a with
    | some s' => Meets ok s' as
    | none => True

instance decidableMeets (ok : S → A → Prop) [∀ s a, Decidable (ok s a)] :
    ∀ (s : S) (as : List A), Decidable (Meets step ok s as)
  | _, [] => .isTrue trivial
  | s, a :: as =>
    have : Decidable (match step s a with | some s' => Meets step ok s' as | none => True) :=
      match step s a with
      | some s' => decidableMeets ok s' as
      | none => .isTrue trivial
    inferInstanceAs (Decidable (_ ∧ _))

variable {step}

theorem exec_cons {s t : S} {a : A} {as : List A} (h : exec step s (a :: as) = some t) :
    ∃ s', step s a = some s' ∧ exec step s' as = some t := by
  rw [exec] at h
  split at h
  · exact ⟨_, ‹_›, h⟩
  · cases h

theorem exec_append {s t u : S} {bs : List A} : ∀ {as : List A},
    exec step s as = some t → exec step t bs = some u → exec step s (as ++ bs) = some u
  | [], h, hu => by cases h; exact hu
  | a :: as, h, hu => by
    obtain ⟨s', hs, ht⟩ := exec_cons h
    rw [List.cons_append, exec, hs]
    exact exec_append ht hu

variable {ok : S → A → Prop}

theorem Meets.tail {s s' : S} {a : A} {as : List A}
    (h : Meets step ok s (a :: as)) (hs : step s a = some s') : Meets step ok s' as := by
  have := h.2
  rwa [hs] at this

theorem Meets.of_append : ∀ {as bs : List A} {s t : S}, Meets step ok s (as ++ bs) → exec step s as = some t →
      Meets step ok s as ∧ Meets step ok t bs
  | [], _, _, _, h, ht => by cases ht; exact ⟨trivial, h⟩
  | a :: as, bs, s, t, h, ht => by
    obtain ⟨s', hs, ht⟩ := exec_cons ht
    obtain ⟨h1, h2⟩ := Meets.of_append (h.tail hs) ht
    refine ⟨⟨h.1, ?_⟩, h2⟩
    rw [hs]
    exact h1

theorem Meets.of_forall (hok : ∀ s a, ok s a) : ∀ (s : S) (as : List A), Meets step ok s as
  | _, [] => trivial
  | s, a :: as => by
    refine ⟨hok s a, ?_⟩
    split
    · exact of_forall hok _ as
    · trivial

/-- **Invariant rule.** What a conforming step preserves, a conforming run preserves. -/
theorem invariant {Inv : S → Prop} (hst : ∀ s a s', Inv s → ok s a → step s a = some s' → Inv s') :
    ∀ (as : List A) {s t : S}, exec step s as = some t → Meets step ok s as → Inv s → Inv t
  | [], _, _, h, _, hi => by cases h; exact hi
  | a :: as, s, t, h, hm, hi => by
    obtain ⟨s', hs, ht⟩ := exec_cons h
    exact invariant hst as ht (hm.tail hs) (hst s a s' hi hm.1 hs)

/-- A concrete run, evaluated: it ends, and the state it ends in satisfies `P`. -/
theorem exists_of_any {o : Option S} {P : S → Prop} [DecidablePred P]
    (h : o.any (fun s => decide (P s)) = true) : ∃ s, o = some s ∧ P s := by
  cases o with
  | none => cases h
  | some s => exact ⟨s, rfl, of_decide_eq_true h⟩

end Run
