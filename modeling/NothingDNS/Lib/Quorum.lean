import Mathlib.Data.Finset.Card
/-!
# Majorities

Two majorities of one finite set have a member in common. This is the only fact
about quorums the protocol proofs use.
-/

structure Majority {α : Type} (s Q : Finset α) : Prop where
  subset : Q ⊆ s
  card : s.card < 2 * Q.card

theorem Majority.exists_mem_both {α : Type} [DecidableEq α] {s Q R : Finset α}
    (hQ : Majority s Q) (hR : Majority s R) : ∃ x, x ∈ Q ∧ x ∈ R := by
  have hcr : s.card < Q.card + R.card := by
    have h1 := hQ.card
    have h2 := hR.card
    omega
  obtain ⟨x, hx⟩ := Finset.inter_nonempty_of_card_lt_card_add_card hQ.subset hR.subset hcr
  exact ⟨x, Finset.mem_inter.mp hx⟩
