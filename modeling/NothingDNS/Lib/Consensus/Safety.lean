import NothingDNS.Lib.Consensus.State
/-!
# Safety of leader-based replication

The invariant behind log matching, leader completeness and state machine safety,
and one preservation theorem for each operation of `Consensus.State`.

The heart is `Choosable T i`: a majority may still come to hold index `i` of the
log of term `T`'s leader, because each of its members has acknowledged it or has
not left term `T` yet. It can only be lost, a committed index never loses it, and
while it holds every later leader has the entry (`complete`). The invariants
about nodes that acknowledged an index and then moved on (`ackedPast`), and about
voters of an election still open (`ballot`), carry that to the next election.
-/

namespace Consensus

open State List

variable {N E : Type} (members : Finset N) (termOf : E → Nat)

namespace State

variable (s : State N E)

/-- Each prefix of `X` is a prefix of the log of the leader of its last entry's term. -/
def Chained (X : List E) : Prop :=
  ∀ i e, X[i]? = some e → (∃ c, s.led c (termOf e)) ∧ Agree (i + 1) X (s.leaderLog (termOf e))

/-- Index `i` of the log of term `T`'s leader is an entry of term `T` itself. -/
def Own (T i : Nat) : Prop :=
  (∃ c, s.led c T) ∧ ∃ j e, i = j + 1 ∧ (s.leaderLog T)[j]? = some e ∧ termOf e = T

def Choosable (T i : Nat) : Prop :=
  ∃ Q, Majority members Q ∧ ∀ q ∈ Q, s.term q ≤ T ∨ i ≤ s.acked q T

def Committed (T i : Nat) : Prop :=
  s.Own termOf T i ∧ ∃ Q, Majority members Q ∧ ∀ q ∈ Q, i ≤ s.acked q T

end State

/-- The term of the last entry, `0` for an empty log. -/
def lastTerm (X : List E) : Nat := (X.getLast?.map termOf).getD 0

/-- `X` is at least as up to date as `Y`. -/
def UpToDate (X Y : List E) : Prop :=
  lastTerm termOf Y < lastTerm termOf X ∨ lastTerm termOf Y = lastTerm termOf X ∧ Y.length ≤ X.length

structure Inv (s : State N E) : Prop where
  voteLe : ∀ q T c, s.voted q T c → T ≤ s.term q ∧ T ≤ s.term c
  voteUnique : ∀ q T c c', s.voted q T c → s.voted q T c' → c = c'
  elected : ∀ c T, s.led c T → T ≤ s.term c ∧ ∃ Q, Majority members Q ∧ ∀ q ∈ Q, s.voted q T c
  /-- A leader holds exactly its term's log while it stays in the term. -/
  leading : ∀ c T, s.led c T → s.term c = T → s.log c = s.leaderLog T
  chainedLog : ∀ q, s.Chained termOf (s.log q)
  chainedLeader : ∀ c T, s.led c T → s.Chained termOf (s.leaderLog T)
  logLe : ∀ q, ∀ e ∈ s.log q, termOf e ≤ s.term q
  leaderLe : ∀ c T, s.led c T → ∀ e ∈ s.leaderLog T, termOf e ≤ T
  ackedLed : ∀ q T, 0 < s.acked q T → (∃ c, s.led c T) ∧ T ≤ s.term q ∧ s.acked q T ≤ (s.leaderLog T).length
  ackedNow : ∀ q, Agree (s.acked q (s.term q)) (s.log q) (s.leaderLog (s.term q))
  ackedPast : ∀ q T i, T < s.term q → i ≤ s.acked q T → s.Own termOf T i →
    s.Choosable members T i → Agree i (s.log q) (s.leaderLog T)
  complete : ∀ c T T' i, s.led c T' → T < T' → s.Own termOf T i → s.Choosable members T i →
    Agree i (s.leaderLog T') (s.leaderLog T)
  ballot : ∀ q T T' c i, s.voted q T' c → s.term c = T' → (∀ c', ¬ s.led c' T') → T < T' →
    i ≤ s.acked q T → s.Own termOf T i → s.Choosable members T i →
    Agree i (s.log c) (s.leaderLog T)
  commit : ∀ q, s.commit q = 0 ∨ ∃ T i, T ≤ s.term q ∧ s.commit q ≤ i ∧
    s.Committed members termOf T i ∧ Agree (s.commit q) (s.log q) (s.leaderLog T)

variable {members termOf} {s : State N E}

variable {i T : Nat}

theorem State.Committed.choosable (h : s.Committed members termOf T i) : s.Choosable members T i := by
  obtain ⟨-, Q, hQ, ha⟩ := h
  exact ⟨Q, hQ, fun q hq => .inr (ha q hq)⟩

theorem State.Own.le_length (h : s.Own termOf T i) : i ≤ (s.leaderLog T).length := by
  obtain ⟨-, j, e, rfl, he, -⟩ := h
  exact (List.getElem?_eq_some_iff.1 he).1

/-- **Log matching.** Two chained logs with entries of one term at an index agree up to it. -/
theorem State.Chained.matching {X Y : List E} (hX : s.Chained termOf X) (hY : s.Chained termOf Y) {e e' : E} (he : X[i]? = some e) (he' : Y[i]? = some e') (ht : termOf e = termOf e') :
    Agree (i + 1) X Y := by
  have h1 := (hX i e he).2
  have h2 := (hY i e' he').2
  rw [ht] at h1
  exact h1.trans h2.symm

theorem State.Chained.of_isPrefix {X Y : List E} (hX : s.Chained termOf X) (h : Y <+: X) : s.Chained termOf Y := by
  intro i e he
  have hlt : i < Y.length := (List.getElem?_eq_some_iff.1 he).1
  have hag : Agree (i + 1) Y X := .of_isPrefix h hlt
  obtain ⟨hld, hX'⟩ := hX i e (by rw [← hag.getElem? (Nat.lt_succ_self i), he])
  exact ⟨hld, hag.trans hX'⟩

namespace Inv

variable (h : Inv members termOf s)
include h

theorem terms_le {X : List E} (hX : s.Chained termOf X) {i j : Nat} {e e' : E} (hij : i ≤ j)
    (he : X[i]? = some e) (he' : X[j]? = some e') : termOf e ≤ termOf e' := by
  obtain ⟨⟨c, hld⟩, hag⟩ := hX j e' he'
  have hmem : (s.leaderLog (termOf e'))[i]? = some e := by
    rw [← hag.getElem? (Nat.lt_succ_of_le hij), he]
  exact h.leaderLe c _ hld e (mem_of_getElem? hmem)

theorem acked_le_length (q : N) (T : Nat) : s.acked q T ≤ (s.leaderLog T).length := by
  by_cases hpos : 0 < s.acked q T
  · exact (h.ackedLed q T hpos).2.2
  · omega

variable {c : N} {T : Nat}

theorem leader_unique [DecidableEq N] {c' : N} (h₁ : s.led c T) (h₂ : s.led c' T) : c = c' := by
  obtain ⟨-, Q, hQ, hv⟩ := h.elected c T h₁
  obtain ⟨-, R, hR, hv'⟩ := h.elected c' T h₂
  obtain ⟨q, hq, hq'⟩ := hQ.exists_mem_both hR
  exact h.voteUnique q T c c' (hv q hq) (hv' q hq')

/-- A committed index is in the log of every leader of its term or a later one. -/
theorem committed_agree {T' i : Nat} (hc : s.Committed members termOf T i)
    (hld : s.led c T') (hle : T ≤ T') : Agree i (s.leaderLog T') (s.leaderLog T) := by
  rcases Nat.lt_or_eq_of_le hle with hlt | rfl
  · exact h.complete c T T' i hld hlt hc.1 hc.choosable
  · exact .refl _ _

theorem commit_agree {q : N} (hld : s.led c T) (hle : s.term q ≤ T) :
    Agree (s.commit q) (s.log q) (s.leaderLog T) := by
  rcases h.commit q with h0 | ⟨T0, i, hT0, hi, hc, hag⟩
  · rw [h0]
    exact .zero _ _
  · exact hag.trans ((h.committed_agree hc hld (hT0.trans hle)).mono hi).symm

theorem commit_le_length (q : N) : s.commit q ≤ (s.log q).length := by
  rcases h.commit q with h0 | ⟨T, i, -, hi, hc, hag⟩
  · rw [h0]
    exact Nat.zero_le _
  · exact hag.le_length (hi.trans hc.1.le_length)

end Inv

/-! ## The operations keep the invariant -/

theorem State.Choosable.of_imp {s s' : State N E} (h : s'.Choosable members T i)
    (him : ∀ q, s'.term q ≤ T ∨ i ≤ s'.acked q T → s.term q ≤ T ∨ i ≤ s.acked q T) : s.Choosable members T i := by
  obtain ⟨Q, hQ, hq⟩ := h
  exact ⟨Q, hQ, fun q hmem => him q (hq q hmem)⟩

theorem Inv.init : Inv members termOf (State.init N E) where
  voteLe _ _ _ hv := hv.elim
  voteUnique _ _ _ _ hv := hv.elim
  elected _ _ hl := hl.elim
  leading _ _ hl := hl.elim
  chainedLog _ i e he := absurd he (by simp [State.init])
  chainedLeader _ _ hl := hl.elim
  logLe _ e he := absurd he (by simp [State.init])
  leaderLe _ _ hl := hl.elim
  ackedLed _ _ hpos := absurd hpos (Nat.lt_irrefl 0)
  ackedNow _ := .zero _ _
  ackedPast _ _ _ _ _ ho := ho.1.elim fun _ hl => hl.elim
  complete _ _ _ _ hl := hl.elim
  ballot _ _ _ _ _ hv := hv.elim
  commit _ := .inl rfl

namespace Inv

variable [DecidableEq N] (h : Inv members termOf s)
include h

omit [DecidableEq N] in
theorem acked_eq_zero {q : N} {T : Nat} (hT : s.term q < T) : s.acked q T = 0 := by
  by_contra hne
  have := (h.ackedLed q T (Nat.pos_of_ne_zero hne)).2.1
  omega

variable {q c : N}

theorem advance {t : Nat} (hlt : s.term q < t) : Inv members termOf (s.advance q t) := by
  have hmn := term_le_advance (s := s) (le_of_lt hlt)
  have hch : ∀ {T i}, (s.advance q t).Choosable members T i → s.Choosable members T i :=
    fun hc => hc.of_imp fun q' hq' => hq'.imp (hmn q').trans id
  refine ⟨?_, h.voteUnique, ?_, ?_, h.chainedLog, h.chainedLeader, ?_, h.leaderLe, ?_, ?_, ?_, ?_, ?_, ?_⟩
  · intro q' T c hv
    have := h.voteLe q' T c hv
    exact ⟨this.1.trans (hmn q'), this.2.trans (hmn c)⟩
  · intro c T hl
    have := h.elected c T hl
    exact ⟨this.1.trans (hmn c), this.2⟩
  · intro c T hl htr
    by_cases hc : c = q
    · subst hc
      rw [advance_term_self] at htr
      have := (h.elected c T hl).1
      omega
    · rw [advance_term_of_ne hc] at htr
      exact h.leading c T hl htr
  · intro q' e he
    exact (h.logLe q' e he).trans (hmn q')
  · intro q' T hpos
    obtain ⟨hl, hT, hlen⟩ := h.ackedLed q' T hpos
    exact ⟨hl, hT.trans (hmn q'), hlen⟩
  · intro q'
    by_cases hq : q' = q
    · subst hq
      have h0 : (s.advance q' t).acked q' t = 0 := h.acked_eq_zero hlt
      rw [advance_term_self, h0]
      exact .zero _ _
    · rw [advance_term_of_ne hq]
      exact h.ackedNow q'
  · intro q' T i hT hi hown hc
    by_cases hq : q' = q
    · subst hq
      rcases Nat.lt_trichotomy T (s.term q') with hlt' | rfl | hgt
      · exact h.ackedPast q' T i hlt' hi hown (hch hc)
      · exact (h.ackedNow q').mono hi
      have h0 := h.acked_eq_zero hgt
      have hi : i ≤ s.acked q' T := hi
      obtain rfl : i = 0 := by omega
      exact .zero _ _
    · rw [advance_term_of_ne hq] at hT
      exact h.ackedPast q' T i hT hi hown (hch hc)
  · intro c T T' i hl hlt' hown hc
    exact h.complete c T T' i hl hlt' hown (hch hc)
  · intro q' T T' c i hv htr hun hlt' hi hown hc
    by_cases hq : c = q
    · subst hq
      rw [advance_term_self] at htr
      have := (h.voteLe q' T' c hv).2
      omega
    · rw [advance_term_of_ne hq] at htr
      exact h.ballot q' T T' c i hv htr hun hlt' hi hown (hch hc)
  · intro q'
    rcases h.commit q' with h0 | ⟨T, i, hT, hrs⟩
    · exact .inl h0
    · exact .inr ⟨T, i, hT.trans (hmn q'), hrs⟩

omit [DecidableEq N] in
/-- An up-to-date candidate holds what its voter has acknowledged and may still be chosen. -/
theorem upToDate_agree {q c : N} {T i : Nat} (hup : UpToDate termOf (s.log c) (s.log q)) (hown : s.Own termOf T i)
    (hch : s.Choosable members T i) (hag : Agree i (s.log q) (s.leaderLog T)) : Agree i (s.log c) (s.leaderLog T) := by
  obtain ⟨hlT, j, e, rfl, he, rfl⟩ := id hown
  have heq : (s.log q)[j]? = some e := by rw [hag.getElem? (Nat.lt_succ_self j), he]
  have hq : j + 1 ≤ (s.log q).length := (List.getElem?_eq_some_iff.1 heq).1
  -- the voter's last entry is at least as new as the acknowledged one
  have hls : ∀ X : List E, X ≠ [] → ∃ x, X[X.length - 1]? = some x ∧ lastTerm termOf X = termOf x := by
    intro X hX
    refine ⟨X.getLast hX, ?_, ?_⟩
    · rw [← List.getLast?_eq_getElem?, List.getLast?_eq_some_getLast hX]
    · simp [lastTerm, List.getLast?_eq_some_getLast hX]
  obtain ⟨x, hx, hxt⟩ := hls (s.log q) (by rintro h0; simp [h0] at hq)
  have hex : termOf e ≤ termOf x := h.terms_le (h.chainedLog q) (by omega) heq hx
  have hne : s.log c ≠ [] := by
    intro h0
    rcases hup with hlt | ⟨-, hlen⟩
    · simp [h0, lastTerm] at hlt
    · rw [h0, length_nil] at hlen
      omega
  obtain ⟨y, hy, hyt⟩ := hls (s.log c) hne
  have hpos : 0 < (s.log c).length := length_pos_of_ne_nil hne
  obtain ⟨⟨c', hld⟩, hcn⟩ := h.chainedLog c _ y hy
  rw [Nat.sub_add_cancel hpos] at hcn
  have hxy : termOf x ≤ termOf y := by
    rcases hup with hlt | ⟨he', -⟩ <;> omega
  rcases Nat.lt_or_eq_of_le (hex.trans hxy) with hlt | het
  · -- the candidate's last entry is of a later term, whose leader has the prefix
    have hcm := h.complete c' _ _ _ hld hlt hown hch
    refine Agree.trans (hcn.mono ?_) hcm
    by_contra hsh
    have hyL : (s.leaderLog (termOf e))[(s.log c).length - 1]? = some y := by
      rw [← hcm.getElem? (by omega), ← hcn.getElem? (by omega), hy]
    obtain ⟨cT, hcT⟩ := hlT
    have := h.leaderLe cT _ hcT y (mem_of_getElem? hyL)
    omega
  -- both logs end in the term of the acknowledged entry
  rw [← het] at hcn
  refine hcn.mono ?_
  rcases hup with hlt | ⟨-, hlen⟩
  · omega
  · omega

omit [DecidableEq N] in
theorem vote {q c : N} (hu : ∀ c', s.voted q (s.term q) c' → c' = c) (hle : s.term q ≤ s.term c)
    (hup : s.term c = s.term q → (∀ c', ¬ s.led c' (s.term q)) → UpToDate termOf (s.log c) (s.log q)) :
    Inv members termOf (s.vote q (s.term q) c) := by
  refine { h with voteLe := ?_, voteUnique := ?_, elected := ?_, ballot := ?_ }
  · rintro q' T c' (hv | ⟨rfl, rfl, rfl⟩)
    · exact h.voteLe q' T c' hv
    · exact ⟨le_rfl, hle⟩
  · rintro q' T c1 c2 (h1 | ⟨rfl, rfl, rfl⟩) (h2 | ⟨h2, h3, h4⟩)
    · exact h.voteUnique q' T c1 c2 h1 h2
    · subst h2 h3 h4
      exact hu c1 h1
    · exact (hu c2 h2).symm
    · exact h4.symm
  · intro c' T hl
    obtain ⟨hT, Q, hQ, hv⟩ := h.elected c' T hl
    exact ⟨hT, Q, hQ, fun q' hq' => .inl (hv q' hq')⟩
  · rintro q' T T' c' i (hv | ⟨rfl, rfl, rfl⟩) htr hun hlt hi hown hc
    · exact h.ballot q' T T' c' i hv htr hun hlt hi hown hc
    · exact h.upToDate_agree (hup htr hun) hown hc (h.ackedPast q' T i hlt hi hown hc)

theorem lead (hmaj : ∃ Q, Majority members Q ∧ ∀ q ∈ Q, s.voted q (s.term c) c) :
    Inv members termOf (s.lead c) := by
  by_cases hl : s.led c (s.term c)
  · -- it leads the term already: nothing changes
    have hld : (s.lead c).led = s.led := by
      funext c' T'
      simp only [State.lead, eq_iff_iff, or_iff_left_iff_imp]
      rintro ⟨rfl, rfl⟩
      exact hl
    have hlg : (s.lead c).leaderLog = s.leaderLog := by
      simp [State.lead, h.leading c _ hl rfl]
    have heq : s.lead c = s := by
      cases s
      simp only [State.lead] at hld hlg ⊢
      simp [hld, hlg]
    rw [heq]
    exact h
  have hun : ∀ c', ¬ s.led c' (s.term c) := by
    intro c' hl'
    obtain ⟨-, Q, hQ, hv⟩ := h.elected c' _ hl'
    obtain ⟨R, hR, hv'⟩ := hmaj
    obtain ⟨q, hq, hq'⟩ := hQ.exists_mem_both hR
    exact hl (h.voteUnique q _ c' c (hv q hq) (hv' q hq') ▸ hl')
  have hne : ∀ {c' T}, s.led c' T → T ≠ s.term c := by
    rintro c' T hl' rfl
    exact hun c' hl'
  have hcn : ∀ {X}, s.Chained termOf X → (s.lead c).Chained termOf X := by
    intro X hX i e he
    obtain ⟨⟨c', hl'⟩, hag⟩ := hX i e he
    exact ⟨⟨c', .inl hl'⟩, by rwa [State.lead_leaderLog_of_ne (hne hl')]⟩
  have hown : ∀ {T i}, (s.lead c).Own termOf T i → T ≠ s.term c ∧ s.Own termOf T i := by
    rintro T i ⟨⟨c', hl'⟩, j, e, rfl, he, ht⟩
    have hT : T ≠ s.term c := by
      rintro rfl
      rw [State.lead_leaderLog_self] at he
      obtain ⟨⟨c', hl'⟩, -⟩ := h.chainedLog c j e he
      exact hun c' (ht ▸ hl')
    rw [State.lead_leaderLog_of_ne hT] at he
    exact ⟨hT, ⟨c', hl'.resolve_right fun hr => hT hr.2⟩, j, e, rfl, he, ht⟩
  refine ⟨h.voteLe, h.voteUnique, ?_, ?_, fun q => hcn (h.chainedLog q), ?_, h.logLe, ?_, ?_, ?_, ?_, ?_, ?_, ?_⟩
  · rintro c' T (hl' | ⟨rfl, rfl⟩)
    · exact h.elected c' T hl'
    · exact ⟨le_rfl, hmaj⟩
  · rintro c' T (hl' | ⟨rfl, rfl⟩) htr
    · rw [State.lead_leaderLog_of_ne (hne hl')]
      exact h.leading c' T hl' htr
    · rw [State.lead_leaderLog_self]
      rfl
  · rintro c' T (hl' | ⟨rfl, rfl⟩)
    · rw [State.lead_leaderLog_of_ne (hne hl')]
      exact hcn (h.chainedLeader c' T hl')
    · rw [State.lead_leaderLog_self]
      exact hcn (h.chainedLog c')
  · rintro c' T (hl' | ⟨rfl, rfl⟩)
    · rw [State.lead_leaderLog_of_ne (hne hl')]
      exact h.leaderLe c' T hl'
    · rw [State.lead_leaderLog_self]
      exact h.logLe c'
  · intro q T hpos
    obtain ⟨⟨c', hl'⟩, hrs⟩ := h.ackedLed q T hpos
    rw [State.lead_leaderLog_of_ne (hne hl')]
    exact ⟨⟨c', .inl hl'⟩, hrs⟩
  · intro q
    by_cases hpos : 0 < s.acked q (s.term q)
    · obtain ⟨⟨c', hl'⟩, -⟩ := h.ackedLed q _ hpos
      have hag := h.ackedNow q
      rwa [← State.lead_leaderLog_of_ne (hne hl')] at hag
    have h0 : (s.lead c).acked q ((s.lead c).term q) = 0 := Nat.eq_zero_of_not_pos hpos
    rw [h0]
    exact .zero _ _
  · intro q T i hT hi ho hc
    obtain ⟨hT', ho⟩ := hown ho
    rw [State.lead_leaderLog_of_ne hT']
    exact h.ackedPast q T i hT hi ho hc
  · rintro c' T T' i (hl' | ⟨rfl, rfl⟩) hlt ho hc
    · obtain ⟨hT, ho⟩ := hown ho
      rw [State.lead_leaderLog_of_ne hT, State.lead_leaderLog_of_ne (hne hl')]
      exact h.complete c' T T' i hl' hlt ho hc
    · -- the new leader: a voter in the choosing majority has acknowledged the index
      obtain ⟨hT, ho⟩ := hown ho
      rw [State.lead_leaderLog_of_ne hT, State.lead_leaderLog_self]
      obtain ⟨Q, hQ, hch⟩ := id hc
      obtain ⟨R, hR, hv⟩ := hmaj
      obtain ⟨q, hq, hq'⟩ := hQ.exists_mem_both hR
      have hvq := (h.voteLe q _ c' (hv q hq')).1
      have hac : i ≤ s.acked q T := by
        refine (hch q hq).resolve_left fun hle => ?_
        have hle : s.term q ≤ T := hle
        omega
      exact h.ballot q T _ c' i (hv q hq') rfl hun hlt hac ho hc
  · intro q T T' c' i hv htr hu' hlt hi ho hc
    obtain ⟨hT, ho⟩ := hown ho
    rw [State.lead_leaderLog_of_ne hT]
    exact h.ballot q T T' c' i hv htr (fun c'' hl'' => hu' c'' (.inl hl'')) hlt hi ho hc
  · intro q
    rcases h.commit q with h0 | ⟨T, i, hT, hi, ⟨⟨⟨c', hl'⟩, ho⟩, hQ⟩, hag⟩
    · exact .inl h0
    refine .inr ⟨T, i, hT, hi, ⟨⟨⟨c', .inl hl'⟩, ?_⟩, hQ⟩, ?_⟩
    · rwa [State.lead_leaderLog_of_ne (hne hl')]
    · rwa [State.lead_leaderLog_of_ne (hne hl')]

/-! What a leader's own proposal keeps: its log and that of its term grow by one entry, and no other log changes. -/

theorem agree_propose (e : E) (hl : s.led c (s.term c)) {k : Nat} {X : List E} (hag : Agree k X (s.leaderLog T))
    (hk : k ≤ (s.leaderLog T).length) : Agree k X ((s.propose c e).leaderLog T) := by
  by_cases hT : T = s.term c
  · subst hT
    rw [propose_leaderLog_self, h.leading c _ hl rfl]
    exact hag.trans (Agree.append_left hk).symm
  · rwa [propose_leaderLog_of_ne hT]

theorem length_le_propose (e : E) (hl : s.led c (s.term c)) (T : Nat) :
    (s.leaderLog T).length ≤ ((s.propose c e).leaderLog T).length := by
  by_cases hT : T = s.term c
  · subst hT
    simp [h.leading c _ hl rfl]
  · rw [propose_leaderLog_of_ne hT]

theorem chained_propose (e : E) (hl : s.led c (s.term c)) {X : List E} (hX : s.Chained termOf X) :
    (s.propose c e).Chained termOf X := by
  intro i x hx
  obtain ⟨hld, hag⟩ := hX i x hx
  have hi : i + 1 ≤ X.length := (List.getElem?_eq_some_iff.1 hx).1
  exact ⟨hld, h.agree_propose e hl hag (hag.symm.le_length hi)⟩

theorem chained_proposed {e : E} (hl : s.led c (s.term c)) (he : termOf e = s.term c) :
    (s.propose c e).Chained termOf (s.log c ++ [e]) := by
  intro i x hx
  by_cases hi : i < (s.log c).length
  · rw [List.getElem?_append_left hi] at hx
    obtain ⟨hld, hag⟩ := h.chained_propose e hl (h.chainedLog c) i x hx
    exact ⟨hld, (Agree.append_left hi).trans hag⟩
  rw [List.getElem?_append_right (not_lt.1 hi)] at hx
  have hx' : x = e := (mem_singleton.1 (mem_of_getElem? hx))
  rw [hx', he]
  exact ⟨⟨c, hl⟩, by rw [propose_leaderLog_self]; exact .refl _ _⟩

theorem own_propose (e : E) (hl : s.led c (s.term c)) {i : Nat} (ho : s.Own termOf T i) :
    (s.propose c e).Own termOf T i := by
  obtain ⟨hld, j, x, rfl, hx, hxt⟩ := ho
  have hj := (List.getElem?_eq_some_iff.1 hx).1
  refine ⟨hld, j, x, rfl, ?_, hxt⟩
  rw [← (h.agree_propose e hl (.refl _ _) hj).getElem? (Nat.lt_succ_self j), hx]

theorem own_of_propose {e : E} (hl : s.led c (s.term c)) {i : Nat} (ho : (s.propose c e).Own termOf T i) :
    s.Own termOf T i ∨ T = s.term c ∧ (s.leaderLog T).length < i := by
  obtain ⟨hld, j, x, rfl, hx, hxt⟩ := ho
  by_cases hj : j < (s.leaderLog T).length
  · have hag := h.agree_propose e hl (.refl _ _) hj
    exact .inl ⟨hld, j, x, rfl, by rw [hag.getElem? (Nat.lt_succ_self j), hx], hxt⟩
  refine .inr ⟨?_, by omega⟩
  by_contra hT
  rw [propose_leaderLog_of_ne hT] at hx
  exact hj (List.getElem?_eq_some_iff.1 hx).1

/-- Nobody has acknowledged the new entry, and a later leader's voters have left the term. -/
theorem complete_propose {e : E} (hl : s.led c (s.term c)) {c' : N} {T' i : Nat} (hl' : s.led c' T') (hlt : T < T')
    (ho : (s.propose c e).Own termOf T i) (hc : (s.propose c e).Choosable members T i) :
    Agree i ((s.propose c e).leaderLog T') ((s.propose c e).leaderLog T) := by
  rcases h.own_of_propose hl ho with ho | ⟨rfl, hgt⟩
  · have hag := h.agree_propose e hl (h.complete c' T T' i hl' hlt ho hc) ho.le_length
    have hi : i ≤ (s.leaderLog T').length := hag.le_length (ho.le_length.trans (h.length_le_propose e hl T))
    exact (h.agree_propose e hl (.refl _ _) hi).symm.trans hag
  obtain ⟨Q, hQ, hch⟩ := hc
  obtain ⟨-, R, hR, hv⟩ := h.elected c' T' hl'
  obtain ⟨q, hq, hq'⟩ := hQ.exists_mem_both hR
  have hvq := (h.voteLe q T' c' (hv q hq')).1
  have hcq : s.term q ≤ s.term c ∨ i ≤ s.acked q (s.term c) := hch q hq
  have hak := h.acked_le_length q (s.term c)
  omega

theorem ackedPast_propose {e : E} (hl : s.led c (s.term c)) {i : Nat} (hT : T < s.term q) (hi : i ≤ s.acked q T)
    (ho : (s.propose c e).Own termOf T i) (hc : (s.propose c e).Choosable members T i) :
    Agree i ((s.propose c e).log q) ((s.propose c e).leaderLog T) := by
  have hle := hi.trans (h.acked_le_length q T)
  rcases h.own_of_propose hl ho with ho | ⟨-, hgt⟩
  swap
  · omega
  have hag := h.agree_propose e hl (h.ackedPast q T i hT hi ho hc) hle
  by_cases hq : q = c
  · subst hq
    rw [propose_log_self]
    exact (Agree.append_left (hag.le_length (hle.trans (h.length_le_propose e hl T)))).trans hag
  · rwa [propose_log_of_ne hq]

theorem commit_propose (e : E) (hl : s.led c (s.term c)) (q : N) : s.commit q = 0 ∨ ∃ T i, T ≤ s.term q ∧ s.commit q ≤ i ∧
    (s.propose c e).Committed members termOf T i ∧
      Agree (s.commit q) ((s.propose c e).log q) ((s.propose c e).leaderLog T) := by
  rcases h.commit q with h0 | ⟨T, i, hT, hi, ⟨ho, hQ⟩, hag⟩
  · exact .inl h0
  have hk : s.commit q ≤ (s.leaderLog T).length := hi.trans ho.le_length
  refine .inr ⟨T, i, hT, hi, ⟨h.own_propose e hl ho, hQ⟩, ?_⟩
  have hag' := h.agree_propose e hl hag hk
  by_cases hq : q = c
  · subst hq
    rw [propose_log_self]
    exact (Agree.append_left (hag.le_length hk)).trans hag'
  · rwa [propose_log_of_ne hq]

theorem propose {e : E} (hl : s.led c (s.term c)) (he : termOf e = s.term c) :
    Inv members termOf (s.propose c e) := by
  refine ⟨h.voteLe, h.voteUnique, h.elected, ?_, ?_, ?_, ?_, ?_, ?_, ?_, fun q T i => h.ackedPast_propose hl,
    fun c' T T' i => h.complete_propose hl, ?_, h.commit_propose e hl⟩
  · intro c' T hl' htr
    by_cases hc : c' = c
    · subst hc
      have htr : s.term c' = T := htr
      subst htr
      rw [propose_log_self, propose_leaderLog_self]
    have hT : T ≠ s.term c := by
      rintro rfl
      exact hc (h.leader_unique hl' hl)
    rw [propose_log_of_ne hc, propose_leaderLog_of_ne hT]
    exact h.leading c' T hl' htr
  · intro q
    by_cases hq : q = c
    · subst hq
      rw [propose_log_self]
      exact h.chained_proposed hl he
    · rw [propose_log_of_ne hq]
      exact h.chained_propose e hl (h.chainedLog q)
  · intro c' T hl'
    by_cases hT : T = s.term c
    · subst hT
      rw [propose_leaderLog_self]
      exact h.chained_proposed hl he
    · rw [propose_leaderLog_of_ne hT]
      exact h.chained_propose e hl (h.chainedLeader c' T hl')
  · intro q x hx
    by_cases hq : q = c
    · subst hq
      rw [propose_log_self] at hx
      rcases mem_append.1 hx with hx | hx
      · exact h.logLe q x hx
      · rw [mem_singleton.1 hx, he]
        exact le_rfl
    · rw [propose_log_of_ne hq] at hx
      exact h.logLe q x hx
  · intro c' T hl' x hx
    by_cases hT : T = s.term c
    · subst hT
      rw [propose_leaderLog_self] at hx
      rcases mem_append.1 hx with hx | hx
      · exact h.logLe c x hx
      · rw [mem_singleton.1 hx, he]
    · rw [propose_leaderLog_of_ne hT] at hx
      exact h.leaderLe c' T hl' x hx
  · intro q T hpos
    obtain ⟨hld, hT, hle⟩ := h.ackedLed q T hpos
    exact ⟨hld, hT, hle.trans (h.length_le_propose e hl T)⟩
  · intro q
    by_cases hq : q = c
    · subst hq
      have : (s.propose q e).log q = (s.propose q e).leaderLog ((s.propose q e).term q) := by
        rw [propose_log_self]
        exact propose_leaderLog_self.symm
      rw [this]
      exact .refl _ _
    · rw [propose_log_of_ne hq]
      exact h.agree_propose e hl (h.ackedNow q) (h.acked_le_length q _)
  · intro q T T' c' i hv htr hun hlt hi ho hc
    have hi : i ≤ s.acked q T := hi
    have hle := hi.trans (h.acked_le_length q T)
    rcases h.own_of_propose hl ho with ho | ⟨-, hgt⟩
    swap
    · omega
    have hne : c' ≠ c := by
      rintro rfl
      exact hun c' (htr ▸ hl)
    rw [propose_log_of_ne hne]
    exact h.agree_propose e hl (h.ballot q T T' c' i hv htr hun hlt hi ho hc) hle

/-- A follower replaces its log by a part of it or of its leader's, and loses nothing on which it
agreed with the leader. -/
theorem replace {X : List E} (hl : s.led c (s.term q)) (hne : c ≠ q)
    (hpre : X <+: s.log q ∨ X <+: s.leaderLog (s.term q))
    (hkp : ∀ k, Agree k (s.log q) (s.leaderLog (s.term q)) → Agree k X (s.leaderLog (s.term q))) :
    Inv members termOf (s.replace q X) := by
  have hsl : ∀ {T}, s.led q T → s.term q ≠ T := by
    rintro T hq rfl
    exact hne (h.leader_unique hl hq)
  refine ⟨h.voteLe, h.voteUnique, h.elected, ?_, ?_, h.chainedLeader, ?_, h.leaderLe, h.ackedLed, ?_, ?_,
    h.complete, ?_, ?_⟩
  · intro c' T hl' htr
    have hc : c' ≠ q := by
      rintro rfl
      exact hsl hl' htr
    rw [replace_log_of_ne hc]
    exact h.leading c' T hl' htr
  · intro q'
    by_cases hq : q' = q
    · subst hq
      rw [replace_log_self]
      rcases hpre with hp | hp
      · exact (h.chainedLog q').of_isPrefix hp
      · exact (h.chainedLeader c _ hl).of_isPrefix hp
    · rw [replace_log_of_ne hq]
      exact h.chainedLog q'
  · intro q' x hx
    by_cases hq : q' = q
    · subst hq
      rw [replace_log_self] at hx
      rcases hpre with hp | hp
      · exact h.logLe q' x (hp.subset hx)
      · exact h.leaderLe c _ hl x (hp.subset hx)
    · rw [replace_log_of_ne hq] at hx
      exact h.logLe q' x hx
  · intro q'
    by_cases hq : q' = q
    · subst hq
      rw [replace_log_self]
      exact hkp _ (h.ackedNow q')
    · rw [replace_log_of_ne hq]
      exact h.ackedNow q'
  · intro q' T i hT hi ho hc
    have hag := h.ackedPast q' T i hT hi ho hc
    by_cases hq : q' = q
    · subst hq
      rw [replace_log_self]
      have hcm := h.complete c T _ i hl hT ho hc
      exact (hkp i (hag.trans hcm.symm)).trans hcm
    · rwa [replace_log_of_ne hq]
  · intro q' T T' c' i hv htr hun hlt hi ho hc
    have hc' : c' ≠ q := by
      rintro rfl
      exact hun c (htr ▸ hl)
    rw [replace_log_of_ne hc']
    exact h.ballot q' T T' c' i hv htr hun hlt hi ho hc
  · intro q'
    rcases h.commit q' with h0 | ⟨T, i, hT, hi, hco, hag⟩
    · exact .inl h0
    refine .inr ⟨T, i, hT, hi, hco, ?_⟩
    by_cases hq : q' = q
    · subst hq
      rw [replace_log_self]
      exact (hkp _ (h.commit_agree hl le_rfl)).trans ((h.committed_agree hco hl hT).mono hi)
    · rwa [replace_log_of_ne hq]

theorem ack {m : Nat} (hl : s.led c (s.term q)) (hm : m ≤ (s.leaderLog (s.term q)).length)
    (hag : Agree m (s.log q) (s.leaderLog (s.term q))) : Inv members termOf (s.ack q m) := by
  have hch : ∀ {T i}, (s.ack q m).Choosable members T i → s.Choosable members T i := by
    intro T i hc
    refine hc.of_imp fun q' hq' => ?_
    by_cases heq : q' = q ∧ T = s.term q
    · exact .inl (by rw [heq.1, heq.2])
    · rwa [ack_acked_of_ne (not_and_or.1 heq)] at hq'
  refine ⟨h.voteLe, h.voteUnique, h.elected, h.leading, h.chainedLog, h.chainedLeader, h.logLe, h.leaderLe,
    ?_, ?_, ?_, ?_, ?_, ?_⟩
  · intro q' T hpos
    by_cases heq : q' = q ∧ T = s.term q
    · obtain ⟨rfl, rfl⟩ := heq
      rw [ack_acked_self] at hpos ⊢
      refine ⟨⟨c, hl⟩, le_rfl, max_le ?_ hm⟩
      by_cases hp : 0 < s.acked q' (s.term q')
      · exact (h.ackedLed q' _ hp).2.2
      · omega
    · rw [ack_acked_of_ne (not_and_or.1 heq)] at hpos ⊢
      exact h.ackedLed q' T hpos
  · intro q'
    by_cases hq : q' = q
    · subst hq
      show Agree ((s.ack q' m).acked q' (s.term q')) _ _
      rw [ack_acked_self]
      rcases Nat.le_total (s.acked q' (s.term q')) m with hle | hle
      · rw [max_eq_right hle]
        exact hag
      · rw [max_eq_left hle]
        exact h.ackedNow q'
    · rw [ack_acked_of_ne (.inl hq)]
      exact h.ackedNow q'
  · intro q' T i hT hi ho hc
    have hT : T < s.term q' := hT
    rw [ack_acked_of_ne (by by_cases hq : q' = q; exact .inr (by subst hq; omega); exact .inl hq)] at hi
    exact h.ackedPast q' T i hT hi ho (hch hc)
  · intro c' T T' i hl' hlt ho hc
    exact h.complete c' T T' i hl' hlt ho (hch hc)
  · intro q' T T' c' i hv htr hun hlt hi ho hc
    have hvq := (h.voteLe q' T' c' hv).1
    rw [ack_acked_of_ne (by by_cases hq : q' = q; exact .inr (by subst hq; omega); exact .inl hq)] at hi
    exact h.ballot q' T T' c' i hv htr hun hlt hi ho (hch hc)
  · intro q'
    rcases h.commit q' with h0 | ⟨T, i, hT, hi, ⟨ho, Q, hQ, hak⟩, hrs⟩
    · exact .inl h0
    · exact .inr ⟨T, i, hT, hi, ⟨ho, Q, hQ, fun p hp => (hak p hp).trans (acked_le_ack p T)⟩, hrs⟩

theorem setCommit {k T i : Nat} (hT : T ≤ s.term q) (hk : k ≤ i)
    (hc : s.Committed members termOf T i) (hag : Agree k (s.log q) (s.leaderLog T)) :
    Inv members termOf (s.setCommit q k) := by
  refine { h with commit := ?_ }
  intro q'
  by_cases hq : q' = q
  · subst hq
    rw [setCommit_self]
    exact .inr ⟨T, i, hT, hk, hc, hag⟩
  · rw [setCommit_of_ne hq]
    exact h.commit q'

end Inv

end Consensus
