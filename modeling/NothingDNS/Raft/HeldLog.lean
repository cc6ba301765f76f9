import NothingDNS.Raft.NodeSpec
import NothingDNS.Lib.Consensus.Safety
/-!
# The log helpers, read on the whole log

`Node.held` is what a node stands for: the entries under its snapshot, then the
log it keeps in memory. While the snapshot boundary matches the snapshot
(`Bounded`), every helper of `state.go:467-520` and the reconciliation loop of
`appendEntriesLocked` is a plain list operation on `held`.
-/

namespace NothingDNS.Raft

open List Consensus

/-- The term at a 1-based index; index `0` precedes every entry and has term `0`. -/
def termAt (X : List Entry) (i : Nat) : Option Nat :=
  if i = 0 then some 0 else X[i - 1]?.map Entry.term

theorem termAt_length (X : List Entry) : termAt X X.length = some (lastTerm Entry.term X) := by
  rcases eq_nil_or_concat X with rfl | ⟨Y, e, rfl⟩
  · rfl
  · simp [termAt, lastTerm]

variable {X Y : List Entry} {i : Nat}

theorem termAt_congr (h : Agree i X Y) : termAt X i = termAt Y i := by
  unfold termAt
  split
  · rfl
  · rw [h.getElem? (by omega)]

variable {t : Nat}

theorem le_length_of_termAt (h : termAt X i = some t) : i ≤ X.length := by
  by_cases hi : i = 0
  · omega
  rw [termAt, if_neg hi] at h
  obtain ⟨e, he, -⟩ := Option.map_eq_some_iff.1 h
  have := (List.getElem?_eq_some_iff.1 he).1
  omega

theorem exists_of_termAt (hi : i ≠ 0) (h : termAt X i = some t) : ∃ e, X[i - 1]? = some e ∧ e.term = t := by
  rw [termAt, if_neg hi] at h
  exact Option.map_eq_some_iff.1 h

/-- Entry `k` (counted from 0) carries index `k + 1`. -/
def Indexed (X : List Entry) : Prop := ∀ k e, X[k]? = some e → e.index = k + 1

theorem Indexed.of_isPrefix (h : Indexed X) (hp : Y <+: X) : Indexed Y := by
  intro k e he
  obtain ⟨Z, rfl⟩ := hp
  exact h k e (by rw [List.getElem?_append_left (List.getElem?_eq_some_iff.1 he).1, he])

theorem Indexed.concat (h : Indexed X) {e : Entry} (he : e.index = X.length + 1) : Indexed (X ++ [e]) := by
  intro k x hx
  by_cases hk : k < X.length
  · rw [List.getElem?_append_left hk] at hx
    exact h k x hx
  rw [List.getElem?_append_right (not_lt.1 hk)] at hx
  have hlt := (List.getElem?_eq_some_iff.1 hx).1
  have hx' : x = e := List.mem_singleton.1 (List.mem_of_getElem? hx)
  simp only [List.length_singleton] at hlt
  rw [hx', he]
  omega

namespace Node

variable {D : Type} {n : Node D}

/-- The snapshot boundary is the one of the snapshot's payload, and lies in the committed part. -/
structure Bounded (n : Node D) : Prop where
  length : n.snapshotBytes.covers.length = n.lastSnapshot
  term : n.lastSnapshotTerm = lastTerm Entry.term n.snapshotBytes.covers
  le : n.lastSnapshot ≤ n.commitIndex

namespace Bounded

variable (h : n.Bounded)
include h

theorem lastIndex_eq : n.lastIndex = n.held.length := by
  rw [lastIndex, held, length_append, h.length]

theorem covers_eq : n.snapshotBytes.covers = n.held.take n.lastSnapshot := by
  rw [held, ← h.length, take_left]

variable {k : Nat}

theorem held_getElem? (hk : n.lastSnapshot ≤ k) : n.held[k]? = n.log[k - n.lastSnapshot]? := by
  rw [held, getElem?_append_right (by rw [h.length]; exact hk), h.length]

variable {i : Nat}

theorem entryTerm_eq (hi : n.lastSnapshot ≤ i) : n.entryTerm i = termAt n.held i := by
  unfold entryTerm
  by_cases h0 : i = 0
  · simp [h0, termAt]
  rw [if_neg h0]
  by_cases hs : i = n.lastSnapshot
  · subst hs
    rw [if_pos rfl, h.term, ← termAt_length, h.length]
    exact termAt_congr (by rw [h.covers_eq]; exact .take_left le_rfl)
  rw [if_neg hs, termAt, if_neg h0, h.held_getElem? (by omega)]
  by_cases hlt : n.lastIndex < i
  · rw [if_pos (.inr hlt), getElem?_eq_none (by unfold lastIndex at hlt; omega)]
    rfl
  rw [if_neg (by omega)]
  congr 2
  omega

theorem lastLogInfo_eq : n.lastLogInfo = (n.held.length, lastTerm Entry.term n.held) := by
  rw [lastLogInfo, h.entryTerm_eq (by rw [lastIndex]; omega), h.lastIndex_eq, termAt_length]
  rfl

theorem drop_held (hk : n.lastSnapshot ≤ k) : n.held.drop k = n.log.drop (k - n.lastSnapshot) := by
  have hcv : n.snapshotBytes.covers.drop k = [] := drop_eq_nil_of_le (by rw [h.length]; exact hk)
  rw [held, drop_append, h.length, hcv, nil_append]

theorem entriesFrom_eq {start : Nat} (hs : n.lastSnapshot < start) : n.entriesFrom start = n.held.drop (start - 1) := by
  rw [entriesFrom, if_neg (by omega), h.drop_held (by omega)]
  congr 1
  omega

theorem held_truncateFrom {idx : Nat} (hs : n.lastSnapshot < idx) :
    n.snapshotBytes.covers ++ (n.truncateFrom idx).log = n.held.take (idx - 1) := by
  rw [held, take_append, h.length, take_of_length_le (by rw [h.length]; omega)]
  congr 1
  unfold truncateFrom
  split
  · rw [show idx - 1 - n.lastSnapshot = 0 by omega, take_zero]
  · rw [show idx - 1 - n.lastSnapshot = idx - n.lastSnapshot - 1 by omega]

theorem isLogUpToDate_iff {t : Nat} : n.isLogUpToDate i t = true ↔
    lastTerm Entry.term n.held < t ∨ lastTerm Entry.term n.held = t ∧ n.held.length ≤ i := by
  rw [isLogUpToDate, h.lastLogInfo_eq]
  by_cases ht : lastTerm Entry.term n.held = t
  · simp [ht]
  · simp [ht]

end Bounded

/-! ## The reconciliation loop -/

/-- **What the loop leaves.** `L` is the sender's log and the request carries its entries
`idx … m`. If equal terms at an index mean equal logs up to it, the node ends with its own log
if that contains `L` up to `m`, and otherwise with exactly `L` up to `m`. -/
theorem reconcile_held (h : n.Bounded) {L : List Entry} {m : Nat} (hm : m ≤ L.length)
    (hsn : Agree n.lastSnapshot n.held L) (hmt : ∀ i x y, n.held[i]? = some x → L[i]? = some y → x.term = y.term →
      Agree (i + 1) n.held L) : ∀ (es : List Entry) (k : Nat), k + es.length = m → es = (L.drop k).take es.length →
      k ≤ n.held.length → Agree k n.held L → (L.take m <+: n.held ∧ (n.reconcile (k + 1) es).1.log = n.log) ∨
      (¬ L.take m <+: n.held ∧ n.snapshotBytes.covers ++ (n.reconcile (k + 1) es).1.log = L.take m)
  | [], k, hk, _, _, hag => by
    refine .inl ⟨?_, rfl⟩
    simp only [length_nil, Nat.add_zero] at hk
    subst hk
    rw [← hag]
    exact List.take_prefix _ _
  | e :: es, k, hk, hes, hle, hag => by
    rw [length_cons] at hk
    have hk' : k < L.length := by omega
    -- the head of the batch is entry `k` of the sender's log, the tail starts at `k + 1`
    rw [drop_eq_getElem_cons hk', length_cons, take_succ_cons, cons.injEq] at hes
    obtain ⟨he, htl⟩ := hes
    have hLk : L[k]? = some e := by rw [he, getElem?_eq_getElem hk']
    have hb : L.take k ++ e :: es = L.take m := by
      have hd : (L.drop k).take (m - k) = e :: es := by
        rw [drop_eq_getElem_cons hk', show m - k = es.length + 1 by omega, take_succ_cons, ← he, ← htl]
      rw [← hd, ← take_append_drop k (L.take m), take_take, drop_take, min_eq_left (by omega)]
    have hnx : Agree (k + 1) n.held L → k + 1 ≤ n.held.length →
        (L.take m <+: n.held ∧ (n.reconcile (k + 1 + 1) es).1.log = n.log) ∨
        (¬ L.take m <+: n.held ∧ n.snapshotBytes.covers ++ (n.reconcile (k + 1 + 1) es).1.log = L.take m) :=
      fun hag' hle' => reconcile_held h hm hsn hmt es (k + 1) (by omega) htl hle' hag'
    unfold reconcile
    by_cases hs : k + 1 ≤ n.lastSnapshot
    · -- under the snapshot: skipped
      rw [if_pos hs]
      refine hnx (hsn.mono hs) ?_
      rw [← h.lastIndex_eq, lastIndex]
      omega
    rw [if_neg hs]
    by_cases hi : k + 1 ≤ n.lastIndex
    swap
    · -- past the end: the batch is appended
      rw [if_neg hi]
      rw [h.lastIndex_eq] at hi
      refine .inr ⟨fun hp => ?_, ?_⟩
      · have := hp.length_le
        rw [length_take] at this
        omega
      · rw [← append_assoc]
        have : n.held = L.take k := by rw [← hag, take_of_length_le (by omega)]
        rw [← hb, ← this]
        rfl
    rw [if_pos hi]
    have hi' := hi
    rw [h.lastIndex_eq] at hi'
    obtain ⟨x, hx⟩ : ∃ x, n.held[k]? = some x := ⟨_, getElem?_eq_getElem hi'⟩
    have htr : (n.entryTerm (k + 1)).getD 0 = x.term := by
      rw [h.entryTerm_eq (by omega), termAt, if_neg (by omega), Nat.add_sub_cancel, hx]
      rfl
    rw [htr]
    by_cases hne : x.term = e.term
    · -- the entry is there already
      rw [if_neg (not_not_intro hne)]
      exact hnx (hmt k x e hx hLk hne) hi'
    -- a conflict: the batch replaces the rest
    rw [if_pos hne]
    refine .inr ⟨fun hp => hne ?_, ?_⟩
    · have hag' : Agree (k + 1) (L.take m) n.held :=
        .of_isPrefix hp (by rw [length_take]; omega)
      have hLm : (L.take m)[k]? = some e := by rw [getElem?_take_of_lt (by omega), hLk]
      rw [hag'.getElem? (Nat.lt_succ_self k), hx, Option.some.injEq] at hLm
      rw [hLm]
    · rw [← append_assoc, h.held_truncateFrom (by omega), Nat.add_sub_cancel, hag]
      exact hb

end Node

end NothingDNS.Raft
