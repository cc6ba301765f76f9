import NothingDNS.Config.Lexing
import NothingDNS.Config.Blocks
/-!
# A document is read as it is meant

`key_moves_to_other_mapping` is a document outside of `Clear`: four levels of nesting that end in a sequence, and a key
behind them that is put into a mapping two levels too deep.
-/

namespace NothingDNS.Config

open List NothingDNS.Config.Tokenizer

/-! ## The indentations nest -/

/-- Lines that nest behind any block inside the level `i`. -/
def Closes (i : Nat) (S : List Nat) (R : List Line) : Prop :=
  ∀ E : List Nat, (∀ x ∈ E, i < x) → Nests (E ++ i :: S) R

section Nesting

variable {i k : Nat} {S E : List Nat} {R : List Line} {l : Line}

theorem popTo_append (hE : ∀ x ∈ E, i < x) : popTo i (E ++ i :: S) = i :: S := by
  induction E with
  | nil => exact popTo_self i S
  | cons x E ih =>
    obtain ⟨y, T, hy⟩ : ∃ y T, E ++ i :: S = y :: T := exists_cons_of_ne_nil (by simp)
    have ih := ih fun y hy => hE y (mem_cons_of_mem _ hy)
    rw [cons_append, hy, popTo, if_pos (hE x (by simp)), ← hy]
    exact ih

theorem nests_line (hl : l.indent = i) (hE : ∀ x ∈ E, i < x) (h : Nests (i :: S) R) : Nests (E ++ i :: S) (l :: R) := by
  have htp : ¬(E ++ i :: S).headD 0 < l.indent := by
    cases E with
    | nil => simp [hl]
    | cons x E =>
      have := hE x (by simp)
      simp only [cons_append, headD_cons]
      omega
  rw [Nests, if_neg htp, hl, popTo_append hE]
  exact ⟨rfl, h⟩

theorem nests_enter (hl : l.indent = k) (hk : i < k) (h : Closes k (i :: S) (l :: R)) : Nests (i :: S) (l :: R) := by
  have hin : Nests (k :: i :: S) (l :: R) := h [] (by simp)
  rw [Nests, hl, if_neg (by simp), popTo_self] at hin
  rw [Nests, hl, if_pos (show (i :: S).headD 0 < k from hk)]
  exact hin.2

theorem nests_pairs (ps : Pairs) (hk : i < k) (h : Closes k (i :: S) (ps.lines k ++ R)) :
    Nests (i :: S) (ps.lines k ++ R) := by
  obtain ⟨key, val, B, hB⟩ := ps.lines_cons k
  rw [hB, cons_append] at h ⊢
  exact nests_enter rfl hk h

theorem nests_items (is : Items) (hk : i < k) (h : Closes k (i :: S) (is.lines k ++ R)) :
    Nests (i :: S) (is.lines k ++ R) := by
  obtain ⟨l, B, hB, hl, -⟩ := is.lines_cons k
  rw [hB, cons_append] at h ⊢
  exact nests_enter hl hk h

theorem Closes.nested (h : Closes i S R) (hk : i < k) : Closes k (i :: S) R := by
  intro E hE
  have := h (E ++ [k]) fun x hx => by
    obtain hx | hx := mem_append.1 hx
    · exact hk.trans (hE x hx)
    · rw [mem_singleton.1 hx]
      exact hk
  rwa [append_assoc] at this

end Nesting

mutual

theorem Tree.nests : (v : Tree) → {fin : Bool} → {i k : Nat} → {S : List Nat} → {R : List Line} → v.Clear fin →
    i < k → Closes i S R → Nests (i :: S) (v.lines k ++ R)
  | .scalar _, _, _, _, _, _, _, _, h => h [] (by simp)
  | .mapping ps, _, _, _, _, _, hc, hk, h => nests_pairs ps hk (ps.nests hc (h.nested hk))
  | .sequence is, _, _, _, _, _, hc, hk, h => nests_items is hk (is.nests hc (h.nested hk))

theorem Pairs.nests : (ps : Pairs) → {fin free : Bool} → {i : Nat} → {S : List Nat} → {R : List Line} →
    ps.Clear fin free → Closes i S R → Closes i S (ps.lines i ++ R)
  | .one k v, _, _, i, S, R, hc, h, E, hE => by
    rw [Pairs.lines_one]
    exact nests_line rfl hE (v.nests hc.1 (by omega) h)
  | .cons k v rest, _, _, i, S, R, hc, h, E, hE => by
    rw [Pairs.lines_more]
    exact nests_line rfl hE (v.nests hc.1 (by omega) (rest.nests hc.2 h))

theorem Items.nests : (is : Items) → {fin : Bool} → {i : Nat} → {S : List Nat} → {R : List Line} →
    is.Clear fin → Closes i S R → Closes i S (is.lines i ++ R)
  | .one t, _, i, S, R, hc, h => t.nests_item hc h
  | .cons t rest, _, i, S, R, hc, h => by
    rw [Items.lines, append_assoc]
    exact t.nests_item hc.1 (rest.nests hc.2 h)

theorem Tree.nests_item : (t : Tree) → {fin free : Bool} → {i : Nat} → {S : List Nat} → {R : List Line} →
    t.ClearItem fin free → Closes i S R → Closes i S (t.itemLines i ++ R)
  | .scalar _, _, _, i, S, R, _, h, E, hE => nests_line rfl hE (h [] (by simp))
  | .sequence is, _, _, i, S, R, hc, h, E, hE => by
    have hk : i < i + 2 := by omega
    rw [Tree.itemLines, cons_append]
    exact nests_line rfl hE (nests_items is hk (is.nests hc (h.nested hk)))
  | .mapping (.one k v), _, _, i, S, R, hc, h, E, hE => by
    rw [Tree.itemLines, Pairs.itemLines, cons_append]
    exact nests_line rfl hE (v.nests hc.2 (by omega) h)
  | .mapping (.cons k (.scalar s) rest), _, _, i, S, R, hc, h, E, hE => by
    have hk : i < i + 2 := by omega
    rw [Tree.itemLines, Pairs.itemLines, cons_append, append_assoc]
    exact nests_line rfl hE (nests_pairs rest hk (rest.nests hc.2 (h.nested hk)))
  | .mapping (.cons _ (.mapping _) _), _, _, _, _, _, hc, _, _, _ => nomatch hc.1
  | .mapping (.cons _ (.sequence _) _), _, _, _, _, _, hc, _, _, _ => nomatch hc.1

end

/-! ## The lines are valid -/

theorem Line.valid_of {i : Nat} {lead : Lead} {v : Tree} (hld : (match lead with
    | .key k | .itemKey k => IsKey k
    | .item => True)) (hv : v.Valid) : Line.Valid ⟨i, lead, v.inline⟩ := by
  refine ⟨hld, fun s hs => ?_⟩
  cases v with
  | scalar s' =>
    cases hs
    exact hv
  | mapping ps => cases hs
  | sequence is => cases hs

mutual

theorem Tree.valid_lines : (v : Tree) → (k : Nat) → v.Valid → ∀ l ∈ v.lines k, l.Valid
  | .scalar _, _, _ => by simp [Tree.lines]
  | .mapping ps, k, h => ps.valid_lines k h
  | .sequence is, k, h => is.valid_lines k h

theorem Pairs.valid_lines : (ps : Pairs) → (i : Nat) → ps.Valid → ∀ l ∈ ps.lines i, l.Valid
  | .one _ v, i, h => forall_mem_cons.2 ⟨Line.valid_of h.1 h.2, v.valid_lines (i + 2) h.2⟩
  | .cons _ v rest, i, h => forall_mem_cons.2 ⟨Line.valid_of h.1 h.2.2.1, forall_mem_append.2
      ⟨v.valid_lines (i + 2) h.2.2.1, rest.valid_lines i h.2.2.2⟩⟩

theorem Items.valid_lines : (is : Items) → (i : Nat) → is.Valid → ∀ l ∈ is.lines i, l.Valid
  | .one t, i, h => t.valid_itemLines i h
  | .cons t rest, i, h => forall_mem_append.2 ⟨t.valid_itemLines i h.1, rest.valid_lines i h.2⟩

theorem Tree.valid_itemLines : (t : Tree) → (i : Nat) → t.Valid → ∀ l ∈ t.itemLines i, l.Valid
  | .scalar s, i, h => forall_mem_singleton.2 ⟨trivial, fun s' hs' => Option.some.inj hs' ▸ h⟩
  | .sequence is, i, h => forall_mem_cons.2 ⟨⟨trivial, by simp⟩, is.valid_lines (i + 2) h⟩
  | .mapping (.one _ v), i, h => forall_mem_cons.2 ⟨Line.valid_of h.1 h.2, v.valid_lines (i + 4) h.2⟩
  | .mapping (.cons _ v rest), i, h => forall_mem_cons.2 ⟨Line.valid_of h.1 h.2.2.1, forall_mem_append.2
      ⟨v.valid_lines (i + 4) h.2.2.1, rest.valid_lines (i + 2) h.2.2.2⟩⟩

end

theorem new_feeds {doc : Pairs} (hvl : doc.Valid) {fin free : Bool} (hcr : doc.Clear fin free) :
    (Parser.new doc.text).Feeds (first [0] (doc.lines 0 ++ [])) := by
  have hcl : Closes 0 [] [] := fun E _ => by simp [Nests]
  have hns : Nests [0] (doc.lines 0 ++ []) := doc.nests hcr hcl [] (by simp)
  have hln : ∀ l ∈ doc.lines 0 ++ [], l.Valid := by simpa using doc.valid_lines 0 hvl
  have hyl := yields_lines (by simp) hln hns
  obtain ⟨key, val, B, hB⟩ := doc.lines_cons 0
  have hst : stream [0] (doc.lines 0 ++ []) = first [0] (doc.lines 0 ++ []) := by
    have hp : pops [0] (⟨0, .key key, val⟩ :: (B ++ [])) = 0 := pops_same rfl
    rw [stream_rest (atMost_lines doc 0 []), hB, cons_append, hp]
    exact rest_same rfl
  obtain ⟨s, hs⟩ := first_cons [0] (doc.lines 0 ++ [])
  rw [hst, hs] at hyl
  rw [hs]
  have hsr : ({ tokenizer := { rest := doc.text }, current := ⟨.eof, [], 0⟩ } : Parser).Feeds
      ((⟨.eof, [], 0⟩, 1) :: (headToken (doc.lines 0 ++ []), headDepth [0] (doc.lines 0 ++ [])) :: s) := by
    refine ⟨rfl, rfl, ?_⟩
    rw [append_nil] at hyl ⊢
    exact hyl
  exact hsr.advance.1

def zonesDocument : Pairs :=
  .cons "zones".toList (.sequence (.cons
      (.mapping (.cons "name".toList (.scalar (.plain "a.example".toList)) (.one "acl".toList (.mapping (.one "allow".toList
        (.sequence (.one (.scalar (.plain "10.0.0.1".toList)))))))))
      (.one (.mapping (.one "hosts".toList (.sequence (.one (.scalar (.single "b".toList)))))))))
    (.one "port".toList (.scalar (.plain "53".toList)))

/-- A sequence closes three levels, and the next key is one of the root. -/
def strayDocument : Pairs :=
  .cons "r".toList (.mapping (.one "a".toList (.mapping (.one "s".toList
      (.sequence (.one (.scalar (.plain "x".toList))))))))
    (.one "b".toList (.scalar (.plain "1".toList)))

theorem strayDocument_valid : strayDocument.Valid :=
  ⟨.of_check (by decide), by decide, ⟨.of_check (by decide), .of_check (by decide), .of_check (by decide)⟩,
    .of_check (by decide), .of_check (by decide)⟩

end NothingDNS.Config
