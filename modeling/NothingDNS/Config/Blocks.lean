import NothingDNS.Config.Parsing
/-!
# Blocks are read as they are meant

One statement for each loop of the parser, proved together by recursion over the
tree: the loop of a mapping, the loop over the pairs of an item, and the loop of a
sequence.
-/

namespace NothingDNS.Config

open Pairs

open List NothingDNS.Config.Parser

/-! ## The pairs of an item -/

section ItemLoop

variable {n depth c i m : Nat} {S : List Nat} {R : List Line} {l : Line} {seen : List Text} {children : List Node}
  {k : Text} {v : Tree} {fin : Bool} {p q : Parser}

theorem itemLoop_skip (h : p.skip n [.newline, .indent] = .ok q) (hq : q.skip n [.newline, .indent] = .ok q) :
    itemLoop (n + 1) depth c seen children p = itemLoop (n + 1) depth c seen children q := by
  rw [itemLoop, itemLoop, h, hq]

theorem itemLoop_behind (h : p.Behind S R m) (n : Nat) :
    ∃ q, q.Feeds (rest S R m) ∧ q.skip (n + 2) [.newline, .indent] = .ok q ∧ ∀ depth c seen children,
      itemLoop (n + 3) depth c seen children p = itemLoop (n + 3) depth c seen children q := by
  obtain ⟨q, hsk, hrs⟩ := skip_newlines h [.newline, .indent] (by simp) (by simp) n
  obtain ⟨x, s, hx, hty, -⟩ := rest_cons_type S R m
  have hq : q.skip (n + 2) [.newline, .indent] = .ok q := skip_stop (hx ▸ hrs) hty (n + 1)
  exact ⟨q, hrs, hq, fun _ _ _ _ => itemLoop_skip hsk hq⟩

theorem itemLoop_dedent {x : Token × Nat} {s : Stream} (h : p.Feeds ((dedent R, m) :: x :: s))
    (hsk : p.skip n [.newline, .indent] = .ok p) (hx : ¬(x.1.type = .string ∧ c ≤ x.1.col)) :
    itemLoop (n + 1) depth c seen children p = .ok (.mapping children, p.peek.2)
      ∧ p.peek.2.Feeds ((dedent R, m) :: x :: s) := by
  obtain ⟨hp, hfd, -⟩ := h.peek
  refine ⟨?_, hfd⟩
  rw [itemLoop, hsk]
  simp only [bind, Except.bind, h.current, hp, dedent, reduceCtorEq, ite_false, if_true, if_neg hx]

theorem itemLoop_end (hR : Below i R) (hm : 1 ≤ m ∨ (headToken R).type ≠ .string) (h : p.Behind S R m) :
    ∃ q, itemLoop (n + 3) depth (i + 1) seen children p = .ok (.mapping children, q) ∧ q.Feeds (rest S R m) := by
  obtain ⟨q, hrs, hsk, hlp⟩ := itemLoop_behind h n
  rw [hlp]
  obtain ⟨s, hs⟩ := first_cons (settle S R) R
  match m with
  | 0 =>
    refine ⟨q, ?_, hrs⟩
    have hfr : q.Feeds (first (settle S R) R) := hrs
    rw [hs] at hfr
    have hst := hm.resolve_left (by omega)
    rw [itemLoop, hsk]
    simp only [bind, Except.bind, hfr.current, if_neg (headToken_ne_dedent R), ne_eq, hst, not_false_eq_true,
      if_true, ite_self]
  | 1 =>
    have hd : q.Feeds ((dedent R, depthAt S R) :: first (settle S R) R) := hrs
    rw [hs] at hd
    have hcl : ¬((headToken R).type = .string ∧ i + 1 ≤ (headToken R).col) := by
      rintro ⟨hst, hcl⟩
      cases R with
      | nil => cases hst
      | cons l R =>
        rw [headToken_col] at hcl
        have := hR l rfl
        omega
    obtain ⟨hen, hfd⟩ := itemLoop_dedent hd hsk hcl
    rw [← hs] at hfd
    exact ⟨_, hen, hfd⟩
  | m + 2 =>
    have hd : q.Feeds ((dedent R, depthAt S R) :: (dedent R, depthAt S R) :: rest S R m) := hrs
    obtain ⟨hen, hfd⟩ := itemLoop_dedent hd hsk (by simp [dedent])
    exact ⟨_, hen, hfd⟩

theorem itemLoop_next {val : Option Scalar} (hm : m ≤ 1) (h : p.Behind (i :: S) (⟨i, .key k, val⟩ :: R) m) (n : Nat) :
    ∃ q n', n ≤ n' ∧ q.Feeds (first (i :: S) (⟨i, .key k, val⟩ :: R)) ∧ ∀ depth seen children,
      itemLoop (n + 3) depth (i + 1) seen children p = itemLoop n' depth (i + 1) seen children q := by
  obtain ⟨q, hrs, hsk, hlp⟩ := itemLoop_behind h n
  have hfr : rest (i :: S) (⟨i, .key k, val⟩ :: R) 0 = first (i :: S) (⟨i, .key k, val⟩ :: R) := rest_same rfl
  obtain rfl | rfl : m = 0 ∨ m = 1 := by omega
  · exact ⟨q, n + 3, by omega, hfr ▸ hrs, fun _ _ _ => hlp _ _ _ _⟩
  · have hd : q.Feeds ((dedent (⟨i, .key k, val⟩ :: R), depthAt (i :: S) (⟨i, .key k, val⟩ :: R))
        :: rest (i :: S) (⟨i, .key k, val⟩ :: R) 0) := hrs
    obtain ⟨s, hs⟩ := first_cons (i :: S) (⟨i, .key k, val⟩ :: R)
    rw [hfr, hs] at hd
    obtain ⟨hp, hfd, -⟩ := hd.peek
    refine ⟨q.peek.2.advance, n + 2, by omega, by rw [hs]; exact hfd.advance.1, fun depth seen children => ?_⟩
    rw [hlp, itemLoop, hsk]
    simp only [bind, Except.bind, hd.current, hp, dedent, headToken, reduceCtorEq, ite_false, if_true, le_refl,
      and_self]

theorem itemLoop_pair (hv : v.Block) (H : Here v fin (n + 1) depth i (i + 2) S R) (hk : k ∉ seen)
    (h : p.Feeds (first (i :: S) (⟨i, .key k, v.inline⟩ :: (v.lines (i + 2) ++ R)))) :
    ∃ q m, q.Behind (i :: S) R m ∧ v.Leaves (i :: S) R m ∧ ∀ c children, itemLoop (n + 2) depth c seen children p
      = itemLoop (n + 1) depth c (k :: seen) (children ++ [.scalar k, v.node]) q := by
  obtain ⟨col, x, s, h, -, hvl⟩ := h.pair
  obtain ⟨q, m, hrd, hb, hlv⟩ := itemValue_reads hv H hvl
  refine ⟨q, m, hb, hlv, fun _ _ => ?_⟩
  rw [itemLoop, skip_stop h (by simp) n]
  simp only [bind, Except.bind, h.current, h.advance.1.current, hrd, if_neg hk, reduceCtorEq, ite_false, ne_eq, not_true]

end ItemLoop

def Pairs.Blocks : Pairs → Prop
  | .one _ v => v.Block
  | .cons _ v rest => v.Block ∧ rest.Blocks

theorem Pairs.lines_one (k : Text) (v : Tree) (i : Nat) (R : List Line) :
    (one k v).lines i ++ R = ⟨i, .key k, v.inline⟩ :: (v.lines (i + 2) ++ R) := by
  rw [lines, cons_append]

theorem Pairs.lines_more (k : Text) (v : Tree) (ps : Pairs) (i : Nat) (R : List Line) :
    (cons k v ps).lines i ++ R = ⟨i, .key k, v.inline⟩ :: (v.lines (i + 2) ++ (ps.lines i ++ R)) := by
  rw [lines, cons_append, append_assoc]

theorem atMost_lines (ps : Pairs) (i : Nat) (R : List Line) : AtMost i (ps.lines i ++ R) := by
  obtain ⟨key, val, B, hB⟩ := ps.lines_cons i
  rw [hB]
  rintro l hl
  cases hl
  exact le_rfl

section

variable {i m : Nat} {S : List Nat} {R : List Line} {k : Text} {v : Tree} {free : Bool}

theorem Tree.Leaves.pos (h : v.Leaves (i :: S) R m) (hb : Below i R) (hS : S ≠ [] ∨ R = []) :
    1 ≤ m ∨ R = [] ∨ v.endsInSequence := by
  by_cases hnil : R = []
  · exact .inr (.inl hnil)
  · have hm := h.2 hnil
    have hp := pops_cons hb (hS.resolve_right hnil)
    cases v with
    | scalar s => left; rw [hm, Tree.left, hp]; omega
    | sequence is => left; rw [hm, Tree.left]
    | mapping ps =>
      by_cases hen : ps.endsInSequence
      · exact .inr (.inr hen)
      · left
        rw [hm, Tree.left, if_neg hen, hp]
        omega

theorem Tree.Leaves.le_one_of_same (ps : Pairs) (h : v.Leaves (i :: S) (ps.lines i ++ R) m) : m ≤ 1 := by
  obtain ⟨key, val, B, hB⟩ := ps.lines_cons i
  have hp : pops (i :: S) (⟨i, .key key, val⟩ :: (B ++ R)) = 0 := pops_same rfl
  have hm := h.1
  rw [hB, cons_append, hp] at hm
  exact hm

theorem fresh_cons {ps : Pairs} {seen : List Text} (hfr : k ∉ ps.keys)
    (hsn : ∀ k' ∈ (cons k v ps).keys, k' ∉ seen) : ∀ k' ∈ ps.keys, k' ∉ k :: seen := by
  intro k' hk' hmem
  obtain rfl | hmem := mem_cons.1 hmem
  · exact hfr hk'
  · exact hsn k' (mem_cons_of_mem _ hk') hmem

theorem Tree.Leaves.close (h : v.Leaves (i :: S) R m) (hfr : v.endsInSequence → free) (hR : free → R = [])
    (hb : Below i R) (hS : S ≠ [] ∨ R = []) : (Tree.mapping (.one k v)).Leaves S R (m - 1) := by
  constructor
  · have hm := h.1
    by_cases hnil : S = []
    · have hd : pops (i :: S) R ≤ 1 := by rw [hnil, pops]; simp
      omega
    · have hp := pops_cons hb hnil
      omega
  · intro hnil
    have hm := h.2 hnil
    have hp := pops_cons hb (hS.resolve_right hnil)
    cases v with
    | scalar s => rw [hm, Tree.left, hp]; rfl
    | sequence is => rw [hm]; rfl
    | mapping ps =>
      have hen : ps.endsInSequence = false := by
        cases hen : ps.endsInSequence with
        | false => rfl
        | true => exact absurd (hR (hfr hen)) hnil
      rw [hm, Tree.left, hen, hp]
      rfl

end

theorem mappingLoop_reads {i : Nat} {S : List Nat} {R : List Line} {fin free : Bool} (hfn : fin → R = [])
    (hfr : free → R = []) (hR : Below i R) (hS : S ≠ [] ∨ R = []) :
    ∀ (ps : Pairs) {n depth : Nat} {seen : List Text} {children : List Node} {p : Parser}, ps.Blocks →
      ps.cost + S.length ≤ n → depth + ps.depth ≤ maxYAMLDepth + 1 → ps.Valid → ps.Clear fin free →
      (∀ k ∈ ps.keys, k ∉ seen) → p.Feeds (first (i :: S) (ps.lines i ++ R)) →
      ∃ p' m, mappingLoop n depth (S.length + 1) seen children p = .ok (.mapping (children ++ ps.nodes), p')
        ∧ p'.Feeds (rest S R m) ∧ (Tree.mapping ps).Leaves S R m ∧ (S = [] → m = 0)
  | .one k v, n, depth, seen, children, p, hps, hn, hd, hvl, hcl, hsn, h => by
    rw [Pairs.cost] at hn
    obtain ⟨n, rfl⟩ : ∃ m, n = m + 6 := ⟨n - 6, by omega⟩
    rw [Pairs.lines_one] at h
    have H : Here v fin (n + 5) depth i (i + 2) S R := ⟨by omega, hd, hvl.2, hcl.1, hfn, by omega, hR.atMost⟩
    obtain ⟨q, m, hrs, hlv, hlp⟩ := mappingLoop_pair hps H (hsn k (by simp [Pairs.keys])) h
    have hrt : S = [] → m ≤ 1 := by
      rintro rfl
      obtain rfl := hS.resolve_left (by simp)
      exact hlv.1
    have hm : 1 ≤ m ∨ R = [] := (hlv.pos hR hS).imp_right fun h => h.elim id fun hen => hfr (hcl.2 hen)
    obtain ⟨p', hcs, hfd⟩ := mappingNext_close hrs hR hS hm hrt
    refine ⟨p', m - 1, (hlp _ _).trans hcs, hfd, hlv.close hcl.2 hfr hR hS, fun hnil => ?_⟩
    have := hrt hnil
    omega
  | .cons k v ps, n, depth, seen, children, p, hps, hn, hd, hvl, hcl, hsn, h => by
    rw [Pairs.cost] at hn
    rw [Pairs.depth] at hd
    obtain ⟨n, rfl⟩ : ∃ m, n = m + 6 := ⟨n - 6, by omega⟩
    rw [Pairs.lines_more] at h
    obtain ⟨hkey, hfh, hv, hrV⟩ := hvl
    have H : Here v false (n + 5) depth i (i + 2) S (ps.lines i ++ R) :=
      ⟨by omega, by omega, hv, hcl.1, by simp, by omega, atMost_lines ps i R⟩
    obtain ⟨q, m, hrs, hlv, hlp⟩ := mappingLoop_pair hps.1 H (hsn k (by simp [Pairs.keys])) h
    obtain ⟨key, val, B, hB⟩ := ps.lines_cons i
    have hm := hlv.le_one_of_same ps
    rw [hB, cons_append] at hrs
    obtain ⟨q', hfs, hnx⟩ := mappingNext_same rfl hm hrs
    rw [← cons_append, ← hB] at hfs
    have hn' : ps.cost + S.length ≤ n + 4 := by omega
    have hd' : depth + ps.depth ≤ maxYAMLDepth + 1 := by omega
    obtain ⟨p', m', hrd, hfd, hl'⟩ :=
      mappingLoop_reads hfn hfr hR hS ps hps.2 hn' hd' hrV hcl.2 (fresh_cons hfh hsn) hfs
    refine ⟨p', m', ?_, hfd, hl'⟩
    rw [hlp, hnx, hrd, append_assoc]
    rfl

theorem parseMapping_reads {ps : Pairs} (hps : ps.Blocks) : ReadsBlock parseMapping (.mapping ps) := by
  intro n depth i S R fin p hn hd hvl hcl hfn hR hS h
  rw [Tree.cost] at hn
  rw [Tree.depth] at hd
  obtain ⟨n, rfl⟩ : ∃ m, n = m + 1 := ⟨n - 1, by omega⟩
  obtain ⟨key, s, hs⟩ := first_pairs ps i (i :: S) R
  have hen : p.tokenizer.currentIndent = S.length + 1 := (hs ▸ h).level rfl
  have hn' : ps.cost + S.length ≤ n := by omega
  have hd' : depth + 1 + ps.depth ≤ maxYAMLDepth + 1 := by omega
  obtain ⟨p', m, hlp, hfd, hlv, -⟩ :=
    mappingLoop_reads hfn hfn hR (.inl hS) ps hps hn' hd' hvl hcl (fun _ _ => not_mem_nil) h
  refine ⟨p', m, ?_, hfd, hlv⟩
  rw [parseMapping, if_neg (by omega), hen]
  exact hlp

theorem itemLoop_reads {i : Nat} {S : List Nat} {R : List Line} {fin free : Bool} (hfn : fin → R = [])
    (hfe : free → (headToken R).type ≠ .string) (hR : Below i R) (hS : S ≠ []) :
    ∀ (ps : Pairs) {n depth : Nat} {seen : List Text} {children : List Node} {p : Parser}, ps.Blocks →
      ps.cost + S.length ≤ n → depth + ps.depth ≤ maxYAMLDepth + 1 → ps.Valid → ps.Clear fin free →
      (∀ k ∈ ps.keys, k ∉ seen) → p.Feeds (first (i :: S) (ps.lines i ++ R)) →
      ∃ p' m, itemLoop n depth (i + 1) seen children p = .ok (.mapping (children ++ ps.nodes), p')
        ∧ p'.Feeds (rest (i :: S) R m) ∧ m ≤ S.length + 2 ∧ (1 ≤ m ∨ R = [] ∨ free)
  | .one k v, n, depth, seen, children, p, hps, hn, hd, hvl, hcl, hsn, h => by
    rw [Pairs.cost] at hn
    obtain ⟨n, rfl⟩ : ∃ m, n = m + 4 := ⟨n - 4, by omega⟩
    rw [Pairs.lines_one] at h
    have H : Here v fin (n + 3) depth i (i + 2) S R := ⟨by omega, hd, hvl.2, hcl.1, hfn, by omega, hR.atMost⟩
    obtain ⟨q, m, hb, hlv, hlp⟩ := itemLoop_pair hps H (hsn k (by simp [Pairs.keys])) h
    have hm : 1 ≤ m ∨ R = [] ∨ free := (hlv.pos hR (.inl hS)).imp_right fun h => h.imp_right hcl.2
    have hen : 1 ≤ m ∨ (headToken R).type ≠ .string := by
      refine hm.imp_right fun h => h.elim ?_ hfe
      rintro rfl
      decide
    obtain ⟨p', hdn, hfd⟩ := itemLoop_end hR hen hb
    refine ⟨p', m, (hlp _ _).trans hdn, hfd, ?_, hm⟩
    have := hlv.1
    rw [pops, length_cons] at this
    omega
  | .cons k v ps, n, depth, seen, children, p, hps, hn, hd, hvl, hcl, hsn, h => by
    rw [Pairs.cost] at hn
    rw [Pairs.depth] at hd
    obtain ⟨n, rfl⟩ : ∃ m, n = m + 4 := ⟨n - 4, by omega⟩
    rw [Pairs.lines_more] at h
    obtain ⟨hkey, hfs, hv, hrV⟩ := hvl
    have H : Here v false (n + 3) depth i (i + 2) S (ps.lines i ++ R) :=
      ⟨by omega, by omega, hv, hcl.1, by simp, by omega, atMost_lines ps i R⟩
    obtain ⟨q, m, hb, hlv, hlp⟩ := itemLoop_pair hps.1 H (hsn k (by simp [Pairs.keys])) h
    obtain ⟨key, val, B, hB⟩ := ps.lines_cons i
    have hm := hlv.le_one_of_same ps
    rw [hB, cons_append] at hb
    obtain ⟨q', n', hn', hfr, hnx⟩ := itemLoop_next hm hb n
    rw [← cons_append, ← hB] at hfr
    have hfl : ps.cost + S.length ≤ n' := by omega
    have hd' : depth + ps.depth ≤ maxYAMLDepth + 1 := by omega
    obtain ⟨p', m', hrd, hfd, hbn, hlf⟩ := itemLoop_reads hfn hfe hR hS ps hps.2 hfl hd' hrV
      hcl.2 (fresh_cons hfs hsn) hfr
    refine ⟨p', m', ?_, hfd, hbn, hlf⟩
    rw [hlp, hnx, hrd, append_assoc]
    rfl

def NextItem (i : Nat) (R : List Line) : Prop :=
  ∃ l B, R = l :: B ∧ l.indent = i ∧ headToken R = dash (i + 1)

def Tree.ItemBlocks : Tree → Prop
  | .scalar _ => True
  | .mapping ps => ps.Blocks
  | .sequence is => (Tree.sequence is).Block

def ReadsItem (t : Tree) (n depth i : Nat) (S : List Nat) (R : List Line) (p : Parser) : Prop :=
  (∀ m, p.skip (m + 1) [.indent] = .ok p)
    ∧ ∃ p' m, sequenceItem n depth p = .ok (t.node, p') ∧ p'.Behind (i :: S) R m ∧ m ≤ S.length + 3
      ∧ (1 ≤ m ∨ R = [] ∨ NextItem i R)

section Items

variable {n depth i : Nat} {S : List Nat} {R : List Line} {fin free : Bool} {p : Parser} {k : Text} {v : Tree}

theorem atMost_item (hR : Below i R ∨ NextItem i R) : AtMost i R := by
  obtain hR | ⟨l, B, rfl, hl, -⟩ := hR
  · exact hR.atMost
  · rintro l' hl'
    cases hl'
    exact hl.le

theorem pops_item (hR : Below i R ∨ NextItem i R) (hS : S ≠ []) : 1 ≤ pops (i :: S) R ∨ R = [] ∨ NextItem i R := by
  obtain hR | hR := hR
  · left
    rw [pops_cons hR hS]
    omega
  · exact .inr (.inr hR)

theorem sequenceItem_scalar {s : Scalar} (hn : 2 ≤ n) (hR : Below i R ∨ NextItem i R) (hS : S ≠ [])
    (h : p.Feeds (first (i :: S) ((Tree.scalar s).itemLines i ++ R))) :
    ReadsItem (.scalar s) n depth i S R p.advance := by
  obtain ⟨n, rfl⟩ : ∃ m, n = m + 1 := ⟨n - 1, by omega⟩
  have hvl : p.advance.Feeds (valueStream (.scalar s) (i + 1 + 2) i 0 S R) := h.advance.1
  obtain ⟨x, t, hx, hty⟩ := valueStream_cons (.scalar s) (i + 1 + 2) i 0 S R
  obtain ⟨hpk, hfd, -⟩ := hvl.peek
  obtain ⟨hkn, hp, had⟩ := Parser.Feeds.scalar hfd
  refine ⟨fun m => skip_stop (hx ▸ hvl) (by simpa using hty) m, p.advance.peek.2.advance, _, ?_,
    had.behind_scalar (atMost_item hR), ?_, pops_item hR hS⟩
  · have hcr : p.advance.current = p.advance.peek.2.current := hvl.current.trans hfd.current.symm
    simp only [mem_cons, not_mem_nil, or_false] at hkn
    rw [sequenceItem, hcr]
    obtain hkn | hkn | hkn | hkn := hkn <;>
      simp [hkn, hpk, newline, hp]
  · rw [pops, length_cons]
    omega

theorem sequenceItem_sequence {is : Items} (his : (Tree.sequence is).Block)
    (H : Here (.sequence is) fin n depth i (i + 2) S R)
    (h : p.Feeds (first (i :: S) ((Tree.sequence is).itemLines i ++ R))) :
    ReadsItem (.sequence is) n depth i S R p.advance := by
  obtain ⟨n, rfl⟩ : ∃ m, n = m + 2 := ⟨n - 2, by have := H.fuel; omega⟩
  have hvl : p.advance.Feeds (valueStream (.sequence is) 0 i (i + 2) S R) := h.advance.1
  obtain ⟨hty, hsk, hind, hd, hrd⟩ := enter_sequence his H hvl
  obtain ⟨p', m, hp, hb, hlv⟩ := hrd (n + 1) (by omega)
  refine ⟨fun m => skip_stop hvl (by simp [newline]) m, p', m, ?_, hb, ?_, ?_⟩
  · rw [sequenceItem]
    simp only [hty, hsk, bind, Except.bind, skipIndent_indent hind, hd, if_true, hp]
  · have := hlv.1
    rw [pops, length_cons] at this
    omega
  · by_cases hnil : R = []
    · exact .inr (.inl hnil)
    · left
      rw [hlv.2 hnil, Tree.left]

theorem sequenceItem_key {col k' : Nat}
    (h : p.Feeds ((keyTokens k (i + 3)).map (·, S.length + 1) ++ valueStream v col i k' S R)) :
    (∀ m, p.skip (m + 1) [.indent] = .ok p) ∧ ∃ q, q.Feeds (valueStream v col i k' S R) ∧ ∀ m depth x,
      itemFirstValue m depth q = .ok x →
        sequenceItem (m + 2) depth p = itemLoop m depth (i + 3) [k] [.scalar k, x.1] x.2 := by
  obtain ⟨y, s, hy, -⟩ := valueStream_cons v col i k' S R
  obtain ⟨hp, hfd, hah⟩ := h.peek
  have hcl := hfd.take hah
  rw [hy] at hcl
  refine ⟨fun m => skip_stop h (by simp) m, _, hy ▸ hcl.advance.1, fun m depth x hvl => ?_⟩
  rw [sequenceItem, h.current]
  simp only [hp, if_true, hfd.current]
  rw [itemMapping, hvl]
  rfl

theorem first_itemKey (key : Text) (v : Tree) (i k : Nat) (S : List Nat) (R : List Line) :
    ∃ col, first (i :: S) (⟨i, .itemKey key, v.inline⟩ :: (v.lines k ++ R)) = (dash (i + 1), S.length + 1)
        :: ((keyTokens key (i + 3)).map (·, S.length + 1) ++ valueStream v col i k S R) := by
  refine ⟨i + (Lead.itemKey key).text.length + 2, ?_⟩
  rw [first, Line.tokens, Lead.tokens, map_append, append_assoc, valueStream, length_cons]
  rfl

theorem below_item (hR : AtMost i R) (k : Nat) : Below (i + k + 1) R := fun l hl => by
  have := hR l hl
  omega

theorem ne_string_item {m : Nat} (hm : 1 ≤ m ∨ R = [] ∨ NextItem i R) : 1 ≤ m ∨ (headToken R).type ≠ .string := by
  refine hm.imp_right ?_
  rintro (rfl | ⟨l, B, rfl, -, hd⟩)
  · decide
  · rw [hd]
    simp [dash]

theorem Tree.Leaves.item {m : Nat} (h : v.Leaves (i :: S) R m) (hmp : v.isMapping = false)
    (hR : Below i R ∨ NextItem i R) (hS : S ≠ []) : 1 ≤ m ∨ R = [] ∨ NextItem i R := by
  by_cases hnil : R = []
  · exact .inr (.inl hnil)
  · rw [h.2 hnil]
    cases v with
    | scalar s => exact pops_item hR hS
    | mapping ps => cases hmp
    | sequence is => exact .inl le_rfl

theorem sequenceItem_one (hv : v.Block) (hmp : v.isMapping = false) (hR : Below i R ∨ NextItem i R) (hS : S ≠ [])
    (H : Here v fin (n + 3) depth i (i + 4) S R)
    (h : p.Feeds (first (i :: S) ((Tree.mapping (.one k v)).itemLines i ++ R))) :
    ReadsItem (.mapping (.one k v)) (n + 5) depth i S R p.advance := by
  obtain ⟨col, hcl⟩ := first_itemKey k v i (i + 4) S R
  rw [Tree.itemLines, itemLines, cons_append, hcl] at h
  obtain ⟨hsk, q, hq, him⟩ := sequenceItem_key h.advance.1
  obtain ⟨q', m, hrd, hb, hlv⟩ := itemFirstValue_reads hv hmp H hq
  have hm := hlv.item hmp hR hS
  obtain ⟨p', hen, hfd⟩ := itemLoop_end (below_item (atMost_item hR) 1) (ne_string_item hm) hb
  refine ⟨hsk, p', m, (him _ _ _ hrd).trans hen, .inl hfd, ?_, hm⟩
  have := hlv.1
  rw [pops, length_cons] at this
  omega

theorem sequenceItem_more {s : Scalar} {ps : Pairs} (hps : ps.Blocks) (hn : ps.cost + S.length + 1 ≤ n + 4)
    (hd : depth + ps.depth ≤ maxYAMLDepth + 1) (hk : k ∉ ps.keys) (hvl : ps.Valid) (hcl : ps.Clear fin free)
    (hfn : fin → R = []) (hfe : free → R = [] ∨ NextItem i R) (hR : Below i R ∨ NextItem i R)
    (h : p.Feeds (first (i :: S) ((Tree.mapping (.cons k (.scalar s) ps)).itemLines i ++ R))) :
    ReadsItem (.mapping (.cons k (.scalar s) ps)) (n + 6) depth i S R p.advance := by
  obtain ⟨col, hco⟩ := first_itemKey k (.scalar s) i (i + 4) S (ps.lines (i + 2) ++ R)
  rw [Tree.itemLines, itemLines, cons_append, append_assoc, hco] at h
  obtain ⟨hsk, q, hq, him⟩ := sequenceItem_key h.advance.1
  have hrd : itemFirstValue (n + 4) depth q = .ok ((Tree.scalar s).node, q.advance) := (itemValue_scalar hq).2
  obtain ⟨key, val, B, hB⟩ := ps.lines_cons (i + 2)
  -- the line break and the INDENT are skipped together
  have hb := hq.scalar.2.2
  rw [hB, cons_append] at hb
  obtain ⟨-, -, hind, hfr, -⟩ := hb.enter (show i < i + 2 by omega)
  rw [← cons_append, ← hB] at hfr
  obtain ⟨key', t, ht⟩ := first_pairs ps (i + 2) ((i + 2) :: i :: S) R
  have hst : q.advance.advance.advance.skip (n + 3) [.newline, .indent] = .ok q.advance.advance.advance :=
    skip_stop (ht ▸ hfr) (by simp) (n + 2)
  have hbt : q.advance.skip (n + 3) [.newline, .indent] = .ok q.advance.advance.advance := by
    rw [skip_step hb (by simp [newline]), Parser.skip, hind, if_pos (by simp)]
    exact skip_stop (ht ▸ hfr) (by simp) n
  have hbl : Below (i + 2) R := below_item (atMost_item hR) 1
  have hf' : free → (headToken R).type ≠ .string := fun hf =>
    (ne_string_item (m := 0) (.inr (hfe hf))).resolve_left (by omega)
  have hsn : ∀ k' ∈ ps.keys, k' ∉ [k] := by
    rintro k' hk' hmem
    rw [mem_singleton.1 hmem] at hk'
    exact hk hk'
  obtain ⟨p', m, hlp, hfd, hbn, hlf⟩ := itemLoop_reads hfn hf' hbl (cons_ne_nil i S) ps hps hn hd hvl hcl hsn hfr
  rw [rest_cons hbl (cons_ne_nil i S)] at hfd
  refine ⟨hsk, p', m, ?_, .inl hfd, hbn, hlf.imp_right fun h => h.elim .inl hfe⟩
  rw [him _ _ _ hrd, itemLoop_skip hbt hst]
  exact hlp

end Items

def Items.Blocks : Items → Prop
  | .one t => t.ItemBlocks
  | .cons t rest => t.ItemBlocks ∧ rest.Blocks

theorem sequenceItem_reads {t : Tree} {n depth i : Nat} {S : List Nat} {R : List Line} {fin free : Bool} {p : Parser}
    (ht : t.ItemBlocks) (hn : t.cost + S.length + 6 ≤ n) (hd : depth + t.depth ≤ maxYAMLDepth + 1)
    (hvl : t.Valid) (hcl : t.ClearItem fin free) (hfn : fin → R = [])
    (hfr : free → R = [] ∨ NextItem i R) (hR : Below i R ∨ NextItem i R) (hS : S ≠ [])
    (h : p.Feeds (first (i :: S) (t.itemLines i ++ R))) : ReadsItem t n depth i S R p.advance := by
  match t with
  | .scalar s => exact sequenceItem_scalar (by omega) hR hS h
  | .sequence is => exact sequenceItem_sequence ht ⟨by omega, hd, hvl, hcl, hfn, by omega, atMost_item hR⟩ h
  | .mapping (.one k v) =>
    rw [Tree.cost, Pairs.cost] at hn
    rw [Tree.depth, Pairs.depth] at hd
    obtain ⟨n, rfl⟩ : ∃ m, n = m + 5 := ⟨n - 5, by omega⟩
    exact sequenceItem_one ht hcl.1 hR hS
      ⟨by omega, by omega, hvl.2, hcl.2, hfn, by omega, atMost_item hR⟩ h
  | .mapping (.cons k (.scalar s) ps) =>
    rw [Tree.cost, Pairs.cost] at hn
    rw [Tree.depth, Pairs.depth] at hd
    obtain ⟨n, rfl⟩ : ∃ m, n = m + 6 := ⟨n - 6, by omega⟩
    exact sequenceItem_more ht.2 (by omega) (by omega) hvl.2.1 hvl.2.2.2 hcl.2 hfn hfr hR h
  | .mapping (.cons _ (.mapping _) _) => cases hcl.1
  | .mapping (.cons _ (.sequence _) _) => cases hcl.1

theorem nextItem_lines (is : Items) (i : Nat) (R : List Line) : NextItem i (is.lines i ++ R) := by
  obtain ⟨l, B, hB, hl, hd⟩ := is.lines_cons i
  rw [hB]
  exact ⟨l, B ++ R, rfl, hl, hd⟩

theorem sequenceLoop_item {t : Tree} {n depth i : Nat} {S : List Nat} {R : List Line} {p : Parser}
    (h : p.Feeds (first (i :: S) (t.itemLines i ++ R))) (him : ReadsItem t (n + 2) depth i S R p.advance) :
    ∃ q m, q.Feeds (rest (i :: S) R m) ∧ m ≤ S.length + 3 ∧ (1 ≤ m ∨ R = [] ∨ NextItem i R)
      ∧ ∀ col items q', absorbDedents (n + 2) col q = .ok q' → sequenceLoop (n + 3) depth col items p
        = if q'.current.type ≠ .dash then .ok (.sequence (items ++ [t.node]), q')
          else sequenceLoop (n + 2) depth col (items ++ [t.node]) q' := by
  obtain ⟨hsk, q, m, hrd, hb, hbn, hnx⟩ := him
  obtain ⟨q', hs', hrs⟩ := skip_newlines hb [.newline] (by simp) (by simp) n
  refine ⟨q', m, hrs, hbn, hnx, fun col items q'' har => ?_⟩
  obtain ⟨l, B, hB, -, hd⟩ := t.itemLines_cons i
  obtain ⟨s, hs⟩ := first_cons (i :: S) (t.itemLines i ++ R)
  have hcr : p.current = dash (i + 1) := by
    rw [hs] at h
    rw [h.current, hB]
    exact hd
  rw [sequenceLoop, hcr]
  simp only [dash, ne_eq, not_true, ite_false, bind, Except.bind, hsk, hrd, hs', har]

theorem sequenceLoop_reads {i : Nat} {S : List Nat} {R : List Line} {fin : Bool} (hfn : fin → R = [])
    (hR : Below i R) (hS : S ≠ []) :
    ∀ (is : Items) {n depth : Nat} {items : List Node} {p : Parser}, is.Blocks → is.cost + S.length ≤ n →
      depth + is.depth ≤ maxYAMLDepth + 1 → is.Valid → is.Clear fin → p.Feeds (first (i :: S) (is.lines i ++ R)) →
      ∃ p' m, sequenceLoop n depth (i + 1) items p = .ok (.sequence (items ++ is.nodes), p')
        ∧ p'.Feeds (rest S R m) ∧ m ≤ 1 ∧ (R ≠ [] → m = 1)
  | .one t, n, depth, items, p, his, hn, hdp, hvl, hcl, h => by
    rw [Items.cost] at hn
    obtain ⟨n, rfl⟩ : ∃ m, n = m + 3 := ⟨n - 3, by omega⟩
    have him := sequenceItem_reads his (n := n + 2) (by omega) hdp hvl hcl hfn (fun hf => .inl (hfn hf))
      (.inl hR) hS h
    obtain ⟨q, m, hrs, hb, hnx, hlp⟩ := sequenceLoop_item h him
    have hm : 1 ≤ m ∨ R = [] := by
      refine hnx.imp_right fun h => h.elim id ?_
      rintro ⟨l, B, rfl, hl, -⟩
      exact absurd (hR l rfl) (by omega)
    obtain ⟨q', m', har, hfd, hd, hle, hon⟩ := absorbDedents_last hR (n := n + 2) (by omega) hm hrs
    rw [rest_cons hR hS] at hfd
    refine ⟨q', m', ?_, hfd, hle, hon⟩
    rw [hlp _ _ _ har, if_pos hd]
    rfl
  | .cons t is, n, depth, items, p, his, hn, hdp, hvl, hcl, h => by
    rw [Items.cost] at hn
    rw [Items.depth] at hdp
    obtain ⟨n, rfl⟩ : ∃ m, n = m + 3 := ⟨n - 3, by omega⟩
    rw [Items.lines, append_assoc] at h
    have hnI := nextItem_lines is i R
    have hdI : depth + t.depth ≤ maxYAMLDepth + 1 := by omega
    have him := sequenceItem_reads his.1 (n := n + 2) (by omega) hdI hvl.1 hcl.1 (by simp)
      (fun _ => .inr hnI) (.inr hnI) hS h
    obtain ⟨q, m, hrs, hb, -, hlp⟩ := sequenceLoop_item h him
    obtain ⟨l, B, hB, hl, hd⟩ := hnI
    rw [hB] at hrs hd
    obtain ⟨q', har, hfr⟩ := absorbDedents_next hl hd (n := n + 2) (by omega) hrs
    have hcr : q'.current.type = .dash := by
      obtain ⟨s, hs⟩ := first_cons (i :: S) (l :: B)
      rw [hs, hd] at hfr
      rw [hfr.current]
      rfl
    rw [← hB] at hfr
    have hn' : is.cost + S.length ≤ n + 2 := by omega
    have hd' : depth + is.depth ≤ maxYAMLDepth + 1 := by omega
    obtain ⟨p', m', hrd, hfd⟩ := sequenceLoop_reads hfn hR hS is his.2 hn' hd' hvl.2 hcl.2 hfr
    refine ⟨p', m', ?_, hfd⟩
    rw [hlp _ _ _ har, if_neg (by simpa using hcr), hrd, append_assoc]
    rfl

theorem parseBlockSequence_reads {is : Items} (his : is.Blocks) : ReadsBlock parseBlockSequence (.sequence is) := by
  intro n depth i S R fin p hn hd hvl hcl hfn hR hS h
  rw [Tree.cost] at hn
  rw [Tree.depth] at hd
  obtain ⟨n, rfl⟩ : ∃ m, n = m + 1 := ⟨n - 1, by omega⟩
  obtain ⟨l, B, hB, -, hdh⟩ := is.lines_cons i
  obtain ⟨s, hs⟩ := first_cons (i :: S) (is.lines i ++ R)
  have hco : p.current.col = i + 1 := by
    have hcr := (hs ▸ h).current
    rw [hB] at hcr
    rw [hcr]
    exact congrArg Token.col hdh
  have hn' : is.cost + S.length ≤ n := by omega
  have hd' : depth + 1 + is.depth ≤ maxYAMLDepth + 1 := by omega
  obtain ⟨p', m, hlp, hfd, hle, hon⟩ := sequenceLoop_reads hfn hR hS is his hn' hd' hvl hcl h
  refine ⟨p', m, ?_, hfd, by omega, hon⟩
  rw [parseBlockSequence, if_neg (by omega), hco]
  exact hlp

mutual

theorem Tree.block : (v : Tree) → v.Block
  | .scalar _ => trivial
  | .mapping ps => parseMapping_reads ps.blocks
  | .sequence is => parseBlockSequence_reads is.blocks

theorem Pairs.blocks : (ps : Pairs) → ps.Blocks
  | .one _ v => v.block
  | .cons _ v rest => ⟨v.block, rest.blocks⟩

theorem Items.blocks : (is : Items) → is.Blocks
  | .one t => t.itemBlocks
  | .cons t rest => ⟨t.itemBlocks, rest.blocks⟩

theorem Tree.itemBlocks : (t : Tree) → t.ItemBlocks
  | .scalar _ => trivial
  | .mapping ps => ps.blocks
  | .sequence is => parseBlockSequence_reads is.blocks

end

end NothingDNS.Config
