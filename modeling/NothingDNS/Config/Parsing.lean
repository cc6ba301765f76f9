import NothingDNS.Config.Feed
/-!
# What the parser makes of a stream

Each block leaves the parser in front of `rest S R m`, where `S` is the stack around
the block, `R` the lines behind it and `m` the number of DEDENT tokens it has left of
those that close its surroundings. A scalar leaves all of them. A mapping reads the
one that closes it. A sequence leaves exactly one, whatever there were: so a mapping
that ends in a sequence leaves none, and the mapping around it, if it ends there too,
does not see its own end.
-/

namespace NothingDNS.Config

open List

open NothingDNS.Config.Parser

/-- The DEDENT tokens a value leaves if lines follow. -/
def Tree.left (v : Tree) (S : List Nat) (R : List Line) : Nat :=
  match v with
  | .scalar _ => pops S R
  | .mapping ps => if ps.endsInSequence then 0 else pops S R
  | .sequence _ => 1

/-- At the end of the text it does not matter how many are left. -/
def Tree.Leaves (v : Tree) (S : List Nat) (R : List Line) (m : Nat) : Prop :=
  m ≤ pops S R + 1 ∧ (R ≠ [] → m = v.left S R)

section Ends

variable {n depth i m : Nat} {S : List Nat} {R : List Line} {seen : List Text} {children : List Node} {p : Parser}

theorem mappingLoop_eof (h : p.Feeds (first S [])) (entry : Nat) :
    mappingLoop (n + 2) depth entry seen children p = .ok (.mapping children, p) := by
  rw [mappingLoop, skip_stop h (by simp) n]
  simp only [bind, Except.bind, h.current, if_true]

theorem mappingNext_close (h : p.Feeds (rest (i :: S) R m)) (hR : Below i R) (hS : S ≠ [] ∨ R = [])
    (hm : 1 ≤ m ∨ R = []) (hrt : S = [] → m ≤ 1) :
    ∃ p', mappingNext (n + 3) depth (S.length + 1) seen children p = .ok (.mapping children, p')
      ∧ p'.Feeds (rest S R (m - 1)) := by
  cases m with
  | zero =>
    obtain rfl : R = [] := hm.resolve_left (by omega)
    refine ⟨p, ?_, ?_⟩
    · rw [mappingNext, h.current]
      exact mappingLoop_eof (S := settle (i :: S) []) h _
    · exact h
  | succ m =>
    obtain ⟨had, hlv⟩ := h.advance_rest
    rw [mappingNext, h.current]
    simp only [dedent, if_true, hlv]
    by_cases hS' : S = []
    · -- the root is not closed by a DEDENT: it goes on and finds the end
      obtain rfl : R = [] := hS.resolve_left (by simpa using hS')
      obtain rfl : m = 0 := by have := hrt hS'; omega
      subst hS'
      exact ⟨p.advance, mappingLoop_eof (S := settle [i] []) had _, had⟩
    · refine ⟨p.advance, by rw [if_pos (depthAt_lt hR hS')], ?_⟩
      rw [Nat.add_sub_cancel, ← rest_cons hR hS']
      exact had

end Ends

mutual

def Tree.cost : Tree → Nat
  | .scalar _ => 4
  | .mapping ps => ps.cost + 4
  | .sequence is => is.cost + 4

def Pairs.cost : Pairs → Nat
  | .one _ v => v.cost + 8
  | .cons _ v rest => v.cost + rest.cost + 8

def Items.cost : Items → Nat
  | .one t => t.cost + 8
  | .cons t rest => t.cost + rest.cost + 8

end

/-- `f` reads the block of `v` and leaves what `v` leaves. -/
def ReadsBlock (f : Nat → Nat → Parser → Parsed) (v : Tree) : Prop :=
  ∀ (n depth i : Nat) (S : List Nat) (R : List Line) (fin : Bool) (p : Parser), v.cost + S.length ≤ n →
    depth + v.depth ≤ maxYAMLDepth + 1 → v.Valid → v.Clear fin → (fin → R = []) → Below i R → S ≠ [] →
    p.Feeds (first (i :: S) (v.lines i ++ R)) →
    ∃ p' m, f n depth p = .ok (v.node, p') ∧ p'.Feeds (rest S R m) ∧ v.Leaves S R m

def Tree.Block : Tree → Prop
  | .scalar _ => True
  | .mapping ps => ReadsBlock parseMapping (.mapping ps)
  | .sequence is => ReadsBlock parseBlockSequence (.sequence is)

theorem Pairs.lines_cons (ps : Pairs) (k : Nat) : ∃ key v R, ps.lines k = ⟨k, .key key, v⟩ :: R := by
  cases ps with
  | one key v | cons key v rest => exact ⟨key, _, _, rfl⟩

theorem Tree.itemLines_cons (t : Tree) (k : Nat) : ∃ l R, t.itemLines k = l :: R ∧ l.indent = k
    ∧ headToken (l :: R) = dash (k + 1) := by
  cases t with
  | scalar | sequence => exact ⟨_, _, rfl, rfl, rfl⟩
  | mapping ps => cases ps <;> exact ⟨_, _, rfl, rfl, rfl⟩

theorem Items.lines_cons (is : Items) (k : Nat) : ∃ l R, is.lines k = l :: R ∧ l.indent = k
    ∧ headToken (l :: R) = dash (k + 1) := by
  cases is with
  | one t => exact t.itemLines_cons k
  | cons t rest =>
    obtain ⟨l, R, hl, hk, hh⟩ := t.itemLines_cons k
    exact ⟨l, R ++ rest.lines k, by rw [Items.lines, hl, cons_append], hk, hh⟩

/-- What stands behind a colon or a dash: a scalar on the line, or a block below it. -/
def valueStream (v : Tree) (col i k : Nat) (S : List Nat) (R : List Line) : Stream :=
  ((v.inline.map (Scalar.token col)).toList ++ [newline]).map (·, S.length + 1) ++ stream (i :: S) (v.lines k ++ R)

section Values

variable {n depth i k col : Nat} {S : List Nat} {R B : List Line} {l : Line} {s : Scalar} {p : Parser} {v : Tree}

theorem Parser.Feeds.scalar (h : p.Feeds (valueStream (.scalar s) col i k S R)) :
    p.current.type ∈ [TokenType.string, .number, .bool, .null] ∧ p.parseScalar = ((Tree.scalar s).node, p.advance)
      ∧ p.advance.Feeds ((newline, S.length + 1) :: stream (i :: S) R) := by
  have h' : p.Feeds ((s.token col, S.length + 1) :: (newline, S.length + 1) :: stream (i :: S) R) := h
  obtain ⟨hty, hvl⟩ := s.token_scalar col
  refine ⟨by rw [h'.current]; exact hty, ?_, h'.advance.1⟩
  rw [Parser.parseScalar, h'.current, hvl, Tree.node]

theorem Parser.Feeds.enter {d : Nat} (h : p.Feeds ((newline, d) :: stream (i :: S) (l :: B))) (hl : i < l.indent) :
    p.current.type = .newline ∧ (∀ m, p.advance.skip (m + 1) [.newline] = .ok p.advance)
      ∧ p.advance.current.type = .indent ∧ p.advance.advance.Feeds (first (l.indent :: i :: S) (l :: B))
      ∧ p.advance.advance.current = headToken (l :: B) := by
  rw [stream_deeper (show (i :: S).headD 0 < l.indent from hl)] at h
  obtain ⟨t, ht⟩ := first_cons (l.indent :: i :: S) (l :: B)
  have hind := h.advance.1
  have hb := (ht ▸ hind).advance.1
  refine ⟨by rw [h.current]; rfl, fun m => skip_stop hind (by simp) m, by rw [hind.current], ?_, hb.current⟩
  rw [ht]
  exact hb

/-- A value `v`, whose block would start at `k`, in a block at `i` with the lines `R` behind it. -/
structure Here (v : Tree) (fin : Bool) (n depth i k : Nat) (S : List Nat) (R : List Line) : Prop where
  fuel : v.cost + S.length + 4 ≤ n
  depth : depth + v.depth ≤ maxYAMLDepth + 1
  valid : v.Valid
  clear : v.Clear fin
  fin : fin → R = []
  deeper : i < k
  next : AtMost i R

variable {fin : Bool}

theorem Here.below (H : Here v fin n depth i k S R) : Below k R := fun l hl => (H.next l hl).trans_lt H.deeper

/-- `f` reads the value and leaves what it leaves, up to the end of its line. -/
def ReadsValue (f : Nat → Nat → Parser → Parsed) (v : Tree) (n depth i : Nat) (S : List Nat) (R : List Line)
    (p : Parser) : Prop :=
  ∃ p' m, f n depth p = .ok (v.node, p') ∧ p'.Behind (i :: S) R m ∧ v.Leaves (i :: S) R m

theorem Here.reads {f : Nat → Nat → Parser → Parsed} (H : Here v fin n depth i k S R) (hv : ReadsBlock f v) {m : Nat}
    (hm : n ≤ m + 3) (h : p.Feeds (first (k :: i :: S) (v.lines k ++ R))) : ReadsValue f v m depth i S R p := by
  have hfl : v.cost + (i :: S).length ≤ m := by
    have := H.fuel
    rw [length_cons]
    omega
  obtain ⟨p', m', hp, hrs, hlv⟩ := hv m depth k (i :: S) R fin p hfl H.depth H.valid H.clear H.fin H.below (by simp) h
  exact ⟨p', m', hp, .inl hrs, hlv⟩

theorem Parser.Feeds.behind_scalar (h : p.Feeds ((newline, S.length + 1) :: stream (i :: S) R)) (hR : AtMost i R) :
    p.Behind (i :: S) R (pops (i :: S) R) := .inr ⟨_, stream_rest hR ▸ h⟩

theorem leaves_scalar (s : Scalar) (S : List Nat) (R : List Line) : (Tree.scalar s).Leaves S R (pops S R) :=
  ⟨Nat.le_succ _, fun _ => rfl⟩

theorem first_pairs (ps : Pairs) (k : Nat) (S : List Nat) (R : List Line) :
    ∃ key s, first S (ps.lines k ++ R) = (keyTokens key (k + 1)).map (·, S.length) ++ s := by
  obtain ⟨key, val, B, hB⟩ := ps.lines_cons k
  rw [hB, cons_append]
  exact ⟨key, _, rfl⟩

theorem enter_mapping {ps : Pairs} (hv : (Tree.mapping ps).Block) (H : Here (.mapping ps) fin n depth i k S R)
    (h : p.Feeds (valueStream (.mapping ps) col i k S R)) :
    p.current.type = .newline ∧ (∀ m, p.advance.skip (m + 1) [.newline] = .ok p.advance)
      ∧ p.advance.current.type = .indent ∧ p.advance.advance.Feeds (first (k :: i :: S) (ps.lines k ++ R))
      ∧ ∀ q m, n ≤ m + 3 → q.Feeds (first (k :: i :: S) (ps.lines k ++ R)) →
        ReadsValue parseMapping (.mapping ps) m depth i S R q := by
  obtain ⟨key, val, B, hB⟩ := ps.lines_cons k
  have h' : p.Feeds ((newline, S.length + 1) :: stream (i :: S) (ps.lines k ++ R)) := h
  rw [hB, cons_append] at h'
  obtain ⟨hty, hsk, hind, hb, -⟩ := h'.enter H.deeper
  exact ⟨hty, hsk, hind, by rw [hB, cons_append]; exact hb, fun q m hm hq => H.reads hv hm hq⟩

theorem enter_sequence {is : Items} (hv : (Tree.sequence is).Block) (H : Here (.sequence is) fin n depth i k S R)
    (h : p.Feeds (valueStream (.sequence is) col i k S R)) :
    p.current.type = .newline ∧ (∀ m, p.advance.skip (m + 1) [.newline] = .ok p.advance)
      ∧ p.advance.current.type = .indent ∧ p.advance.advance.current.type = .dash
      ∧ ∀ m, n ≤ m + 3 → ReadsValue parseBlockSequence (.sequence is) m depth i S R p.advance.advance := by
  obtain ⟨l, B, hB, rfl, hd⟩ := is.lines_cons k
  have h' : p.Feeds ((newline, S.length + 1) :: stream (i :: S) (is.lines l.indent ++ R)) := h
  rw [hB, cons_append] at h'
  obtain ⟨hty, hsk, hind, hb, hh⟩ := h'.enter H.deeper
  have hh' : headToken (l :: (B ++ R)) = headToken (l :: B) := rfl
  rw [← cons_append, ← hB] at hb
  exact ⟨hty, hsk, hind, by rw [hh, hh', hd]; rfl, fun m hm => H.reads hv hm hb⟩

theorem mappingValue_reads (hv : v.Block) (H : Here v fin n depth i k S R)
    (h : p.Feeds (valueStream v col i k S R)) : ReadsValue mappingValue v n depth i S R p := by
  obtain ⟨n, rfl⟩ : ∃ m, n = m + 2 := ⟨n - 2, by have := H.fuel; omega⟩
  cases v with
  | scalar s =>
    obtain ⟨hty, hp, had⟩ := h.scalar
    refine ⟨p.advance, _, ?_, had.behind_scalar H.next, leaves_scalar s _ _⟩
    simp only [mem_cons, not_mem_nil, or_false] at hty
    rw [mappingValue]
    obtain hty | hty | hty | hty := hty <;>
      simp only [hty, hp, had.current, newline, reduceCtorEq, ite_false]
  | mapping ps =>
    obtain ⟨hty, hsk, hind, hfr, hrd⟩ := enter_mapping hv H h
    obtain ⟨key, s, hs⟩ := first_pairs ps k (k :: i :: S) R
    have hkey := (hs ▸ hfr).current
    obtain ⟨p', m, hp, hb⟩ := hrd _ (n + 1) (by omega) hfr
    refine ⟨p', m, ?_, hb⟩
    rw [mappingValue]
    simp only [hty, hsk, bind, Except.bind, hind, hkey, if_true, reduceCtorEq, ite_false, hp]
  | sequence is =>
    obtain ⟨hty, hsk, hind, hd, hrd⟩ := enter_sequence hv H h
    obtain ⟨p', m, hp, hb⟩ := hrd (n + 1) (by omega)
    refine ⟨p', m, ?_, hb⟩
    rw [mappingValue]
    simp only [hty, hsk, bind, Except.bind, hind, hd, if_true, hp]

theorem inlineValue_scalar (h : p.Feeds (valueStream (.scalar s) col i k S R)) :
    p.current.type ≠ .newline ∧ ∀ m depth, inlineValue (m + 1) depth p = .ok ((Tree.scalar s).node, p.advance) := by
  obtain ⟨hty, hp, -⟩ := h.scalar
  simp only [mem_cons, not_mem_nil, or_false] at hty
  refine ⟨by rintro hnl; rw [hnl] at hty; simp at hty, fun m depth => ?_⟩
  rw [inlineValue]
  obtain hty | hty | hty | hty := hty <;> simp only [hty, hp]

theorem itemValue_scalar (h : p.Feeds (valueStream (.scalar s) col i k S R)) :
    itemValue (n + 2) depth p = .ok ((Tree.scalar s).node, p.advance)
      ∧ itemFirstValue (n + 2) depth p = .ok ((Tree.scalar s).node, p.advance) := by
  obtain ⟨hty, hp⟩ := inlineValue_scalar h
  rw [itemValue, itemFirstValue]
  constructor
  all_goals
    split
    · contradiction
    · exact hp n depth

theorem skipIndent_indent (h : p.current.type = .indent) : p.skipIndent = p.advance := if_pos h

theorem itemValue_reads (hv : v.Block) (H : Here v fin n depth i k S R)
    (h : p.Feeds (valueStream v col i k S R)) : ReadsValue itemValue v n depth i S R p := by
  obtain ⟨n, rfl⟩ : ∃ m, n = m + 2 := ⟨n - 2, by have := H.fuel; omega⟩
  cases v with
  | scalar s => exact ⟨p.advance, _, (itemValue_scalar h).1, h.scalar.2.2.behind_scalar H.next, leaves_scalar s _ _⟩
  | mapping ps =>
    obtain ⟨hty, hsk, hind, hfr, hrd⟩ := enter_mapping hv H h
    obtain ⟨key, s, hs⟩ := first_pairs ps k (k :: i :: S) R
    -- the colon is looked at and stays in the look-ahead
    obtain ⟨hpk, hfd, -⟩ := (hs ▸ hfr).peek
    have hkey := (hs ▸ hfr).current
    obtain ⟨p', m, hp, hb⟩ := hrd p.advance.advance.peek.2 (n + 1) (by omega) (by rw [hs]; exact hfd)
    refine ⟨p', m, ?_, hb⟩
    rw [itemValue]
    simp only [hty, hsk, bind, Except.bind, skipIndent_indent hind, hkey, hpk, if_true, reduceCtorEq, ite_false, hp]
  | sequence is =>
    obtain ⟨hty, hsk, hind, hd, hrd⟩ := enter_sequence hv H h
    obtain ⟨p', m, hp, hb⟩ := hrd (n + 1) (by omega)
    refine ⟨p', m, ?_, hb⟩
    rw [itemValue]
    simp only [hty, hsk, bind, Except.bind, skipIndent_indent hind, hd, if_true, hp]

theorem itemFirstValue_reads (hv : v.Block) (hmp : v.isMapping = false) (H : Here v fin n depth i k S R)
    (h : p.Feeds (valueStream v col i k S R)) : ReadsValue itemFirstValue v n depth i S R p := by
  obtain ⟨n, rfl⟩ : ∃ m, n = m + 2 := ⟨n - 2, by have := H.fuel; omega⟩
  cases v with
  | scalar s => exact ⟨p.advance, _, (itemValue_scalar h).2, h.scalar.2.2.behind_scalar H.next, leaves_scalar s _ _⟩
  | mapping ps => cases hmp
  | sequence is =>
    obtain ⟨hty, hsk, hind, hd, hrd⟩ := enter_sequence hv H h
    obtain ⟨p', m, hp, hb⟩ := hrd (n + 1) (by omega)
    refine ⟨p', m, ?_, hb⟩
    rw [itemFirstValue]
    simp only [hty, hsk, bind, Except.bind, skipIndent_indent hind, hd, if_true, hp]

theorem valueStream_cons (v : Tree) (col i k : Nat) (S : List Nat) (R : List Line) :
    ∃ x s, valueStream v col i k S R = x :: s ∧ x.1.type ≠ .indent := by
  cases v with
  | scalar s =>
    refine ⟨_, _, rfl, fun h => ?_⟩
    have hty := (s.token_scalar col).1
    rw [show (s.token col).type = .indent from h] at hty
    simp at hty
  | mapping | sequence => exact ⟨_, _, rfl, by simp [newline]⟩

theorem first_key (key : Text) (v : Tree) (i k : Nat) (S : List Nat) (R : List Line) :
    ∃ col, first (i :: S) (⟨i, .key key, v.inline⟩ :: (v.lines k ++ R))
      = (keyTokens key (i + 1)).map (·, S.length + 1) ++ valueStream v col i k S R := by
  refine ⟨i + (Lead.key key).text.length + 2, ?_⟩
  rw [first, Line.tokens, Lead.tokens, map_append, append_assoc, valueStream, length_cons]

end Values

section Loops

variable {n depth i m : Nat} {S : List Nat} {R : List Line} {l : Line} {seen : List Text} {children : List Node}
  {k : Text} {v : Tree} {fin : Bool} {p : Parser}

theorem Parser.Feeds.pair {j : Nat} (h : p.Feeds (first (i :: S) (⟨i, .key k, v.inline⟩ :: (v.lines j ++ R)))) :
    ∃ col x s, p.Feeds ((keyTokens k (i + 1)).map (·, S.length + 1) ++ x :: s) ∧ x.1.type ≠ .indent
      ∧ p.advance.advance.Feeds (valueStream v col i j S R) := by
  obtain ⟨col, hcl⟩ := first_key k v i j S R
  obtain ⟨x, s, hx, hty⟩ := valueStream_cons v col i j S R
  rw [hcl, hx] at h
  exact ⟨col, x, s, h, hty, hx ▸ h.advance.1.advance.1⟩

theorem mappingLoop_pair (hv : v.Block) (H : Here v fin (n + 2) depth i (i + 2) S R) (hk : k ∉ seen)
    (h : p.Feeds (first (i :: S) (⟨i, .key k, v.inline⟩ :: (v.lines (i + 2) ++ R)))) :
    ∃ q m, q.Feeds (rest (i :: S) R m) ∧ v.Leaves (i :: S) R m ∧ ∀ entry children,
      mappingLoop (n + 3) depth entry seen children p
        = mappingNext (n + 2) depth entry (k :: seen) (children ++ [.scalar k, v.node]) q := by
  obtain ⟨col, x, s, h, hty, hvl⟩ := h.pair
  obtain ⟨q, m, hrd, hb, hlv⟩ := mappingValue_reads hv H hvl
  obtain ⟨q', hsk, hrs⟩ := skip_newlines hb [.newline] (by simp) (by simp) n
  refine ⟨q', m, hrs, hlv, fun _ _ => ?_⟩
  have hcl := h.advance.1
  have hind : p.advance.advance.skip (n + 2) [.indent] = .ok p.advance.advance :=
    skip_stop hcl.advance.1 (by simpa using hty) _
  rw [mappingLoop, skip_stop h (by simp) (n + 1)]
  simp only [bind, Except.bind, h.current, hcl.current, hind, hrd, hsk, if_neg hk, reduceCtorEq, ite_false,
    ne_eq, not_true]

theorem mappingNext_same (hl : l.indent = i) (hm : m ≤ 1) (h : p.Feeds (rest (i :: S) (l :: R) m)) :
    ∃ q, q.Feeds (first (i :: S) (l :: R)) ∧ ∀ n depth seen children,
      mappingNext (n + 1) depth (S.length + 1) seen children p
        = mappingLoop n depth (S.length + 1) seen children q := by
  have hfr : rest (i :: S) (l :: R) 0 = first (i :: S) (l :: R) := rest_same hl
  obtain rfl | rfl : m = 0 ∨ m = 1 := by omega
  · refine ⟨p, hfr ▸ h, fun n depth seen children => ?_⟩
    obtain ⟨s, hs⟩ := first_cons (i :: S) (l :: R)
    rw [hfr, hs] at h
    rw [mappingNext, h.current, if_neg (headToken_ne_dedent _)]
  · obtain ⟨had, hlv⟩ := h.advance_rest
    refine ⟨p.advance, hfr ▸ had, fun n depth seen children => ?_⟩
    rw [mappingNext, h.current]
    simp [dedent, hlv, depthAt_same hl]

theorem absorbDedents_dedent (h : p.Feeds (rest S R (m + 2))) (col : Nat) :
    ∃ q, absorbDedents (n + 1) col p = absorbDedents n col q ∧ q.Feeds (rest S R (m + 1)) := by
  have h' : p.Feeds ((dedent R, depthAt S R) :: (dedent R, depthAt S R) :: rest S R m) := h
  obtain ⟨hp, hfd, hah⟩ := h'.peek
  refine ⟨p.peek.2.take p.peek.1, ?_, ?_⟩
  · rw [absorbDedents, h'.current]
    simp [hp, dedent]
  · rw [hp]
    exact hfd.take hah

theorem absorbDedents_next (hl : l.indent = i) (hd : headToken (l :: R) = dash (i + 1)) :
    ∀ {m n : Nat} {p : Parser}, m < n → p.Feeds (rest (i :: S) (l :: R) m) →
      ∃ q, absorbDedents n (i + 1) p = .ok q ∧ q.Feeds (first (i :: S) (l :: R)) := by
  have hfr : rest (i :: S) (l :: R) 0 = first (i :: S) (l :: R) := rest_same hl
  obtain ⟨s, hs⟩ := first_cons (i :: S) (l :: R)
  rw [hd] at hs
  intro m
  induction m with intro n p hn h
  | zero =>
    obtain ⟨n, rfl⟩ : ∃ k, n = k + 1 := ⟨n - 1, by omega⟩
    rw [hfr] at h
    refine ⟨p, ?_, h⟩
    rw [hs] at h
    rw [absorbDedents, h.current]
    rfl
  | succ m ih =>
    obtain ⟨n, rfl⟩ : ∃ k, n = k + 1 := ⟨n - 1, by omega⟩
    cases m with
    | zero =>
      have h' : p.Feeds ((dedent (l :: R), depthAt (i :: S) (l :: R)) :: rest (i :: S) (l :: R) 0) := h
      rw [hfr, hs] at h'
      obtain ⟨hp, hfd, hah⟩ := h'.peek
      refine ⟨p.peek.2.take p.peek.1, ?_, ?_⟩
      · rw [absorbDedents, h'.current]
        simp [hp, dedent, dash]
      · rw [hp, hs]
        exact hfd.take hah
    | succ m =>
      obtain ⟨q, hq, hrs⟩ := absorbDedents_dedent h (n := n) (i + 1)
      rw [hq]
      exact ih (by omega) hrs

theorem absorbDedents_last (hR : Below i R) :
    ∀ {m n : Nat} {p : Parser}, m < n → (1 ≤ m ∨ R = []) → p.Feeds (rest S R m) →
      ∃ q m', absorbDedents n (i + 1) p = .ok q ∧ q.Feeds (rest S R m') ∧ q.current.type ≠ .dash ∧ m' ≤ 1
        ∧ (R ≠ [] → m' = 1) := by
  intro m
  induction m with intro n p hn hm h
  | zero =>
    obtain ⟨n, rfl⟩ : ∃ k, n = k + 1 := ⟨n - 1, by omega⟩
    obtain rfl : R = [] := hm.resolve_left (by omega)
    refine ⟨p, 0, ?_, h, ?_, by omega, fun hne => absurd rfl hne⟩
    · rw [absorbDedents, h.current]
      rfl
    · rw [h.current]
      decide
  | succ m ih =>
    obtain ⟨n, rfl⟩ : ∃ k, n = k + 1 := ⟨n - 1, by omega⟩
    cases m with
    | zero =>
      obtain ⟨s, hs⟩ := first_cons (settle S R) R
      have h' : p.Feeds ((dedent R, depthAt S R) :: first (settle S R) R) := h
      rw [hs] at h'
      obtain ⟨hp, hfd, -⟩ := h'.peek
      refine ⟨p.peek.2, 1, ?_, ?_, by rw [hfd.current]; simp [dedent], by omega, fun _ => rfl⟩
      · have hcl : ¬((headToken R).type = .dash ∧ (headToken R).col = i + 1) := by
          rintro ⟨hd, hcl⟩
          cases R with
          | nil => cases hd
          | cons l R =>
            rw [headToken_col] at hcl
            have := hR l rfl
            omega
        rw [absorbDedents, h'.current]
        simp only [hp, dedent, ne_eq, not_true, ite_false, if_neg hcl, if_neg (headToken_ne_dedent R)]
      · rw [← hs] at hfd
        exact hfd
    | succ m =>
      obtain ⟨q, hq, hrs⟩ := absorbDedents_dedent h (n := n) (i + 1)
      rw [hq]
      exact ih (by omega) (.inl (by omega)) hrs

end Loops

end NothingDNS.Config
