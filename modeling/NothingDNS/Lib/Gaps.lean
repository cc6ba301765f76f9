import Mathlib.Data.List.Pairwise
import Mathlib.Data.List.Rotate
import Mathlib.Tactic.Common
/-!
# The gaps of a sorted ring

The members of a strictly ascending list, each linked to its successor and the last one to the first. `inGap` is the
test whether a value lies strictly between the two ends of a link, that of the last member included; a value in a gap
is no member (`ne_of_inGap`), and what is no member lies in one gap (`countP_links`). Conversely a list whose links put
a value behind all members into one gap is such a ring, begun somewhere (`exists_ascending_rotate`).
-/

namespace Gaps

open List

variable {α : Type*} (cmp : α → α → Ordering)

/-- The ends of a link in ascending order enclose the gap; otherwise the link passes the end of the
ring, and with equal ends the gap is everything but the one member. -/
def inGap (x owner next : α) : Bool :=
  match cmp owner next with
  | .lt => cmp x owner = .gt ∧ cmp x next = .lt
  | .gt => cmp x owner = .gt ∨ cmp x next = .lt
  | .eq => cmp x owner ≠ .eq

/-- Each member with its successor; the last one is followed by `first`. -/
def linksFrom (first : α) : List α → List (α × α)
  | [] => []
  | [a] => [(a, first)]
  | a :: b :: l => (a, b) :: linksFrom first (b :: l)

def links : List α → List (α × α)
  | [] => []
  | a :: l => linksFrom a (a :: l)

def Ascending (l : List α) : Prop := l.Pairwise fun a b => cmp a b = .lt

variable {cmp} {o n a : α}

theorem inGap_of_lt {x : α} (hon : cmp o n = .lt) : inGap cmp x o n = true ↔ cmp x o = .gt ∧ cmp x n = .lt := by
  rw [inGap, hon, decide_eq_true_eq]

theorem isLE_of_lt {b : α} (h : cmp a b = .lt) : (cmp a b).isLE := by
  rw [h]
  rfl

variable [Std.TransCmp cmp]

theorem mem_of_mem_linksFrom {first : α} : ∀ {l : List α}, (o, n) ∈ linksFrom first l → o ∈ l ∧ (n ∈ l ∨ n = first)
  | [], h => by cases h
  | [a], h => by
    obtain ⟨rfl, rfl⟩ := Prod.mk.inj (mem_singleton.1 h)
    exact ⟨mem_singleton_self o, .inr rfl⟩
  | a :: b :: l, h => by
    rcases mem_cons.1 h with heq | htl
    · cases heq
      exact ⟨mem_cons_self, .inl (mem_cons_of_mem _ mem_cons_self)⟩
    · obtain ⟨ho, hn⟩ := mem_of_mem_linksFrom htl
      exact ⟨mem_cons_of_mem _ ho, hn.imp_left (mem_cons_of_mem _)⟩

theorem mem_of_mem_links : ∀ {l : List α}, (o, n) ∈ links l → o ∈ l ∧ n ∈ l
  | [], h => by cases h
  | a :: l, h => by
    obtain ⟨ho, hn | rfl⟩ := mem_of_mem_linksFrom h
    · exact ⟨ho, hn⟩
    · exact ⟨ho, mem_cons_self⟩

theorem exists_linkFrom_of_mem {first : α} : ∀ {l : List α}, a ∈ l → ∃ n, (a, n) ∈ linksFrom first l
  | [b], h => ⟨first, mem_singleton.2 (by rw [mem_singleton.1 h])⟩
  | b :: c :: l, h => by
    rcases mem_cons.1 h with rfl | h
    · exact ⟨c, mem_cons_self⟩
    · obtain ⟨n, hn⟩ := exists_linkFrom_of_mem h
      exact ⟨n, mem_cons_of_mem _ hn⟩

theorem exists_link_of_mem : ∀ {l : List α}, a ∈ l → ∃ n, (a, n) ∈ links l
  | _ :: _, h => exists_linkFrom_of_mem h

theorem linksFrom_map {β : Type*} (f : α → β) (first : α) : ∀ l : List α,
    linksFrom (f first) (l.map f) = (linksFrom first l).map (Prod.map f f)
  | [] => rfl
  | [_] => rfl
  | a :: b :: l => congrArg ((f a, f b) :: ·) (linksFrom_map f first (b :: l))

theorem links_map {β : Type*} (f : α → β) : ∀ l : List α, links (l.map f) = (links l).map (Prod.map f f)
  | [] => rfl
  | a :: l => linksFrom_map f a (a :: l)

theorem linksFrom_append {first : α} : ∀ {l : List α}, l ≠ [] →
    linksFrom first (l ++ [a]) = linksFrom a l ++ [(a, first)]
  | [_], _ => rfl
  | x :: y :: l, _ => congrArg ((x, y) :: ·) (linksFrom_append (cons_ne_nil y l))

theorem links_rotate_one_perm : ∀ l : List α, (links (l.rotate 1)).Perm (links l)
  | [] => .refl _
  | [a] => by rw [show [a].rotate 1 = [a] from rotate_singleton a 1]
  | a :: b :: l => by
    have hrt : (a :: b :: l).rotate 1 = b :: (l ++ [a]) := by simp
    rw [hrt, links, ← cons_append, linksFrom_append (cons_ne_nil b l), links, linksFrom]
    exact perm_append_singleton _ _

theorem links_rotate_perm (l : List α) : ∀ k : Nat, (links (l.rotate k)).Perm (links l)
  | 0 => by rw [rotate_zero]
  | k + 1 => by
    rw [← rotate_rotate]
    exact (links_rotate_one_perm _).trans (links_rotate_perm l k)

theorem linksFrom_eq_zip (first : α) : ∀ l : List α, linksFrom first l = l.zip (l.tail ++ [first])
  | [] => rfl
  | [_] => rfl
  | a :: b :: l => congrArg ((a, b) :: ·) (linksFrom_eq_zip first (b :: l))

theorem zip_rotate_one : ∀ l : List α, l.zip (l.rotate 1) = links l
  | [] => rfl
  | a :: l => by
    rw [links, linksFrom_eq_zip]
    simp

/-- Induction along the list: before the link every member is at most its owner, behind it at least
its end; the last link leaves nothing behind. -/
theorem linksFrom_cases {first : α} : ∀ {l : List α}, Ascending cmp l → (o, n) ∈ linksFrom first l →
    (cmp o n = .lt ∧ ∀ y ∈ l, (cmp y o).isLE ∨ (cmp n y).isLE) ∨ (n = first ∧ ∀ y ∈ l, (cmp y o).isLE)
  | [a], _, h => by
    obtain ⟨rfl, rfl⟩ := Prod.mk.inj (mem_singleton.1 h)
    refine .inr ⟨rfl, fun y hy => ?_⟩
    rw [mem_singleton.1 hy]
    exact Std.ReflCmp.isLE_rfl
  | a :: b :: l, hac, h => by
    obtain ⟨hh, htl⟩ := pairwise_cons.1 hac
    rcases mem_cons.1 h with heq | hlr
    · cases heq
      refine .inl ⟨hh n mem_cons_self, forall_mem_cons.2 ⟨.inl Std.ReflCmp.isLE_rfl, ?_⟩⟩
      refine forall_mem_cons.2 ⟨.inr Std.ReflCmp.isLE_rfl, fun y hy => .inr ?_⟩
      rw [(pairwise_cons.1 htl).1 y hy]
      rfl
    have hle : (cmp a o).isLE := by
      rw [hh o (mem_of_mem_linksFrom hlr).1]
      rfl
    rcases linksFrom_cases htl hlr with ⟨hlt, hot⟩ | ⟨hn, hls⟩
    · exact .inl ⟨hlt, forall_mem_cons.2 ⟨.inl hle, hot⟩⟩
    · exact .inr ⟨hn, forall_mem_cons.2 ⟨hle, hls⟩⟩

theorem links_cases : ∀ {l : List α}, Ascending cmp l → (o, n) ∈ links l →
    (cmp o n = .lt ∧ ∀ y ∈ l, (cmp y o).isLE ∨ (cmp n y).isLE) ∨ (∀ y ∈ l, (cmp y o).isLE) ∧ ∀ y ∈ l, (cmp n y).isLE
  | [], _, h => by cases h
  | a :: l, hac, h => by
    rcases linksFrom_cases hac h with hin | ⟨rfl, hls⟩
    · exact .inl hin
    refine .inr ⟨hls, forall_mem_cons.2 ⟨Std.ReflCmp.isLE_rfl, fun y hy => ?_⟩⟩
    rw [(pairwise_cons.1 hac).1 y hy]
    rfl

theorem ne_of_gt_of_isLE {x y : α} (hx : cmp x o = .gt) (hy : (cmp y o).isLE) : cmp x y ≠ .eq := by
  intro heq
  rw [Std.TransCmp.congr_left heq] at hx
  rw [hx] at hy
  cases hy

theorem ne_of_lt_of_isLE {x y : α} (hx : cmp x n = .lt) (hy : (cmp n y).isLE) : cmp x y ≠ .eq := by
  rw [Std.TransCmp.lt_of_lt_of_isLE hx hy]
  decide

/-- **A value in a gap is no member of the ring.** -/
theorem ne_of_inGap {l : List α} {x : α} (hac : Ascending cmp l) (hln : (o, n) ∈ links l)
    (hg : inGap cmp x o n = true) : ∀ y ∈ l, cmp x y ≠ .eq := by
  intro y hy
  unfold inGap at hg
  rcases links_cases hac hln with ⟨hlt, hot⟩ | ⟨hle, hge⟩
  · simp only [hlt, decide_eq_true_eq] at hg
    rcases hot y hy with h | h
    · exact ne_of_gt_of_isLE hg.1 h
    · exact ne_of_lt_of_isLE hg.2 h
  split at hg
  next hlt =>
    exact ne_of_gt_of_isLE (of_decide_eq_true hg).1 (hle y hy)
  next =>
    rcases of_decide_eq_true hg with h | h
    · exact ne_of_gt_of_isLE h (hle y hy)
    · exact ne_of_lt_of_isLE h (hge y hy)
  next heq =>
    -- both ends are the one member
    have hyo : cmp y o = .eq := by
      have hoy : (cmp o y).isLE := by
        rw [Std.TransCmp.congr_left heq]
        exact hge y hy
      exact Std.OrientedCmp.isLE_antisymm (hle y hy) hoy
    rw [Std.TransCmp.congr_right hyo]
    exact of_decide_eq_true hg

/-! ## What is no member lies in a gap -/

section Cover

variable {x first h : α} {t : List α}

theorem inGap_of_isLE {o n : α} (hno : (cmp n o).isLE) (hxo : cmp x o ≠ .eq) :
    inGap cmp x o n = true ↔ cmp x o = .gt ∨ cmp x n = .lt := by
  unfold inGap
  split
  next hlt =>
    rw [Std.OrientedCmp.gt_iff_lt.2 hlt] at hno
    cases hno
  next => rw [decide_eq_true_eq]
  next heq =>
    -- both ends are one member, so what is not behind it lies before it
    rw [decide_eq_true_eq, ← Std.TransCmp.congr_right heq]
    cases hx : cmp x o
    · simp
    · exact absurd hx hxo
    · simp

theorem countP_linksFrom_lt : ∀ {h : α} {t : List α}, Ascending cmp (h :: t) → (cmp first h).isLE → cmp x h = .lt →
    (linksFrom first (h :: t)).countP (fun l => inGap cmp x l.1 l.2) = if cmp x first = .lt then 1 else 0
  | h, [], _, hfr, hx => by
    rw [linksFrom, countP_singleton]
    refine if_congr ?_ rfl rfl
    rw [inGap_of_isLE hfr (by rw [hx]; decide), hx]
    simp
  | h, b :: t, hac, hfr, hx => by
    obtain ⟨hh, htl⟩ := pairwise_cons.1 hac
    have hb := hh b mem_cons_self
    have hot : ¬ inGap cmp x h b = true := by
      rw [inGap_of_lt hb, hx]
      simp
    rw [linksFrom, countP_cons_of_neg (a := (h, b)) hot]
    exact countP_linksFrom_lt htl (Std.TransCmp.isLE_trans hfr (isLE_of_lt hb)) (Std.TransCmp.lt_trans hx hb)

theorem countP_linksFrom_gt : ∀ {h : α} {t : List α}, Ascending cmp (h :: t) → (cmp first h).isLE → cmp x h = .gt →
    (∀ y ∈ t, cmp x y ≠ .eq) → (linksFrom first (h :: t)).countP (fun l => inGap cmp x l.1 l.2) = 1
  | h, [], _, hfr, hx, _ => by
    rw [linksFrom, countP_singleton, if_pos]
    exact (inGap_of_isLE hfr (by rw [hx]; decide)).2 (.inl hx)
  | h, b :: t, hac, hfr, hx, hne => by
    obtain ⟨hh, htl⟩ := pairwise_cons.1 hac
    obtain ⟨hxb, hne⟩ := forall_mem_cons.1 hne
    have hb := hh b mem_cons_self
    have hfb : (cmp first b).isLE := Std.TransCmp.isLE_trans hfr (isLE_of_lt hb)
    rw [linksFrom]
    cases hcm : cmp x b
    · have hin : inGap cmp x h b = true := (inGap_of_lt hb).2 ⟨hx, hcm⟩
      have hbh : cmp x first ≠ .lt := by
        intro hlt
        have := Std.TransCmp.lt_of_lt_of_isLE hlt hfr
        rw [hx] at this
        cases this
      rw [countP_cons_of_pos (a := (h, b)) hin, countP_linksFrom_lt htl hfb hcm, if_neg hbh]
    · exact absurd hcm hxb
    have hot : ¬ inGap cmp x h b = true := by
      rw [inGap_of_lt hb, hcm]
      simp
    rw [countP_cons_of_neg (a := (h, b)) hot]
    exact countP_linksFrom_gt htl hfb hcm hne

/-- **What is no member of the ring lies in exactly one gap.** -/
theorem countP_links {l : List α} (hl : l ≠ []) (hac : Ascending cmp l) (hne : ∀ y ∈ l, cmp x y ≠ .eq) :
    (links l).countP (fun l => inGap cmp x l.1 l.2) = 1 := by
  cases l with
  | nil => exact absurd rfl hl
  | cons a l =>
    obtain ⟨hxa, hne⟩ := forall_mem_cons.1 hne
    rw [links]
    cases hcm : cmp x a
    · rw [countP_linksFrom_lt hac Std.ReflCmp.isLE_rfl hcm, if_pos hcm]
    · exact absurd hcm hxa
    · exact countP_linksFrom_gt hac Std.ReflCmp.isLE_rfl hcm hne

theorem exists_linksFrom_gt : ∀ {h : α} {t : List α}, (h :: t).Pairwise (fun a b => (cmp a b).isLE) → (cmp first h).isLE →
    cmp x h = .gt → (∀ y ∈ t, cmp x y ≠ .eq) → ∃ l ∈ linksFrom first (h :: t), inGap cmp x l.1 l.2 = true
  | h, [], _, hfr, hx, _ =>
    ⟨_, mem_singleton_self _, (inGap_of_isLE hfr (by rw [hx]; decide)).2 (.inl hx)⟩
  | h, b :: t, hac, hfr, hx, hne => by
    obtain ⟨hh, htl⟩ := pairwise_cons.1 hac
    obtain ⟨hxb, hne⟩ := forall_mem_cons.1 hne
    have hb := hh b mem_cons_self
    cases hcm : cmp x b
    · refine ⟨(h, b), mem_cons_self, (inGap_of_lt ?_).2 ⟨hx, hcm⟩⟩
      exact Std.TransCmp.lt_trans (Std.OrientedCmp.gt_iff_lt.1 hx) hcm
    · exact absurd hcm hxb
    · obtain ⟨l, hl, hin⟩ := exists_linksFrom_gt htl (Std.TransCmp.isLE_trans hfr hb) hcm hne
      exact ⟨l, mem_cons_of_mem _ hl, hin⟩

theorem exists_last_link (first : α) : ∀ {l : List α}, l ≠ [] → ∃ o ∈ l, (o, first) ∈ linksFrom first l
  | [a], _ => ⟨a, mem_singleton_self a, mem_singleton_self _⟩
  | a :: b :: l, _ => by
    obtain ⟨o, ho, hln⟩ := exists_last_link first (cons_ne_nil b l)
    exact ⟨o, mem_cons_of_mem _ ho, mem_cons_of_mem _ hln⟩

theorem exists_inGap {l : List α} (hl : l ≠ []) (hac : l.Pairwise fun a b => (cmp a b).isLE)
    (hne : ∀ y ∈ l, cmp x y ≠ .eq) : ∃ p ∈ links l, inGap cmp x p.1 p.2 = true := by
  cases l with
  | nil => exact absurd rfl hl
  | cons a l =>
    rw [links]
    cases hcm : cmp x a
    · obtain ⟨o, ho, hln⟩ := exists_last_link a (cons_ne_nil a l)
      have hao : (cmp a o).isLE := by
        rcases mem_cons.1 ho with rfl | ho
        · exact Std.ReflCmp.isLE_rfl
        · exact (pairwise_cons.1 hac).1 o ho
      exact ⟨_, hln, (inGap_of_isLE hao (hne o ho)).2 (.inr hcm)⟩
    · exact absurd hcm (hne a mem_cons_self)
    · exact exists_linksFrom_gt hac Std.ReflCmp.isLE_rfl hcm fun y hy => hne y (mem_cons_of_mem _ hy)

end Cover

/-! ## A ring that is not sorted -/

theorem links_rotate (l : List α) (k : Nat) : links (l.rotate k) = (links l).rotate k := by
  have hln : l.length = (l.rotate 1).length := (length_rotate _ _).symm
  rw [← zip_rotate_one, ← zip_rotate_one, rotate_rotate, Nat.add_comm, ← rotate_rotate]
  exact (zipWith_rotate_distrib Prod.mk l (l.rotate 1) k hln).symm

theorem ascending_of_linksFrom {first : α} : ∀ {l : List α} {cs : List (α × α)} {p : α × α},
    linksFrom first l = cs ++ [p] → (∀ c ∈ cs, cmp c.1 c.2 = .lt) → Ascending cmp l
  | [], _, _, _, _ => .nil
  | [a], _, _, _, _ => pairwise_singleton _ _
  | a :: b :: l, [], p, h, _ => by
    have hnil := (cons.inj h).2
    obtain ⟨o, -, ho⟩ := exists_last_link first (cons_ne_nil b l)
    rw [hnil] at ho
    cases ho
  | a :: b :: l, c :: cs, p, h, hcs => by
    obtain ⟨rfl, htl⟩ := cons.inj h
    obtain ⟨hab, hcs⟩ := forall_mem_cons.1 hcs
    have ih := ascending_of_linksFrom htl hcs
    refine pairwise_cons.2 ⟨forall_mem_cons.2 ⟨hab, fun y hy => ?_⟩, ih⟩
    exact Std.TransCmp.lt_trans hab ((pairwise_cons.1 ih).1 y hy)

/-- A value behind all members lies in exactly the gaps of the links that do not ascend, so it is in one gap only if the
ring is sorted. -/
theorem exists_ascending_rotate {l : List α} {top : α} (htop : ∀ y ∈ l, cmp top y = .gt)
    (hone : (links l).countP (fun p => inGap cmp top p.1 p.2) = 1) : ∃ k, Ascending cmp (l.rotate k) := by
  have hgap : ∀ p ∈ links l, inGap cmp top p.1 p.2 = false → cmp p.1 p.2 = .lt := by
    intro p hp hin
    obtain ⟨ho, hn⟩ := mem_of_mem_links hp
    unfold inGap at hin
    split at hin
    · assumption
    · simp [htop _ ho] at hin
    · simp [htop _ ho] at hin
  obtain ⟨p, hp, hin⟩ := countP_pos_iff.1 (by omega : 0 < (links l).countP fun p => inGap cmp top p.1 p.2)
  obtain ⟨as, bs, hsp⟩ := append_of_mem hp
  have hoth : ∀ c ∈ bs ++ as, cmp c.1 c.2 = .lt := by
    rw [hsp, countP_append, countP_cons_of_pos (a := p) hin] at hone
    have ha : as.countP (fun p => inGap cmp top p.1 p.2) = 0 := by omega
    have hb : bs.countP (fun p => inGap cmp top p.1 p.2) = 0 := by omega
    intro c hc
    rcases mem_append.1 hc with hc | hc
    · exact hgap c (hsp ▸ by simp [hc]) (by simpa using countP_eq_zero.1 hb c hc)
    · exact hgap c (hsp ▸ by simp [hc]) (by simpa using countP_eq_zero.1 ha c hc)
  have hrt : links (l.rotate (as.length + 1)) = (bs ++ as) ++ [p] := by
    have hcs : as ++ p :: bs = (as ++ [p]) ++ bs := by simp
    have hln : as.length + 1 = (as ++ [p]).length := by simp
    rw [links_rotate, hsp, hcs, hln, rotate_append_length_eq, append_assoc]
  refine ⟨as.length + 1, ?_⟩
  cases hl : l.rotate (as.length + 1) with
  | nil => exact .nil
  | cons a m =>
    rw [hl, links] at hrt
    exact ascending_of_linksFrom hrt hoth
theorem exists_greatest : ∀ {l : List α}, l ≠ [] → ∃ m ∈ l, ∀ y ∈ l, (cmp y m).isLE
  | [a], _ => ⟨a, mem_singleton_self a, fun y hy => by rw [mem_singleton.1 hy]; exact Std.ReflCmp.isLE_rfl⟩
  | a :: b :: l, _ => by
    obtain ⟨m, hm, hmax⟩ := exists_greatest (cons_ne_nil b l)
    by_cases ham : (cmp a m).isLE
    · exact ⟨m, mem_cons_of_mem _ hm, forall_mem_cons.2 ⟨ham, hmax⟩⟩
    · have hma : (cmp m a).isLE := by
        have hsw : cmp m a = (cmp a m).swap := Std.OrientedCmp.eq_swap
        rw [hsw]
        cases h : cmp a m <;> simp_all
      refine ⟨a, mem_cons_self, forall_mem_cons.2 ⟨Std.ReflCmp.isLE_rfl, fun y hy => ?_⟩⟩
      exact Std.TransCmp.isLE_trans (hmax y hy) hma

/-! ## Lists in lexicographic order -/

theorem prefix_of_between [Std.LawfulEqCmp cmp] {s : List α} : ∀ {k m : List α},
    (List.compareLex cmp k m).isLE → (List.compareLex cmp m (k ++ s)).isLE → k <+: m
  | [], m, _, _ => List.nil_prefix
  | a :: k, [], h, _ => by cases h
  | a :: k, b :: m, h1, h2 => by
    rw [List.compareLex_cons_cons] at h1
    rw [List.cons_append, List.compareLex_cons_cons] at h2
    rcases hab : cmp a b with _ | _ | _
    · rw [Std.OrientedCmp.gt_iff_lt.2 hab] at h2
      cases h2
    · obtain rfl := Std.LawfulEqCmp.eq_of_compare hab
      rw [hab] at h1 h2
      exact List.cons_prefix_cons.2 ⟨rfl, prefix_of_between h1 h2⟩
    · rw [hab] at h1
      cases h1

theorem compareLex_append_isLE {s : List α} : ∀ k : List α, (List.compareLex cmp k (k ++ s)).isLE
  | [] => by cases s <;> rfl
  | a :: k => by
    have hsl : cmp a a = .eq := Std.ReflCmp.compare_self
    rw [List.cons_append, List.compareLex_cons_cons, hsl]
    exact compareLex_append_isLE k

end Gaps
