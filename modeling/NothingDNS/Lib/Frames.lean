import Mathlib.Algebra.GroupWithZero.Nat
import Mathlib.Data.List.Infix
import Mathlib.Tactic.Common
/-!
# Files of frames

A file is a sequence of frames, each recognised from its front alone. A `head`
function looks at the front of what is left of the file and gives a value and the
size of its frame, or stops. `scan` is the list of frames up to the first stop and
`extent` the length they take.

Two scanners of one file are two heads. If what one accepts the other accepts with
the same size (`Refines`), their extents compare, and a file cut at the extent of
the coarser one reads on after it exactly if the extents are equal.
-/

namespace Frames

open List

variable {α β γ : Type}

/-- A frame is not empty and is there in full. -/
def Sound (head : List β → Option (α × Nat)) : Prop :=
  ∀ bs a n, head bs = some (a, n) → 0 < n ∧ n ≤ bs.length

/-- Only the frame itself is looked at. -/
def Local (head : List β → Option (α × Nat)) : Prop :=
  ∀ bs a n rest, head bs = some (a, n) → head (bs.take n ++ rest) = some (a, n)

def scanFrom (head : List β → Option (α × Nat)) : Nat → List β → List (α × Nat)
  | 0, _ => []
  | fuel + 1, bs => match head bs with
    | none => []
    | some (a, n) => (a, n) :: scanFrom head fuel (bs.drop n)

/-- Every frame takes at least one octet, so the length of the file is fuel enough. -/
def scan (head : List β → Option (α × Nat)) (bs : List β) : List (α × Nat) := scanFrom head bs.length bs

def values (head : List β → Option (α × Nat)) (bs : List β) : List α := (scan head bs).map Prod.fst

def extent (head : List β → Option (α × Nat)) (bs : List β) : Nat := ((scan head bs).map Prod.snd).sum

section Scan

variable {head : List β → Option (α × Nat)}

theorem scanFrom_of_le (hs : Sound head) : ∀ {fuel : Nat} {bs : List β}, bs.length ≤ fuel →
    scanFrom head fuel bs = scan head bs
  | 0, bs, h => by
    rw [scan, Nat.le_zero.1 h]
  | fuel + 1, [], _ => by
    have hnil : head [] = none := by
      cases hh : head [] with
      | none => rfl
      | some p =>
        obtain ⟨hpos, hle⟩ := hs [] p.1 p.2 hh
        simp only [length_nil] at hle
        omega
    rw [scanFrom, hnil]
    rfl
  | fuel + 1, b :: bs, h => by
    rw [scan, length_cons, scanFrom, scanFrom]
    cases hh : head (b :: bs) with
    | none => rfl
    | some p =>
      obtain ⟨hpos, -⟩ := hs _ p.1 p.2 hh
      have hd : ((b :: bs).drop p.2).length ≤ bs.length := by
        rw [length_drop, length_cons]
        omega
      have hfl : bs.length ≤ fuel := by simpa using h
      simp only [scanFrom_of_le hs (hd.trans hfl), scanFrom_of_le hs hd]

variable {bs : List β}

theorem scan_none (h : head bs = none) : scan head bs = [] := by
  unfold scan
  cases bs.length with
  | zero => rfl
  | succ n => rw [scanFrom, h]

variable {a : α} {n : Nat}

theorem scan_some (hs : Sound head) (h : head bs = some (a, n)) : scan head bs = (a, n) :: scan head (bs.drop n) := by
  obtain ⟨hpos, hle⟩ := hs bs a n h
  obtain ⟨k, hk⟩ : ∃ k, bs.length = k + 1 := ⟨bs.length - 1, by omega⟩
  have hd : (bs.drop n).length ≤ k := by
    rw [length_drop]
    omega
  rw [scan, hk, scanFrom, h]
  simp only [scanFrom_of_le hs hd]

theorem scan_induction (hs : Sound head) {P : List β → Prop} (stop : ∀ bs, head bs = none → P bs)
    (frame : ∀ bs a n, head bs = some (a, n) → P (bs.drop n) → P bs) (bs : List β) : P bs := by
  induction hlen : bs.length using Nat.strong_induction_on generalizing bs with
  | _ k ih =>
    cases hh : head bs with
    | none => exact stop bs hh
    | some p =>
      obtain ⟨hpos, hle⟩ := hs bs p.1 p.2 hh
      refine frame bs p.1 p.2 hh (ih (bs.drop p.2).length ?_ _ rfl)
      rw [length_drop]
      omega

theorem extent_none (h : head bs = none) : extent head bs = 0 := by
  rw [extent, scan_none h]
  rfl

theorem extent_some (hs : Sound head) (h : head bs = some (a, n)) : extent head bs = n + extent head (bs.drop n) := by
  rw [extent, scan_some hs h]
  rfl

theorem values_none (h : head bs = none) : values head bs = [] := by
  rw [values, scan_none h]
  rfl

theorem values_nil : values head [] = [] := rfl

theorem values_some (hs : Sound head) (h : head bs = some (a, n)) : values head bs = a :: values head (bs.drop n) := by
  rw [values, scan_some hs h]
  rfl

theorem extent_le (hs : Sound head) (bs : List β) : extent head bs ≤ bs.length := by
  induction bs using scan_induction hs with
  | stop bs h => rw [extent_none h]; exact Nat.zero_le _
  | frame bs a n h ih =>
    obtain ⟨-, hle⟩ := hs bs a n h
    rw [extent_some hs h]
    rw [length_drop] at ih
    omega

theorem take_extent_append (hs : Sound head) (h : head bs = some (a, n)) (rest : List β) :
    bs.take (extent head bs) ++ rest = bs.take n ++ ((bs.drop n).take (extent head (bs.drop n)) ++ rest) ∧
    (bs.take n ++ ((bs.drop n).take (extent head (bs.drop n)) ++ rest)).drop n =
      (bs.drop n).take (extent head (bs.drop n)) ++ rest := by
  obtain ⟨-, hle⟩ := hs bs a n h
  constructor
  · rw [extent_some hs h, take_add, append_assoc]
  · exact drop_left' (by rw [length_take]; omega)

theorem values_take_extent (hs : Sound head) (hl : Local head) (bs rest : List β) :
    values head (bs.take (extent head bs) ++ rest) = values head bs ++ values head rest := by
  induction bs using scan_induction hs with
  | stop bs h => rw [extent_none h, values_none h]; rfl
  | frame bs a n h ih =>
    obtain ⟨hct, hd⟩ := take_extent_append hs h rest
    rw [hct, values_some hs (hl bs a n _ h), hd, ih, values_some hs h, cons_append]

theorem extent_take_extent (hs : Sound head) (hl : Local head) (bs rest : List β) :
    extent head (bs.take (extent head bs) ++ rest) = extent head bs + extent head rest := by
  induction bs using scan_induction hs with
  | stop bs h => rw [extent_none h, Nat.zero_add]; rfl
  | frame bs a n h ih =>
    obtain ⟨hct, hd⟩ := take_extent_append hs h rest
    rw [hct, extent_some hs (hl bs a n _ h), hd, ih, extent_some hs h, Nat.add_assoc]

theorem extent_take_self (hs : Sound head) (hl : Local head) (bs : List β) :
    extent head (bs.take (extent head bs)) = extent head bs := by
  have hap := extent_take_extent hs hl bs []
  rwa [append_nil] at hap

theorem none_of_append (hl : Local head) {rest : List β} (h : head (bs ++ rest) = none) : head bs = none := by
  cases hh : head bs with
  | none => rfl
  | some f =>
    have hln := hl bs f.1 f.2 (bs.drop f.2 ++ rest) hh
    rw [← append_assoc, take_append_drop, h] at hln
    cases hln

theorem values_take_of_extent_le (hs : Sound head) (hl : Local head) {m : Nat}
    (h : extent head bs ≤ m) : values head (bs.take m) = values head bs := by
  induction bs using scan_induction hs generalizing m with
  | stop bs hst =>
    have hfn : head (bs.take m) = none := none_of_append hl (by rwa [take_append_drop])
    rw [values_none hfn, values_none hst]
  | frame bs a n hfr ih =>
    obtain ⟨-, hle⟩ := hs bs a n hfr
    rw [extent_some hs hfr] at h
    have hct : bs.take m = bs.take n ++ (bs.drop n).take (m - n) := by
      rw [← take_add, Nat.add_sub_cancel' (by omega)]
    have hd : (bs.take n ++ (bs.drop n).take (m - n)).drop n = (bs.drop n).take (m - n) :=
      drop_left' (by rw [length_take]; omega)
    rw [hct, values_some hs (hl bs a n _ hfr), hd, ih (by omega), values_some hs hfr]

end Scan

section Refines

variable {head : List β → Option (α × Nat)} {coarse : List β → Option (γ × Nat)}

/-- What `head` accepts, `coarse` accepts with the same size. -/
def Refines (head : List β → Option (α × Nat)) (coarse : List β → Option (γ × Nat)) : Prop :=
  ∀ bs a n, head bs = some (a, n) → ∃ c, coarse bs = some (c, n)

theorem extent_le_extent (hs : Sound head) (hc : Sound coarse) (h : Refines head coarse) (bs : List β) :
    extent head bs ≤ extent coarse bs := by
  induction bs using scan_induction hs with
  | stop bs hst => rw [extent_none hst]; exact Nat.zero_le _
  | frame bs a n hfr ih =>
    obtain ⟨c, hcr⟩ := h bs a n hfr
    rw [extent_some hs hfr, extent_some hc hcr]
    omega

end Refines

section Encode

variable {head : List β → Option (α × Nat)} {enc : α → List β}

/-- `enc a` at the front of a file is recognised, for the values in `ok`. -/
def Encodes (head : List β → Option (α × Nat)) (enc : α → List β) (ok : α → Prop) : Prop :=
  ∀ a rest, ok a → head (enc a ++ rest) = some (a, (enc a).length)

/-- A frame cut short is not recognised. -/
def Torn (head : List β → Option (α × Nat)) (enc : α → List β) (ok : α → Prop) : Prop :=
  ∀ a p, ok a → p <+: enc a → p.length < (enc a).length → head p = none

variable {ok : α → Prop}

theorem flatten_map_flatMap (enc : α → List β) : ∀ ass : List (List α),
    (ass.map (List.flatMap enc)).flatten = ass.flatten.flatMap enc
  | [] => rfl
  | as :: ass => by
    rw [map_cons, flatten_cons, flatten_cons, flatMap_append, flatten_map_flatMap enc ass]

theorem values_encode (hs : Sound head) (he : Encodes head enc ok) : ∀ {as : List α} {rest : List β}, (∀ a ∈ as, ok a) →
      values head (as.flatMap enc ++ rest) = as ++ values head rest
  | [], rest, _ => rfl
  | a :: as, rest, hok => by
    have ha := he a (as.flatMap enc ++ rest) (hok a mem_cons_self)
    rw [flatMap_cons, append_assoc, values_some hs ha, drop_left,
      values_encode hs he fun b hb => hok b (mem_cons_of_mem _ hb), cons_append]

theorem values_frames (hs : Sound head) (he : Encodes head enc ok) {as : List α} (hok : ∀ a ∈ as, ok a) :
    values head (as.flatMap enc) = as := by
  have hall : values head (as.flatMap enc ++ []) = as ++ values head [] := values_encode hs he hok
  rwa [values_nil, append_nil, append_nil] at hall

theorem extent_encode (hs : Sound head) (he : Encodes head enc ok) : ∀ {as : List α} {rest : List β}, (∀ a ∈ as, ok a) →
      extent head (as.flatMap enc ++ rest) = (as.flatMap enc).length + extent head rest
  | [], rest, _ => by simp
  | a :: as, rest, hok => by
    have ha := he a (as.flatMap enc ++ rest) (hok a mem_cons_self)
    rw [flatMap_cons, append_assoc, extent_some hs ha, drop_left,
      extent_encode hs he fun b hb => hok b (mem_cons_of_mem _ hb), length_append, Nat.add_assoc]

theorem values_prefix (hs : Sound head) (he : Encodes head enc ok) (ht : Torn head enc ok) :
    ∀ {as : List α} {p : List β}, (∀ a ∈ as, ok a) → p <+: as.flatMap enc →
      ∃ k ≤ as.length, values head p = as.take k ∧ p.take (extent head p) = (as.take k).flatMap enc
  | [], p, _, hp => by
    obtain rfl : p = [] := prefix_nil.1 hp
    exact ⟨0, le_rfl, rfl, rfl⟩
  | a :: as, p, hok, hp => by
    have ha := hok a mem_cons_self
    by_cases hlt : p.length < (enc a).length
    · have hpa : p <+: enc a := by
        rw [flatMap_cons] at hp
        exact prefix_of_prefix_length_le hp (prefix_append _ _) hlt.le
      have hnn := ht a p ha hpa hlt
      exact ⟨0, Nat.zero_le _, by rw [values_none hnn]; rfl, by rw [extent_none hnn]; rfl⟩
    · obtain ⟨q, rfl⟩ : enc a <+: p := by
        rw [flatMap_cons] at hp
        exact prefix_of_prefix_length_le (prefix_append _ _) hp (not_lt.1 hlt)
      have hq : q <+: as.flatMap enc := by
        rw [flatMap_cons] at hp
        exact (prefix_append_right_inj _).1 hp
      obtain ⟨k, hk, hvl, het⟩ := values_prefix hs he ht (fun b hb => hok b (mem_cons_of_mem _ hb)) hq
      refine ⟨k + 1, Nat.succ_le_succ hk, ?_, ?_⟩
      · rw [values_some hs (he a q ha), drop_left, hvl, take_succ_cons]
      · rw [extent_some hs (he a q ha), drop_left, take_length_add_append, het, take_succ_cons, flatMap_cons]

end Encode

/-! ## Several files, cut at one place -/

section Cut

variable {head : List β → Option (α × Nat)} {enc : α → List β} {ok : α → Prop} {as : List α} {files : List (List β)}

/-- The files hold the frames of `as` up to some place: whole files, then one that stops there, then empty ones. -/
inductive Cut (enc : α → List β) : List α → List (List β) → Prop
  | missing {as : List α} : Cut enc as []
  | whole {as : List α} {files : List (List β)} (here : List α) : Cut enc as files →
      Cut enc (here ++ as) (here.flatMap enc :: files)
  | torn {as : List α} {p : List β} {files : List (List β)} : p <+: as.flatMap enc → (∀ f ∈ files, f = []) →
      Cut enc as (p :: files)

def cutAt : Nat → List (List β) → List (List β)
  | _, [] => []
  | n, f :: files => f.take n :: cutAt (n - f.length) files

@[simp] theorem length_cutAt (n : Nat) (files : List (List β)) : (cutAt n files).length = files.length := by
  induction files generalizing n with
  | nil => rfl
  | cons f files ih => simp [cutAt, ih]

theorem cutAt_zero (files : List (List β)) : ∀ f ∈ cutAt 0 files, f = [] := by
  induction files with
  | nil => simp [cutAt]
  | cons g files ih => simpa [cutAt] using ih

theorem cutAt_of_nil (n : Nat) (h : ∀ f ∈ files, f = []) : ∀ f ∈ cutAt n files, f = [] := by
  induction files with
  | nil => simp [cutAt]
  | cons g files ih =>
    obtain rfl := h g mem_cons_self
    simpa [cutAt] using ih fun f hf => h f (mem_cons_of_mem _ hf)

theorem Cut.cutAt (h : Cut enc as files) (n : Nat) : Cut enc as (cutAt n files) := by
  induction h generalizing n with
  | missing => exact .missing
  | @whole as files here _ ih =>
    rw [Frames.cutAt]
    by_cases hn : (here.flatMap enc).length ≤ n
    · rw [take_of_length_le hn]
      exact (ih _).whole here
    · rw [Nat.sub_eq_zero_of_le (Nat.le_of_not_le hn)]
      refine .torn ?_ (cutAt_zero files)
      rw [flatMap_append]
      exact (List.take_prefix _ _).trans (prefix_append _ _)
  | torn hp hnil => exact .torn ((List.take_prefix _ _).trans hp) (cutAt_of_nil _ hnil)

theorem Cut.take (h : Cut enc as files) (k : Nat) : Cut enc as (files.take k) := by
  induction h generalizing k with
  | missing => simpa using Cut.missing
  | whole here _ ih =>
    cases k with
    | zero => exact .missing
    | succ k => exact (ih k).whole here
  | torn hp hnil =>
    cases k with
    | zero => exact .missing
    | succ k => exact .torn hp fun f hf => hnil f (mem_of_mem_take hf)

theorem Cut.append (h : Cut enc as files) (more : List α) : Cut enc (as ++ more) files := by
  induction h with
  | missing => exact .missing
  | whole here _ ih =>
    rw [append_assoc]
    exact ih.whole here
  | torn hp hnil =>
    refine .torn (hp.trans ?_) hnil
    rw [flatMap_append]
    exact prefix_append _ _

theorem Cut.of_whole (h : Cut enc as files) : ∀ before : List (List α),
    Cut enc (before.flatten ++ as) (before.map (List.flatMap enc) ++ files)
  | [] => h
  | here :: before => by
    rw [flatten_cons, append_assoc]
    exact (h.of_whole before).whole here

theorem Cut.flatten_prefix (h : Cut enc as files) : files.flatten <+: as.flatMap enc := by
  induction h with
  | missing => exact List.nil_prefix
  | whole here _ ih =>
    rw [flatten_cons, flatMap_append]
    exact (prefix_append_right_inj _).2 ih
  | torn hp hnil =>
    rw [flatten_cons, flatten_eq_nil_iff.2 hnil, append_nil]
    exact hp

theorem Cut.values (hs : Sound head) (he : Encodes head enc ok) (h : Cut enc as files) (hok : ∀ a ∈ as, ok a) :
    files.flatMap (values head) = values head files.flatten := by
  induction h with
  | missing => rfl
  | whole here _ ih =>
    rw [flatMap_cons, values_frames hs he fun a ha => hok a (mem_append_left _ ha), ih fun a ha => hok a (mem_append_right _ ha), flatten_cons,
      values_encode hs he fun a ha => hok a (mem_append_left _ ha)]
  | torn _ hnil =>
    have hrs : ∀ f ∈ _, Frames.values head f = [] := fun f hf => by rw [hnil f hf, values_nil]
    rw [flatMap_cons, flatMap_eq_nil_iff.2 hrs, append_nil, flatten_cons, flatten_eq_nil_iff.2 hnil, append_nil]

/-- A cut leaves the frames that are there in full, and no others: `k` of them fit into the octets left. -/
theorem Cut.read (hs : Sound head) (he : Encodes head enc ok) (ht : Torn head enc ok) (h : Cut enc as files)
    (hok : ∀ a ∈ as, ok a) : ∃ k ≤ as.length, files.flatMap (Frames.values head) = as.take k ∧
      ((as.take k).flatMap enc).length ≤ files.flatten.length ∧
      ∀ j ≤ as.length, ((as.take j).flatMap enc).length ≤ files.flatten.length → j ≤ k := by
  obtain ⟨k, hk, hvl, het⟩ := values_prefix hs he ht hok h.flatten_prefix
  refine ⟨k, hk, (h.values hs he hok).trans hvl, ?_, ?_⟩
  · rw [← het, length_take]
    omega
  · intro j hj hft
    -- the first `j` frames are at the front of what is left
    obtain ⟨rest, hrs⟩ : (as.take j).flatMap enc <+: files.flatten := by
      refine prefix_of_prefix_length_le ?_ h.flatten_prefix hft
      nth_rewrite 2 [← take_append_drop j as]
      rw [flatMap_append]
      exact prefix_append _ _
    rw [← hrs, values_encode hs he fun a ha => hok a (mem_of_mem_take ha)] at hvl
    have hlen := congrArg length hvl
    rw [length_append, length_take, length_take] at hlen
    omega

end Cut

end Frames
