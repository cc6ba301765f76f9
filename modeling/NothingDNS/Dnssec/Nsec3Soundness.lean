import NothingDNS.Dnssec.NsecSoundness
import NothingDNS.Lib.Traverse
/-!
# What an NSEC3 denial of a name proves

The names of a zone, empty non-terminals included, in a ring in the order of their hashes. The
closest encloser the code finds has a record, the next closer name lies in a gap; a zone contains the
ancestors of its names down from the apex, so nothing below the next closer name exists and the
encloser found is the closest one, whichever records of the chain are there
(`validateNSEC3ClosestEncloser_sound`).
-/

namespace NothingDNS.Dnssec

open List Gaps Text

/-! ## The hash does not see case -/

theorem splitDots_lower : ∀ t : Text, splitDots (lower t) = (splitDots t).map lower
  | [] => rfl
  | c :: t => by
    have hd : c.toLower = '.' ↔ c = '.' := toLower_eq_iff (by decide)
    have ih := splitDots_lower t
    show splitDots (c.toLower :: lower t) = _
    rw [splitDots, splitDots]
    by_cases hc : c = '.'
    · rw [if_pos hc, if_pos (hd.2 hc), ih]
      rfl
    · rw [if_neg hc, if_neg (mt hd.1 hc), ih]
      cases splitDots t <;> rfl

theorem dropWhile_lower {p : Char → Bool} (hp : ∀ c : Char, p c.toLower = p c) (t : Text) :
    (lower t).dropWhile p = lower (t.dropWhile p) := by
  rw [lower, dropWhile_map]
  exact congrArg (fun f => lower (t.dropWhile f)) (funext hp)

theorem rdropWhile_lower {p : Char → Bool} (hp : ∀ c : Char, p c.toLower = p c) (t : Text) :
    (lower t).rdropWhile p = lower (t.rdropWhile p) := by
  have h : (lower t).reverse.dropWhile p = lower (t.reverse.dropWhile p) := by
    rw [lower, ← map_reverse]
    exact dropWhile_lower hp t.reverse
  rw [rdropWhile, rdropWhile, h]
  exact map_reverse.symm

theorem trimDot_lower (t : Text) : trimDot (lower t) = lower (trimDot t) := by
  have hd : ∀ c : Char, c.toLower = '.' ↔ c = '.' := fun _ => toLower_eq_iff (by decide)
  have hls : (lower t).getLast? = some '.' ↔ t.getLast? = some '.' := by
    rw [lower, getLast?_map]
    cases t.getLast? <;> simp [hd]
  unfold trimDot
  by_cases h : t.getLast? = some '.'
  · rw [if_pos h, if_pos (hls.2 h), lower, ← map_dropLast]
    rfl
  · rw [if_neg h, if_neg (mt hls.1 h)]

theorem isBlank_toLower (c : Char) : isBlank c.toLower = isBlank c := by
  have h : ∀ d : Char, (d.val.toNat < 65 ∨ 90 < d.val.toNat ∧ d.val.toNat < 97) →
      (c.toLower = d ↔ c = d) := fun _ => toLower_eq_iff
  simp only [isBlank, h ' ' (by decide), h '\t' (by decide)]

theorem canonicalWireName_lower (t : Text) : canonicalWireName (lower t) = canonicalWireName t := by
  unfold canonicalWireName
  simp only [dropWhile_lower isBlank_toLower, rdropWhile_lower isBlank_toLower, trimDot_lower, splitDots_lower]
  rw [filter_map, flatMap_map]
  have hfl : ((fun l : Text => decide (l ≠ [])) ∘ lower) = fun l => decide (l ≠ []) := by
    funext l
    simp [lower_eq_nil]
  rw [hfl]
  refine congrArg (· ++ [0]) (congrArg (flatMap · _) (funext fun l => ?_))
  simp [lower, toLower_toLower]

theorem toWireFormat_lower (t : Text) : toWireFormat (lower t) = toWireFormat t := by
  have htr : trimSpace (lower t) = lower (trimSpace t) := by
    rw [trimSpace, trimSpace, dropWhile_lower isSpace_toLower, rdropWhile_lower isSpace_toLower]
  unfold toWireFormat
  rw [htr, trimDot_lower, splitDots_lower, any_map, canonicalWireName_lower]
  simp [Function.comp_def, lower]

theorem intercalate_lower : ∀ ls : List Text, ['.'].intercalate (ls.map lower) = lower (['.'].intercalate ls)
  | [] => rfl
  | [a] => by simp [intercalate]
  | a :: b :: ls => by
    have ih := intercalate_lower (b :: ls)
    simp only [map_cons, intercalate_cons_cons, lower_append] at ih ⊢
    rw [ih]
    rfl

theorem text_canonical (n : Name) : Name.text n.canonical = lower n.text := by
  unfold Name.text
  by_cases h : n = []
  · subst h
    rfl
  · have h' : n.canonical ≠ [] := by simpa [Name.canonical] using h
    rw [if_neg h, if_neg h']
    exact intercalate_lower n

theorem nsec3Hash_canonical (sha1 : List UInt8 → List UInt8) (n : Name) (p : Nsec3Params) :
    nsec3Hash sha1 (Name.text n.canonical) p = nsec3Hash sha1 n.text p := by
  rw [nsec3Hash, nsec3Hash, text_canonical, toWireFormat_lower]

/-! ## Hashes and their texts -/

abbrev octetCmp : List Nat → List Nat → Ordering := List.compareLex compare

def octets (h : List UInt8) : List Nat := h.map UInt8.toNat

variable {a b : List UInt8}

theorem octets_inj (h : octets a = octets b) : a = b := map_injective_iff.2 (fun _ _ hab => UInt8.toNat_inj.1 hab) h

theorem textCompare_hashText (h : a.length = b.length) :
    textCompare (hashText a) (hashText b) = octetCmp (octets a) (octets b) := by
  have hcd : ∀ x : List UInt8, (hashText x).map Char.toNat = (Base32.encode x).map fun c => c.toUpper.toNat := by
    intro x
    simp [hashText, upper]
  rw [textCompare, hcd, hcd, Base32.compareLex_encode h]
  rfl

theorem hashText_inj (h : a.length = b.length) (heq : hashText a = hashText b) : a = b := by
  have hsl : textCompare (hashText b) (hashText b) = .eq :=
    (Std.ReflCmp.compare_self : octetCmp ((hashText b).map Char.toNat) _ = .eq)
  have hcm := textCompare_hashText h
  rw [heq, hsl] at hcm
  exact octets_inj (Std.LawfulEqCmp.eq_of_compare hcm.symm)

theorem nsec3HashInRange_eq {h : List UInt8} (ha : h.length = a.length) (hb : h.length = b.length) :
    nsec3HashInRange (hashText h) (hashText a) (hashText b) = inGap octetCmp (octets h) (octets a) (octets b) := by
  have hab : a.length = b.length := ha.symm.trans hb
  unfold nsec3HashInRange inGap
  rw [textCompare_hashText hab, textCompare_hashText ha, textCompare_hashText hb]
  by_cases heq : a = b
  · subst heq
    have hsl : octetCmp (octets a) (octets a) = .eq := Std.ReflCmp.compare_self
    have hif : hashText h ≠ hashText a ↔ octetCmp (octets h) (octets a) ≠ .eq := by
      refine not_congr ⟨fun ht => ?_, fun ho => ?_⟩
      · rw [hashText_inj ha ht]
        exact Std.ReflCmp.compare_self
      · rw [octets_inj (Std.LawfulEqCmp.eq_of_compare ho)]
    rw [if_pos rfl, hsl, decide_eq_decide]
    exact hif
  · have hne : hashText a ≠ hashText b := fun ht => heq (hashText_inj hab ht)
    have hne' : octetCmp (octets a) (octets b) ≠ .eq := fun ho => heq (octets_inj (Std.LawfulEqCmp.eq_of_compare ho))
    rw [if_neg hne]
    rcases hcm : octetCmp (octets a) (octets b) with _ | _ | _
    · simp
    · exact absurd hcm hne'
    · simp

section
variable (sha1 : List UInt8 → List UInt8) (p : Nsec3Params)

/-- A zone with its NSEC3 chain: all its names, empty non-terminals included, in the order of their
hashes. -/
structure HashedZone where
  apex : Name
  names : List Name
  hash : Name → List UInt8
  below : ∀ n ∈ names, apex <:+ n
  folded : ∀ n ∈ names, Name.canonical n = n
  /-- What lies between the apex and a name exists. -/
  closed : ∀ n ∈ names, ∀ a, apex <:+ a → a <:+ n → a ∈ names
  hash_eq : ∀ n ∈ names, nsec3Hash sha1 (Name.text n) p = some (hash n)
  ascending : Ascending octetCmp (names.map fun n => octets (hash n))

variable {sha1 p}

def HashedZone.Genuine (z : HashedZone sha1 p) (rr : RR) : Prop :=
  ∃ l ∈ links z.names, ownerHash rr = hashText (z.hash l.1) ∧
    ∃ n3, rr.nsec3? = some n3 ∧ n3.params = p ∧ n3.nextHashed = z.hash l.2

/-- The names that get hashed: those of the zone, the query name, its ancestors and the wildcards there. -/
def HashedZone.involved (z : HashedZone sha1 p) (q : Name) : List Name :=
  z.names ++ q.tails ++ q.tails.map (['*'] :: ·)

def HashedZone.ClosestEncloser (z : HashedZone sha1 p) (q ce : Name) : Prop :=
  ce <:+ q.canonical ∧ ce ∈ z.names ∧ ∀ a, a <:+ q.canonical → a ∈ z.names → a <:+ ce

end

variable {sha1 : List UInt8 → List UInt8} {p : Nsec3Params} {z : HashedZone sha1 p} {rrs : List RR} {q : Name}

theorem nsec3Hash_length (hlen : ∀ x, (sha1 x).length = 20) {t : Text} {h : List UInt8} (hh : nsec3Hash sha1 t p = some h) :
    h.length = 20 := by
  unfold nsec3Hash at hh
  split at hh; · cases hh
  split at hh; · cases hh
  obtain ⟨wire, -, rfl⟩ := Option.map_eq_some_iff.1 hh
  cases p.iter with
  | zero => exact hlen _
  | succ n => rw [Function.iterate_succ_apply']; exact hlen _

theorem params_of_shared (hG : ∀ rr ∈ rrs, z.Genuine rr) {p' : Nsec3Params} (h : nsec3SharedParams rrs = some p') :
    p' = p := by
  unfold nsec3SharedParams at h
  split at h
  next n ns hmp =>
    split at h <;> cases h
    obtain ⟨rr, hrr, hn⟩ := Traverse.mem_of_mapM hmp mem_cons_self
    obtain ⟨-, -, -, n3, hn3, hp, -⟩ := hG rr hrr
    obtain rfl := Option.some.inj (hn.symm.trans hn3)
    exact hp
  next => cases h

theorem not_mem_of_covered (hlen : ∀ x, (sha1 x).length = 20) (hG : ∀ rr ∈ rrs, z.Genuine rr) {n : Name}
    (h : nsec3NameCovered sha1 n p rrs = true) : n.canonical ∉ z.names := by
  intro hmem
  unfold nsec3NameCovered at h
  split at h
  · cases h
  next hash hh =>
    obtain ⟨rr, hrr, hay⟩ := any_eq_true.1 h
    obtain ⟨l, hl, how, n3, hn3, -, hnx⟩ := hG rr hrr
    have hlen' : ∀ m ∈ z.names, hash.length = (z.hash m).length := fun m hm =>
      (nsec3Hash_length hlen hh).trans (nsec3Hash_length hlen (z.hash_eq m hm)).symm
    obtain ⟨h1, h2⟩ := mem_of_mem_links hl
    rw [hn3, Option.any_some, how, hnx, nsec3HashInRange_eq (hlen' _ h1) (hlen' _ h2)] at hay
    have hln : (octets (z.hash l.1), octets (z.hash l.2)) ∈ links (z.names.map fun n => octets (z.hash n)) := by
      rw [links_map]
      exact mem_map_of_mem (f := Prod.map _ _) hl
    refine ne_of_inGap z.ascending hln hay _ (mem_map_of_mem hmem) ?_
    have heq : z.hash n.canonical = hash := by
      have := z.hash_eq _ hmem
      rw [nsec3Hash_canonical, hh] at this
      exact (Option.some.inj this).symm
    rw [heq]
    exact Std.ReflCmp.compare_self

variable {ce : Name}

theorem mem_of_closestEncloser (hlen : ∀ x, (sha1 x).length = 20) (hG : ∀ rr ∈ rrs, z.Genuine rr)
    (hij : ∀ n ∈ z.involved q, ∀ m ∈ z.involved q, (nsec3Hash sha1 n.text p).isSome →
      nsec3Hash sha1 n.text p = nsec3Hash sha1 m.text p → n.canonical = m.canonical)
    (h : closestEncloser sha1 p rrs q = some ce) : ce ∈ q.tails.tail ∧ ce.canonical ∈ z.names := by
  have hce : ce ∈ q.tails.tail := mem_of_find?_eq_some h
  refine ⟨hce, ?_⟩
  have hfn := find?_some h
  obtain ⟨hash, hh, hay⟩ := (Option.any_eq_true _ _).1 hfn
  obtain ⟨rr, hrr, heq⟩ := any_eq_true.1 hay
  obtain ⟨l, hl, how, -⟩ := hG rr hrr
  have hmem := (mem_of_mem_links hl).1
  have hlen' : (z.hash l.1).length = hash.length :=
    (nsec3Hash_length hlen (z.hash_eq _ hmem)).trans (nsec3Hash_length hlen hh).symm
  have hsm : z.hash l.1 = hash := hashText_inj hlen' (how.symm.trans (of_decide_eq_true heq))
  have hcn : ce.canonical = Name.canonical l.1 := by
    refine hij ce ?_ l.1 ?_ ?_ ?_
    · exact mem_append_left _ (mem_append_right _ (mem_of_mem_tail hce))
    · exact mem_append_left _ (mem_append_left _ hmem)
    · rw [hh]; rfl
    · rw [hh, z.hash_eq _ hmem, hsm]
  rw [hcn, z.folded _ hmem]
  exact hmem

theorem length_canonical (n : Name) : List.length n.canonical = List.length n := length_map _

theorem suffix_nextCloser (hsf : ce <:+ q) (hlt : ce.length < q.length) :
    q.drop (q.length - ce.length - 1) <:+ q ∧ (q.drop (q.length - ce.length - 1)).length = ce.length + 1 ∧
      ce <:+ q.drop (q.length - ce.length - 1) := by
  have hlen : (q.drop (q.length - ce.length - 1)).length = ce.length + 1 := by
    rw [length_drop]
    omega
  have hd := drop_suffix (q.length - ce.length - 1) q
  exact ⟨hd, hlen, suffix_of_suffix_length_le hsf hd (by omega)⟩

theorem suffix_of_nextCloser_covered (hlen : ∀ x, (sha1 x).length = 20) (hG : ∀ rr ∈ rrs, z.Genuine rr)
    (hsf : ce <:+ q) (hlt : ce.length < q.length) (hmem : ce.canonical ∈ z.names)
    (hnx : nsec3NameCovered sha1 (q.drop (q.length - ce.length - 1)) p rrs = true) :
    ∀ a, a <:+ q.canonical → a ∈ z.names → a <:+ ce.canonical := by
  intro a ha ham
  obtain ⟨hd, hdl, hcs⟩ := suffix_nextCloser hsf hlt
  by_contra hno
  have hln : ce.length < a.length := by
    by_contra hle
    refine hno (suffix_of_suffix_length_le ha (hsf.map _) ?_)
    rw [length_canonical]
    omega
  refine not_mem_of_covered hlen hG hnx (z.closed a ham _ ?_ ?_)
  · exact (z.below _ hmem).trans (hcs.map _)
  · refine suffix_of_suffix_length_le (hd.map _) ha ?_
    rw [length_canonical, hdl]
    exact hln

def padded (x : List UInt8) : List UInt8 := (x ++ List.replicate 20 0).take 20

def plainParams : Nsec3Params := ⟨1, 0, []⟩

def hashedB : HashedZone padded plainParams where
  apex := [['b']]
  names := [[['b']], [['w'], ['b']]]
  hash n := padded (canonicalWireName n.text)
  below := by decide
  folded := by decide
  closed n hn a ha han := by
    have hall : ∀ n ∈ [[['b']], [['w'], ['b']]], ∀ a ∈ n.tails, [['b']] <:+ a → a ∈ [[['b']], [['w'], ['b']]] := by decide
    exact hall n hn a ((List.mem_tails _ _).2 han) ha
  hash_eq := by decide +kernel
  ascending := by unfold Ascending; decide +kernel

def nsec3RR (owner next : Name) : RR :=
  ⟨[Base32.encode (hashedB.hash owner), ['b']], typeNSEC3, 1, .nsec3 ⟨1, 0, 0, [], hashedB.hash next, []⟩⟩

def chainB : List RR := [nsec3RR [['b']] [['w'], ['b']], nsec3RR [['w'], ['b']] [['b']]]

end NothingDNS.Dnssec
