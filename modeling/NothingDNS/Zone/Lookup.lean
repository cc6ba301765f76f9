import NothingDNS.Zone.Types
/-!
# Lookups in a zone (`internal/zone/zone.go:1006-1265`)

The three loops walk from the query name upwards. Each is a recursion over the
names its variable `parent` takes, `Text.superdomains`.
-/

namespace NothingDNS

open List

def typeNS : Text := "NS".toList
def typeDNAME : Text := "DNAME".toList

def recordTypeMatches (recordType queryType : Text) : Bool :=
  recordType.upper = queryType.upper ∨ recordType.upper = "DKIM".toList ∧ queryType.upper = "TXT".toList

def Record.isNS (r : Record) : Bool := r.type.upper = typeNS

namespace Zone

variable (z : Zone)

def lookup (name rrtype : Text) : List Record :=
  (z.recordsAt (normalize name)).filter fun r => recordTypeMatches r.type rrtype

def nameExists (name : Text) : Bool := z.recordsAt (normalize name) ≠ []

/-- The loop of `LookupWildcard`; the list holds the parents still to come. -/
def wildcardLoop (origin rrtype current : Text) : List Text → Option (List Record × Text)
  | [] => none
  | parent :: above =>
    if current = origin ∨ current = ['.'] then none
    else
      let wildcard := '*' :: '.' :: parent
      let recs := z.recordsAt wildcard
      if recs ≠ [] then
        if rrtype = [] ∨ rrtype = "ANY".toList then some (recs, wildcard)
        else some (recs.filter fun r => recordTypeMatches r.type rrtype, wildcard)
      else wildcardLoop origin rrtype parent above

/-- `none` is `found = false`. -/
def lookupWildcard (name rrtype : Text) : Option (List Record × Text) :=
  let name := normalize name
  let origin := z.origin.lower
  if nameInZone name origin then
    z.wildcardLoop origin rrtype.upper name (Text.superdomains name)
  else none

/-- The names from the query name up to the last one below the origin (`zone.go:1182-1195`). -/
def intermediates (origin current : Text) : List Text → List Text
  | [] => []
  | parent :: above =>
    if parent = origin then [current] else current :: intermediates origin parent above

def nsAt (name : Text) : List Record := (z.recordsAt name).filter Record.isNS

/-- `none` is `found = false`. -/
def findDelegation (name : Text) : Option (List Record × Text) :=
  let name := normalize name
  let origin := z.origin.lower
  if nameInZone name origin ∧ name ≠ origin then
    ((intermediates origin name (Text.superdomains name)).reverse.find? fun candidate =>
      candidate ≠ name ∧ z.nsAt candidate ≠ []).map fun candidate => (z.nsAt candidate, candidate)
  else none

def dnameLoop (origin name : Text) : List Text → Option (Record × Text)
  | [] => none
  | parent :: above =>
    match (z.recordsAt parent).find? fun r => r.type.upper = typeDNAME with
    | some rec =>
      -- `strings.TrimSuffix(name, parent) + rec.RData`
      some ({ rec with name := parent }, name.take (name.length - parent.length) ++ rec.rdata)
    | none => if parent = origin then none else dnameLoop origin name above

/-- From `zone.go:1229-1267`. -/
def findDNAME (name : Text) : Option (Record × Text) :=
  let name := normalize name
  let origin := z.origin.lower
  if nameInZone name origin then z.dnameLoop origin name (Text.superdomains name) else none

/-- What `NewZone` and `CreateZone` establish, and `Validate` asks for: the origin ends with a dot and
is not the root. Owner names are stored lowercased and absolute. -/
structure WellNamed : Prop where
  origin : canonicalize z.origin = z.origin
  notRoot : z.origin.lower ≠ ['.']

instance : Decidable z.WellNamed :=
  decidable_of_iff (canonicalize z.origin = z.origin ∧ z.origin.lower ≠ ['.'])
    ⟨fun h => ⟨h.1, h.2⟩, fun h => ⟨h.origin, h.notRoot⟩⟩

/-- `p` is a zone cut at or above `n`: it lies strictly below the apex, is `n` or an ancestor of `n`,
and owns NS records. -/
def CutFor (n p : Text) : Prop :=
  (p = n ∨ Text.Under p n) ∧ Text.Under z.origin.lower p ∧ z.nsAt p ≠ []

instance (n p : Text) : Decidable (z.CutFor n p) := inferInstanceAs (Decidable (_ ∧ _ ∧ _))

variable {z}

variable {origin : Text}

theorem intermediates_eq : ∀ (l above : List Text) (current : Text),
    origin ∉ l → intermediates origin current (l ++ origin :: above) = current :: l
  | [], _, _, _ => by simp [intermediates]
  | p :: l, above, current, h => by
    rw [mem_cons, not_or] at h
    rw [cons_append, intermediates, if_neg (Ne.symm h.1), intermediates_eq l above p h.2]

variable {n p : Text}

theorem mem_intermediates (h : Text.Under origin n) :
    p ∈ intermediates origin n (Text.superdomains n) ↔ (p = n ∨ Text.Under p n) ∧ Text.Under origin p := by
  obtain ⟨l, hl, hall⟩ := h.split
  have hnt : origin ∉ l := fun hmem => (hall _ hmem).ne rfl
  rw [hl, intermediates_eq l _ n hnt, mem_cons]
  constructor
  · rintro (rfl | hp)
    · exact ⟨.inl rfl, h⟩
    · refine ⟨.inr (Text.mem_superdomains.1 ?_), hall p hp⟩
      rw [hl]
      exact mem_append_left _ hp
  · rintro ⟨rfl | hp, hu⟩
    · exact .inl rfl
    · refine .inr ?_
      have hmem := Text.mem_superdomains.2 hp
      rw [hl, mem_append, mem_cons] at hmem
      rcases hmem with hmem | rfl | hmem
      · exact hmem
      · exact absurd rfl hu.ne
      · have := (Text.mem_superdomains.1 hmem).trans hu
        exact absurd rfl this.ne

theorem pairwise_intermediates (h : Text.Under origin n) :
    (intermediates origin n (Text.superdomains n)).Pairwise fun a b => Text.Under b a := by
  obtain ⟨l, hl, hall⟩ := h.split
  have hnt : origin ∉ l := fun hmem => (hall _ hmem).ne rfl
  have hpr := Text.pairwise_superdomains n
  rw [hl] at hpr
  rw [hl, intermediates_eq l _ n hnt]
  refine .cons (fun p hp => Text.mem_superdomains.1 ?_) (pairwise_append.1 hpr).1
  rw [hl]
  exact mem_append_left _ hp

theorem CutFor.under (h : z.CutFor n p) : Text.Under z.origin.lower n := by
  obtain ⟨rfl | hp, ho, -⟩ := h
  · exact ho
  · exact ho.trans hp

section delegation

variable (hz : z.WellNamed) {name : Text} (hin : nameInZone name z.origin = true)
include hz hin

theorem normalize_cases : normalize name = z.origin.lower ∨ Text.Under z.origin.lower (normalize name) := by
  rw [nameInZone_normalize hz.origin] at hin
  exact (nameInZone_iff (normal_normalize name) (normal_lower hz.origin) hz.notRoot).1 hin

/-- **What `FindDelegation` returns**: the topmost cut strictly above the query name. -/
theorem findDelegation_eq_some {ns : List Record} {p : Text} (h : z.findDelegation name = some (ns, p)) :
    p ≠ normalize name ∧ z.CutFor (normalize name) p ∧ ns = z.nsAt p ∧
      ∀ q, q ≠ normalize name → z.CutFor (normalize name) q → q = p ∨ Text.Under p q := by
  unfold findDelegation at h
  dsimp only at h
  split at h
  swap
  · cases h
  rename_i hcn
  have hu : Text.Under z.origin.lower (normalize name) := (normalize_cases hz hin).resolve_left hcn.2
  obtain ⟨c, hc, heq⟩ := Option.map_eq_some_iff.1 h
  simp only [Prod.mk.injEq] at heq
  obtain ⟨rfl, rfl⟩ := heq
  obtain ⟨hst, above, below, hls, hav⟩ := find?_eq_some_iff_append.1 hc
  rw [decide_eq_true_eq] at hst
  -- `above` are the intermediates closer to the origin, `below` those closer to the query name
  have hl' : intermediates z.origin.lower (normalize name) (Text.superdomains (normalize name)) =
      below.reverse ++ c :: above.reverse := by
    rw [← reverse_reverse (intermediates _ _ _), hls]
    simp
  have hmem : c ∈ intermediates z.origin.lower (normalize name) (Text.superdomains (normalize name)) := by
    rw [hl']
    simp
  have hct := (mem_intermediates hu).1 hmem
  refine ⟨hst.1, ⟨hct.1, hct.2, hst.2⟩, rfl, fun q hq hqc => ?_⟩
  have hqm := (mem_intermediates hu).2 ⟨hqc.1, hqc.2.1⟩
  rw [hl', mem_append, mem_cons, mem_reverse, mem_reverse] at hqm
  rcases hqm with hb | rfl | hab
  · refine .inr ?_
    have hp := pairwise_intermediates hu
    rw [hl', pairwise_append] at hp
    exact hp.2.2 q (mem_reverse.2 hb) c mem_cons_self
  · exact .inl rfl
  · have hno := hav q hab
    rw [Bool.not_eq_true', decide_eq_false_iff_not] at hno
    exact absurd ⟨hq, hqc.2.2⟩ hno

theorem findDelegation_eq_none (h : z.findDelegation name = none) {q : Text}
    (hq : z.CutFor (normalize name) q) : q = normalize name := by
  have hu := hq.under
  unfold findDelegation at h
  rw [nameInZone_normalize hz.origin] at hin
  rw [if_pos ⟨hin, hu.ne.symm⟩, Option.map_eq_none_iff, find?_eq_none] at h
  by_contra hne
  refine h q ?_ (decide_eq_true ⟨hne, hq.2.2⟩)
  rw [mem_reverse]
  exact (mem_intermediates hu).2 ⟨hq.1, hq.2.1⟩

end delegation

variable {rrtype : Text}

theorem wildcardLoop_eq_none (ho : origin ≠ []) {above : List Text} :
    ∀ {l : List Text} {current : Text}, (∀ x ∈ current :: l, Text.Under origin x) →
      z.wildcardLoop origin rrtype current (l ++ origin :: above) = none →
      ∀ p ∈ l ++ [origin], z.recordsAt ('*' :: '.' :: p) = []
  | l, current, hu, h => by
    have hcr := hu current mem_cons_self
    have hlen := hcr.length_lt
    have hpos := length_pos_iff.2 ho
    have hnt : ¬ (current = origin ∨ current = ['.']) := by
      rintro (rfl | rfl)
      · exact hcr.ne rfl
      · simp only [length_singleton] at hlen
        omega
    cases l with
    | nil =>
      rw [nil_append, wildcardLoop, if_neg hnt] at h
      dsimp only at h
      split at h
      · split at h <;> cases h
      next hrc =>
        simpa using hrc
    | cons q l =>
      rw [cons_append, wildcardLoop, if_neg hnt] at h
      dsimp only at h
      split at h
      · split at h <;> cases h
      next hrc =>
        have hrs := wildcardLoop_eq_none ho (fun x hx => hu x (mem_cons_of_mem _ hx)) h
        rw [cons_append, forall_mem_cons]
        exact ⟨not_not.1 hrc, hrs⟩

theorem lookupWildcard_eq_none (hz : z.WellNamed) {name : Text}
    (hin : nameInZone name z.origin = true) (h : z.lookupWildcard name rrtype = none)
    (hp : Text.Under p (normalize name)) (hzn : p = z.origin.lower ∨ Text.Under z.origin.lower p) :
    ¬ z.Owner ('*' :: '.' :: p) := by
  have hu : Text.Under z.origin.lower (normalize name) := by
    rcases hzn with rfl | h
    · exact hp
    · exact h.trans hp
  obtain ⟨l, hl, hall⟩ := hu.split
  unfold lookupWildcard at h
  rw [nameInZone_normalize hz.origin] at hin
  rw [if_pos hin, hl] at h
  have hnn := wildcardLoop_eq_none (normal_lower hz.origin).ne_nil
    (forall_mem_cons.2 ⟨hu, hall⟩) h
  have hmem : p ∈ l ++ [z.origin.lower] := by
    have hmem := Text.mem_superdomains.2 hp
    rw [hl, mem_append, mem_cons] at hmem
    rcases hmem with hmem | rfl | hmem
    · exact mem_append_left _ hmem
    · exact mem_append_right _ mem_cons_self
    · -- names above the origin are not in the zone
      have hav := Text.mem_superdomains.1 hmem
      rcases hzn with rfl | hzn
      · exact absurd rfl hav.ne
      · exact absurd rfl (hav.trans hzn).ne
  exact not_not_intro (hnn p hmem)

end Zone

end NothingDNS
