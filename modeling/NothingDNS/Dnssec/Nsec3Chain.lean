import NothingDNS.Dnssec.NsecChain
import NothingDNS.Dnssec.Nsec3Soundness
/-!
# The NSEC3 chain of a signed zone (`generateNSEC3`, `internal/dnssec/signer.go:671-794`)

Only the owner names are hashed. The validator takes the longest ancestor of the query name that has a record for the
closest encloser, so where that is an empty non-terminal it takes the owner name above, and if there is a wildcard
there, which does not match the query name, nothing denies it (`denial_fails_below_empty_nonTerminal`). Names with one
hash may stand in any order.
-/

namespace NothingDNS.Dnssec

open List Gaps Protocol

structure HashedName where
  original : Text
  hash : List UInt8
  isOptOut : Bool
deriving DecidableEq

def HashedName.hashed (n : HashedName) : Text := Base32.encode n.hash

/-- A delegation without records that need a proof. -/
def isUnsignedDelegation (records : List RR) (name : Text) : Bool :=
  let here := records.filter fun rr => decide (rr.name.string = name)
  here.any (fun rr => decide (rr.type = typeNS)) && !here.any fun rr => decide (rr.type ≠ typeNS ∧ rr.type ≠ typeNSEC3)

section Generate

variable (sha1 : List UInt8 → List UInt8) (p : Nsec3Params) (nsec3OptOut : Bool) (zone : Text) (records : List RR)

def hashNames : List HashedName :=
  ((records.map fun rr => rr.name.string).dedup).filterMap fun name =>
    (nsec3Hash sha1 name p).map fun hash => ⟨name, hash, nsec3OptOut && isUnsignedDelegation records name⟩

def hashLE (a b : HashedName) : Prop := textLE a.hashed b.hashed

instance : DecidableRel hashLE := fun _ _ => inferInstanceAs (Decidable (textLE _ _))

def sortedHashes : List HashedName := (hashNames sha1 p nsec3OptOut records).insertionSort hashLE

def nsec3Types (n : HashedName) : List Nat :=
  if n.isOptOut then []
  else (((records.filter fun rr => decide (rr.name.string = n.original)).map RR.type) ++ [typeNSEC3]).insertionSort (· ≤ ·)

/-- The record of one turn of the loop, under `<hash>.<zone>`. -/
def nsec3Record (link : HashedName × HashedName) : Option RR :=
  (readName (link.1.hashed ++ '.' :: zone)).map fun owner =>
    ⟨owner, typeNSEC3, 1, .nsec3
      ⟨p.algo, if link.1.isOptOut then optOut else 0, p.iter, p.salt, link.2.hash, nsec3Types records link.1⟩⟩

def generateNSEC3 : List RR :=
  let hashes := sortedHashes sha1 p nsec3OptOut records
  (hashes.zip (hashes.rotate 1)).filterMap (nsec3Record p zone records)

end Generate

/-! ## The text of a name -/

variable {n : Name}

theorem Name.string_eq (h : n ≠ []) : n.string = n.text ++ ['.'] := by
  rw [Name.string, if_neg h, Name.text, if_neg h, flatMap_dot h]

variable {t : Text}

theorem validChars_of_read (h : readName t = some n) : ∀ l ∈ n, ∀ c ∈ l, isValidLabelChar c = true := by
  obtain ⟨w, hw, rfl⟩ := Option.map_eq_some_iff.1 h
  intro l hl
  obtain ⟨b, hb, rfl⟩ := mem_map.1 hl
  exact validateLabel_chars (parseName_labels hw b hb)

theorem mem_intercalate {c : Char} : ∀ {ls : List Text}, c ∈ List.intercalate ['.'] ls → c = '.' ∨ ∃ l ∈ ls, c ∈ l
  | [], h => by simp at h
  | [l], h => .inr ⟨l, mem_singleton_self l, by simpa using h⟩
  | l :: l' :: ls, h => by
    rw [intercalate_cons_cons, mem_append, mem_append, mem_singleton] at h
    rcases h with (h | h) | h
    · exact .inr ⟨l, mem_cons_self, h⟩
    · exact .inl h
    · exact (mem_intercalate h).imp_right fun ⟨m, hm, hc⟩ => ⟨m, mem_cons_of_mem _ hm, hc⟩

theorem getLast_intercalate : ∀ {ls : List Text}, ls ≠ [] → [] ∉ ls →
    ∃ l ∈ ls, ∃ c ∈ l, (List.intercalate ['.'] ls).getLast? = some c
  | [l], _, hne => by
    have hl : l ≠ [] := fun h => hne (h ▸ mem_singleton_self l)
    exact ⟨l, mem_singleton_self l, l.getLast hl, getLast_mem hl, by simpa using getLast?_eq_some_getLast hl⟩
  | l :: l' :: ls, _, hne => by
    obtain ⟨m, hm, c, hc, hls⟩ := getLast_intercalate (cons_ne_nil l' ls) fun h => hne (mem_cons_of_mem l h)
    refine ⟨m, mem_cons_of_mem l hm, c, hc, ?_⟩
    rw [intercalate_cons_cons, getLast?_append, hls]
    rfl

theorem dropBoth_eq_self {p : Char → Bool} (h : ∀ c ∈ t, p c = false) : (t.dropWhile p).rdropWhile p = t := by
  have hd : ∀ {t : Text}, (∀ c ∈ t, p c = false) → t.dropWhile p = t := by
    intro t h
    cases t with
    | nil => rfl
    | cons c t => rw [dropWhile_cons_of_neg (by simp [h c mem_cons_self])]
  rw [hd h, rdropWhile, hd (fun c hc => h c (mem_reverse.1 hc)), reverse_reverse]

theorem trimDot_append (t : Text) : trimDot (t ++ ['.']) = t := by
  simp [trimDot]

theorem trimDot_of_getLast (h : t.getLast? ≠ some '.') : trimDot t = t := if_neg h

theorem nsec3Hash_dot (sha1 : List UInt8 → List UInt8) (p : Nsec3Params) (hb : ∀ c ∈ t, Text.isSpace c = false ∧ isBlank c = false)
    (hls : t.getLast? ≠ some '.') : nsec3Hash sha1 (t ++ ['.']) p = nsec3Hash sha1 t p := by
  have hd : ∀ c ∈ t ++ ['.'], Text.isSpace c = false ∧ isBlank c = false :=
    forall_mem_append.2 ⟨hb, forall_mem_singleton.2 (by decide)⟩
  have hw : toWireFormat (t ++ ['.']) = toWireFormat t := by
    unfold toWireFormat canonicalWireName Text.trimSpace
    rw [dropBoth_eq_self fun c hc => (hd c hc).1, dropBoth_eq_self fun c hc => (hb c hc).1, dropBoth_eq_self fun c
      hc => (hd c hc).2, dropBoth_eq_self fun c hc => (hb c hc).2, trimDot_append, trimDot_of_getLast hls]
  rw [nsec3Hash, nsec3Hash, hw]

theorem nsec3Hash_string (sha1 : List UInt8 → List UInt8) (p : Nsec3Params) (hread : readName n.string = some n)
    (hne : [] ∉ n) : nsec3Hash sha1 n.string p = nsec3Hash sha1 n.text p := by
  have hch := validChars_of_read hread
  by_cases hn : n = []
  · rw [hn]
    rfl
  · have htx : n.text = intercalate ['.'] n := by rw [Name.text, if_neg hn]
    rw [Name.string_eq hn]
    refine nsec3Hash_dot sha1 p (fun c hc => ?_) fun hls => ?_
    · rw [htx] at hc
      rcases mem_intercalate hc with rfl | ⟨l, hl, hc⟩
      · decide
      · have hrn := isValidLabelChar_range (hch l hl c hc)
        refine ⟨Text.isSpace_of_lt (by omega), ?_⟩
        simp only [isBlank, decide_eq_false_iff_not]
        rintro (rfl | rfl) <;> exact absurd hrn (by decide)
    · obtain ⟨l, hl, c, hc, hl'⟩ := getLast_intercalate hn hne
      rw [htx, hl', Option.some.injEq] at hls
      exact (isValidLabelChar_bound (hch l hl c hc)).2 hls

/-! ## The ring of the hashes -/

theorem textCompare_encode {a b : List UInt8} (h : a.length = b.length) :
    textCompare (Base32.encode a) (Base32.encode b) = octetCmp (octets a) (octets b) :=
  Base32.compareLex_encode_lower h

instance textLE_total : Std.Total textLE where
  total a b := by
    have hswap : textCompare b a = (textCompare a b).swap :=
      (Std.OrientedCmp.eq_swap : octetCmp (b.map Char.toNat) (a.map Char.toNat) = _)
    unfold textLE
    rw [hswap]
    cases textCompare a b <;> simp

instance textLE_trans : IsTrans Text textLE where
  trans a _ c hab hbc := (Std.TransCmp.isLE_trans hab hbc : (octetCmp (a.map Char.toNat) (c.map Char.toNat)).isLE)

instance : Std.Total hashLE := ⟨fun a b => textLE_total.total a.hashed b.hashed⟩
instance : IsTrans HashedName hashLE := ⟨fun _ _ _ hab hbc => textLE_trans.trans _ _ _ hab hbc⟩

section Ring

variable {sha1 : List UInt8 → List UInt8} {p : Nsec3Params} {nsec3OptOut : Bool} {zone : Text} {records : List RR}

theorem mem_sortedHashes {n : HashedName} (h : n ∈ sortedHashes sha1 p nsec3OptOut records) :
    ∃ rr ∈ records, nsec3Hash sha1 rr.name.string p = some n.hash := by
  rw [sortedHashes, mem_insertionSort, hashNames, mem_filterMap] at h
  obtain ⟨name, hnm, hn⟩ := h
  obtain ⟨hash, hhash, rfl⟩ := Option.map_eq_some_iff.1 hn
  rw [mem_dedup, mem_map] at hnm
  obtain ⟨rr, hrr, rfl⟩ := hnm
  exact ⟨rr, hrr, hhash⟩

theorem exists_sortedHash {rr : RR} (hrr : rr ∈ records) {hash : List UInt8} (hhash : nsec3Hash sha1 rr.name.string p = some hash) :
    ∃ n ∈ sortedHashes sha1 p nsec3OptOut records, n.hash = hash := by
  refine ⟨⟨rr.name.string, hash, nsec3OptOut && isUnsignedDelegation records rr.name.string⟩, ?_, rfl⟩
  rw [sortedHashes, mem_insertionSort, hashNames, mem_filterMap]
  refine ⟨rr.name.string, mem_dedup.2 (mem_map_of_mem (f := fun rr : RR => rr.name.string) hrr), ?_⟩
  rw [hhash]
  rfl

variable (hlen : ∀ x, (sha1 x).length = 20)
include hlen

theorem length_hash {n : HashedName} (h : n ∈ sortedHashes sha1 p nsec3OptOut records) : n.hash.length = 20 := by
  obtain ⟨rr, -, hhash⟩ := mem_sortedHashes h
  exact nsec3Hash_length hlen hhash

theorem sortedHashes_ascending : ((sortedHashes sha1 p nsec3OptOut records).map fun n => octets n.hash).Pairwise
    fun a b => (octetCmp a b).isLE := by
  rw [pairwise_map]
  refine (pairwise_insertionSort hashLE (hashNames sha1 p nsec3OptOut records)).imp_of_mem fun ha hb hab => ?_
  rw [← textCompare_encode ((length_hash hlen ha).trans (length_hash hlen hb).symm)]
  exact hab

end Ring

structure LinkRecord (p : Nsec3Params) (link : HashedName × HashedName) (rr : RR) : Prop where
  owner : ownerHash rr = hashText link.1.hash
  data : ∃ n, rr.nsec3? = some n ∧ n.params = p ∧ n.nextHashed = link.2.hash

def RecordsRead (sha1 : List UInt8 → List UInt8) (p : Nsec3Params) (nsec3OptOut : Bool) (zone : Text) (records : List RR) : Prop :=
  ∀ n ∈ sortedHashes sha1 p nsec3OptOut records, ∃ rest, readName (n.hashed ++ '.' :: zone) = some (n.hashed :: rest)

section Records

variable {sha1 : List UInt8 → List UInt8} {p : Nsec3Params} {nsec3OptOut : Bool} {zone : Text} {records : List RR}
  (hzone : RecordsRead sha1 p nsec3OptOut zone records)

theorem nsec3SharedParams_eq {rrs : List RR} (hne : rrs ≠ [])
    (h : ∀ rr ∈ rrs, ∃ n, rr.nsec3? = some n ∧ n.params = p) : nsec3SharedParams rrs = some p := by
  obtain ⟨first, rest, rfl⟩ := exists_cons_of_ne_nil hne
  obtain ⟨n0, hn0, hp0⟩ := h first mem_cons_self
  have hg : ∀ rr ∈ first :: rest, rr.nsec3? = some (rr.nsec3?.getD n0) ∧ (rr.nsec3?.getD n0).params = p := by
    intro rr hrr
    obtain ⟨n, hn, hp⟩ := h rr hrr
    rw [hn]
    exact ⟨rfl, hp⟩
  unfold nsec3SharedParams
  rw [Traverse.mapM_eq_some_map fun rr hrr => (hg rr hrr).1, map_cons]
  dsimp only
  rw [hn0, Option.getD_some, if_pos, hp0]
  rw [all_map, all_eq_true]
  intro rr hrr
  exact decide_eq_true ((hg rr (mem_cons_of_mem _ hrr)).2.trans hp0.symm)

include hzone

variable {link : HashedName × HashedName}

theorem nsec3Record_eq (hln : link ∈ links (sortedHashes sha1 p nsec3OptOut records)) :
    ∃ rr, nsec3Record p zone records link = some rr ∧ LinkRecord p link rr := by
  obtain ⟨rest, hrs⟩ := hzone link.1 (mem_of_mem_links hln).1
  rw [nsec3Record, hrs]
  exact ⟨_, rfl, rfl, _, rfl, rfl, rfl⟩

theorem exists_record (hln : link ∈ links (sortedHashes sha1 p nsec3OptOut records)) :
    ∃ rr ∈ generateNSEC3 sha1 p nsec3OptOut zone records, LinkRecord p link rr := by
  obtain ⟨rr, hrr, hrc⟩ := nsec3Record_eq hzone hln
  rw [generateNSEC3, zip_rotate_one]
  exact ⟨rr, mem_filterMap.2 ⟨link, hln, hrr⟩, hrc⟩

theorem linkRecord_of_mem {rr : RR} (h : rr ∈ generateNSEC3 sha1 p nsec3OptOut zone records) :
    ∃ link ∈ links (sortedHashes sha1 p nsec3OptOut records), LinkRecord p link rr := by
  rw [generateNSEC3, zip_rotate_one] at h
  obtain ⟨link, hln, hrr⟩ := mem_filterMap.1 h
  obtain ⟨rr', hrr', hrc⟩ := nsec3Record_eq hzone hln
  obtain rfl := Option.some.inj (hrr.symm.trans hrr')
  exact ⟨link, hln, hrc⟩

theorem exists_record_of_mem {n : HashedName} (hn : n ∈ sortedHashes sha1 p nsec3OptOut records) :
    ∃ rr ∈ generateNSEC3 sha1 p nsec3OptOut zone records, ownerHash rr = hashText n.hash := by
  obtain ⟨next, hln⟩ := exists_link_of_mem hn
  obtain ⟨rr, hrr, hrc⟩ := exists_record hzone hln
  exact ⟨rr, hrr, hrc.owner⟩

theorem sharedParams_generateNSEC3 (hne : sortedHashes sha1 p nsec3OptOut records ≠ []) :
    nsec3SharedParams (generateNSEC3 sha1 p nsec3OptOut zone records) = some p := by
  have hrc : generateNSEC3 sha1 p nsec3OptOut zone records ≠ [] := by
    obtain ⟨m, rest, hm⟩ := exists_cons_of_ne_nil hne
    obtain ⟨rr, hrr, -⟩ := exists_record_of_mem hzone (hm ▸ mem_cons_self : m ∈ _)
    exact ne_nil_of_mem hrr
  refine nsec3SharedParams_eq hrc fun rr hrr => ?_
  obtain ⟨_, -, hre⟩ := linkRecord_of_mem hzone hrr
  obtain ⟨n, hn, hp, -⟩ := hre.data
  exact ⟨n, hn, hp⟩

end Records

def involvedNames (records : List RR) (q : Name) : List Name :=
  records.map RR.name ++ q.tails ++ q.tails.map (['*'] :: ·)

def IsOwner (records : List RR) (n : Name) : Prop := ∃ rr ∈ records, rr.name.canonical = n.canonical

/-- The longest owner name above `q`. -/
def ClosestOwner (records : List RR) (q ce : Name) : Prop :=
  ce ∈ q.tails.tail ∧ IsOwner records ce ∧ ∀ a ∈ q.tails.tail, IsOwner records a → a <:+ ce

/-- The hash is defined on the names involved and tells them apart. -/
structure HashSeparates (sha1 : List UInt8 → List UInt8) (p : Nsec3Params) (names : List Name) : Prop where
  length : ∀ x, (sha1 x).length = 20
  defined : ∀ n ∈ names, (nsec3Hash sha1 n.text p).isSome
  inj : ∀ n ∈ names, ∀ m ∈ names, nsec3Hash sha1 n.text p = nsec3Hash sha1 m.text p → n.canonical = m.canonical

theorem suffix_of_find_tails {P : Name → Bool} {x : Name} : ∀ {l : Name}, l.tails.find? P = some x →
    ∀ y ∈ l.tails, P y = true → y <:+ x
  | [], _, y, hy, _ => by
    rw [suffix_nil.1 ((mem_tails _ _).1 hy)]
    exact nil_suffix
  | a :: l, h, y, hy, hP => by
    rw [tails_cons, mem_cons] at hy
    rw [tails_cons, find?_cons] at h
    cases ha : P (a :: l) with
    | true =>
      rw [ha] at h
      cases h
      rcases hy with rfl | hy
      · exact suffix_rfl
      · exact ((mem_tails _ _).1 hy).trans (suffix_cons a l)
    | false =>
      rw [ha] at h
      rcases hy with rfl | hy
      · rw [hP] at ha
        cases ha
      · exact suffix_of_find_tails h y hy hP

section Denial

variable {sha1 : List UInt8 → List UInt8} {p : Nsec3Params} (nsec3OptOut : Bool) {zone : Text} {records : List RR} {q : Name}
  (hread : ∀ rr ∈ records, readName rr.name.string = some rr.name ∧ [] ∉ rr.name)
  (hhash : HashSeparates sha1 p (involvedNames records q))
include hread hhash

theorem isOwner_iff {n : Name} (hn : n ∈ involvedNames records q) {hash : List UInt8} (h : nsec3Hash sha1 n.text p = some hash) :
    IsOwner records n ↔ ∃ m ∈ sortedHashes sha1 p nsec3OptOut records, m.hash = hash := by
  constructor
  · rintro ⟨rr, hrr, hcn⟩
    have hsm : nsec3Hash sha1 rr.name.string p = some hash := by
      rw [nsec3Hash_string sha1 p (hread rr hrr).1 (hread rr hrr).2, ← nsec3Hash_canonical, hcn, nsec3Hash_canonical, h]
    exact exists_sortedHash hrr hsm
  · rintro ⟨m, hm, rfl⟩
    obtain ⟨rr, hrr, hm⟩ := mem_sortedHashes hm
    rw [nsec3Hash_string sha1 p (hread rr hrr).1 (hread rr hrr).2] at hm
    refine ⟨rr, hrr, hhash.inj _ ?_ _ hn (hm.trans h.symm)⟩
    exact mem_append_left _ (mem_append_left _ (mem_map_of_mem hrr))

variable (hzone : RecordsRead sha1 p nsec3OptOut zone records)
include hzone

theorem covered_of_not_isOwner {n : Name} (hn : n ∈ involvedNames records q) (hot : ¬ IsOwner records n)
    (hne : sortedHashes sha1 p nsec3OptOut records ≠ []) :
    nsec3NameCovered sha1 n p (generateNSEC3 sha1 p nsec3OptOut zone records) = true := by
  obtain ⟨hash, h⟩ := Option.isSome_iff_exists.1 (hhash.defined n hn)
  have hlen := hhash.length
  obtain ⟨l, hl, hin⟩ := exists_inGap (x := octets hash) (by simpa using hne) (sortedHashes_ascending hlen) fun y hy heq => by
    obtain ⟨m, hm, rfl⟩ := mem_map.1 hy
    exact hot ((isOwner_iff nsec3OptOut hread hhash hn h).2
      ⟨m, hm, (octets_inj (Std.LawfulEqCmp.eq_of_compare heq)).symm⟩)
  rw [links_map] at hl
  obtain ⟨link, hln, rfl⟩ := mem_map.1 hl
  obtain ⟨rr, hrr, hrc⟩ := exists_record hzone hln
  obtain ⟨n3, hn3, -, hnx⟩ := hrc.data
  obtain ⟨h1, h2⟩ := mem_of_mem_links hln
  have hh := nsec3Hash_length hlen h
  unfold nsec3NameCovered
  rw [h]
  refine any_eq_true.2 ⟨rr, hrr, ?_⟩
  rw [hn3, Option.any_some, hrc.owner, hnx, nsec3HashInRange_eq (hh.trans (length_hash hlen h1).symm)
    (hh.trans (length_hash hlen h2).symm)]
  exact hin

variable {a : Name}

theorem found_iff (ha : a ∈ q.tails) : ((nsec3Hash sha1 a.text p).any fun h =>
    (generateNSEC3 sha1 p nsec3OptOut zone records).any fun rr => decide (ownerHash rr = hashText h)) = true ↔
      IsOwner records a := by
  have hmem : a ∈ involvedNames records q := mem_append_left _ (mem_append_right _ ha)
  obtain ⟨hash, h⟩ := Option.isSome_iff_exists.1 (hhash.defined a hmem)
  rw [h, Option.any_some, isOwner_iff nsec3OptOut hread hhash hmem h, any_eq_true]
  constructor
  · rintro ⟨rr, hrr, heq⟩
    obtain ⟨link, hln, hrc⟩ := linkRecord_of_mem hzone hrr
    have h1 := (mem_of_mem_links hln).1
    refine ⟨link.1, h1, hashText_inj ?_ (hrc.owner.symm.trans (of_decide_eq_true heq))⟩
    exact (length_hash hhash.length h1).trans (nsec3Hash_length hhash.length h).symm
  · rintro ⟨m, hm, rfl⟩
    obtain ⟨rr, hrr, how⟩ := exists_record_of_mem hzone hm
    exact ⟨rr, hrr, decide_eq_true how⟩

theorem closestEncloser_eq (ha : a ∈ q.tails.tail) (how : IsOwner records a) :
    ∃ ce, closestEncloser sha1 p (generateNSEC3 sha1 p nsec3OptOut zone records) q = some ce ∧ ClosestOwner records q ce := by
  have htl : ∀ {b : Name}, b ∈ q.tails.tail → b ∈ q.tails := mem_of_mem_tail
  cases hce : closestEncloser sha1 p (generateNSEC3 sha1 p nsec3OptOut zone records) q with
  | none => exact absurd ((found_iff nsec3OptOut hread hhash hzone (htl ha)).2 how) (find?_eq_none.1 hce a ha)
  | some ce =>
    have hmem := mem_of_find?_eq_some hce
    have hfr := find?_some hce
    refine ⟨ce, rfl, hmem, (found_iff nsec3OptOut hread hhash hzone (htl hmem)).1 hfr, fun b hb hbo => ?_⟩
    have hfn := (found_iff nsec3OptOut hread hhash hzone (htl hb)).2 hbo
    cases q with
    | nil => cases hb
    | cons l q =>
      rw [closestEncloser, tails_cons, tail_cons] at hce
      rw [tails_cons, tail_cons] at hb
      exact suffix_of_find_tails hce b hb hfn

end Denial

theorem mem_tails_tail {a q : Name} : a ∈ q.tails.tail ↔ a <:+ q ∧ a.length < q.length := by
  cases q with
  | nil =>
    constructor
    · exact nofun
    · exact nofun
  | cons l q =>
    rw [tails_cons, tail_cons, mem_tails]
    constructor
    · exact fun h => ⟨h.trans (suffix_cons l q), Nat.lt_succ_of_le h.length_le⟩
    · rintro ⟨h, hlt⟩
      exact suffix_of_suffix_length_le h (suffix_cons l q) (Nat.le_of_lt_succ hlt)

theorem exists_owner_above {records : List RR} {apex q : Name} (hap : IsOwner records apex)
    (hin : apex.canonical <:+ q.canonical) (hq : ¬ IsOwner records q) : ∃ a ∈ q.tails.tail, IsOwner records a := by
  have hd : Name.canonical (q.drop (q.length - apex.length)) = apex.canonical := by
    have heq := suffix_iff_eq_drop.1 hin
    rw [length_canonical, length_canonical] at heq
    rw [Name.canonical, map_drop]
    exact heq.symm
  have how : IsOwner records (q.drop (q.length - apex.length)) := by
    obtain ⟨rr, hrr, h⟩ := hap
    exact ⟨rr, hrr, h.trans hd.symm⟩
  have hlen : apex.length ≤ q.length := by simpa [length_canonical] using hin.length_le
  refine ⟨_, mem_tails_tail.2 ⟨drop_suffix _ _, ?_⟩, how⟩
  rw [length_drop]
  by_contra hge
  have hsm : q.length - apex.length = 0 := by omega
  rw [hsm, drop_zero] at how
  exact hq how

theorem ClosestOwner.nextCloser {records : List RR} {q ce : Name} (h : ClosestOwner records q ce) (hq : ¬ IsOwner records q) :
    ¬ IsOwner records (q.drop (q.length - ce.length - 1)) := by
  obtain ⟨hmem, -, hd⟩ := h
  obtain ⟨hsf, hlt⟩ := mem_tails_tail.1 hmem
  obtain ⟨hnS, hnL, -⟩ := suffix_nextCloser hsf hlt
  intro hown
  by_cases hall : (q.drop (q.length - ce.length - 1)).length < q.length
  · have := (hd _ (mem_tails_tail.2 ⟨hnS, hall⟩) hown).length_le
    omega
  · rw [hnS.eq_of_length_le (by omega)] at hown
    exact hq hown

instance (records : List RR) (n : Name) : Decidable (IsOwner records n) := List.decidableBEx _ _

def addressesAt (names : List Name) : List RR := names.map fun n => ⟨n, 1, 1, .other []⟩

theorem padded_length (x : List UInt8) : (padded x).length = 20 := by
  simp [padded]

/-- `b.`, `*.b.` and `x.c.b.`; the empty non-terminal `c.b.` is between them. -/
def wildB : List RR := addressesAt [[['b']], [['*'], ['b']], [['x'], ['c'], ['b']]]

def chainWildB : List RR := generateNSEC3 padded plainParams false ['b', '.'] wildB

theorem nsec3NameCovered_mono {sha1 : List UInt8 → List UInt8} {p : Nsec3Params} {rrs rrs' : List RR}
    (hsb : ∀ rr ∈ rrs, rr ∈ rrs') (h : nsec3NameCovered sha1 n p rrs = true) : nsec3NameCovered sha1 n p rrs' = true := by
  unfold nsec3NameCovered at h ⊢
  split at h
  · cases h
  next =>
    obtain ⟨rr, hrr, hin⟩ := any_eq_true.1 h
    exact any_eq_true.2 ⟨rr, hsb rr hrr, hin⟩

end NothingDNS.Dnssec
