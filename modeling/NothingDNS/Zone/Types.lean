import NothingDNS.Lib.DottedName
import Mathlib.Data.List.AList
/-!
# Zones (`internal/zone/zone.go`)
-/

namespace NothingDNS

open Text List

structure Record where
  name : Text
  ttl : UInt32
  recordClass : Text
  type : Text
  rdata : Text
deriving DecidableEq

structure SOARecord where
  name : Text
  ttl : UInt32
  mname : Text
  rname : Text
  serial : UInt32
  refresh : UInt32
  retry : UInt32
  expire : UInt32
  minimum : UInt32
deriving DecidableEq

structure NSRecord where
  name : Text
  ttl : UInt32
  nsdname : Text
deriving DecidableEq

/-- `map[string][]Record`. -/
abbrev RecordMap := AList fun _ : Text => List Record

structure Zone where
  origin : Text
  defaultTTL : UInt32
  soa : Option SOARecord
  records : RecordMap
  ns : List NSRecord

/-- `z.Records[name] = append(z.Records[name], rr)`. -/
def appendRecord (m : RecordMap) (name : Text) (r : Record) : RecordMap :=
  m.insert name ((m.lookup name).getD [] ++ [r])

def recordsOf (m : RecordMap) (name : Text) : List Record := (m.lookup name).getD []

theorem recordsOf_appendRecord (m : RecordMap) (owner name : Text) (r : Record) :
    recordsOf (appendRecord m owner r) name = if owner = name then recordsOf m name ++ [r] else recordsOf m name := by
  unfold recordsOf appendRecord
  split
  next h => rw [h, AList.lookup_insert]; rfl
  next h => rw [AList.lookup_insert_ne fun he => h he.symm]

def canonicalize (name : Text) : Text :=
  let name := Text.trimSpace name
  if name = [] then ['.'] else if ['.'] <:+ name then name else name ++ ['.']

def nameInZone (name origin : Text) : Bool :=
  let name := Text.lower (canonicalize name)
  let origin := Text.lower (canonicalize origin)
  if origin = ['.'] then true else name = origin ∨ ('.' :: origin) <:+ name

/-- From `zone.go:197-210`. -/
def makeAbsolute (name origin : Text) : Text :=
  let name := Text.trimSpace name
  let origin := canonicalize origin
  if name = [] ∨ name = ['@'] then origin
  else if ['.'] <:+ name then name
  else if origin = ['.'] then name ++ ['.']
  else name ++ '.' :: origin

namespace Zone

/-- `z.Records[name]`; a missing key reads as the nil slice. -/
def recordsAt (z : Zone) (name : Text) : List Record := (z.records.lookup name).getD []

theorem recordsAt_of_lookup {z : Zone} {name : Text} {rs : List Record} (h : z.records.lookup name = some rs) :
    z.recordsAt name = rs := by
  rw [recordsAt, h]
  rfl

def Owner (z : Zone) (name : Text) : Prop := z.recordsAt name ≠ []

instance (z : Zone) (name : Text) : Decidable (z.Owner name) := inferInstanceAs (Decidable (_ ≠ _))

theorem Owner.mem_keys {z : Zone} {name : Text} (h : z.Owner name) : name ∈ z.records.keys := by
  by_contra hno
  refine h ?_
  rw [recordsAt, AList.lookup_eq_none.2 hno]
  rfl

end Zone

/-! ## Names as the lookups use them -/

/-- Every lookup starts with `strings.ToLower(canonicalize(name))`. -/
def normalize (name : Text) : Text := Text.lower (canonicalize name)

def Normal (name : Text) : Prop := normalize name = name

instance (name : Text) : Decidable (Normal name) := inferInstanceAs (Decidable (_ = _))

theorem canonicalize_ne_nil (name : Text) : canonicalize name ≠ [] := by
  unfold canonicalize
  dsimp only
  split
  · simp
  split
  · assumption
  · simp

theorem dot_suffix_canonicalize (name : Text) : ['.'] <:+ canonicalize name := by
  unfold canonicalize
  dsimp only
  split
  · exact suffix_rfl
  split
  · assumption
  · exact suffix_append _ _

variable {name : Text}

theorem head_canonicalize {c : Char} (h : (canonicalize name).head? = some c) : isSpace c = false := by
  unfold canonicalize at h
  dsimp only at h
  split at h
  · cases h
    decide
  split at h
  · exact head_trimSpace h
  next hne _ =>
    rw [List.head?_append_of_ne_nil _ hne] at h
    exact head_trimSpace h

theorem canonicalize_eq_self (hd : ['.'] <:+ name)
    (hh : ∀ c, name.head? = some c → isSpace c = false) : canonicalize name = name := by
  obtain ⟨pre, rfl⟩ := hd
  have htr : trimSpace (pre ++ ['.']) = pre ++ ['.'] := by
    refine trimSpace_eq_self hh fun c hc => ?_
    rw [List.getLast?_append, List.getLast?_singleton, Option.some_or] at hc
    cases hc
    decide
  unfold canonicalize
  rw [htr, if_neg (by simp), if_pos (suffix_append _ _)]

theorem canonicalize_lower_canonicalize (name : Text) :
    canonicalize (lower (canonicalize name)) = lower (canonicalize name) := by
  apply canonicalize_eq_self
  · obtain ⟨pre, hpre⟩ := dot_suffix_canonicalize name
    rw [← hpre, lower_append]
    exact suffix_append _ _
  · intro c hc
    rw [lower, List.head?_map] at hc
    obtain ⟨d, hd, rfl⟩ := Option.map_eq_some_iff.1 hc
    rw [isSpace_toLower]
    exact head_canonicalize hd

theorem normal_normalize (name : Text) : Normal (normalize name) := by
  rw [Normal, normalize, normalize, canonicalize_lower_canonicalize, lower_lower]

theorem Normal.ne_nil (h : Normal name) : name ≠ [] := by
  rw [← h]
  exact mt lower_eq_nil.1 (canonicalize_ne_nil name)

variable {origin : Text}

theorem normal_lower (ho : canonicalize origin = origin) : Normal origin.lower := by
  have := normal_normalize origin
  rwa [normalize, ho] at this

theorem nameInZone_normalize (ho : canonicalize origin = origin) :
    nameInZone name origin = nameInZone (normalize name) origin.lower := by
  have hn : lower (canonicalize (normalize name)) = normalize name := normal_normalize name
  have ho' : lower (canonicalize origin.lower) = origin.lower := normal_lower ho
  simp only [nameInZone, hn, ho', ho]
  rfl

theorem nameInZone_iff (hn : Normal name) (ho : Normal origin)
    (hrt : origin ≠ ['.']) : nameInZone name origin = true ↔ name = origin ∨ Text.Under origin name := by
  have hn' : lower (canonicalize name) = name := hn
  have ho' : lower (canonicalize origin) = origin := ho
  simp only [nameInZone, hn', ho', if_neg hrt, decide_eq_true_eq, Text.Under, ne_eq, ho.ne_nil,
    not_false_eq_true, true_and]

end NothingDNS
