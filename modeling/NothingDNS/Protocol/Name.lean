import NothingDNS.Lib.BigEndian
/-!
# Names on the wire (`internal/protocol/labels.go:353-558`)

A name is its labels, which is what the wire form `Name.wire` holds; `Valid` is what
`validateWireName` asks of it. The buffer is large enough and is written from left to
right, so it is the list of the octets written so far and the offset is its length.

An entry of the compression map also counts the pointers a reader follows from its
offset. `UnpackName` follows five: names that nest deeper are not read back
(`seventh_nested_name_unreadable`), all others are (`unpackName_packNames`).
-/

namespace NothingDNS.Protocol

open List

abbrev WireName := List (List UInt8)

def maxLabelLength : Nat := 63
def maxNameLength : Nat := 255
def maxLabels : Nat := 127
def maxPointerDepth : Nat := 5
def pointerOffsetMask : Nat := 0x3FFF

def labelOctets (l : List UInt8) : List UInt8 := UInt8.ofNat l.length :: l

def nameOctets (n : WireName) : List UInt8 := n.flatMap labelOctets

def ValidLabel (l : List UInt8) : Prop := 1 ≤ l.length ∧ l.length ≤ maxLabelLength

def Valid (n : WireName) : Prop := (∀ l ∈ n, ValidLabel l) ∧ (nameOctets n).length + 1 ≤ maxNameLength

instance (l : List UInt8) : Decidable (ValidLabel l) := inferInstanceAs (Decidable (_ ∧ _))

instance (n : WireName) : Decidable (Valid n) :=
  have : Decidable (∀ l ∈ n, ValidLabel l) := List.decidableBAll _ _
  inferInstanceAs (Decidable (_ ∧ _))

def toLower (b : UInt8) : UInt8 := if 65 ≤ b.toNat ∧ b.toNat ≤ 90 then UInt8.ofNat (b.toNat + 32) else b

def lowerName (n : WireName) : WireName := n.map (List.map toLower)

def suffixKey (n : WireName) : List UInt8 := (nameOctets n).map toLower

structure Target where
  key : List UInt8
  offset : Nat
  hops : Nat
deriving DecidableEq

structure Packer where
  buf : List UInt8
  compression : List Target := []
deriving DecidableEq

def Packer.lookup (s : Packer) (key : List UInt8) : Option Target := s.compression.find? fun t => t.key = key

def Packer.register (s : Packer) (key : List UInt8) (hops : Nat) : Packer :=
  match s.lookup key with
  | some _ => s
  | none => { s with compression := ⟨key, s.buf.length, hops⟩ :: s.compression }

def Packer.write (s : Packer) (octets : List UInt8) : Packer := { s with buf := s.buf ++ octets }

/-- The number of labels in front of the longest suffix a pointer can reach. -/
def findSuffix (s : Packer) : WireName → Option (Nat × Target)
  | [] => none
  | l :: ls =>
    match (s.lookup (suffixKey (l :: ls))).filter fun t => t.offset < pointerOffsetMask with
    | some t => some (0, t)
    | none => (findSuffix s ls).map fun (i, t) => (i + 1, t)

/-- Writes the first `k` labels, each registered as the start of its suffix. -/
def emit (hops : Nat) : Nat → WireName → Packer → Packer
  | k + 1, l :: ls, s => emit hops k ls ((s.register (suffixKey (l :: ls)) hops).write (labelOctets l))
  | _, _, s => s

/-- The pointers a reader of the packed name will follow. -/
def nameHops (s : Packer) (n : WireName) : Nat :=
  match findSuffix s n with
  | some (_, t) => t.hops + 1
  | none => 0

/-- From `labels.go:355-461`. -/
def packName (n : WireName) (s : Packer) : Option Packer :=
  if Valid n then
    match findSuffix s n with
    | some (i, t) => some ((emit (t.hops + 1) i n s).write (BigEndian.encode 2 (0xC000 + t.offset)))
    | none => some ((emit 0 n.length n s).write [0])
  else none

def packNameLower (n : WireName) : Option (List UInt8) :=
  if Valid n then some ((nameOctets n ++ [0]).map toLower) else none

inductive NameError where
  | invalidOffset
  | bufferTooSmall
  | invalidPointer
  | pointerTooDeep
  | labelTooLong
  | nameTooLong
  | fuel
deriving DecidableEq

/-- The loop of `UnpackName`: `ptrDepth` pointers were followed, the first of which ends
at `ptrEnd`, and `wire` was read. -/
def unpackLoop (buf : List UInt8) : Nat → Nat → Nat → Option Nat → WireName → Except NameError (WireName × Nat)
  | 0, _, _, _, _ => .error .fuel
  | fuel + 1, offset, ptrDepth, ptrEnd, wire =>
    match buf.drop offset with
    | [] => .error .bufferTooSmall
    | b :: rest =>
      if 0xC0 ≤ b.toNat then
        match rest with
        | [] => .error .bufferTooSmall
        | b' :: _ =>
          let pointer := (b.toNat * 256 + b'.toNat) % 0x4000
          if buf.length ≤ pointer ∨ offset ≤ pointer then .error .invalidPointer
          else if maxPointerDepth ≤ ptrDepth then .error .pointerTooDeep
          else unpackLoop buf fuel pointer (ptrDepth + 1) (some (ptrEnd.getD (offset + 2))) wire
      else if b.toNat = 0 then .ok (wire, ptrEnd.getD (offset + 1))
      else if maxLabelLength < b.toNat then .error .labelTooLong
      else if rest.length < b.toNat then .error .bufferTooSmall
      else if maxNameLength < (nameOctets wire).length + 1 + b.toNat + 1 then .error .nameTooLong
      else unpackLoop buf fuel (offset + 1 + b.toNat) ptrDepth ptrEnd (wire ++ [rest.take b.toNat])

/-- A name has at most 127 labels, and five pointers are followed. -/
def unpackFuel : Nat := 512

/-- From `labels.go:486-558`. -/
def unpackName (buf : List UInt8) (offset : Nat) : Except NameError (WireName × Nat) :=
  if buf.length ≤ offset then .error .invalidOffset
  else match unpackLoop buf unpackFuel offset 0 none [] with
    | .ok (wire, last) => .ok (wire, last - offset)
    | .error e => .error e

/-! ## Octets of names -/

@[simp] theorem nameOctets_nil : nameOctets [] = [] := rfl

@[simp] theorem nameOctets_cons (l : List UInt8) (ls : WireName) :
    nameOctets (l :: ls) = labelOctets l ++ nameOctets ls := by simp [nameOctets]

@[simp] theorem nameOctets_append (m n : WireName) : nameOctets (m ++ n) = nameOctets m ++ nameOctets n := by
  simp [nameOctets]

@[simp] theorem length_labelOctets (l : List UInt8) : (labelOctets l).length = l.length + 1 := rfl

theorem suffixKey_append (m n : WireName) : suffixKey (m ++ n) = suffixKey m ++ suffixKey n := by
  simp [suffixKey]

theorem length_le_nameOctets (n : WireName) : n.length ≤ (nameOctets n).length := by
  induction n with
  | nil => simp
  | cons l ls ih =>
    rw [nameOctets_cons, length_append, length_labelOctets, length_cons]
    omega

theorem toLower_length {l : List UInt8} (h : ValidLabel l) : (toLower (UInt8.ofNat l.length)).toNat = l.length := by
  have hle : l.length ≤ 63 := h.2
  have hnt : (UInt8.ofNat l.length).toNat = l.length := by simp; omega
  rw [toLower, if_neg (by omega), hnt]

theorem lowerName_eq_of_suffixKey : ∀ {m n : WireName}, (∀ l ∈ m, ValidLabel l) → (∀ l ∈ n, ValidLabel l) →
    suffixKey m = suffixKey n → lowerName m = lowerName n
  | [], [], _, _, _ => rfl
  | [], l :: ls, _, _, h => by simp [suffixKey, labelOctets] at h
  | l :: ls, [], _, _, h => by simp [suffixKey, labelOctets] at h
  | l :: ls, l' :: ls', hm, hn, h => by
    have hl := toLower_length (hm l mem_cons_self)
    have hl' := toLower_length (hn l' mem_cons_self)
    simp only [suffixKey, nameOctets_cons, labelOctets, cons_append, map_cons, map_append, cons.injEq] at h
    obtain ⟨hfr, hrs⟩ := h
    have hlen : l.length = l'.length := by rw [← hl, ← hl', hfr]
    obtain ⟨hlb, hkey⟩ := append_inj hrs (by simpa using hlen)
    have ih := lowerName_eq_of_suffixKey (fun x hx => hm x (mem_cons_of_mem _ hx))
      (fun x hx => hn x (mem_cons_of_mem _ hx)) hkey
    rw [lowerName, map_cons, hlb]
    exact congrArg _ ih

end NothingDNS.Protocol
