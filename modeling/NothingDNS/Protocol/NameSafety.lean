import NothingDNS.Protocol.NameText
/-!
# Name decoding on any octets (`labels.go:484-558`, `:680-729`)

`walkName` is `unpackName` with its reads written out: a read outside the buffer is `none`, and the pointers
that are followed are returned beside the result, each with the offset it was read at.
-/

namespace NothingDNS.Protocol

open List

abbrev Jumps := List (Nat × Nat)

def readSlice (buf : List UInt8) (offset len : Nat) : Option (List UInt8) :=
  if offset + len ≤ buf.length then some ((buf.drop offset).take len) else none

def walkLoop (buf : List UInt8) :
    Nat → Nat → Nat → Option Nat → WireName → Option (Except NameError (WireName × Nat) × Jumps)
  | 0, _, _, _, _ => some (.error .fuel, [])
  | fuel + 1, offset, ptrDepth, ptrEnd, wire =>
    if buf.length ≤ offset then some (.error .bufferTooSmall, [])
    else do
      let b ← buf[offset]?
      if 0xC0 ≤ b.toNat then
        if buf.length < offset + 2 then some (.error .bufferTooSmall, [])
        else
          let b' ← buf[offset + 1]?
          let pointer := (b.toNat * 256 + b'.toNat) % 0x4000
          if buf.length ≤ pointer ∨ offset ≤ pointer then some (.error .invalidPointer, [])
          else if maxPointerDepth ≤ ptrDepth then some (.error .pointerTooDeep, [])
          else
            let (r, jumps) ← walkLoop buf fuel pointer (ptrDepth + 1) (some (ptrEnd.getD (offset + 2))) wire
            some (r, (offset, pointer) :: jumps)
      else if b.toNat = 0 then some (.ok (wire, ptrEnd.getD (offset + 1)), [])
      else if maxLabelLength < b.toNat then some (.error .labelTooLong, [])
      else if buf.length < offset + 1 + b.toNat then some (.error .bufferTooSmall, [])
      else if maxNameLength < (nameOctets wire).length + 1 + b.toNat + 1 then some (.error .nameTooLong, [])
      else
        let label ← readSlice buf (offset + 1) b.toNat
        walkLoop buf fuel (offset + 1 + b.toNat) ptrDepth ptrEnd (wire ++ [label])

/-- Offsets are integers in the source. -/
def walkName (buf : List UInt8) (offset : Int) : Option (Except NameError (WireName × Nat) × Jumps) :=
  if offset < 0 ∨ buf.length ≤ offset then some (.error .invalidOffset, [])
  else do
    let (r, jumps) ← walkLoop buf unpackFuel offset.toNat 0 none []
    some (r.map fun (wire, last) => (wire, last - offset.toNat), jumps)

/-- The loop of `WireNameLength`, with the offset the name ends at. -/
def lengthLoop (buf : List UInt8) : Nat → Nat → Nat → Nat → Option (Except NameError Nat)
  | 0, _, _, _ => some (.error .fuel)
  | fuel + 1, offset, labelCount, nameLen =>
    if buf.length ≤ offset then some (.error .bufferTooSmall)
    else do
      let b ← buf[offset]?
      if 0xC0 ≤ b.toNat then
        if buf.length < offset + 2 then some (.error .bufferTooSmall) else some (.ok (offset + 2))
      else if b.toNat = 0 then some (.ok (offset + 1))
      else if maxLabelLength < b.toNat then some (.error .labelTooLong)
      else if buf.length < offset + 1 + b.toNat then some (.error .bufferTooSmall)
      else if maxLabels < labelCount + 1 then some (.error .nameTooLong)
      else if maxNameLength < nameLen + 1 + b.toNat then some (.error .nameTooLong)
      else lengthLoop buf fuel (offset + 1 + b.toNat) (labelCount + 1) (nameLen + 1 + b.toNat)

/-- One round a label, and one more. -/
def wireNameLength (buf : List UInt8) (offset : Int) : Option (Except NameError Nat) :=
  if offset < 0 ∨ buf.length ≤ offset then some (.error .invalidOffset)
  else (lengthLoop buf (maxLabels + 1) offset.toNat 0 1).map (·.map (· - offset.toNat))

variable {buf : List UInt8} {fuel offset ptrDepth labelCount nameLen last : Nat} {ptrEnd : Option Nat} {wire n : WireName}

/-- A round follows one of five pointers or adds a label to a name of at most 255 octets. -/
theorem walkLoop_eq (h : maxPointerDepth - ptrDepth + (maxNameLength - (nameOctets wire).length) < fuel) :
    ∃ jumps, walkLoop buf fuel offset ptrDepth ptrEnd wire =
        some (unpackLoop buf fuel offset ptrDepth ptrEnd wire, jumps) ∧
      (∀ j ∈ jumps, j.2 < j.1) ∧ unpackLoop buf fuel offset ptrDepth ptrEnd wire ≠ .error .fuel := by
  induction fuel generalizing offset ptrDepth ptrEnd wire with
  | zero => omega
  | succ fuel ih =>
    rw [walkLoop, unpackLoop]
    by_cases hen : buf.length ≤ offset
    · rw [if_pos hen, drop_eq_nil_of_le hen]
      exact ⟨[], rfl, by simp, by simp⟩
    have hlt := not_le.1 hen
    rw [if_neg hen, drop_eq_getElem_cons hlt, getElem?_eq_getElem hlt]
    dsimp only [Option.bind_eq_bind, Option.bind_some]
    generalize hb : buf[offset] = b
    by_cases hp : 0xC0 ≤ b.toNat
    · simp only [if_pos hp]
      by_cases h2 : buf.length < offset + 2
      · rw [if_pos h2, drop_eq_nil_of_le (by omega)]
        exact ⟨[], rfl, by simp, by simp⟩
      have hl2 : offset + 1 < buf.length := by omega
      rw [if_neg h2, drop_eq_getElem_cons hl2, getElem?_eq_getElem hl2]
      dsimp only [Option.bind_some]
      generalize (b.toNat * 256 + buf[offset + 1].toNat) % 0x4000 = pointer
      split_ifs with hbd hd
      · exact ⟨[], rfl, by simp, by simp⟩
      · exact ⟨[], rfl, by simp, by simp⟩
      · obtain ⟨jumps, hw, hdc, hfl⟩ :=
          @ih pointer (ptrDepth + 1) (some (ptrEnd.getD (offset + 2))) wire (by omega)
        rw [hw]
        exact ⟨_, rfl, forall_mem_cons.2 ⟨by omega, hdc⟩, hfl⟩
    have hrm : buf.length - (offset + 1) < b.toNat ↔ buf.length < offset + 1 + b.toNat := by omega
    simp only [if_neg hp, length_drop, hrm]
    split_ifs with hzr hlb hsh hnm
    iterate 4 exact ⟨[], rfl, by simp, by simp⟩
    rw [readSlice, if_pos (by omega)]
    exact ih (by simp; omega)

/-- The first pointer fixes the end of the name; before it both loops read the same labels. -/
theorem unpackLoop_length (hw : Valid wire) (h : unpackLoop buf fuel offset ptrDepth ptrEnd wire = .ok (n, last)) :
    (∀ e ∈ ptrEnd, last = e) ∧ (ptrEnd = none →
      lengthLoop buf (maxLabels + 1 - wire.length) offset wire.length ((nameOctets wire).length + 1) =
        some (.ok last)) := by
  induction fuel generalizing offset ptrDepth ptrEnd wire with
  | zero => cases h
  | succ fuel ih =>
    have hle := hw.length_le
    rw [Nat.sub_add_comm hle, lengthLoop]
    rw [unpackLoop] at h
    by_cases hen : buf.length ≤ offset
    · rw [drop_eq_nil_of_le hen] at h
      cases h
    have hlt := not_le.1 hen
    rw [drop_eq_getElem_cons hlt] at h
    rw [if_neg hen, getElem?_eq_getElem hlt]
    generalize buf[offset] = b at h ⊢
    dsimp only [Option.bind_eq_bind, Option.bind_some] at h ⊢
    by_cases hp : 0xC0 ≤ b.toNat
    · simp only [if_pos hp] at h ⊢
      by_cases h2 : buf.length < offset + 2
      · rw [drop_eq_nil_of_le (by omega)] at h
        cases h
      rw [drop_eq_getElem_cons (by omega)] at h
      dsimp only at h
      split_ifs at h
      have hls := (ih hw h).1 _ rfl
      cases ptrEnd with
      | none => exact ⟨by simp, fun _ => by rw [if_neg h2, hls]; rfl⟩
      | some e => exact ⟨fun _ he => by cases he; exact hls, by simp⟩
    have hrm : buf.length - (offset + 1) < b.toNat ↔ buf.length < offset + 1 + b.toNat := by omega
    simp only [if_neg hp] at h ⊢
    by_cases hzr : b.toNat = 0
    · rw [if_pos hzr] at h
      cases h
      cases ptrEnd with
      | none => exact ⟨by simp, fun _ => by rw [if_pos hzr]; rfl⟩
      | some e => exact ⟨fun _ he => by cases he; rfl, by simp⟩
    rw [if_neg hzr] at h ⊢
    split_ifs at h with hlb hsh hnm
    have hv := hw.concat hsh hzr hlb hnm
    obtain ⟨hls, hlp⟩ := ih hv h
    refine ⟨hls, fun hnn => ?_⟩
    have hmx := hv.length_le
    rw [length_append, length_singleton] at hmx
    rw [length_drop, hrm] at hsh
    rw [if_neg hlb, if_neg hsh, if_neg (by omega), if_neg (by omega)]
    have hlen : (((buf.drop (offset + 1)).take b.toNat)).length = b.toNat := by
      rw [length_take, length_drop]
      omega
    have hnx := hlp hnn
    rw [length_append, length_singleton, nameOctets_append, length_append, nameOctets_cons, nameOctets_nil, append_nil,
      length_labelOctets, hlen, Nat.add_sub_add_right] at hnx
    rw [← hnx]
    congr 1
    omega

theorem lengthLoop_isSome (h : maxLabels < fuel + labelCount) (hc : labelCount ≤ maxLabels) :
    ∃ r, lengthLoop buf fuel offset labelCount nameLen = some r ∧ r ≠ .error .fuel := by
  induction fuel generalizing offset labelCount nameLen with
  | zero => omega
  | succ fuel ih =>
    rw [lengthLoop]
    by_cases hen : buf.length ≤ offset
    · rw [if_pos hen]
      exact ⟨_, rfl, by simp⟩
    rw [if_neg hen, getElem?_eq_getElem (not_le.1 hen)]
    dsimp only [Option.bind_eq_bind, Option.bind_some]
    split_ifs
    any_goals exact ⟨_, rfl, by simp⟩
    exact ih (by omega) (by omega)

/-- Both walkers end inside the buffer, and agree on names that can be read. -/
theorem name_decoding_safe (buf : List UInt8) (offset : Int) :
    (∃ r jumps, walkName buf offset = some (r, jumps) ∧ (0 ≤ offset → r = unpackName buf offset.toNat) ∧
      r ≠ .error .fuel ∧ (∀ j ∈ jumps, j.2 < j.1) ∧
      ∀ n len, r = .ok (n, len) → Valid n ∧ wireNameLength buf offset = some (.ok len)) ∧
    ∃ r, wireNameLength buf offset = some r ∧ r ≠ .error .fuel := by
  unfold walkName wireNameLength unpackName
  by_cases hof : offset < 0 ∨ buf.length ≤ offset
  · rw [if_pos hof, if_pos hof]
    exact ⟨⟨_, _, rfl, fun hpos => by rw [if_pos (by omega)], by simp, by simp, by simp⟩, _, rfl, by simp⟩
  rw [if_neg hof, if_neg hof, if_neg (by omega)]
  obtain ⟨jumps, hw, hd, hfl⟩ := @walkLoop_eq buf unpackFuel offset.toNat 0 none [] (by decide)
  obtain ⟨r, hr, hrf⟩ := @lengthLoop_isSome buf (maxLabels + 1) offset.toNat 0 1 (by decide) (by decide)
  rw [hw, hr]
  generalize hlp : unpackLoop buf unpackFuel offset.toNat 0 none [] = o at hfl
  refine ⟨⟨_, jumps, rfl, fun _ => ?_, ?_, hd, fun n len h => ?_⟩, _, rfl, ?_⟩
  · cases o <;> rfl
  · cases o with
    | error e => exact hfl
    | ok y => exact fun h => by cases h
  · cases o with
    | error e => cases h
    | ok y =>
      cases h
      cases hr.symm.trans ((unpackLoop_length (by decide) hlp).2 rfl)
      exact ⟨unpackLoop_valid (by decide) hlp, rfl⟩
  · cases r with
    | error e => exact hrf
    | ok y => exact fun h => by cases h

theorem name_decoding_safe_pointer : wireNameLength [1, 97, 0, 0xC0, 0] 3 = some (.ok 2) := by
  obtain ⟨⟨r, jumps, hw, heq, _, _, h⟩, _⟩ := name_decoding_safe [1, 97, 0, 0xC0, 0] 3
  exact (h [[97]] 2 (heq (by decide))).2

end NothingDNS.Protocol
