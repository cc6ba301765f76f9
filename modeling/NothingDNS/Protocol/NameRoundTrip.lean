import Mathlib.Data.List.Forall2
import NothingDNS.Protocol.Name
/-!
# Names are read back

`Reads buf off n hops len` says what stands at an offset of a buffer: the labels `n`, behind `hops` pointers, in `len`
octets up to the end of the name or its first pointer. The invariant of packing is that each target of the compression
map reads as the suffix it was registered for (`Packer.Ok`).
-/

namespace NothingDNS.Protocol

open List BigEndian

inductive Reads (buf : List UInt8) : Nat → WireName → Nat → Nat → Prop
  | root {off : Nat} : [0] <+: buf.drop off → Reads buf off [] 0 1
  | label {off hops len : Nat} {l : List UInt8} {n : WireName} : labelOctets l <+: buf.drop off → ValidLabel l →
      Reads buf (off + 1 + l.length) n hops len → Reads buf off (l :: n) hops (1 + l.length + len)
  | pointer {off p hops len : Nat} {n : WireName} : BigEndian.encode 2 (0xC000 + p) <+: buf.drop off →
      p < off → p < pointerOffsetMask → Reads buf p n hops len → Reads buf off n (hops + 1) 2

variable {buf : List UInt8} {off : Nat}

theorem prefix_drop_append {pre : List UInt8} (h : pre <+: buf.drop off) (more : List UInt8) :
    pre <+: (buf ++ more).drop off := by
  rw [drop_append]
  exact h.trans (prefix_append _ _)

variable {hops len : Nat} {n : WireName}

theorem Reads.append (h : Reads buf off n hops len) (more : List UInt8) : Reads (buf ++ more) off n hops len := by
  induction h with
  | root h => exact .root (prefix_drop_append h more)
  | label h hl _ ih => exact .label (prefix_drop_append h more) hl ih
  | pointer h hlt hms _ ih => exact .pointer (prefix_drop_append h more) hlt hms ih

theorem Reads.valid (h : Reads buf off n hops len) : ∀ l ∈ n, ValidLabel l := by
  induction h with
  | root _ => exact nofun
  | label _ hl _ ih =>
    intro l' hl'
    obtain rfl | hl' := mem_cons.1 hl'
    · exact hl
    · exact ih l' hl'
  | pointer _ _ _ _ ih => exact ih

theorem Reads.lt (h : Reads buf off n hops len) : off < buf.length := by
  have hne : ∀ {pre : List UInt8}, pre ≠ [] → pre <+: buf.drop off → off < buf.length := by
    intro pre hpre h
    have hlen := h.length_le
    rw [length_drop] at hlen
    have hpos := length_pos_iff.2 hpre
    omega
  cases h with
  | root h => exact hne (by simp) h
  | label h _ _ => exact hne (by simp [labelOctets]) h
  | pointer h _ _ _ => exact hne (by simp [encode]) h

/-! ## The first octet -/

theorem length_octet {l : List UInt8} (h : ValidLabel l) : (UInt8.ofNat l.length).toNat = l.length := by
  have hle : l.length ≤ 63 := h.2
  simp
  omega

theorem encode_pointer {p : Nat} (h : p < pointerOffsetMask) :
    encode 2 (0xC000 + p) = [UInt8.ofNat (0xC0 + p / 256), UInt8.ofNat p] := by
  have hp : p < 0x3FFF := h
  simp only [encode, nil_append, cons_append, cons.injEq, and_true]
  constructor
  · congr 1
    omega
  · apply UInt8.toNat_inj.1
    simp only [UInt8.toNat_ofNat']
    omega

theorem pointer_octet {p : Nat} (h : p < pointerOffsetMask) :
    (UInt8.ofNat (0xC0 + p / 256)).toNat = 0xC0 + p / 256 := by
  have hp : p < 0x3FFF := h
  simp only [UInt8.toNat_ofNat']
  omega

section step

variable {fuel ptrDepth p : Nat} {ptrEnd : Option Nat} {wire : WireName} {l : List UInt8}

theorem unpackLoop_root (h : [0] <+: buf.drop off) :
    unpackLoop buf (fuel + 1) off ptrDepth ptrEnd wire = .ok (wire, ptrEnd.getD (off + 1)) := by
  obtain ⟨rest, hrs⟩ := h
  rw [unpackLoop, ← hrs]
  simp

theorem unpackLoop_label (h : labelOctets l <+: buf.drop off) (hl : ValidLabel l) :
    unpackLoop buf (fuel + 1) off ptrDepth ptrEnd wire =
      if maxNameLength < (nameOctets wire).length + 1 + l.length + 1 then .error .nameTooLong
      else unpackLoop buf fuel (off + 1 + l.length) ptrDepth ptrEnd (wire ++ [l]) := by
  obtain ⟨rest, hrs⟩ := h
  have hb : 1 ≤ l.length ∧ l.length ≤ 63 := hl
  rw [unpackLoop, ← hrs]
  simp only [labelOctets, cons_append, length_octet hl]
  rw [if_neg (by omega), if_neg (by omega), if_neg (by simp only [maxLabelLength]; omega), if_neg (by simp), take_left]

theorem unpackLoop_pointer (h : encode 2 (0xC000 + p) <+: buf.drop off) (hlt : p < off) (hms : p < pointerOffsetMask)
    (hin : p < buf.length) : unpackLoop buf (fuel + 1) off ptrDepth ptrEnd wire =
      if maxPointerDepth ≤ ptrDepth then .error .pointerTooDeep
      else unpackLoop buf fuel p (ptrDepth + 1) (some (ptrEnd.getD (off + 2))) wire := by
  obtain ⟨rest, hrs⟩ := h
  have hp : p < 0x3FFF := hms
  rw [encode_pointer hms] at hrs
  rw [unpackLoop, ← hrs]
  simp only [cons_append, nil_append, pointer_octet hms, UInt8.toNat_ofNat']
  have hpt : ((0xC0 + p / 256) * 256 + p % 2 ^ 8) % 0x4000 = p := by omega
  rw [if_pos (by omega), hpt, if_neg (by omega)]

end step

theorem unpackLoop_of_reads (h : Reads buf off n hops len) :
    ∀ {fuel ptrDepth : Nat} {ptrEnd : Option Nat} {wire : WireName}, n.length + hops < fuel →
      ptrDepth + hops ≤ maxPointerDepth → (nameOctets wire).length + (nameOctets n).length + 1 ≤ maxNameLength →
      unpackLoop buf fuel off ptrDepth ptrEnd wire = .ok (wire ++ n, ptrEnd.getD (off + len)) := by
  induction h <;> intro fuel ptrDepth ptrEnd wire hfl hd hsz <;>
    obtain ⟨fuel, rfl⟩ : ∃ k, fuel = k + 1 := ⟨fuel - 1, by omega⟩
  case root h => rw [unpackLoop_root h, append_nil]
  case label off hops len l n h hl _ ih =>
    simp only [nameOctets_cons, length_append, length_labelOctets, length_cons] at hsz hfl
    rw [unpackLoop_label h hl, if_neg (by omega), ih (by omega) hd (by simp; omega)]
    simp only [append_assoc, singleton_append, Nat.add_assoc]
  case pointer h hlt hms hrd ih =>
    rw [unpackLoop_pointer h hlt hms hrd.lt, if_neg (by omega), ih (by omega) (by omega) hsz]
    cases ptrEnd <;> rfl

theorem unpackName_of_reads (h : Reads buf off n hops len)
    (hh : hops ≤ maxPointerDepth) (hsz : (nameOctets n).length + 1 ≤ maxNameLength) :
    unpackName buf off = .ok (n, len) := by
  have hlb := length_le_nameOctets n
  have hh' : hops ≤ 5 := hh
  have hs' : (nameOctets n).length + 1 ≤ 255 := hsz
  have hlp : unpackLoop buf unpackFuel off 0 none [] = .ok ([] ++ n, off + len) :=
    unpackLoop_of_reads h (by simp only [unpackFuel]; omega) (by omega) (by simpa using hsz)
  rw [unpackName, if_neg (by have := h.lt; omega), hlp]
  simp

/-- The target reads as the suffix it stands for. -/
def Target.Ok (buf : List UInt8) (t : Target) : Prop :=
  ∃ n len, Reads buf t.offset n t.hops len ∧ suffixKey n = t.key

def Packer.Ok (s : Packer) : Prop := ∀ t ∈ s.compression, t.Ok s.buf

variable {t : Target}

theorem Target.Ok.append (h : t.Ok buf) (more : List UInt8) : t.Ok (buf ++ more) := by
  obtain ⟨n, len, hrd, hkey⟩ := h
  exact ⟨n, len, hrd.append more, hkey⟩

variable {s : Packer}

theorem Packer.Ok.write (h : s.Ok) (octets : List UInt8) : (s.write octets).Ok := fun t ht => (h t ht).append octets

theorem register_buf (s : Packer) (key : List UInt8) (hops : Nat) : (s.register key hops).buf = s.buf := by
  unfold Packer.register
  split <;> rfl

theorem mem_register {key : List UInt8}
    (h : t ∈ (s.register key hops).compression) : t ∈ s.compression ∨ t = ⟨key, s.buf.length, hops⟩ := by
  unfold Packer.register at h
  split at h
  · exact Or.inl h
  · exact (mem_cons.1 h).symm

theorem emit_buf (hops : Nat) : ∀ (k : Nat) (n : WireName) (s : Packer),
    (emit hops k n s).buf = s.buf ++ nameOctets (n.take k)
  | 0, _, s => by simp [emit]
  | _ + 1, [], s => by simp [emit]
  | k + 1, l :: ls, s => by
    rw [emit, emit_buf hops k ls, Packer.write, register_buf, take_succ_cons, nameOctets_cons, append_assoc]

theorem emit_reads {tail : WireName} : ∀ (k : Nat) (n : WireName) (s : Packer), k ≤ n.length → (∀ l ∈ n, ValidLabel l) →
      (emit hops k n s).buf <+: buf → Reads buf (emit hops k n s).buf.length tail hops len →
      suffixKey tail = suffixKey (n.drop k) →
      Reads buf s.buf.length (n.take k ++ tail) hops ((nameOctets (n.take k)).length + len)
        ∧ ∀ t ∈ (emit hops k n s).compression, t ∈ s.compression ∨ t.Ok buf
  | 0, n, s, _, _, _, hrd, _ => by
    refine ⟨?_, fun t ht => Or.inl ht⟩
    simpa [emit] using hrd
  | k + 1, [], _, hk, _, _, _, _ => by simp at hk
  | k + 1, l :: ls, s, hk, hvl, hpre, hrd, hkey => by
    rw [length_cons] at hk
    have hl : ValidLabel l := hvl l mem_cons_self
    obtain ⟨ih, ihmap⟩ := emit_reads k ls ((s.register (suffixKey (l :: ls)) hops).write (labelOctets l)) (by omega)
      (fun x hx => hvl x (mem_cons_of_mem _ hx)) hpre hrd hkey
    have hof : ((s.register (suffixKey (l :: ls)) hops).write (labelOctets l)).buf.length
        = s.buf.length + 1 + l.length := by
      rw [Packer.write, register_buf, length_append, length_labelOctets]
      omega
    rw [hof] at ih
    -- the label itself stands at the end of the old buffer
    have hlb : labelOctets l <+: buf.drop s.buf.length := by
      obtain ⟨rest, hrs⟩ := hpre
      rw [← hrs, emit_buf, append_assoc, drop_left, take_succ_cons, nameOctets_cons, append_assoc]
      exact prefix_append _ _
    have hfl : Reads buf s.buf.length ((l :: ls).take (k + 1) ++ tail) hops
        ((nameOctets ((l :: ls).take (k + 1))).length + len) := by
      have hlen : (nameOctets ((l :: ls).take (k + 1))).length + len
          = 1 + l.length + ((nameOctets (ls.take k)).length + len) := by
        rw [take_succ_cons, nameOctets_cons, length_append, length_labelOctets]
        omega
      rw [hlen]
      exact .label hlb hl ih
    refine ⟨hfl, fun t ht => ?_⟩
    obtain ht | ht := ihmap t ht
    · obtain ht | rfl := mem_register ht
      · exact Or.inl ht
      · refine Or.inr ⟨_, _, hfl, ?_⟩
        rw [suffixKey_append, hkey, ← suffixKey_append, take_append_drop]
    · exact Or.inr ht

theorem lookup_some {key : List UInt8} (h : s.lookup key = some t) : t ∈ s.compression ∧ t.key = key :=
  ⟨mem_of_find?_eq_some h, by simpa using find?_some h⟩

theorem findSuffix_some : ∀ {n : WireName} {i : Nat} {t : Target}, findSuffix s n = some (i, t) →
    i < n.length ∧ t ∈ s.compression ∧ t.key = suffixKey (n.drop i) ∧ t.offset < pointerOffsetMask
  | [], _, _, h => by cases h
  | l :: ls, i, t, h => by
    rw [findSuffix] at h
    split at h
    next t' ht' =>
      cases h
      obtain ⟨hlk, hof⟩ := Option.filter_eq_some_iff.1 ht'
      obtain ⟨hmem, hkey⟩ := lookup_some hlk
      exact ⟨by simp, hmem, hkey, by simpa using hof⟩
    · obtain ⟨⟨j, t'⟩, hfn, hp⟩ := Option.map_eq_some_iff.1 h
      cases hp
      obtain ⟨hj, hmem, hkey, hof⟩ := findSuffix_some hfn
      exact ⟨by simpa using hj, hmem, hkey, hof⟩

/-! ### Names that differ in case only -/

theorem suffixKey_eq_lowerName (n : WireName) :
    suffixKey n = (lowerName n).flatMap fun l => toLower (UInt8.ofNat l.length) :: l := by
  induction n with
  | nil => rfl
  | cons l ls ih =>
    rw [suffixKey] at ih
    simp [suffixKey, lowerName, labelOctets, ih]

theorem suffixKey_congr {m : WireName} (h : lowerName m = lowerName n) : suffixKey m = suffixKey n := by
  rw [suffixKey_eq_lowerName, suffixKey_eq_lowerName, h]

theorem findSuffix_congr (s : Packer) : ∀ {m n : WireName}, lowerName m = lowerName n → findSuffix s m = findSuffix s n
  | [], [], _ => rfl
  | [], _ :: _, h => by simp [lowerName] at h
  | _ :: _, [], h => by simp [lowerName] at h
  | l :: ls, l' :: ls', h => by
    have htl : lowerName ls = lowerName ls' := (cons.inj h).2
    rw [findSuffix, findSuffix, suffixKey_congr h, findSuffix_congr s htl]

theorem emit_congr (hops : Nat) : ∀ (k : Nat) {m n : WireName} (s : Packer), lowerName m = lowerName n →
    m.take k = n.take k → emit hops k m s = emit hops k n s
  | 0, _, _, _, _, _ => by rw [emit, emit] <;> simp
  | k + 1, [], [], _, _, _ => rfl
  | k + 1, [], _ :: _, _, h, _ => by simp [lowerName] at h
  | k + 1, _ :: _, [], _, h, _ => by simp [lowerName] at h
  | k + 1, l :: ls, l' :: ls', s, h, htk => by
    rw [take_succ_cons, take_succ_cons] at htk
    obtain ⟨rfl, hrs⟩ := cons.inj htk
    rw [emit, emit, suffixKey_congr h]
    exact emit_congr hops k _ (cons.inj h).2 hrs

theorem packName_reads {s' : Packer} (h : packName n s = some s') (hs : s.Ok) : s'.Ok ∧ s.buf <+: s'.buf
      ∧ ∃ m, Reads s'.buf s.buf.length m (nameHops s n) (s'.buf.length - s.buf.length)
        ∧ suffixKey m = suffixKey n ∧ packName m s = some s' := by
  unfold packName at h
  split at h
  next hvl =>
    split at h
    next i t hfn =>
      cases h
      obtain ⟨hi, hmem, hkey, hof⟩ := findSuffix_some hfn
      obtain ⟨tail, len, hrd, htl⟩ := hs t hmem
      have hb := emit_buf (t.hops + 1) i n s
      -- the pointer stands behind the labels and leads to the target
      have hp : Reads ((emit (t.hops + 1) i n s).write (encode 2 (0xC000 + t.offset))).buf
          (emit (t.hops + 1) i n s).buf.length tail (t.hops + 1) 2 := by
        have htr : Reads ((emit (t.hops + 1) i n s).write (encode 2 (0xC000 + t.offset))).buf
            t.offset tail t.hops len := by
          rw [Packer.write, hb, append_assoc]
          exact hrd.append _
        have hlt : t.offset < (emit (t.hops + 1) i n s).buf.length := by
          have := hrd.lt
          rw [hb, length_append]
          omega
        exact .pointer ⟨[], by rw [Packer.write, drop_left, append_nil]⟩ hlt hof htr
      obtain ⟨hnm, hmp⟩ := emit_reads i n s hi.le hvl.1 (prefix_append _ _) hp
        (htl.trans hkey)
      have hpre : s.buf <+: ((emit (t.hops + 1) i n s).write (encode 2 (0xC000 + t.offset))).buf := by
        rw [Packer.write, hb, append_assoc]
        exact prefix_append _ _
      have hfl : suffixKey (n.take i ++ tail) = suffixKey n := by
        rw [suffixKey_append, htl, hkey, ← suffixKey_append, take_append_drop]
      have hlw := lowerName_eq_of_suffixKey hnm.valid hvl.1 hfl
      refine ⟨fun t' ht' => ?_, hpre, n.take i ++ tail, ?_, hfl, ?_⟩
      · obtain hold | hnw := hmp t' ht'
        · obtain ⟨more, hmr⟩ := hpre
          rw [← hmr]
          exact (hs t' hold).append more
        · exact hnw
      · have hlen : ((emit (t.hops + 1) i n s).write (encode 2 (0xC000 + t.offset))).buf.length
            - s.buf.length = (nameOctets (n.take i)).length + 2 := by
          rw [Packer.write, hb]
          simp only [length_append, length_encode]
          omega
        rw [nameHops, hfn, hlen]
        exact hnm
      · have hsz : (nameOctets (n.take i ++ tail)).length = (nameOctets n).length := by
          simpa [suffixKey] using congrArg length hfl
        have htk : (n.take i ++ tail).take i = n.take i := by
          rw [take_append_of_le_length (by rw [length_take]; omega), take_take, Nat.min_self]
        rw [packName, if_pos ⟨hnm.valid, hsz ▸ hvl.2⟩, findSuffix_congr s hlw, hfn]
        simp [emit_congr (t.hops + 1) i s hlw htk]
    next hfn =>
      cases h
      have hb := emit_buf 0 n.length n s
      rw [take_length] at hb
      have hrt : Reads ((emit 0 n.length n s).write [0]).buf (emit 0 n.length n s).buf.length [] 0 1 :=
        .root ⟨[], by rw [Packer.write, drop_left, append_nil]⟩
      obtain ⟨hnm, hmp⟩ := emit_reads n.length n s le_rfl hvl.1 (prefix_append _ _) hrt
        (by rw [drop_length])
      rw [take_length, append_nil] at hnm
      have hpre : s.buf <+: ((emit 0 n.length n s).write [0]).buf := by
        rw [Packer.write, hb, append_assoc]
        exact prefix_append _ _
      refine ⟨fun t' ht' => ?_, hpre, n, ?_, rfl, by rw [packName, if_pos hvl, hfn]⟩
      · obtain hold | hnw := hmp t' ht'
        · obtain ⟨more, hmr⟩ := hpre
          rw [← hmr]
          exact (hs t' hold).append more
        · exact hnw
      · have hlen : ((emit 0 n.length n s).write [0]).buf.length - s.buf.length = (nameOctets n).length + 1 := by
          rw [Packer.write, hb]
          simp only [length_append, length_singleton]
          omega
        rw [nameHops, hfn, hlen]
        exact hnm
  · cases h

/-! ## A sequence of names -/

/-- Where a name was written, in how many octets, and how many pointers lead on. -/
structure Written where
  offset : Nat
  length : Nat
  hops : Nat
deriving DecidableEq

def packNames : List WireName → Packer → Option (List Written × Packer)
  | [], s => some ([], s)
  | n :: ns, s => match packName n s with
    | none => none
    | some s' => (packNames ns s').map fun r =>
      (⟨s.buf.length, s'.buf.length - s.buf.length, nameHops s n⟩ :: r.1, r.2)

theorem packName_isSome (h : Valid n) (s : Packer) : ∃ s', packName n s = some s' := by
  unfold packName
  rw [if_pos h]
  split <;> exact ⟨_, rfl⟩

theorem packNames_reads : ∀ {names : List WireName} {s : Packer}, (∀ n ∈ names, Valid n) → s.Ok →
    ∃ ws s', packNames names s = some (ws, s') ∧ s.buf <+: s'.buf
      ∧ List.Forall₂ (fun n w => ∃ m, Reads s'.buf w.offset m w.hops w.length ∧ suffixKey m = suffixKey n) names ws
  | [], s, _, _ => ⟨[], s, rfl, prefix_rfl, .nil⟩
  | n :: ns, s, hvl, hs => by
    obtain ⟨s1, hp⟩ := packName_isSome (hvl n mem_cons_self) s
    obtain ⟨hs1, hp1, m, hrd, hkey, -⟩ := packName_reads hp hs
    obtain ⟨ws, s', hrs, hpre, hall⟩ := packNames_reads (fun x hx => hvl x (mem_cons_of_mem _ hx)) hs1
    refine ⟨⟨s.buf.length, s1.buf.length - s.buf.length, nameHops s n⟩ :: ws, s', ?_, hp1.trans hpre, .cons ?_ hall⟩
    · rw [packNames, hp]
      simp [hrs]
    obtain ⟨more, hmr⟩ := hpre
    rw [← hmr]
    exact ⟨m, hrd.append more, hkey⟩

/-- Valid names packed one after the other with one compression map, behind whatever
the buffer held before: each one that needs at most five pointers is read back, up to
case, in exactly the octets written for it. -/
theorem unpackName_packNames (pre : List UInt8) (names : List WireName) (hvalid : ∀ n ∈ names, Valid n) :
    ∃ ws s, packNames names ⟨pre, []⟩ = some (ws, s) ∧ List.Forall₂ (fun n w => w.hops ≤ maxPointerDepth →
          ∃ m, unpackName s.buf w.offset = .ok (m, w.length) ∧ lowerName m = lowerName n) names ws := by
  obtain ⟨ws, s, hp, -, hall⟩ := packNames_reads (s := ⟨pre, []⟩) hvalid nofun
  refine ⟨ws, s, hp, ((forall₂_and_left _ _).2 ⟨hvalid, hall⟩).imp ?_⟩
  rintro n w ⟨hn, m, hrd, hkey⟩ hh
  have hsz : (nameOctets m).length = (nameOctets n).length := by
    simpa [suffixKey] using congrArg length hkey
  refine ⟨m, unpackName_of_reads hrd hh (hsz ▸ hn.2), ?_⟩
  exact lowerName_eq_of_suffixKey hrd.valid hn.1 hkey

def nestedNames (k : Nat) : List WireName :=
  (List.range k).map fun i => (List.range (i + 1)).reverse.map fun j => [UInt8.ofNat (97 + j)]

theorem unpackName_packNames_nested : ∃ ws s, packNames (nestedNames 3) ⟨[], []⟩ = some (ws, s)
      ∧ List.Forall₂ (fun n w => w.hops ≤ maxPointerDepth →
          ∃ m, unpackName s.buf w.offset = .ok (m, w.length) ∧ lowerName m = lowerName n) (nestedNames 3) ws :=
  unpackName_packNames [] (nestedNames 3) (by decide)

/-- The seventh of these names needs six pointers, and is not read back. -/
theorem seventh_nested_name_unreadable : (∀ n ∈ nestedNames 7, Valid n)
      ∧ ∃ r ∈ packNames (nestedNames 7) ⟨[], []⟩, ∃ w ∈ r.1, unpackName r.2.buf w.offset = .error .pointerTooDeep := by
  decide +kernel

end NothingDNS.Protocol
