import NothingDNS.Protocol.Message
/-!
# Messages are read back

If the octets it wrote can be unpacked at all, the result is the message up to the case of names, and packs to the
same octets under any header (`unpackMany_packed`, `foldlM_shifts`).
-/

namespace NothingDNS.Protocol

open List Option Packer

/-! ## Reading is determined -/

variable {buf : List UInt8} {off hops len : Nat} {n : WireName}

abbrev firstOctet (buf : List UInt8) (off : Nat) : Option Nat := (buf.drop off).head?.map UInt8.toNat

theorem firstOctet_root (h : [0] <+: buf.drop off) : firstOctet buf off = some 0 := by
  obtain ⟨rest, hrs⟩ := h
  simp [← hrs]

theorem firstOctet_label {l : List UInt8} (h : labelOctets l <+: buf.drop off) (hl : ValidLabel l) :
    firstOctet buf off = some l.length := by
  obtain ⟨rest, hrs⟩ := h
  rw [firstOctet, ← hrs]
  exact congrArg some (length_octet hl)

theorem firstOctet_pointer {p : Nat} (h : BigEndian.encode 2 (0xC000 + p) <+: buf.drop off)
    (hms : p < pointerOffsetMask) : firstOctet buf off = some (0xC0 + p / 256) := by
  obtain ⟨rest, hrs⟩ := h
  rw [firstOctet, ← hrs, encode_pointer hms]
  exact congrArg some (pointer_octet hms)

theorem Reads.unique (h : Reads buf off n hops len) :
    ∀ {n' : WireName} {hops' len' : Nat}, Reads buf off n' hops' len' → n = n' ∧ len = len' := by
  induction h with intro n' hops' len' h'
  | root h =>
    have hfr := firstOctet_root h
    cases h' with
    | root _ => exact ⟨rfl, rfl⟩
    | label h' hl _ =>
      have := hl.1
      rw [firstOctet_label h' hl, some.injEq] at hfr
      omega
    | pointer h' _ hms _ =>
      rw [firstOctet_pointer h' hms, some.injEq] at hfr
      omega
  | @label _ _ _ l _ h hl _ ih =>
    have hfr := firstOctet_label h hl
    have hb : 1 ≤ l.length ∧ l.length ≤ 63 := hl
    cases h' with
    | root h' =>
      rw [firstOctet_root h', some.injEq] at hfr
      omega
    | label h' hl' hrd' =>
      rw [firstOctet_label h' hl', some.injEq] at hfr
      obtain ⟨-, rfl⟩ := cons.inj ((prefix_of_prefix_length_le h h' (by simp [hfr])).eq_of_length (by simp [hfr]))
      obtain ⟨rfl, rfl⟩ := ih hrd'
      exact ⟨rfl, rfl⟩
    | pointer h' _ hms _ =>
      rw [firstOctet_pointer h' hms, some.injEq] at hfr
      omega
  | @pointer _ p _ _ _ h _ hms _ ih =>
    have hfr := firstOctet_pointer h hms
    cases h' with
    | root h' =>
      rw [firstOctet_root h', some.injEq] at hfr
      omega
    | label h' hl _ =>
      have hb : _ ∧ _ ≤ 63 := hl
      rw [firstOctet_label h' hl, some.injEq] at hfr
      omega
    | @pointer _ p' _ _ _ h' _ hm' hrd' =>
      have heq := (prefix_of_prefix_length_le h h' (by simp)).eq_of_length (by simp)
      rw [encode_pointer hms, encode_pointer hm', cons.injEq, cons.injEq] at heq
      rw [firstOctet_pointer h' hm', some.injEq] at hfr
      have hlw : p % 256 = p' % 256 := by simpa using congrArg UInt8.toNat heq.2.1
      obtain rfl : p = p' := by omega
      exact ⟨(ih hrd').1, rfl⟩

theorem unpackLoop_reads (h : Reads buf off n hops len) :
    ∀ {fuel ptrDepth : Nat} {ptrEnd : Option Nat} {wire : WireName} {r : WireName × Nat},
      unpackLoop buf fuel off ptrDepth ptrEnd wire = .ok r → r = (wire ++ n, ptrEnd.getD (off + len)) := by
  induction h <;> rintro (_ | fuel) ptrDepth ptrEnd wire r hr <;> try cases hr
  case root h =>
    rw [unpackLoop_root h] at hr
    cases hr
    rw [append_nil]
  case label h hl _ ih =>
    rw [unpackLoop_label h hl] at hr
    split at hr
    · cases hr
    · rw [ih hr]
      simp only [append_assoc, singleton_append, Nat.add_assoc]
  case pointer h hlt hms hrd ih =>
    rw [unpackLoop_pointer h hlt hms hrd.lt] at hr
    split at hr
    · cases hr
    · rw [ih hr]
      cases ptrEnd <;> rfl

theorem nameAt_reads (h : Reads buf off n hops len)
    {r : WireName × Nat} (hr : nameAt buf off = some r) : r = (n, off + len) := by
  unfold nameAt unpackName at hr
  split at hr
  next m k hk =>
    split at hk
    · cases hk
    · split at hk
      next wire last hlp =>
        have hrd := unpackLoop_reads h hlp
        cases hrd
        cases hk
        cases hr
        simp
      · cases hk
  · cases hr

/-! ## Fields behind a name -/

variable {a b : List UInt8}

theorem prefix_drop (h : a ++ b <+: buf) : b <+: buf.drop a.length := by
  obtain ⟨rest, rfl⟩ := h
  rw [append_assoc, drop_left]
  exact prefix_append _ _

theorem prefix_drop_add (h : a ++ b <+: buf.drop off) : b <+: buf.drop (off + a.length) := by
  rw [← drop_drop]
  exact prefix_drop h

variable {rest : List UInt8}

theorem readAt_encode {k x : Nat} (h : BigEndian.encode k x ++ rest <+: buf.drop off)
    (hk : 0 < k) (hx : x < 256 ^ k) : readAt buf off k = some x := by
  obtain ⟨more, hmr⟩ := h
  have hlen := congrArg length hmr
  simp only [length_append, BigEndian.length_encode, length_drop] at hlen
  have htk : (buf.drop off).take k = BigEndian.encode k x := by
    rw [← hmr, append_assoc, take_append_of_le_length (by simp), take_of_length_le (by simp)]
  rw [readAt, if_pos (by omega), htk, BigEndian.decode_encode_of_lt hx]

theorem readAt_enc16 {x : UInt16} (h : enc16 x ++ rest <+: buf.drop off) :
    readAt buf off 2 = some x.toNat := readAt_encode h (by omega) x.toNat_lt

theorem readAt_enc32 {x : UInt32} (h : enc32 x ++ rest <+: buf.drop off) :
    readAt buf off 4 = some x.toNat := readAt_encode h (by omega) x.toNat_lt

theorem unpackQuestion_some {r : Question × Nat} (h : unpackQuestion buf off = some r) :
    ∃ name e t c, nameAt buf off = some (name, e) ∧ readAt buf e 2 = some t ∧ readAt buf (e + 2) 2 = some c
      ∧ r = (⟨name, .ofNat t, .ofNat c⟩, e + 4) := by
  simp only [unpackQuestion, Option.bind_eq_bind, Option.bind_eq_some_iff, Option.pure_def, Option.some.injEq] at h
  obtain ⟨⟨name, e⟩, hnm, t, ht, c, hc, rfl⟩ := h
  exact ⟨name, e, t, c, hnm, ht, hc, rfl⟩

variable {D : RDataReader}

theorem unpackRecord_some {r : ResourceRecord × Nat} (h : unpackRecord D buf off = some r) :
    ∃ name e t c ttl len data, nameAt buf off = some (name, e) ∧ readAt buf e 2 = some t
      ∧ readAt buf (e + 2) 2 = some c ∧ readAt buf (e + 4) 4 = some ttl ∧ readAt buf (e + 8) 2 = some len
      ∧ D (.ofNat t) buf (e + 10) len = some data
      ∧ r = (⟨name, .ofNat t, .ofNat c, .ofNat ttl, data⟩, e + 10 + len) := by
  simp only [unpackRecord, Option.bind_eq_bind, Option.bind_eq_some_iff, Option.pure_def, Option.some.injEq] at h
  obtain ⟨⟨name, e⟩, hnm, t, ht, c, hc, ttl, htt, len, hlen, -, -, data, hd, rfl⟩ := h
  exact ⟨name, e, t, c, ttl, len, data, hnm, ht, hc, htt, hlen, hd, rfl⟩

/-! ## One question or record -/

def Question.Same (q q' : Question) : Prop :=
  lowerName q.name = lowerName q'.name ∧ q.qtype = q'.qtype ∧ q.qclass = q'.qclass

/-- The same on the wire up to the case of the name. -/
def ResourceRecord.Same (r r' : ResourceRecord) : Prop :=
  lowerName r.name = lowerName r'.name ∧ r.type = r'.type ∧ r.cls = r'.cls ∧ r.ttl = r'.ttl
    ∧ r.data.octets = r'.data.octets

def ResourceRecord.Back (r r' : ResourceRecord) : Prop := r.Same r' ∧ r'.data = r.data

/-- Where the reader of RDATA reads the record's own octets, it finds the record's data. -/
def ReadsBack (D : RDataReader) (r : ResourceRecord) : Prop :=
  ∀ buf off, r.data.octets <+: buf.drop off →
    ∀ data, D r.type buf off r.data.octets.length = some data → data = r.data

/-- The writer only appends, and keeps the compression map right. -/
def Keeps {α : Type} (f : Packer → α → Option Packer) : Prop :=
  ∀ s s' x, f s x = some s' → s.Ok → s'.Ok ∧ s.buf <+: s'.buf

/-- What packing one item does, for a writer `f` and a reader `g` of it: what is read
back at its offset packs to the same and is the same in the sense of `Back`. -/
def Rereads {α : Type} (f : Packer → α → Option Packer) (g : List UInt8 → Nat → Option (α × Nat))
    (Back : α → α → Prop) (x : α) : Prop :=
  ∀ s s' buf y off, f s x = some s' → s.Ok → s'.buf <+: buf → g buf s.buf.length = some (y, off) →
    off = s'.buf.length ∧ f s y = some s' ∧ Back x y

variable {s s' : Packer}

variable {octets : List UInt8}

theorem packName_write (h : (packName n s).map (fun s => s.write octets) = some s') (hs : s.Ok) :
    s'.Ok ∧ s.buf <+: s'.buf ∧ ∃ m s₁, packName m s = some s₁ ∧ packName n s = some s₁ ∧ s' = s₁.write octets
      ∧ lowerName m = lowerName n ∧ ∀ {buf : List UInt8}, s'.buf <+: buf →
        (∃ hops, Reads buf s.buf.length m hops (s₁.buf.length - s.buf.length))
          ∧ octets <+: buf.drop s₁.buf.length ∧ s.buf.length ≤ s₁.buf.length := by
  obtain ⟨s₁, hp, rfl⟩ := map_eq_some_iff.1 h
  obtain ⟨hok, hpre, m, hrd, hkey, haa⟩ := packName_reads hp hs
  have hvl : ∀ l ∈ n, ValidLabel l := by
    unfold packName at hp
    split at hp
    next hv => exact hv.1
    · cases hp
  refine ⟨hok.write octets, hpre.trans (prefix_append _ _), m, s₁, haa, hp, rfl,
    lowerName_eq_of_suffixKey hrd.valid hvl hkey, fun {buf} hb => ⟨⟨nameHops s n, ?_⟩, prefix_drop hb,
      hpre.length_le⟩⟩
  obtain ⟨more, hmr⟩ := hb
  rw [← hmr, write, append_assoc]
  exact hrd.append _

theorem packQuestion_keeps : Keeps packQuestion :=
  fun _ _ _ h hs => ⟨(packName_write h hs).1, (packName_write h hs).2.1⟩

theorem packQuestion_rereads (q : Question) : Rereads packQuestion unpackQuestion Question.Same q := by
  intro s s' buf y off h hs hb hy
  obtain ⟨-, -, m, s1, haa, -, rfl, hlw, hst⟩ := packName_write h hs
  obtain ⟨⟨hops, hrd⟩, hoc, hle⟩ := hst hb
  obtain ⟨name, e, t, c, hnm, ht, hc, hr⟩ := unpackQuestion_some hy
  obtain ⟨rfl, rfl⟩ := Prod.mk.inj (nameAt_reads hrd hnm)
  rw [show s.buf.length + (s1.buf.length - s.buf.length) = s1.buf.length by omega] at ht hc hr
  rw [readAt_enc16 hoc] at ht
  have hcl : enc16 q.qclass ++ [] <+: buf.drop (s1.buf.length + 2) := by
    simpa [enc16] using prefix_drop_add hoc
  rw [readAt_enc16 hcl] at hc
  cases ht
  cases hc
  simp only [UInt16.ofNat_toNat, Prod.mk.injEq] at hr
  obtain ⟨rfl, rfl⟩ := hr
  refine ⟨by simp [write, enc16], ?_, hlw.symm, rfl, rfl⟩
  simp [packQuestion, haa]

variable {r : ResourceRecord}

theorem recordTail_fields (h : recordTail r <+: buf.drop off) (hlen : r.data.octets.length ≤ 0xffff) :
    readAt buf off 2 = some r.type.toNat ∧ readAt buf (off + 2) 2 = some r.cls.toNat
      ∧ readAt buf (off + 4) 4 = some r.ttl.toNat ∧ readAt buf (off + 8) 2 = some r.data.octets.length
      ∧ r.data.octets <+: buf.drop (off + 10) := by
  simp only [recordTail, append_assoc] at h
  have h2 := prefix_drop_add h
  have h4 := prefix_drop_add h2
  have h8 := prefix_drop_add h4
  have h₁₀ := prefix_drop_add h8
  exact ⟨readAt_enc16 h, readAt_enc16 h2, readAt_enc32 h4, readAt_encode h8 (by omega) (by omega), h₁₀⟩

theorem packRecord_some (h : packRecord s r = some s') :
    r.data.octets.length ≤ 0xffff ∧ (packName r.name s).map (fun s => s.write (recordTail r)) = some s' := by
  unfold packRecord at h
  split at h
  · exact ⟨‹_›, h⟩
  · cases h

theorem packRecord_keeps : Keeps packRecord :=
  fun _ _ _ h hs => ⟨(packName_write (packRecord_some h).2 hs).1, (packName_write (packRecord_some h).2 hs).2.1⟩

theorem packRecord_rereads (hD : ReadsBack D r) : Rereads packRecord (unpackRecord D) ResourceRecord.Back r := by
  intro s s' buf y off h hs hb hy
  obtain ⟨hlen, h⟩ := packRecord_some h
  obtain ⟨-, -, m, s1, haa, -, rfl, hlw, hst⟩ := packName_write h hs
  obtain ⟨⟨hops, hre⟩, hoc, hle⟩ := hst hb
  obtain ⟨hT, hC, hL, hR, hdt⟩ := recordTail_fields hoc hlen
  obtain ⟨name, e, t, c, ttl, len, data, hnm, ht, hc, htt, hrd, hd, hr⟩ := unpackRecord_some hy
  obtain ⟨rfl, rfl⟩ := Prod.mk.inj (nameAt_reads hre hnm)
  rw [show s.buf.length + (s1.buf.length - s.buf.length) = s1.buf.length by omega] at ht hc htt hrd hd hr
  rw [hT] at ht
  rw [hC] at hc
  rw [hL] at htt
  rw [hR] at hrd
  cases ht
  cases hc
  cases htt
  cases hrd
  simp only [UInt16.ofNat_toNat, UInt32.ofNat_toNat, Prod.mk.injEq] at hr hd
  obtain rfl := hD buf _ hdt data hd
  obtain ⟨rfl, rfl⟩ := hr
  refine ⟨?_, ?_, ⟨hlw.symm, rfl, rfl, rfl, rfl⟩, rfl⟩
  · simp only [write, recordTail, enc16, enc32, length_append, BigEndian.length_encode]
    omega
  · simp only [packRecord, recordTail, haa, map_some, if_pos hlen]

section
variable {α : Type} {f : Packer → α → Option Packer} {g : List UInt8 → Nat → Option (α × Nat)}
  {Back : α → α → Prop}

theorem foldlM_keeps (hf : Keeps f) : ∀ {xs : List α} {s s' : Packer}, xs.foldlM f s = some s' → s.Ok →
    s'.Ok ∧ s.buf <+: s'.buf
  | [], s, s', h, hs => by
    cases h
    exact ⟨hs, prefix_rfl⟩
  | x :: xs, s, s', h, hs => by
    obtain ⟨s1, h1, h2⟩ := bind_eq_some_iff.1 h
    obtain ⟨hs1, hp1⟩ := hf s s1 x h1 hs
    obtain ⟨hs2, hp2⟩ := foldlM_keeps hf h2 hs1
    exact ⟨hs2, hp1.trans hp2⟩

theorem unpackMany_packed (hf : Keeps f) {buf : List UInt8} : ∀ {xs ys : List α} {s s' : Packer} {off : Nat},
    (∀ x ∈ xs, Rereads f g Back x) → xs.foldlM f s = some s' → s.Ok → s'.buf <+: buf →
    unpackMany (g buf) xs.length s.buf.length = some (ys, off) →
    off = s'.buf.length ∧ ys.foldlM f s = some s' ∧ List.Forall₂ Back xs ys
  | [], ys, s, s', off, _, h, _, _, hr => by
    cases h
    cases hr
    exact ⟨rfl, rfl, .nil⟩
  | x :: xs, ys, s, s', off, hx, h, hs, hbf, hr => by
    obtain ⟨s1, h1, h2⟩ := Option.bind_eq_some_iff.1 h
    obtain ⟨hs1, -⟩ := hf s s1 x h1 hs
    have hrs : ∀ y ∈ xs, Rereads f g Back y := fun y hy => hx y (mem_cons_of_mem _ hy)
    obtain ⟨-, hp2⟩ := foldlM_keeps hf h2 hs1
    simp only [length_cons, unpackMany, Option.bind_eq_bind, Option.bind_eq_some_iff, Option.pure_def,
      Option.some.injEq] at hr
    obtain ⟨⟨y, off1⟩, hy, ⟨ys', off'⟩, hys, hp⟩ := hr
    cases hp
    obtain ⟨rfl, hagain, hbk⟩ := hx x mem_cons_self s s1 buf y off1 h1 hs (hp2.trans hbf) hy
    obtain ⟨rfl, haa, hb⟩ := unpackMany_packed hf hrs h2 hs1 hbf hys
    refine ⟨rfl, ?_, .cons hbk hb⟩
    exact Option.bind_eq_some_iff.2 ⟨s1, hagain, haa⟩

end

/-! ## Under another header

What is appended depends on the length of the buffer and on the map only. -/

def Packer.Alike (s t : Packer) : Prop := s.buf.length = t.buf.length ∧ s.compression = t.compression

variable {t : Packer}

theorem Packer.Alike.write (h : s.Alike t) (octets : List UInt8) : (s.write octets).Alike (t.write octets) := by
  refine ⟨?_, h.2⟩
  simp [Packer.write, h.1]

theorem Packer.Alike.register (h : s.Alike t) (key : List UInt8) (hops : Nat) :
    (s.register key hops).Alike (t.register key hops) := by
  have hlk : s.lookup key = t.lookup key := by rw [Packer.lookup, Packer.lookup, h.2]
  unfold Packer.register
  rw [hlk]
  split
  · exact h
  · exact ⟨h.1, by rw [h.1, h.2]⟩

theorem Packer.Alike.emit (hops : Nat) : ∀ (k : Nat) (n : WireName) {s t : Packer}, s.Alike t →
    (Protocol.emit hops k n s).Alike (Protocol.emit hops k n t)
  | 0, _, _, _, h => by
    rw [Protocol.emit, Protocol.emit]
    · exact h
    all_goals simp
  | _ + 1, [], _, _, h => h
  | k + 1, l :: ls, _, _, h => by
    rw [Protocol.emit, Protocol.emit]
    exact Packer.Alike.emit hops k ls ((h.register _ _).write _)

theorem Packer.Alike.findSuffix (h : s.Alike t) : ∀ n : WireName, Protocol.findSuffix s n = Protocol.findSuffix t n
  | [] => rfl
  | l :: ls => by
    have hlk : s.lookup (suffixKey (l :: ls)) = t.lookup (suffixKey (l :: ls)) := by
      rw [lookup, lookup, h.2]
    rw [Protocol.findSuffix, Protocol.findSuffix, hlk, h.findSuffix ls]

/-- The writer appends the same octets to any buffer of the same length. -/
def Shifts {α : Type} (f : Packer → α → Option Packer) (x : α) : Prop :=
  ∀ s t s' : Packer, f s x = some s' → s.Alike t →
    ∃ t' octets, f t x = some t' ∧ s'.Alike t' ∧ s'.buf = s.buf ++ octets ∧ t'.buf = t.buf ++ octets

theorem packName_shifts (n : WireName) : Shifts (fun s n => packName n s) n := by
  intro s t s' h ha
  simp only [packName] at h ⊢
  split at h
  next hvl =>
    rw [if_pos hvl, ← ha.findSuffix n]
    split at h
    next i target hfn =>
      cases h
      refine ⟨_, nameOctets (n.take i) ++ BigEndian.encode 2 (0xC000 + target.offset), rfl,
        (ha.emit _ i n).write _, ?_, ?_⟩
      · rw [write, emit_buf, append_assoc]
      · rw [write, emit_buf, append_assoc]
    · cases h
      refine ⟨_, nameOctets (n.take n.length) ++ [0], rfl, (ha.emit _ _ n).write _, ?_, ?_⟩
      · rw [write, emit_buf, append_assoc]
      · rw [write, emit_buf, append_assoc]
  · cases h

theorem packName_write_shifts (h : (packName n s).map (fun s => s.write octets) = some s') (ha : s.Alike t) :
    ∃ t' more, (packName n t).map (fun s => s.write octets) = some t' ∧ s'.Alike t'
      ∧ s'.buf = s.buf ++ more ∧ t'.buf = t.buf ++ more := by
  obtain ⟨s1, hs1, rfl⟩ := map_eq_some_iff.1 h
  obtain ⟨t1, o, ht1, hal, hs, ht⟩ := packName_shifts n _ _ _ hs1 ha
  refine ⟨t1.write octets, o ++ octets, ?_, hal.write octets, ?_, ?_⟩
  · simp [ht1]
  · rw [write, hs, append_assoc]
  · rw [write, ht, append_assoc]

theorem packQuestion_shifts (q : Question) : Shifts packQuestion q := fun _ _ _ h ha => packName_write_shifts h ha

theorem packRecord_shifts (r : ResourceRecord) : Shifts packRecord r := by
  intro s t s' h ha
  obtain ⟨hlen, h⟩ := packRecord_some h
  obtain ⟨t', o, ht, hrs⟩ := packName_write_shifts h ha
  exact ⟨t', o, by rw [packRecord, if_pos hlen, ht], hrs⟩

theorem foldlM_shifts {α : Type} {f : Packer → α → Option Packer} (hf : ∀ x, Shifts f x) :
    ∀ xs : List α, Shifts (fun s xs => List.foldlM f s xs) xs
  | [] => fun s t s' h ha => by
    cases h
    exact ⟨t, [], rfl, ha, (append_nil _).symm, (append_nil _).symm⟩
  | x :: xs => fun s t s' h ha => by
    obtain ⟨s1, h1, h2⟩ := bind_eq_some_iff.1 h
    obtain ⟨t1, o1, ht1, ha1, hs1, hto1⟩ := hf x _ _ _ h1 ha
    obtain ⟨t', o2, ht2, ha2, hs2, hto2⟩ := foldlM_shifts hf xs _ _ _ h2 ha1
    refine ⟨t', o1 ++ o2, bind_eq_some_iff.2 ⟨t1, ht1, ht2⟩, ha2, ?_, ?_⟩
    · rw [hs2, hs1, append_assoc]
    · rw [hto2, hto1, append_assoc]

theorem packSections_some {m : Message} :
    packSections m s = some s' ↔ ∃ s₁ s₂ s₃, m.questions.foldlM packQuestion s = some s₁
      ∧ m.answers.foldlM packRecord s₁ = some s₂ ∧ m.authorities.foldlM packRecord s₂ = some s₃
      ∧ m.additionals.foldlM packRecord s₃ = some s' := by
  simp only [packSections, bind_eq_bind, bind_eq_some_iff]
  constructor
  · rintro ⟨s₁, h1, s₂, h2, s₃, h3, h4⟩
    exact ⟨s₁, s₂, s₃, h1, h2, h3, h4⟩
  · rintro ⟨s₁, s₂, s₃, h1, h2, h3, h4⟩
    exact ⟨s₁, h1, s₂, h2, s₃, h3, h4⟩

theorem packSections_shifts (m : Message) : Shifts (fun s m => packSections m s) m := by
  intro s t s' h ha
  obtain ⟨s1, s2, s3, h1, h2, h3, h4⟩ := packSections_some.1 h
  obtain ⟨t1, o1, ht1, ha1, hs1, hto1⟩ := foldlM_shifts packQuestion_shifts _ _ _ _ h1 ha
  obtain ⟨t2, o2, ht2, ha2, hs2, hto2⟩ := foldlM_shifts packRecord_shifts _ _ _ _ h2 ha1
  obtain ⟨t3, o3, ht3, ha3, hs3, hto3⟩ := foldlM_shifts packRecord_shifts _ _ _ _ h3 ha2
  obtain ⟨t', o4, ht4, ha4, hs4, hto4⟩ := foldlM_shifts packRecord_shifts _ _ _ _ h4 ha3
  refine ⟨t', o1 ++ o2 ++ o3 ++ o4, packSections_some.2 ⟨t1, t2, t3, ht1, ht2, ht3, ht4⟩, ha4, ?_, ?_⟩
  · rw [hs4, hs3, hs2, hs1]
    simp
  · rw [hto4, hto3, hto2, hto1]
    simp

end NothingDNS.Protocol
