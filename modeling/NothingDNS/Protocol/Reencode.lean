import NothingDNS.Protocol.MessageRoundTrip
/-!
# What the octets of a message determine

The octets of a packed message determine it up to the case of names
(`packMessage_inj`). And a message that was packed with one more additional record
and unpacked packs, without that record, to the octets of the original
(`packMessage_reread`).
-/

namespace NothingDNS.Protocol

open List Option

def Determines {α : Type} (f : Packer → α → Option Packer) (Same : α → α → Prop) : Prop :=
  ∀ s t s' t' x y buf, f s x = some s' → f t y = some t' → s.Ok → t.Ok → s.buf.length = t.buf.length →
    s'.buf <+: buf → t'.buf <+: buf → Same x y ∧ s'.buf.length = t'.buf.length

variable {s s' : Packer} {o buf : List UInt8}

variable {n n' : WireName}

theorem packName_write_determined {t t' : Packer} {o' : List UInt8}
    (h : (packName n s).map (fun s => s.write o) = some s') (h' : (packName n' t).map (fun s => s.write o') = some t')
    (hs : s.Ok) (ht : t.Ok) (hof : s.buf.length = t.buf.length) (hb : s'.buf <+: buf) (hb' : t'.buf <+: buf) :
    lowerName n = lowerName n' ∧ ∃ off, o <+: buf.drop off ∧ o' <+: buf.drop off
      ∧ s'.buf.length = off + o.length ∧ t'.buf.length = off + o'.length := by
  obtain ⟨-, -, m, s1, -, -, rfl, hlw, hst⟩ := packName_write h hs
  obtain ⟨-, -, m', t1, -, -, rfl, hl', hs'⟩ := packName_write h' ht
  obtain ⟨⟨hops, hrd⟩, hoc, hle⟩ := hst hb
  obtain ⟨⟨hops', hrd'⟩, ho', hle'⟩ := hs' hb'
  rw [← hof] at hrd' hle'
  obtain ⟨rfl, hlen⟩ := hrd.unique hrd'
  have hsm : s1.buf.length = t1.buf.length := by omega
  refine ⟨hlw.symm.trans hl', s1.buf.length, hoc, hsm ▸ ho', ?_, ?_⟩
  · rw [Packer.write, length_append]
  · rw [Packer.write, length_append, hsm]

theorem packQuestion_determines : Determines packQuestion Question.Same := by
  intro s t s' t' q q' buf h h' hs ht hof hb hb'
  obtain ⟨hnm, off, ho, ho', hlen, hlen'⟩ := packName_write_determined h h' hs ht hof hb hb'
  have hc : enc16 q.qclass ++ [] <+: buf.drop (off + 2) := by simpa [enc16] using prefix_drop_add ho
  have hc' : enc16 q'.qclass ++ [] <+: buf.drop (off + 2) := by simpa [enc16] using prefix_drop_add ho'
  have hty : q.qtype = q'.qtype := UInt16.toNat_inj.1 (some.inj ((readAt_enc16 ho).symm.trans (readAt_enc16 ho')))
  have hcl : q.qclass = q'.qclass := UInt16.toNat_inj.1 (some.inj ((readAt_enc16 hc).symm.trans (readAt_enc16 hc')))
  refine ⟨⟨hnm, hty, hcl⟩, ?_⟩
  rw [hlen, hlen']
  simp [enc16]

theorem length_recordTail (r : ResourceRecord) : (recordTail r).length = 10 + r.data.octets.length := by
  simp only [recordTail, enc16, enc32, length_append, BigEndian.length_encode]

theorem packRecord_determines : Determines packRecord ResourceRecord.Same := by
  intro s t s' t' r r' buf h h' hs ht hof hb hb'
  obtain ⟨hsz, h⟩ := packRecord_some h
  obtain ⟨hs', h'⟩ := packRecord_some h'
  obtain ⟨hnm, off, ho, ho', hlen, hlen'⟩ := packName_write_determined h h' hs ht hof hb hb'
  obtain ⟨hT, hC, hL, hR, hdt⟩ := recordTail_fields ho hsz
  obtain ⟨hT', hC', hL', hR', hd'⟩ := recordTail_fields ho' hs'
  have hd := some.inj (hR.symm.trans hR')
  refine ⟨⟨hnm, UInt16.toNat_inj.1 (some.inj (hT.symm.trans hT')), UInt16.toNat_inj.1 (some.inj (hC.symm.trans hC')),
    UInt32.toNat_inj.1 (some.inj (hL.symm.trans hL')), ?_⟩, ?_⟩
  · obtain ⟨rest, hrs⟩ := hdt
    obtain ⟨rest', hrs'⟩ := hd'
    exact (append_inj (hrs.trans hrs'.symm) hd).1
  · rw [hlen, hlen', length_recordTail, length_recordTail, hd]

variable {α : Type}

theorem foldlM_determined {f : Packer → α → Option Packer} {Same : α → α → Prop} (hf : Keeps f)
    (hd : Determines f Same) : ∀ {xs ys : List α} {s t s' t' : Packer}, xs.length = ys.length →
      xs.foldlM f s = some s' → ys.foldlM f t = some t' → s.Ok → t.Ok → s.buf.length = t.buf.length →
      s'.buf <+: buf → t'.buf <+: buf → List.Forall₂ Same xs ys ∧ s'.buf.length = t'.buf.length
  | [], [], s, t, s', t', _, h, h', _, _, hof, _, _ => by
    cases h
    cases h'
    exact ⟨.nil, hof⟩
  | [], _ :: _, _, _, _, _, hlen, _, _, _, _, _, _, _ => by simp at hlen
  | _ :: _, [], _, _, _, _, hlen, _, _, _, _, _, _, _ => by simp at hlen
  | x :: xs, y :: ys, s, t, s', t', hlen, h, h', hs, ht, hof, hb, hb' => by
    obtain ⟨s1, h1, h2⟩ := bind_eq_some_iff.1 h
    obtain ⟨t1, h1', h2'⟩ := bind_eq_some_iff.1 h'
    obtain ⟨hs1, -⟩ := hf s s1 x h1 hs
    obtain ⟨ht1, -⟩ := hf t t1 y h1' ht
    obtain ⟨-, hpre⟩ := foldlM_keeps hf h2 hs1
    obtain ⟨-, hpre'⟩ := foldlM_keeps hf h2' ht1
    obtain ⟨hsm, ho1⟩ := hd s t s1 t1 x y buf h1 h1' hs ht hof (hpre.trans hb) (hpre'.trans hb')
    obtain ⟨hrs, hen⟩ := foldlM_determined hf hd (by simpa using hlen) h2 h2' hs1 ht1 ho1 hb hb'
    exact ⟨.cons hsm hrs, hen⟩

theorem length_headerOctets (m : Message) : (headerOctets m).length = 12 := by
  simp [headerOctets, enc16, BigEndian.length_encode]

variable {m : Message}

theorem headerOctets_fields (h : headerOctets m <+: buf) (hc : countsFit m = true) :
    readAt buf 0 2 = some m.id.toNat ∧ readAt buf 2 2 = some m.flags.toNat
      ∧ readAt buf 4 2 = some m.questions.length ∧ readAt buf 6 2 = some m.answers.length
      ∧ readAt buf 8 2 = some m.authorities.length ∧ readAt buf 10 2 = some m.additionals.length := by
  simp only [countsFit, Bool.and_eq_true, decide_eq_true_eq] at hc
  obtain ⟨⟨⟨hq, ha⟩, hn⟩, hr⟩ := hc
  have h0 : headerOctets m <+: buf.drop 0 := by rwa [drop_zero]
  simp only [headerOctets, append_assoc] at h0
  have h2 := prefix_drop_add h0
  have h4 := prefix_drop_add h2
  have h6 := prefix_drop_add h4
  have h8 := prefix_drop_add h6
  have h₁₀ := prefix_drop_add h8
  rw [← append_nil (BigEndian.encode 2 m.additionals.length)] at h₁₀
  simp only [enc16, BigEndian.length_encode, Nat.reduceAdd] at h2 h4 h6 h8 h₁₀
  exact ⟨readAt_enc16 h0, readAt_enc16 h2, readAt_encode h4 (by omega) (by omega), readAt_encode h6 (by omega) (by
    omega), readAt_encode h8 (by omega) (by omega), readAt_encode h₁₀ (by omega) (by omega)⟩

theorem empty_ok (octets : List UInt8) : Packer.Ok ⟨octets, []⟩ := nofun

variable {octets : List UInt8}

theorem packMessage_sections (hd : m.isDSO = false) (h : packMessage m = some octets) :
    countsFit m = true ∧ wireLength m ≤ 65535 ∧ ∃ s, packSections m ⟨headerOctets m, []⟩ = some s ∧ s.buf = octets := by
  rw [packMessage, if_neg (by simp [hd])] at h
  split at h
  next hft =>
    obtain ⟨s, hs, rfl⟩ := map_eq_some_iff.1 h
    exact ⟨hft.1, hft.2, s, hs, rfl⟩
  · cases h

theorem packSections_keeps (h : packSections m s = some s') (hs : s.Ok) : s.buf <+: s'.buf := by
  obtain ⟨s1, s2, s3, h1, h2, h3, h4⟩ := packSections_some.1 h
  obtain ⟨hs1, hp1⟩ := foldlM_keeps packQuestion_keeps h1 hs
  obtain ⟨hs2, hp2⟩ := foldlM_keeps packRecord_keeps h2 hs1
  obtain ⟨hs3, hp3⟩ := foldlM_keeps packRecord_keeps h3 hs2
  obtain ⟨-, hp4⟩ := foldlM_keeps packRecord_keeps h4 hs3
  exact hp1.trans (hp2.trans (hp3.trans hp4))

/-- The same header and sections, up to the case of names. A DSO message has a body in
place of sections. -/
def Message.Same (m m' : Message) : Prop :=
  m.id = m'.id ∧ m.flags = m'.flags
    ∧ if m.isDSO then m.rawBody = m'.rawBody
      else List.Forall₂ Question.Same m.questions m'.questions
        ∧ List.Forall₂ ResourceRecord.Same m.answers m'.answers
        ∧ List.Forall₂ ResourceRecord.Same m.authorities m'.authorities
        ∧ List.Forall₂ ResourceRecord.Same m.additionals m'.additionals

variable {m' : Message}

theorem isDSO_congr (h : m.flags = m'.flags) : m.isDSO = m'.isDSO := by
  rw [Message.isDSO, Message.isDSO, h]

theorem packMessage_ids (h : packMessage m = some octets) : ∃ rest, octets = enc16 m.id ++ (enc16 m.flags ++ rest) := by
  cases hd : m.isDSO with
  | true =>
    rw [packMessage, if_pos hd] at h
    split at h <;> cases h
    exact ⟨_, by simp only [append_assoc]; rfl⟩
  | false =>
    obtain ⟨-, -, s, hs, rfl⟩ := packMessage_sections hd h
    obtain ⟨rest, hrs⟩ := packSections_keeps hs (empty_ok _)
    exact ⟨_, by rw [← hrs, headerOctets]; simp only [append_assoc]; rfl⟩

theorem enc16_inj {x y : UInt16} (h : enc16 x = enc16 y) : x = y := by
  have := congrArg BigEndian.decode h
  rw [enc16, enc16, BigEndian.decode_encode_of_lt x.toNat_lt, BigEndian.decode_encode_of_lt y.toNat_lt] at this
  exact UInt16.toNat_inj.1 this

theorem packMessage_inj (h : packMessage m = some octets) (h' : packMessage m' = some octets) : m.Same m' := by
  obtain ⟨rest, hrs⟩ := packMessage_ids h
  obtain ⟨rest', hrs'⟩ := packMessage_ids h'
  obtain ⟨hid, htl⟩ := append_inj (hrs.symm.trans hrs') (by simp [enc16])
  obtain ⟨hfl, -⟩ := append_inj htl (by simp [enc16])
  have hdo := isDSO_congr (enc16_inj hfl)
  refine ⟨enc16_inj hid, enc16_inj hfl, ?_⟩
  cases hd : m.isDSO with
  | true =>
    rw [packMessage, if_pos hd] at h
    rw [packMessage, if_pos (hdo ▸ hd)] at h'
    split at h
    · split at h'
      · cases h
        rw [some.injEq] at h'
        exact (append_inj h'.symm (by simp [enc16])).2
      · cases h'
    · cases h
  | false =>
    obtain ⟨hc, -, s, hs, hb⟩ := packMessage_sections hd h
    obtain ⟨hc', -, t, ht, hb'⟩ := packMessage_sections (hdo ▸ hd) h'
    have hpre := hb ▸ packSections_keeps hs (empty_ok _)
    have hpre' := hb' ▸ packSections_keeps ht (empty_ok _)
    obtain ⟨-, -, hq, ha, hn, hr⟩ := headerOctets_fields hpre hc
    obtain ⟨-, -, hq', ha', hn', hr'⟩ := headerOctets_fields hpre' hc'
    obtain ⟨s1, s2, s3, h1, h2, h3, h4⟩ := packSections_some.1 hs
    obtain ⟨t1, t2, t3, h1', h2', h3', h4'⟩ := packSections_some.1 ht
    -- each section in turn, from the offset where the one before ended
    obtain ⟨hs1, -⟩ := foldlM_keeps packQuestion_keeps h1 (empty_ok _)
    obtain ⟨ht1, -⟩ := foldlM_keeps packQuestion_keeps h1' (empty_ok _)
    obtain ⟨hs2, hp2⟩ := foldlM_keeps packRecord_keeps h2 hs1
    obtain ⟨ht2, hpt2⟩ := foldlM_keeps packRecord_keeps h2' ht1
    obtain ⟨hs3, hp3⟩ := foldlM_keeps packRecord_keeps h3 hs2
    obtain ⟨ht3, hpt3⟩ := foldlM_keeps packRecord_keeps h3' ht2
    obtain ⟨-, hp4⟩ := foldlM_keeps packRecord_keeps h4 hs3
    obtain ⟨-, hpt4⟩ := foldlM_keeps packRecord_keeps h4' ht3
    have hen : s.buf <+: octets := hb ▸ List.prefix_rfl
    have he' : t.buf <+: octets := hb' ▸ List.prefix_rfl
    obtain ⟨hQ, ho1⟩ := foldlM_determined packQuestion_keeps packQuestion_determines
      (some.inj (hq.symm.trans hq')) h1 h1' (empty_ok _) (empty_ok _)
      ((length_headerOctets m).trans (length_headerOctets m').symm)
      (hp2.trans (hp3.trans (hp4.trans hen))) (hpt2.trans (hpt3.trans (hpt4.trans he')))
    obtain ⟨hA, ho2⟩ := foldlM_determined packRecord_keeps packRecord_determines
      (some.inj (ha.symm.trans ha')) h2 h2' hs1 ht1 ho1 (hp3.trans (hp4.trans hen))
      (hpt3.trans (hpt4.trans he'))
    obtain ⟨hN, ho3⟩ := foldlM_determined packRecord_keeps packRecord_determines
      (some.inj (hn.symm.trans hn')) h3 h3' hs2 ht2 ho2 (hp4.trans hen) (hpt4.trans he')
    obtain ⟨hR, -⟩ := foldlM_determined packRecord_keeps packRecord_determines
      (some.inj (hr.symm.trans hr')) h4 h4' hs3 ht3 ho3 hen he'
    exact ⟨hQ, hA, hN, hR⟩

/-! ## Unpacked and packed again -/

variable {f : Nat → Option (α × Nat)}

theorem unpackMany_add {b : Nat} : ∀ {a off last : Nat} {xs : List α}, unpackMany f (a + b) off = some (xs, last) →
      ∃ ys zs mid, unpackMany f a off = some (ys, mid) ∧ unpackMany f b mid = some (zs, last) ∧ xs = ys ++ zs
  | 0, off, last, xs, h => ⟨[], xs, off, rfl, by rwa [Nat.zero_add] at h, rfl⟩
  | a + 1, off, last, xs, h => by
    rw [Nat.add_right_comm, unpackMany] at h
    simp only [Option.bind_eq_bind, Option.bind_eq_some_iff, Option.pure_def, Option.some.injEq] at h
    obtain ⟨⟨x, off1⟩, hx, ⟨xs', last'⟩, hxs, hp⟩ := h
    cases hp
    obtain ⟨ys, zs, mid, hys, hzs, rfl⟩ := unpackMany_add hxs
    refine ⟨x :: ys, zs, mid, ?_, hzs, rfl⟩
    simp [unpackMany, hx, hys]

theorem unpackSection_some {bound count off : Nat} {r : List α × Nat}
    (h : unpackSection f bound count off = some r) : unpackMany f count off = some r := by
  unfold unpackSection at h
  split at h
  · exact h
  · cases h

def Message.withSections (m : Message) (q : List Question) (a n r : List ResourceRecord) : Message :=
  { id := m.id, flags := m.flags, questions := q, answers := a, authorities := n, additionals := r }

def Message.addRecord (m : Message) (rr : ResourceRecord) : Message :=
  { m with additionals := m.additionals ++ [rr] }

variable {D : RDataReader} {got : Message}

theorem unpackMessage_sections (hd : m.isDSO = false)
    (hpre : headerOctets m <+: buf) (hc : countsFit m = true) (h : unpackMessage D buf = some got) :
    ∃ q a n r o₁ o₂ o₃ o₄, unpackMany (unpackQuestion buf) m.questions.length 12 = some (q, o₁)
      ∧ unpackMany (unpackRecord D buf) m.answers.length o₁ = some (a, o₂)
      ∧ unpackMany (unpackRecord D buf) m.authorities.length o₂ = some (n, o₃)
      ∧ unpackMany (unpackRecord D buf) m.additionals.length o₃ = some (r, o₄) ∧ got = m.withSections q a n r := by
  obtain ⟨hid, hfl, hq, ha, hn, hr⟩ := headerOctets_fields hpre hc
  have hnt : Message.isDSO { id := m.id, flags := m.flags } = false := hd
  simp only [unpackMessage, hid, hfl, hq, ha, hn, hr, Option.bind_eq_bind, Option.bind_some, UInt16.ofNat_toNat,
    hnt, Bool.false_eq_true, if_false, Option.bind_eq_some_iff, Option.pure_def, Option.some.injEq] at h
  obtain ⟨-, -, ⟨q, o₁⟩, h1, ⟨a, o₂⟩, h2, ⟨n, o₃⟩, h3, ⟨r, o₄⟩, h4, rfl⟩ := h
  exact ⟨q, a, n, r, o₁, o₂, o₃, o₄, unpackSection_some h1, unpackSection_some h2, unpackSection_some h3,
    unpackSection_some h4, rfl⟩

theorem map_eq_of_forall₂ {β : Type} {R : α → α → Prop} {f : α → β} (hf : ∀ x y, R x y → f x = f y) {xs ys : List α}
    (h : List.Forall₂ R xs ys) : xs.map f = ys.map f := by
  induction h with
  | nil => rfl
  | cons hxy _ ih => rw [map_cons, map_cons, hf _ _ hxy, ih]

theorem nameLength_congr (h : lowerName n = lowerName n') : nameLength n = nameLength n' := by
  have hlen := congrArg length (suffixKey_congr h)
  simp only [suffixKey, length_map] at hlen
  rw [nameLength, nameLength, hlen]

theorem wireLength_congr (hq : List.Forall₂ Question.Same m.questions m'.questions)
    (ha : List.Forall₂ ResourceRecord.Same m.answers m'.answers)
    (hn : List.Forall₂ ResourceRecord.Same m.authorities m'.authorities)
    (hr : List.Forall₂ ResourceRecord.Same m.additionals m'.additionals) : wireLength m = wireLength m' := by
  have hQ : m.questions.map (fun q => nameLength q.name + 4) = m'.questions.map (fun q => nameLength q.name + 4) :=
    map_eq_of_forall₂ (fun q q' h => by rw [nameLength_congr h.1]) hq
  have hR : ∀ {rs rs' : List ResourceRecord}, List.Forall₂ ResourceRecord.Same rs rs' →
      rs.map (fun r => nameLength r.name + 10 + r.data.octets.length)
        = rs'.map (fun r => nameLength r.name + 10 + r.data.octets.length) :=
    fun h => map_eq_of_forall₂ (fun r r' h => by rw [nameLength_congr h.1, h.2.2.2.2]) h
  simp [wireLength, hQ, hR ha, hR hn, hR hr]

theorem forall₂_same {rs rs' : List ResourceRecord} (h : List.Forall₂ ResourceRecord.Back rs rs') :
    List.Forall₂ ResourceRecord.Same rs rs' := h.imp fun _ _ h => h.1

theorem packMessage_withSections {q : List Question} {a n r : List ResourceRecord}
    (hd : m.isDSO = false) (hm : packMessage m = some o)
    (hlen : s.Alike ⟨headerOctets m, []⟩) (hor : packSections m s = some s')
    (hg : packSections (m.withSections q a n r) s = some s')
    (hQ : List.Forall₂ Question.Same m.questions q) (hA : List.Forall₂ ResourceRecord.Back m.answers a)
    (hN : List.Forall₂ ResourceRecord.Back m.authorities n) (hR : List.Forall₂ ResourceRecord.Back m.additionals r) :
    packMessage (m.withSections q a n r) = some o := by
  obtain ⟨hc, hw, t, ht, rfl⟩ := packMessage_sections hd hm
  obtain ⟨t1, x1, ht1, -, hx1, hb1⟩ := packSections_shifts _ _ _ _ hg hlen
  obtain ⟨t2, x2, ht2, -, hx2, hb2⟩ := packSections_shifts _ _ _ _ hor hlen
  obtain rfl : x1 = x2 := append_cancel_left (hx1.symm.trans hx2)
  obtain rfl : t = t2 := some.inj (ht.symm.trans ht2)
  have hh : headerOctets (m.withSections q a n r) = headerOctets m := by
    simp [headerOctets, Message.withSections, hQ.length_eq, hA.length_eq, hN.length_eq, hR.length_eq]
  have hcn : countsFit (m.withSections q a n r) = true := by
    simp only [countsFit, Bool.and_eq_true, decide_eq_true_eq] at hc ⊢
    simpa only [Message.withSections, ← hQ.length_eq, ← hA.length_eq, ← hN.length_eq, ← hR.length_eq] using hc
  have hwr : wireLength (m.withSections q a n r) = wireLength m :=
    (wireLength_congr hQ (forall₂_same hA) (forall₂_same hN) (forall₂_same hR)).symm
  have hnt : (m.withSections q a n r).isDSO = false := hd
  rw [packMessage, if_neg (by simp [hnt]), if_pos ⟨hcn, hwr ▸ hw⟩, hh]
  simp only at ht1
  rw [ht1, map_some, hb1, hb2]

theorem packMessage_reread {rr : ResourceRecord}
    (hd : m.isDSO = false) (hm : packMessage m = some o) (hp : packMessage (m.addRecord rr) = some octets)
    (hD : ∀ r ∈ m.answers ++ m.authorities ++ m.additionals ++ [rr], ReadsBack D r)
    (hun : unpackMessage D octets = some got) :
    ∃ q a n adds rr', got = m.withSections q a n (adds ++ [rr']) ∧ List.Forall₂ ResourceRecord.Back m.additionals adds
      ∧ rr.Back rr' ∧ packMessage (m.withSections q a n adds) = some o := by
  have hd' : (m.addRecord rr).isDSO = false := hd
  obtain ⟨hc', -, s, hs, hbf⟩ := packMessage_sections hd' hp
  have hpre := hbf ▸ packSections_keeps hs (empty_ok _)
  obtain ⟨q, a, n, r, o1, o2, o3, o4, hq, ha, hn, hr, rfl⟩ := unpackMessage_sections hd' hpre hc' hun
  obtain ⟨s1, s2, s3, h1, h2, h3, h4⟩ : ∃ s1 s2 s3,
      m.questions.foldlM packQuestion ⟨headerOctets (m.addRecord rr), []⟩ = some s1
        ∧ m.answers.foldlM packRecord s1 = some s2 ∧ m.authorities.foldlM packRecord s2 = some s3
        ∧ (m.additionals ++ [rr]).foldlM packRecord s3 = some s := packSections_some.1 hs
  obtain ⟨s4, h4, h5⟩ : ∃ s4, m.additionals.foldlM packRecord s3 = some s4 ∧ packRecord s4 rr = some s := by
    simpa [foldlM_append, bind_eq_some_iff] using h4
  -- the states between the sections are right, and prefixes of the octets
  obtain ⟨hs1, -⟩ := foldlM_keeps packQuestion_keeps h1 (empty_ok _)
  obtain ⟨hs2, hp2⟩ := foldlM_keeps packRecord_keeps h2 hs1
  obtain ⟨hs3, hp3⟩ := foldlM_keeps packRecord_keeps h3 hs2
  obtain ⟨hs4, hp4⟩ := foldlM_keeps packRecord_keeps h4 hs3
  obtain ⟨-, hp5⟩ := packRecord_keeps s4 s rr h5 hs4
  have hen : s.buf <+: octets := hbf ▸ List.prefix_rfl
  have hrd : ∀ r ∈ m.answers ++ m.authorities ++ m.additionals ++ [rr],
      Rereads packRecord (unpackRecord D) ResourceRecord.Back r := fun r hr => packRecord_rereads (hD r hr)
  -- the sections read back, each from the offset where the one before ended
  rw [← length_headerOctets (m.addRecord rr)] at hq
  obtain ⟨rfl, hqs, hQ⟩ := unpackMany_packed packQuestion_keeps (fun q _ => packQuestion_rereads q) h1 (empty_ok _)
    (hp2.trans (hp3.trans (hp4.trans (hp5.trans hen)))) hq
  obtain ⟨rfl, has, hA⟩ := unpackMany_packed packRecord_keeps (fun r hr => hrd r (by simp [hr])) h2 hs1
    (hp3.trans (hp4.trans (hp5.trans hen))) ha
  obtain ⟨rfl, hns, hN⟩ := unpackMany_packed packRecord_keeps (fun r hr => hrd r (by simp [hr])) h3 hs2
    (hp4.trans (hp5.trans hen)) hn
  obtain ⟨adds, last, mid, had, hls, rfl⟩ :
      ∃ ys zs mid, unpackMany (unpackRecord D octets) m.additionals.length s3.buf.length = some (ys, mid)
        ∧ unpackMany (unpackRecord D octets) [rr].length mid = some (zs, o4) ∧ r = ys ++ zs :=
    unpackMany_add (by simpa [Message.addRecord] using hr)
  obtain ⟨rfl, hrs, hR⟩ := unpackMany_packed packRecord_keeps (fun r hr => hrd r (by simp [hr])) h4 hs3
    (hp5.trans hen) had
  have hsn : [rr].foldlM packRecord s4 = some s := bind_eq_some_iff.2 ⟨s, h5, rfl⟩
  obtain ⟨-, -, hbk⟩ := unpackMany_packed packRecord_keeps (fun r hr => hrd r (by simp_all)) hsn hs4 hen
    hls
  obtain ⟨rr', rfl, hrr'⟩ : ∃ rr', last = [rr'] ∧ rr.Back rr' := by
    cases hbk with
    | cons hb hnil =>
      cases hnil
      exact ⟨_, rfl, hb⟩
  refine ⟨q, a, n, adds, rr', rfl, hR, hrr', ?_⟩
  have hal : Packer.Alike ⟨headerOctets (m.addRecord rr), []⟩ ⟨headerOctets m, []⟩ :=
    ⟨(length_headerOctets (m.addRecord rr)).trans (length_headerOctets m).symm, rfl⟩
  exact packMessage_withSections hd hm hal
    (packSections_some.2 ⟨s1, s2, s3, h1, h2, h3, h4⟩) (packSections_some.2 ⟨s1, s2, s3, hqs, has, hns, hrs⟩)
    hQ hA hN hR

end NothingDNS.Protocol
