import NothingDNS.Transfer.Ddns
/-!
# What a dynamic update keeps

`ApplyUpdate` works on the live zone, operation by operation, and stops at the first error: what earlier operations
did stays (`update_applied_in_part`).

The rules of RFC 2136 section 3.4.2 are enforced for additions. Deletions are not held back from the apex: its SOA and
its last NS record can be deleted (`apex_deleted`).
-/

namespace NothingDNS.Transfer

open List UpdateOperation

variable {z z' : Zone} {op : UpdateOperation} {name : Text}

/-! ## One record list -/

variable {p : Record → Bool} {f : Record → Record}

theorem updateFirst_eq_some : ∀ {l l' : List Record}, updateFirst p f l = some l' →
      ∃ a r b, l = a ++ r :: b ∧ l' = a ++ f r :: b ∧ p r = true ∧ ∀ x ∈ a, p x = false
  | r :: l, l', h => by
    rw [updateFirst] at h
    split at h
    · cases h
      exact ⟨[], r, l, rfl, rfl, ‹_›, by simp⟩
    next hr =>
      obtain ⟨l1, hl, rfl⟩ := Option.map_eq_some_iff.1 h
      obtain ⟨a, x, b, rfl, rfl, hx, ha⟩ := updateFirst_eq_some hl
      refine ⟨r :: a, x, b, rfl, rfl, hx, ?_⟩
      rw [forall_mem_cons]
      exact ⟨by simpa using hr, ha⟩

theorem updateFirst_eq_none : ∀ {l : List Record}, updateFirst p f l = none → ∀ x ∈ l, p x = false
  | [], _ => by simp
  | r :: l, h => by
    rw [updateFirst] at h
    split at h
    · cases h
    next hr =>
      rw [forall_mem_cons]
      exact ⟨by simpa using hr, updateFirst_eq_none (Option.map_eq_none_iff.1 h)⟩

section records

variable {recs : List Record} {other : Text}

theorem recordsAt_setRecords_self : (setRecords z name recs).recordsAt name = recs := by
  simp [setRecords, Zone.recordsAt]

theorem recordsAt_setRecords_of_ne (h : other ≠ name) :
    (setRecords z name recs).recordsAt other = z.recordsAt other := by
  simp [setRecords, Zone.recordsAt, AList.lookup_insert_ne h]

theorem recordsAt_erase_self : ({ z with records := z.records.erase name } : Zone).recordsAt name = [] := by
  simp [Zone.recordsAt]

theorem recordsAt_erase_of_ne (h : other ≠ name) :
    ({ z with records := z.records.erase name } : Zone).recordsAt other = z.recordsAt other := by
  simp [Zone.recordsAt, AList.lookup_erase_ne h]

theorem recordsAt_filterRecords_self (drop : Record → Bool) :
    (filterRecords z name drop).recordsAt name = (z.recordsAt name).filter fun r => !drop r := by
  unfold filterRecords
  cases h : z.records.lookup name with
  | none => simp [Zone.recordsAt, h]
  | some recs =>
    have hat : z.recordsAt name = recs := by rw [Zone.recordsAt, h]; rfl
    rw [hat]
    dsimp only
    unfold putRecords
    split
    next hnil =>
      rw [hnil, recordsAt_erase_self]
    · exact recordsAt_setRecords_self

theorem recordsAt_filterRecords_of_ne (drop : Record → Bool) (h : other ≠ name) :
    (filterRecords z name drop).recordsAt other = z.recordsAt other := by
  unfold filterRecords
  split
  · rfl
  unfold putRecords
  split
  · exact recordsAt_erase_of_ne h
  · exact recordsAt_setRecords_of_ne h

theorem filterRecords_frame (z : Zone) (name : Text) (drop : Record → Bool) :
    (filterRecords z name drop).origin = z.origin ∧ (filterRecords z name drop).soa = z.soa := by
  unfold filterRecords
  split
  · exact ⟨rfl, rfl⟩
  unfold putRecords
  split <;> exact ⟨rfl, rfl⟩

end records

/-! ## All or nothing -/

variable {err : UpdateError}

theorem applyAddSOA_error (h : (applyAddSOA z name op).2 = some err) :
    parseSOAFromRData op.rdata = none ∧ (applyAddSOA z name op).1 = z := by
  unfold applyAddSOA at h ⊢
  split at h
  · cases h
  rename_i hnm
  rw [if_neg hnm]
  cases hp : parseSOAFromRData op.rdata with
  | none => exact ⟨rfl, rfl⟩
  | some soa =>
    rw [hp] at h
    dsimp only at h
    split at h
    · cases h
    split at h <;> cases h

theorem applyAdd_error (h : (applyAdd z name op).2 = some err) :
    op.type = typeSOA ∧ parseSOAFromRData op.rdata = none ∧ (applyAdd z name op).1 = z := by
  unfold applyAdd at h ⊢
  dsimp only at h ⊢
  split at h
  · split at h
    · cases h
    split at h <;> cases h
  rename_i hcn
  rw [if_neg hcn]
  split at h
  · cases h
  rename_i hay
  rw [if_neg hay]
  split at h
  next hso =>
    rw [if_pos hso]
    obtain ⟨hp, hz⟩ := applyAddSOA_error h
    exact ⟨hso, hp, hz⟩
  · split at h <;> cases h

theorem applyOperation_error (h : (applyOperation z op).2 = some err) : (applyOperation z op).1 = z := by
  unfold applyOperation at h ⊢
  cases hop : op.operation with rw [hop] at h
  | delete | deleteRRSet | deleteName =>
    cases h
  | add =>
    dsimp only at h ⊢
    cases hv : validateRecordData (normalizeZoneOwner op.name z.origin) op.rdata with
    | some e => rfl
    | none =>
      rw [hv] at h
      exact (applyAdd_error h).2.2

theorem applyAdd_origin (z : Zone) (name : Text) (op : UpdateOperation) : (applyAdd z name op).1.origin = z.origin := by
  unfold applyAdd
  dsimp only
  split
  · split
    · rfl
    split <;> rfl
  split
  · rfl
  split
  · unfold applyAddSOA
    split
    · rfl
    split
    · rfl
    split
    · rfl
    dsimp only
    split <;> rfl
  · split <;> rfl

theorem applyOperation_origin (z : Zone) (op : UpdateOperation) : (applyOperation z op).1.origin = z.origin := by
  unfold applyOperation
  cases op.operation with
  | add =>
    dsimp only
    split
    · rfl
    · exact applyAdd_origin _ _ _
  | delete | deleteRRSet => exact (filterRecords_frame _ _ _).1
  | deleteName => rfl

theorem applyOperations_cons (z : Zone) (op : UpdateOperation) (ops : List UpdateOperation) :
    (∃ err, (applyOperation z op).2 = some err ∧ applyOperations z (op :: ops) = ((applyOperation z op).1, some err)) ∨
    (applyOperation z op).2 = none ∧ applyOperations z (op :: ops) = applyOperations (applyOperation z op).1 ops := by
  rw [applyOperations]
  rcases h : applyOperation z op with ⟨z1, none | err⟩
  · exact .inr ⟨rfl, rfl⟩
  · exact .inl ⟨err, rfl, rfl⟩

/-- An update fails at the first of its operations that does, and leaves what the ones before it made. -/
theorem applyOperations_error : ∀ {ops : List UpdateOperation} {z : Zone}, (applyOperations z ops).2 = some err →
    ∃ done op rest, ops = done ++ op :: rest ∧ (applyOperations z done).2 = none ∧
      (applyOperation (applyOperations z done).1 op).2 = some err ∧
      (applyOperations z ops).1 = (applyOperations z done).1
  | [], _, h => by cases h
  | op :: ops, z, h => by
    rcases applyOperations_cons z op ops with ⟨e, he, heq⟩ | ⟨hnn, heq⟩
    · rw [heq] at h ⊢
      obtain rfl : e = err := Option.some.inj h
      exact ⟨[], op, ops, rfl, rfl, he, applyOperation_error he⟩
    · rw [heq] at h ⊢
      obtain ⟨done, o, rest, rfl, hdn, ho, hst⟩ := applyOperations_error h
      have hcn : applyOperations z (op :: done) = applyOperations (applyOperation z op).1 done := by
        rcases applyOperations_cons z op done with ⟨e, he, -⟩ | ⟨-, hcn⟩
        · rw [hnn] at he
          cases he
        · exact hcn
      exact ⟨op :: done, o, rest, rfl, hcn ▸ hdn, hcn ▸ ho, hcn ▸ hst⟩

theorem applyOperations_append : ∀ {done rest : List UpdateOperation} {z : Zone}, (applyOperations z done).2 = none →
    applyOperations z (done ++ rest) = applyOperations (applyOperations z done).1 rest
  | [], _, _, _ => rfl
  | op :: done, rest, z, h => by
    rcases applyOperations_cons z op done with ⟨e, -, heq⟩ | ⟨hnn, heq⟩
    · rw [heq] at h
      cases h
    · rw [heq] at h ⊢
      rcases applyOperations_cons z op (done ++ rest) with ⟨e, he, -⟩ | ⟨-, hcn⟩
      · rw [hnn] at he
        cases he
      · rw [cons_append, hcn, applyOperations_append h]

/-- The same records, SOA and serial. -/
def Zone.SameContent (z z' : Zone) : Prop := z'.soa = z.soa ∧ ∀ name, z'.records.lookup name = z.records.lookup name

def updateZone : Zone where
  origin := "e.".toList
  defaultTTL := 60
  soa := some ⟨"e.".toList, 60, "n.e.".toList, "h.e.".toList, 1, 2, 3, 4, 5⟩
  records := (∅ : RecordMap).insert "e.".toList
    [⟨"e.".toList, 60, "IN".toList, "SOA".toList, "n.e. h.e. 1 2 3 4 5".toList⟩,
      ⟨"e.".toList, 60, "IN".toList, "NS".toList, "n.e.".toList⟩]
  ns := []

def addA : UpdateOperation := ⟨"a.e.".toList, "A".toList, 60, "192.0.2.1".toList, .add⟩
def addNewline : UpdateOperation := ⟨"b.e.".toList, "TXT".toList, 60, "x\ny".toList, .add⟩

/-- What RFC 2136 asks of one owner: a CNAME stands alone, and no record is there twice. -/
structure OwnerOk (l : List Record) : Prop where
  cname : ∀ r ∈ l, r.type = typeCNAME → l = [r]
  distinct : l.Pairwise fun r s => ¬ (r.type = s.type ∧ r.rdata = s.rdata)

/-- What it asks of the apex: one SOA, which is `z.SOA`, and a name server. -/
structure ApexOk (soa : Option SOARecord) (l : List Record) : Prop where
  one : ∃ r soa', l.filter (fun r => r.type = typeSOA) = [r] ∧ soa = some soa' ∧
    parseSOAFromRData r.rdata = some soa'.data ∧ r.ttl = soa'.ttl
  ns : ∃ r ∈ l, r.type = typeNS

structure WellFormed (z : Zone) : Prop where
  owner : ∀ name, OwnerOk (z.recordsAt name)
  apex : ApexOk z.soa (z.recordsAt z.origin)

section lists

variable {a b l : List Record} {r r' : Record} {soa : Option SOARecord}

theorem OwnerOk.filter (h : OwnerOk l) (p : Record → Bool) : OwnerOk (l.filter p) where
  cname r hr ht := by
    obtain ⟨hmem, hp⟩ := mem_filter.1 hr
    rw [h.cname r hmem ht, filter_singleton, hp]
    rfl
  distinct := h.distinct.sublist filter_sublist

theorem OwnerOk.append (h : OwnerOk l) (hl : ∀ x ∈ l, x.type ≠ typeCNAME)
    (hr : r.type ≠ typeCNAME) (hnw : ∀ x ∈ l, ¬ (x.type = r.type ∧ x.rdata = r.rdata)) : OwnerOk (l ++ [r]) where
  cname x hx ht := by
    rcases mem_append.1 hx with hx | hx
    · exact absurd ht (hl x hx)
    · rw [mem_singleton.1 hx] at ht
      exact absurd ht hr
  distinct := by
    rw [pairwise_append]
    refine ⟨h.distinct, pairwise_singleton _ _, fun x hx y hy => ?_⟩
    rw [mem_singleton.1 hy]
    exact hnw x hx

theorem OwnerOk.replace (h : OwnerOk (a ++ r :: b)) (ht : r'.type = r.type)
    (hd : r'.rdata = r.rdata ∨ ∀ x ∈ a ++ b, x.type ≠ r.type) : OwnerOk (a ++ r' :: b) where
  cname x hx hc := by
    have alone : ∀ y, a ++ r :: b = [y] → a = [] ∧ b = [] := by
      intro y hy
      have := congrArg length hy
      simp only [length_append, length_cons, length_nil] at this
      exact ⟨length_eq_zero_iff.1 (by omega), length_eq_zero_iff.1 (by omega)⟩
    rw [mem_append, mem_cons] at hx
    rcases hx with hx | rfl | hx
    · obtain ⟨rfl, -⟩ := alone x (h.cname x (by simp [hx]) hc)
      cases hx
    · obtain ⟨rfl, rfl⟩ := alone r (h.cname r (by simp) (ht ▸ hc))
      rfl
    · obtain ⟨-, rfl⟩ := alone x (h.cname x (by simp [hx]) hc)
      cases hx
  distinct := by
    have hdt := h.distinct
    rw [pairwise_append, pairwise_cons] at hdt ⊢
    obtain ⟨ha, ⟨hrb, hb⟩, hab⟩ := hdt
    have keep : ∀ x ∈ a ++ b, ¬ (x.type = r.type ∧ x.rdata = r.rdata) →
        ¬ (x.type = r'.type ∧ x.rdata = r'.rdata) := by
      rintro x hx hne ⟨hxt, hxd⟩
      rcases hd with hd | hd
      · exact hne ⟨hxt.trans ht, hxd.trans hd⟩
      · exact hd x hx (hxt.trans ht)
    refine ⟨ha, ⟨fun y hy heq => ?_, hb⟩, fun x hx y hy => ?_⟩
    · exact keep y (by simp [hy]) (fun h' => hrb y hy ⟨h'.1.symm, h'.2.symm⟩) ⟨heq.1.symm, heq.2.symm⟩
    · rcases mem_cons.1 hy with rfl | hy
      · exact keep x (by simp [hx]) (hab x hx r mem_cons_self)
      · exact hab x hx y (mem_cons_of_mem _ hy)

theorem ApexOk.congr (h : ApexOk soa l) {l' : List Record}
    (hso : l'.filter (fun r => r.type = typeSOA) = l.filter (fun r => r.type = typeSOA))
    (hns : ∃ r ∈ l', r.type = typeNS) : ApexOk soa l' :=
  ⟨by rw [hso]; exact h.one, hns⟩

theorem ApexOk.soa_split (h : ApexOk soa (a ++ r :: b)) (hr : r.type = typeSOA) :
    (∀ x ∈ a ++ b, x.type ≠ typeSOA) ∧ ∃ soa', soa = some soa' ∧
      parseSOAFromRData r.rdata = some soa'.data ∧ r.ttl = soa'.ttl := by
  obtain ⟨x, soa', hf, hs, hp, ht⟩ := h.one
  rw [filter_append, filter_cons_of_pos (by simpa using hr)] at hf
  have hlen := congrArg length hf
  simp only [length_append, length_cons, length_nil] at hlen
  have ha : a.filter (fun r => r.type = typeSOA) = [] := length_eq_zero_iff.1 (by omega)
  have hb : b.filter (fun r => r.type = typeSOA) = [] := length_eq_zero_iff.1 (by omega)
  rw [ha, hb, nil_append] at hf
  obtain rfl : r = x := by simpa using hf
  refine ⟨fun y hy hty => ?_, soa', hs, hp, ht⟩
  have : y ∈ (a ++ b).filter (fun r => r.type = typeSOA) := mem_filter.2 ⟨hy, by simpa using hty⟩
  rw [filter_append, ha, hb] at this
  cases this

theorem ApexOk.replace_soa {soa' : SOARecord} (h : ApexOk soa (a ++ r :: b)) (hr : r.type = typeSOA)
    (ht : r'.type = typeSOA) (hp : parseSOAFromRData r'.rdata = some soa'.data) (htt : r'.ttl = soa'.ttl) :
    ApexOk (some soa') (a ++ r' :: b) := by
  obtain ⟨hot, -⟩ := h.soa_split hr
  have hno : ∀ l : List Record, (∀ x ∈ l, x ∈ a ++ b) → l.filter (fun r => r.type = typeSOA) = [] := by
    intro l hl
    rw [filter_eq_nil_iff]
    intro x hx
    simpa using hot x (hl x hx)
  refine ⟨⟨r', soa', ?_, rfl, hp, htt⟩, ?_⟩
  · rw [filter_append, filter_cons_of_pos (by simpa using ht), hno a (by simp_all), hno b (by simp_all), nil_append]
  · obtain ⟨x, hx, hns⟩ := h.ns
    rw [mem_append, mem_cons] at hx
    rcases hx with hx | rfl | hx
    · exact ⟨x, by simp [hx], hns⟩
    · rw [hr] at hns
      exact absurd hns (by decide)
    · exact ⟨x, by simp [hx], hns⟩

end lists

theorem WellFormed.change (name : Text) (h : WellFormed z) (ho : z'.origin = z.origin)
    (hot : ∀ other, other ≠ name → z'.recordsAt other = z.recordsAt other)
    (hown : OwnerOk (z'.recordsAt name)) (hap : name = z.origin → ApexOk z'.soa (z'.recordsAt name))
    (hso : name ≠ z.origin → z'.soa = z.soa) : WellFormed z' where
  owner other := by
    by_cases hne : other = name
    · rwa [hne]
    · rw [hot other hne]
      exact h.owner other
  apex := by
    rw [ho]
    by_cases hne : name = z.origin
    · rw [← hne]
      exact hap hne
    · rw [hot _ (Ne.symm hne), hso hne]
      exact h.apex

theorem WellFormed.setRecords (h : WellFormed z) {recs : List Record} (hown : OwnerOk recs)
    (hap : name = z.origin → ApexOk z.soa recs) : WellFormed (setRecords z name recs) := by
  refine h.change name rfl (fun _ => recordsAt_setRecords_of_ne) ?_ (fun hn => ?_) fun _ => rfl
  · rwa [recordsAt_setRecords_self]
  · rw [recordsAt_setRecords_self]
    exact hap hn

theorem WellFormed.apex_no_cname (h : WellFormed z) {r : Record} (hr : r ∈ z.recordsAt z.origin) :
    r.type ≠ typeCNAME := by
  intro ht
  have hon := (h.owner z.origin).cname r hr ht
  obtain ⟨x, hx, hns⟩ := h.apex.ns
  rw [hon, mem_singleton] at hx
  rw [hx, ht] at hns
  exact absurd hns (by decide)

theorem WellFormed.applyAddSOA (h : WellFormed z) (hz : apexOf z.origin = z.origin) :
    WellFormed (applyAddSOA z name op).1 := by
  unfold Transfer.applyAddSOA
  split
  · exact h
  rename_i hnm
  rw [not_not, hz] at hnm
  subst hnm
  cases hp : parseSOAFromRData op.rdata with
  | none => exact h
  | some newSOA =>
    dsimp only
    split
    · exact h
    have hd := (token_of_parseSOAFromRData hp).2.2
    have hat : ({ z with soa := some { newSOA with name := z.origin, ttl := op.ttl } } : Zone).recordsAt
        z.origin = z.recordsAt z.origin := rfl
    rw [hat]
    split
    next recs hu =>
      obtain ⟨a, r, b, hl, rfl, hr, -⟩ := updateFirst_eq_some hu
      rw [decide_eq_true_eq] at hr
      have hown := h.owner z.origin
      have hap := h.apex
      rw [hl] at hown hap
      refine h.change z.origin rfl (fun _ hne => recordsAt_setRecords_of_ne hne) ?_
        (fun _ => ?_) fun hne => absurd rfl hne
      · rw [recordsAt_setRecords_self]
        refine hown.replace rfl (.inr fun x hx => ?_)
        rw [hr]
        exact (hap.soa_split hr).1 x hx
      · rw [recordsAt_setRecords_self]
        refine hap.replace_soa hr hr ?_ rfl
        rw [hp, ← hd]
        rfl
    next hu =>
      obtain ⟨r, -, hf, -⟩ := h.apex.one
      have hmem : r ∈ (z.recordsAt z.origin).filter fun r => r.type = typeSOA := by rw [hf]; simp
      obtain ⟨hr, ht⟩ := mem_filter.1 hmem
      exact absurd (updateFirst_eq_none hu r hr) (by simpa using ht)

theorem WellFormed.applyAdd (h : WellFormed z) (hz : apexOf z.origin = z.origin) :
    WellFormed (applyAdd z name op).1 := by
  unfold Transfer.applyAdd
  dsimp only
  split
  next hcn =>
    split
    next recs hu =>
      obtain ⟨a, r, b, hl, rfl, hr, -⟩ := updateFirst_eq_some hu
      rw [decide_eq_true_eq] at hr
      have hmem : r ∈ z.recordsAt name := by rw [hl]; simp
      have hown := h.owner name
      have hon := hown.cname r hmem hr
      rw [hl] at hown hon
      refine h.setRecords (hown.replace rfl (.inr fun x hx => ?_)) fun hn => ?_
      · have := congrArg length hon
        have hpos := length_pos_of_mem hx
        simp only [length_append, length_cons, length_nil] at this hpos
        omega
      · subst hn
        exact absurd hr (h.apex_no_cname hmem)
    · split
      · exact h
      next hnil =>
        rw [not_not] at hnil
        refine h.setRecords ?_ fun hn => ?_
        · rw [hnil, nil_append]
          exact ⟨fun r hr _ => by rw [mem_singleton.1 hr], pairwise_singleton _ _⟩
        · subst hn
          obtain ⟨r, hr, -⟩ := h.apex.ns
          rw [hnil] at hr
          cases hr
  rename_i hcn
  split
  · exact h
  rename_i hay
  have hno : ∀ x ∈ z.recordsAt name, x.type ≠ typeCNAME := by simpa using hay
  split
  · exact h.applyAddSOA hz
  rename_i hso
  split
  next recs hu =>
    obtain ⟨a, r, b, hl, rfl, hr, -⟩ := updateFirst_eq_some hu
    rw [decide_eq_true_eq] at hr
    have hown := h.owner name
    rw [hl] at hown
    refine h.setRecords (hown.replace rfl (.inl rfl)) fun hn => ?_
    subst hn
    have hap := h.apex
    rw [hl] at hap
    have hrs : r.type ≠ typeSOA := hr.1 ▸ hso
    refine hap.congr ?_ ?_
    · rw [filter_append, filter_append, filter_cons_of_neg (by simpa using hrs),
        filter_cons_of_neg (by simpa using hrs)]
    · obtain ⟨x, hx, hns⟩ := hap.ns
      rw [mem_append, mem_cons] at hx
      rcases hx with hx | rfl | hx
      · exact ⟨x, by simp [hx], hns⟩
      · exact ⟨{ x with ttl := op.ttl }, by simp, hns⟩
      · exact ⟨x, by simp [hx], hns⟩
  next hu =>
    have hnw := updateFirst_eq_none hu
    refine h.setRecords ((h.owner name).append hno hcn fun x hx => by simpa using hnw x hx)
      fun hn => ?_
    subst hn
    refine h.apex.congr ?_ ?_
    · rw [filter_append, filter_cons_of_neg (by simpa using hso), filter_nil, append_nil]
    · obtain ⟨x, hx, hns⟩ := h.apex.ns
      exact ⟨x, mem_append_left _ hx, hns⟩

/-- A deletion that spares the SOA of the apex and one of its NS records. -/
def spares (z : Zone) (op : UpdateOperation) : Bool :=
  match op.operation with
  | .add => true
  | .delete => normalizeZoneOwner op.name z.origin = z.origin → op.type ≠ typeSOA ∧
      (op.type = typeNS → ∃ r ∈ z.recordsAt z.origin, r.type = typeNS ∧ equalFold r.rdata op.rdata = false)
  | .deleteRRSet => normalizeZoneOwner op.name z.origin = z.origin → op.type ≠ typeSOA ∧ op.type ≠ typeNS
  | .deleteName => normalizeZoneOwner op.name z.origin ≠ z.origin

theorem WellFormed.filterRecords (h : WellFormed z) {drop : Record → Bool}
    (hso : name = z.origin → ∀ r, r.type = typeSOA → drop r = false)
    (hns : name = z.origin → ∃ r ∈ z.recordsAt z.origin, r.type = typeNS ∧ drop r = false) :
    WellFormed (filterRecords z name drop) := by
  obtain ⟨hor, hsm⟩ := filterRecords_frame z name drop
  refine h.change name hor (fun _ => recordsAt_filterRecords_of_ne drop) ?_ (fun hn => ?_)
    fun _ => hsm
  · rw [recordsAt_filterRecords_self]
    exact (h.owner name).filter _
  · rw [recordsAt_filterRecords_self, hsm]
    subst hn
    refine h.apex.congr ?_ ?_
    · rw [filter_filter]
      refine filter_congr fun r _ => ?_
      by_cases ht : r.type = typeSOA
      · simp [ht, hso rfl r ht]
      · simp [ht]
    · obtain ⟨r, hr, ht, hd⟩ := hns rfl
      exact ⟨r, mem_filter.2 ⟨hr, by simp [hd]⟩, ht⟩

theorem WellFormed.applyOperation (h : WellFormed z) (hz : apexOf z.origin = z.origin)
    (hop : spares z op = true) : WellFormed (applyOperation z op).1 := by
  unfold Transfer.applyOperation
  unfold spares at hop
  cases hk : op.operation with
  | add =>
    dsimp only
    split
    · exact h
    · exact h.applyAdd hz
  | delete =>
    rw [hk] at hop
    simp only [decide_eq_true_eq] at hop
    refine h.filterRecords (fun hn r hr => ?_) fun hn => ?_
    · simp [hr, Ne.symm (hop hn).1]
    · by_cases ht : op.type = typeNS
      · obtain ⟨r, hr, hns, hne⟩ := (hop hn).2 ht
        exact ⟨r, hr, hns, by simp [hne]⟩
      · obtain ⟨r, hr, hns⟩ := h.apex.ns
        exact ⟨r, hr, hns, by simp [hns, Ne.symm ht]⟩
  | deleteRRSet =>
    rw [hk] at hop
    simp only [decide_eq_true_eq] at hop
    refine h.filterRecords (fun hn r hr => ?_) fun hn => ?_
    · simp [hr, Ne.symm (hop hn).1]
    · obtain ⟨r, hr, hns⟩ := h.apex.ns
      exact ⟨r, hr, hns, by simp [hns, Ne.symm (hop hn).2]⟩
  | deleteName =>
    rw [hk] at hop
    simp only [decide_eq_true_eq] at hop
    refine h.change (normalizeZoneOwner op.name z.origin) rfl (fun _ => recordsAt_erase_of_ne) ?_
      (fun hn => absurd hn hop) fun _ => rfl
    unfold deleteName
    rw [recordsAt_erase_self]
    exact ⟨by simp, .nil⟩

def opsSpare (z : Zone) : List UpdateOperation → Bool
  | [] => true
  | op :: ops => spares z op && opsSpare (applyOperation z op).1 ops

theorem WellFormed.applyOperations : ∀ {ops : List UpdateOperation} {z : Zone}, WellFormed z →
    apexOf z.origin = z.origin → opsSpare z ops = true → WellFormed (applyOperations z ops).1
  | [], _, h, _, _ => h
  | op :: ops, z, h, hz, hops => by
    rw [opsSpare, Bool.and_eq_true] at hops
    have hst := h.applyOperation hz hops.1
    rcases applyOperations_cons z op ops with ⟨err, -, heq⟩ | ⟨-, heq⟩
    · rw [heq]
      exact hst
    · rw [heq]
      exact hst.applyOperations (by rw [applyOperation_origin]; exact hz) hops.2

theorem applyOperations_origin : ∀ (ops : List UpdateOperation) (z : Zone), (applyOperations z ops).1.origin = z.origin
  | [], _ => rfl
  | op :: ops, z => by
    rcases applyOperations_cons z op ops with ⟨err, -, heq⟩ | ⟨-, heq⟩
    · rw [heq]
      exact applyOperation_origin z op
    · rw [heq, applyOperations_origin, applyOperation_origin]

theorem incrementSerial_origin (d : UInt32) (z : Zone) : (incrementSerial d z).origin = z.origin := by
  unfold incrementSerial
  split
  · rfl
  dsimp only
  split
  · rfl
  split <;> rfl

theorem incrementSerial_eq {soa : SOARecord} {r : Record} (hs : z.soa = some soa) (hr : r ∈ z.recordsAt z.origin)
    (ht : r.type = typeSOA) (d : UInt32) : ∃ serial a x b, z.recordsAt z.origin = a ++ x :: b ∧ x.type = typeSOA ∧
      (∀ y ∈ a, y.type ≠ typeSOA) ∧ incrementSerial d z = setRecords { z with soa := some { soa with serial } }
        z.origin (a ++ { x with rdata := SOARecord.rdata { soa with serial } } :: b) := by
  cases hl : z.records.lookup z.origin with
  | none =>
    rw [Zone.recordsAt, hl] at hr
    cases hr
  | some recs =>
    rw [Zone.recordsAt_of_lookup hl] at hr ⊢
    unfold incrementSerial
    rw [hs]
    dsimp only
    rw [hl]
    dsimp only
    split
    next hu =>
      obtain ⟨a, x, b, rfl, rfl, hx, ha⟩ := updateFirst_eq_some hu
      exact ⟨_, a, x, b, rfl, of_decide_eq_true hx, fun y hy => of_decide_eq_false (ha y hy), rfl⟩
    next hu => exact absurd ht (of_decide_eq_false (updateFirst_eq_none hu r hr))

theorem WellFormed.incrementSerial (h : WellFormed z) (d : UInt32) : WellFormed (incrementSerial d z) := by
  cases hs : z.soa with
  | none =>
    rw [Transfer.incrementSerial, hs]
    exact h
  | some soa =>
    have hap := h.apex
    have hown := h.owner z.origin
    obtain ⟨r, -, hf, -⟩ := hap.one
    obtain ⟨hr, ht⟩ := mem_filter.1 (hf ▸ mem_singleton_self r)
    obtain ⟨serial, a, r, b, hat, hr, -, heq⟩ := incrementSerial_eq hs hr (of_decide_eq_true ht) d
    rw [hat] at hap hown
    obtain ⟨hot, soa', hs', hp, htt⟩ := hap.soa_split hr
    obtain rfl : soa = soa' := by simpa [hs] using hs'
    obtain ⟨hm, hn, -⟩ := token_of_parseSOAFromRData hp
    rw [heq]
    refine h.change z.origin rfl (fun _ hne => recordsAt_setRecords_of_ne hne) ?_
      (fun _ => ?_) fun hne => absurd rfl hne
    · rw [recordsAt_setRecords_self]
      refine hown.replace rfl (.inr fun x hx => ?_)
      rw [hr]
      exact hot x hx
    · rw [recordsAt_setRecords_self]
      exact hap.replace_soa hr hr (parseSOAFromRData_rdata hm hn) htt

theorem WellFormed.applyUpdate (h : WellFormed z) (hz : apexOf z.origin = z.origin) (d : UInt32)
    {update : UpdateRequest} (hops : opsSpare z update.updates = true) :
    WellFormed (applyUpdate d z update).1 ∧ (applyUpdate d z update).1.origin = z.origin := by
  unfold Transfer.applyUpdate
  split
  · exact ⟨h, rfl⟩
  split
  · exact ⟨h, rfl⟩
  have hall := h.applyOperations hz hops
  have hor := applyOperations_origin update.updates z
  rcases hr : Transfer.applyOperations z update.updates with ⟨z1, none | err⟩
  · rw [hr] at hall hor
    exact ⟨hall.incrementSerial d, (incrementSerial_origin d z1).trans hor⟩
  · rw [hr] at hall hor
    exact ⟨hall, hor⟩

/-- One call of `ApplyUpdate`, with the date it reads from the clock; its error is not looked at. -/
def updateStep (z : Zone) (call : UInt32 × UpdateRequest) : Option Zone :=
  some (applyUpdate call.1 z call.2).1

/-- **Zones stay well formed** through every sequence of updates whose deletions spare the apex. -/
theorem wellFormed_updates {calls : List (UInt32 × UpdateRequest)} (hz : apexOf z.origin = z.origin)
    (h : WellFormed z) (hrun : Run.exec updateStep z calls = some z')
    (hok : Run.Meets updateStep (fun z call => opsSpare z call.2.updates = true) z calls) : WellFormed z' := by
  suffices hst : ∀ z call z', (apexOf z.origin = z.origin ∧ WellFormed z) →
      opsSpare z call.2.updates = true → updateStep z call = some z' →
      apexOf z'.origin = z'.origin ∧ WellFormed z' from
    (Run.invariant hst calls hrun hok ⟨hz, h⟩).2
  rintro z call z1 ⟨hz, h⟩ hsp hst
  cases hst
  obtain ⟨hwf, hor⟩ := h.applyUpdate hz call.1 hsp
  exact ⟨by rw [hor]; exact hz, hwf⟩

theorem wellFormed_updateZone : WellFormed updateZone := by
  have hky : ∀ name, name ≠ "e.".toList → updateZone.recordsAt name = [] := by
    intro name hne
    have : ¬ updateZone.Owner name := fun h => hne (by simpa [updateZone] using h.mem_keys)
    simpa [Zone.Owner] using this
  constructor
  · intro name
    by_cases hne : name = "e.".toList
    · subst hne
      exact ⟨by decide, by decide⟩
    · rw [hky name hne]
      exact ⟨by simp, .nil⟩
  · exact ⟨⟨_, _, rfl, rfl, by decide, by decide⟩, by decide⟩

def deleteA : UpdateOperation := { addA with operation := .delete }

theorem wellFormed_updates_addA :
    ∃ z', Run.exec updateStep updateZone [(0, ⟨[], [addA]⟩), (0, ⟨[], [deleteA]⟩)] = some z' ∧ WellFormed z' :=
  ⟨_, rfl, @wellFormed_updates _ _ [(0, ⟨[], [addA]⟩), (0, ⟨[], [deleteA]⟩)] (by decide)
    wellFormed_updateZone rfl (by decide)⟩

theorem apex_deleted : WellFormed updateZone ∧
      ((applyUpdate 0 updateZone ⟨[], [⟨"e.".toList, [], 0, [], .deleteName⟩]⟩).1.recordsAt "e.".toList = [] ∧
        (applyUpdate 0 updateZone ⟨[], [⟨"e.".toList, [], 0, [], .deleteName⟩]⟩).1.soa.isSome) :=
  ⟨wellFormed_updateZone, by decide⟩

end NothingDNS.Transfer
