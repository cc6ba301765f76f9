import NothingDNS.Zone.Manager
/-!
# The copies a zone keeps (`internal/zone/manager.go:305-567`)

A zone has its SOA and its name servers twice, in fields of their own and as records of the apex. `createZone` fills
both; `IncrementSerial` writes the new serial to both; the other calls write to the record map only.

`updateRecord` leaves the new record under the old key whatever its name is, and
`addRecord` takes an absolute name inside the zone or not (`copies_diverge`).
-/

namespace NothingDNS

open List Transfer

def ofType (t : Text) (l : List Record) : List Record := l.filter fun r => decide (r.type.upper = t)

def AtOrBelow (origin name : Text) : Prop := name = origin ∨ ('.' :: origin) <:+ name

instance (origin name : Text) : Decidable (AtOrBelow origin name) := inferInstanceAs (Decidable (_ ∨ _))

structure Zone.Consistent (z : Zone) : Prop where
  owner : ∀ name, ∀ r ∈ z.recordsAt name, r.name = name
  below : ∀ name, z.Owner name → AtOrBelow z.origin name
  soa : ∃ soa r, z.soa = some soa ∧ ofType Transfer.typeSOA (z.recordsAt z.origin) = [r] ∧ r.type = Transfer.typeSOA ∧
    r.ttl = soa.ttl ∧ r.rdata = soa.rdata
  ns : (ofType Transfer.typeNS (z.recordsAt z.origin)).map (fun r => (r.ttl, r.rdata)) =
    z.ns.map fun ns => (ns.ttl, ns.nsdname)

/-! ## One record list -/

section Lists

variable {l l' : List Record} {t : Text} {r : Record}

theorem ofType_append_of_ne (h : r.type.upper ≠ t) : ofType t (l ++ [r]) = ofType t l := by
  simp [ofType, filter_append, h]

theorem ofType_filter_of_ne {rtype : Text} (h : rtype ≠ t) :
    ofType t (l.filter fun r => decide (r.type.upper ≠ rtype)) = ofType t l := by
  rw [ofType, ofType, filter_filter]
  refine filter_congr fun r _ => ?_
  by_cases hr : r.type.upper = t
  · simp [hr, h.symm]
  · simp [hr]

theorem ofType_updateFirst {p : Record → Bool} {new : Record} (hp : ∀ r, p r = true → r.type.upper ≠ t)
    (hnw : new.type.upper ≠ t) (h : updateFirst p (fun _ => new) l = some l') : ofType t l' = ofType t l := by
  obtain ⟨a, r, b, rfl, rfl, hr, -⟩ := updateFirst_eq_some h
  simp [ofType, filter_append, hnw, hp r hr]

end Lists

section Zones

variable {z z' : Zone}

theorem Zone.Consistent.change_owners (h : z.Consistent) (name : Text) (hor : z'.origin = z.origin)
    (hot : ∀ n, n ≠ name → z'.recordsAt n = z.recordsAt n)
    (how : ∀ r ∈ z'.recordsAt name, r.name = name) (hb : z'.Owner name → AtOrBelow z.origin name) :
    (∀ n, ∀ r ∈ z'.recordsAt n, r.name = n) ∧ ∀ n, z'.Owner n → AtOrBelow z'.origin n := by
  rw [hor]
  constructor
  · intro n r hr
    by_cases hn : n = name
    · subst hn
      exact how r hr
    · exact h.owner n r (hot n hn ▸ hr)
  · intro n hown
    by_cases hn : n = name
    · subst hn
      exact hb hown
    · refine h.below n ?_
      rwa [Zone.Owner, hot n hn] at hown

theorem Zone.Consistent.change (h : z.Consistent) (name : Text) (hor : z'.origin = z.origin) (hso : z'.soa = z.soa)
    (hns : z'.ns = z.ns) (hot : ∀ n, n ≠ name → z'.recordsAt n = z.recordsAt n)
    (how : ∀ r ∈ z'.recordsAt name, r.name = name) (hb : z'.Owner name → AtOrBelow z.origin name)
    (hap : name = z.origin → ofType typeSOA (z'.recordsAt name) = ofType typeSOA (z.recordsAt name) ∧
      ofType Transfer.typeNS (z'.recordsAt name) = ofType Transfer.typeNS (z.recordsAt name)) : z'.Consistent := by
  obtain ⟨ho', hb'⟩ := h.change_owners name hor hot how hb
  have hkp : ofType typeSOA (z'.recordsAt z.origin) = ofType typeSOA (z.recordsAt z.origin) ∧
      ofType Transfer.typeNS (z'.recordsAt z.origin) = ofType Transfer.typeNS (z.recordsAt z.origin) := by
    by_cases hn : name = z.origin
    · have hsm := hap hn
      rwa [hn] at hsm
    · rw [hot _ fun he => hn he.symm]
      exact ⟨rfl, rfl⟩
  refine ⟨ho', hb', ?_, ?_⟩
  · rw [hor, hso, hkp.1]
    exact h.soa
  · rw [hor, hns, hkp.2]
    exact h.ns

theorem Zone.Consistent.incrementSerial (h : z.Consistent) (d : UInt32) : (Transfer.incrementSerial d z).Consistent := by
  obtain ⟨soa, r, hso, hoe, hty, htt, -⟩ := h.soa
  have hu : ∀ {x : Record}, x.type = typeSOA → x.type.upper = typeSOA := fun hx => by rw [hx]; decide
  obtain ⟨hr, -⟩ := mem_filter.1 (show r ∈ ofType typeSOA (z.recordsAt z.origin) by simp [hoe])
  obtain ⟨serial, a, x, b, hat, hx, -, heq⟩ := incrementSerial_eq hso hr hty d
  have hns := h.ns
  have hold := h.owner z.origin
  rw [hat] at hoe hns hold
  -- the record the loop finds is the one SOA record
  have hsp : ofType typeSOA a ++ x :: ofType typeSOA b = [r] := by
    rw [← hoe]
    simp [ofType, filter_append, hu hx]
  obtain ⟨hnil, rfl, hn'⟩ : ofType typeSOA a = [] ∧ x = r ∧ ofType typeSOA b = [] := by
    cases ha : ofType typeSOA a with
    | nil => simpa [ha] using hsp
    | cons y ys => simp [ha] at hsp
  have hsl : (Transfer.incrementSerial d z).recordsAt z.origin =
      a ++ { x with rdata := SOARecord.rdata { soa with serial } } :: b := by
    rw [heq]
    exact recordsAt_setRecords_self
  have hot : ∀ n, n ≠ z.origin → (Transfer.incrementSerial d z).recordsAt n = z.recordsAt n := by
    rw [heq]
    exact fun n hn => recordsAt_setRecords_of_ne hn
  have hon : ∀ y ∈ (Transfer.incrementSerial d z).recordsAt z.origin, y.name = z.origin := by
    rw [hsl]
    simpa only [forall_mem_append, forall_mem_cons] using hold
  have hor := incrementSerial_origin d z
  obtain ⟨how, hb⟩ := h.change_owners z.origin hor hot hon fun _ => .inl rfl
  refine ⟨how, hb, ⟨{ soa with serial }, { x with rdata := SOARecord.rdata { soa with serial } },
    by rw [heq]; rfl, ?_, hty, htt, rfl⟩, ?_⟩
  · simp only [hor, hsl, ofType, filter_append, filter_cons, hu hx, decide_true, if_true]
    exact congrArg₂ (fun l l' => l ++ _ :: l') hnil hn'
  · have hne : typeSOA ≠ Transfer.typeNS := by decide
    rw [hor, hsl, show (Transfer.incrementSerial d z).ns = z.ns by rw [heq]; rfl]
    simpa [ofType, filter_append, hu hx, hne] using hns

theorem Zone.Consistent.append (h : z.Consistent) {r : Record} (hb : AtOrBelow z.origin r.name)
    (hap : r.name = z.origin → r.type.upper ≠ typeSOA ∧ r.type.upper ≠ Transfer.typeNS) :
    ({ z with records := appendRecord z.records r.name r } : Zone).Consistent := by
  have hat : ({ z with records := appendRecord z.records r.name r } : Zone).recordsAt r.name =
      z.recordsAt r.name ++ [r] := (recordsOf_appendRecord _ _ _ _).trans (if_pos rfl)
  refine h.change r.name rfl rfl rfl (fun n hn => ?_) ?_ (fun _ => hb) fun hn => ?_
  · exact (recordsOf_appendRecord _ _ _ _).trans (if_neg fun he => hn he.symm)
  · rw [hat]
    exact forall_mem_append.2 ⟨h.owner _, forall_mem_singleton.2 rfl⟩
  · rw [hat]
    exact ⟨ofType_append_of_ne (hap hn).1, ofType_append_of_ne (hap hn).2⟩

variable {name : Text} {recs : List Record}

theorem Zone.Consistent.set (h : z.Consistent) (how : ∀ r ∈ recs, r.name = name) (hold : z.Owner name)
    (hap : name = z.origin → ofType typeSOA recs = ofType typeSOA (z.recordsAt name) ∧
      ofType Transfer.typeNS recs = ofType Transfer.typeNS (z.recordsAt name)) :
    (setRecords z name recs).Consistent := by
  have hsl : (setRecords z name recs).recordsAt name = recs := recordsAt_setRecords_self
  refine h.change name rfl rfl rfl (fun n hn => recordsAt_setRecords_of_ne hn) ?_ (fun _ => h.below name hold) ?_
  · rwa [hsl]
  · rwa [hsl]

theorem Zone.Consistent.put (h : z.Consistent) (how : ∀ r ∈ recs, r.name = name) (hold : z.Owner name)
    (hap : name = z.origin → ofType typeSOA recs = ofType typeSOA (z.recordsAt name) ∧
      ofType Transfer.typeNS recs = ofType Transfer.typeNS (z.recordsAt name)) :
    (putRecords z name recs).Consistent := by
  unfold putRecords
  split
  next hnil =>
    subst hnil
    have hsl : ({ z with records := z.records.erase name } : Zone).recordsAt name = [] := recordsAt_erase_self
    refine h.change name rfl rfl rfl (fun n hn => recordsAt_erase_of_ne hn) ?_ (fun _ => h.below name hold) ?_
    · rwa [hsl]
    · rwa [hsl]
  next => exact h.set how hold hap

theorem ofType_createdRecords (origin : Text) (defaultTTL : UInt32) (soa : SOARecord) (nsRecords : List NSRecord) :
    ofType typeSOA (createdRecords origin defaultTTL soa nsRecords) =
      [⟨origin, soa.ttl, "IN".toList, typeSOA, soa.rdata⟩] ∧
    ofType Transfer.typeNS (createdRecords origin defaultTTL soa nsRecords) = nsRecords.map fun ns =>
      ⟨origin, if ns.ttl = 0 then defaultTTL else ns.ttl, "IN".toList, Transfer.typeNS, ns.nsdname⟩ := by
  have hso : Text.upper typeSOA = typeSOA := by decide
  have hns : Text.upper Transfer.typeNS = Transfer.typeNS := by decide
  have hne : typeSOA ≠ Transfer.typeNS := by decide
  constructor
  · rw [createdRecords, ofType, filter_cons_of_pos, filter_eq_nil_iff.2]
    · rfl
    · intro r hr
      obtain ⟨ns, -, rfl⟩ := mem_map.1 hr
      exact fun h => hne.symm (hns.symm.trans (of_decide_eq_true h))
    · exact decide_eq_true hso
  · rw [createdRecords, ofType, filter_cons_of_neg, filter_eq_self.2]
    · rfl
    · intro r hr
      obtain ⟨ns, -, rfl⟩ := mem_map.1 hr
      exact decide_eq_true hns
    · exact fun h => hne (hso.symm.trans (of_decide_eq_true h))

theorem consistent_newZone {origin : Text} {defaultTTL : UInt32} {soa : SOARecord} {nsRecords : List NSRecord}
    (hns : ∀ ns ∈ nsRecords, ns.ttl = 0 → defaultTTL = 0) : (newZone origin defaultTTL soa nsRecords).Consistent := by
  have hat := recordsAt_newZone origin defaultTTL soa nsRecords
  have hap := hat origin
  rw [if_pos rfl] at hap
  obtain ⟨hoS, haN⟩ := ofType_createdRecords origin defaultTTL (soaWithTTL defaultTTL soa) nsRecords
  constructor
  · intro name r hr
    rw [hat] at hr
    split_ifs at hr with hn
    · rcases mem_cons.1 hr with rfl | hr
      · exact hn.symm
      · obtain ⟨ns, -, rfl⟩ := mem_map.1 hr
        exact hn.symm
    · cases hr
  · intro name hown
    refine .inl ?_
    by_contra hn
    refine hown ?_
    rw [hat]
    exact if_neg hn
  · exact ⟨soaWithTTL defaultTTL soa, _, rfl, (congrArg _ hap).trans hoS, rfl, rfl, rfl⟩
  · have hrc := (congrArg _ hap).trans haN
    change (ofType Transfer.typeNS ((newZone origin defaultTTL soa nsRecords).recordsAt origin)).map _ = nsRecords.map _
    rw [hrc, map_map]
    refine map_congr_left fun ns hmem => ?_
    -- the default is written to the record only
    by_cases hzr : ns.ttl = 0
    · simp [hzr, hns ns hmem hzr]
    · simp [hzr]

end Zones

/-- The call leaves the SOA and NS records of the apex to `createZone`, and an owner where it is. -/
def KeepsCopies (m : Manager) : Call → Prop
  | .createZone _ defaultTTL _ nsRecords => ∀ ns ∈ nsRecords, ns.ttl = 0 → defaultTTL = 0
  | .addRecord zoneName record => ∀ z ∈ m.lookup (normalizeZoneName zoneName),
    AtOrBelow z.origin (qualifyName record.name z.origin) ∧ ¬ AtApex z record.name record.type
  | .deleteRecord zoneName name rtype => ∀ z ∈ m.lookup (normalizeZoneName zoneName), ¬ AtApex z name rtype
  | .updateRecord zoneName name rtype _ newRecord => ∀ z ∈ m.lookup (normalizeZoneName zoneName),
    qualifyName newRecord.name z.origin = qualifyName name z.origin ∧ ¬ AtApex z name rtype ∧
      ¬ AtApex z name newRecord.type

instance (z : Zone) (name rtype : Text) : Decidable (AtApex z name rtype) := inferInstanceAs (Decidable (_ ∧ _))

instance (m : Manager) : (c : Call) → Decidable (KeepsCopies m c)
  | .createZone _ defaultTTL _ nsRecords =>
    inferInstanceAs (Decidable (∀ ns ∈ nsRecords, ns.ttl = 0 → defaultTTL = 0))
  | .addRecord zoneName record => inferInstanceAs (Decidable (∀ z ∈ m.lookup (normalizeZoneName zoneName),
      AtOrBelow z.origin (qualifyName record.name z.origin) ∧ ¬ AtApex z record.name record.type))
  | .deleteRecord zoneName name rtype =>
    inferInstanceAs (Decidable (∀ z ∈ m.lookup (normalizeZoneName zoneName), ¬ AtApex z name rtype))
  | .updateRecord zoneName name rtype _ newRecord =>
    inferInstanceAs (Decidable (∀ z ∈ m.lookup (normalizeZoneName zoneName),
      qualifyName newRecord.name z.origin = qualifyName name z.origin ∧ ¬ AtApex z name rtype ∧
        ¬ AtApex z name newRecord.type))

def Manager.Consistent (m : Manager) : Prop := ∀ name, ∀ z ∈ m.lookup name, z.Consistent

section Calls

variable {m m' : Manager} {d : UInt32}

theorem type_withClass (r : Record) : (withClass r).type = r.type := by
  unfold withClass
  split <;> rfl

theorem Zone.Consistent.addToZone {z : Zone} (h : z.Consistent) {record : Record}
    (hb : AtOrBelow z.origin (qualifyName record.name z.origin)) (hap : ¬ AtApex z record.name record.type) :
    (addToZone d z record).Consistent := by
  refine Zone.Consistent.incrementSerial (h.append hb fun hn => ?_) d
  rw [type_withClass]
  exact ⟨fun ht => hap ⟨hn, .inl ht⟩, fun ht => hap ⟨hn, .inr ht⟩⟩

variable {name rtype : Text}

theorem Zone.Consistent.deleteFromZone {z z' : Zone} (h : z.Consistent)
    (hap : ¬ AtApex z name rtype) (hz' : deleteFromZone d z name rtype = .ok z') : z'.Consistent := by
  unfold NothingDNS.deleteFromZone at hz'
  dsimp only at hz'
  split at hz'
  · cases hz'
  rename_i records hl
  have hat := Zone.recordsAt_of_lookup hl
  split_ifs at hz' with hay
  cases hz'
  refine Zone.Consistent.incrementSerial (h.put (fun r hr => ?_) ?_ fun hn => ?_) d
  · exact h.owner _ r (hat ▸ (mem_filter.1 hr).1)
  · rw [Zone.Owner, hat]
    rintro rfl
    simp at hay
  · rw [hat]
    exact ⟨ofType_filter_of_ne fun ht => hap ⟨hn, .inl ht⟩, ofType_filter_of_ne fun ht => hap ⟨hn, .inr ht⟩⟩

theorem Zone.Consistent.updateInZone {z z' : Zone} (h : z.Consistent) {oldData : Text} {newRecord : Record}
    (hnm : qualifyName newRecord.name z.origin = qualifyName name z.origin) (hold : ¬ AtApex z name rtype)
    (hnw : ¬ AtApex z name newRecord.type) (hz' : updateInZone d z name rtype oldData newRecord = .ok z') :
    z'.Consistent := by
  unfold NothingDNS.updateInZone at hz'
  dsimp only at hz'
  split at hz'
  · cases hz'
  rename_i records hl
  have hat := Zone.recordsAt_of_lookup hl
  split at hz'
  · cases hz'
  rename_i records' hu
  cases hz'
  have hkp : ∀ t, rtype.upper ≠ t → newRecord.type.upper ≠ t → ofType t records' = ofType t records := by
    intro t hr ht
    refine ofType_updateFirst (fun r hp => ?_) ?_ hu
    · rw [Bool.and_eq_true, decide_eq_true_eq] at hp
      rwa [hp.1]
    · change (withClass newRecord).type.upper ≠ t
      rwa [type_withClass]
  obtain ⟨a, r, b, rfl, rfl, -, -⟩ := updateFirst_eq_some hu
  have how := h.owner (qualifyName name z.origin)
  rw [hat, forall_mem_append, forall_mem_cons] at how
  refine Zone.Consistent.incrementSerial (h.set ?_ (by rw [Zone.Owner, hat]; simp) fun hn => ?_) d
  · exact forall_mem_append.2 ⟨how.1, forall_mem_cons.2 ⟨hnm, how.2.2⟩⟩
  · rw [hat]
    exact ⟨hkp _ (fun ht => hold ⟨hn, .inl ht⟩) fun ht => hnw ⟨hn, .inl ht⟩,
      hkp _ (fun ht => hold ⟨hn, .inr ht⟩) fun ht => hnw ⟨hn, .inr ht⟩⟩

theorem Manager.Consistent.call (h : m.Consistent) {c : Call} (hc : KeepsCopies m c) (hm : call m d c = .ok m') :
    m'.Consistent := by
  cases c with
  | createZone origin defaultTTL soa nsRecords =>
    obtain ⟨soa, rfl, rfl⟩ := createZone_ok hm
    exact forall_lookup_insert h (consistent_newZone hc)
  | addRecord zoneName record =>
    rw [NothingDNS.call, addRecord] at hm
    split at hm
    · cases hm
    · refine forall_lookup_onZone h (fun z hz z' hz' => ?_) hm
      cases hz'
      exact (h _ z hz).addToZone (hc z hz).1 (hc z hz).2
  | deleteRecord zoneName name rtype =>
    exact forall_lookup_onZone h (fun z hz z' hz' => (h _ z hz).deleteFromZone (hc z hz) hz') hm
  | updateRecord zoneName name rtype oldData newRecord =>
    refine forall_lookup_onZone h (fun z hz z' hz' => ?_) hm
    obtain ⟨hnm, hold, hnw⟩ := hc z hz
    exact (h _ z hz).updateInZone hnm hold hnw hz'

end Calls

/-- After any sequence of successful calls that leave the apex records and the owners alone, the copies agree. -/
theorem consistent_of_calls {calls : List (UInt32 × Call)} {m : Manager}
    (hrun : Run.exec (fun m c => (call m c.1 c.2).toOption) ∅ calls = some m)
    (hkeep : Run.Meets (fun m c => (call m c.1 c.2).toOption) (fun m c => KeepsCopies m c.2) ∅ calls) :
    m.Consistent := by
  refine Run.invariant (fun m c m' hm hc hst => ?_) calls hrun hkeep ?_
  · exact hm.call hc (ok_of_toOption hst)
  · intro name z hz
    cases hz

def createE : Call :=
  .createZone "E".toList 60 (some ⟨"e.".toList, 60, "n.e.".toList, "h.e.".toList, 1, 2, 3, 4, 5⟩)
    [⟨"e.".toList, 60, "n.e.".toList⟩]

def txtAt (name : String) : Record := ⟨name.toList, 60, [], "TXT".toList, "x".toList⟩

def addTo (r : Record) : Call := .addRecord "e".toList r

theorem consistent_of_calls_txt : ∃ m, Run.exec (fun m c => (call m c.1 c.2).toOption) ∅
        [(0, createE), (0, addTo (txtAt "a")), (0, .deleteRecord "e.".toList "a".toList "txt".toList)] = some m ∧
      m.Consistent :=
  ⟨_, rfl, @consistent_of_calls [(0, createE), (0, addTo (txtAt "a")),
    (0, .deleteRecord "e.".toList "a".toList "txt".toList)] _ rfl (by decide)⟩

def zoneAfter (calls : List Call) : Option Zone :=
  (Run.exec (fun m c => (call m 0 c).toOption) ∅ (createE :: calls)).bind fun m => m.lookup "e.".toList

theorem copies_diverge : (zoneAfter [addTo (txtAt "a"),
        .updateRecord "e.".toList "a".toList "TXT".toList "x".toList (txtAt "b")]).map
      (fun z => (z.recordsAt "a.e.".toList).map (·.name)) = some ["b.e.".toList] ∧
    (zoneAfter [addTo (txtAt "a.org.")]).map (fun z => (z.recordsAt "a.org.".toList).length) = some 1 ∧
    (zoneAfter [addTo ⟨"@".toList, 60, [], "SOA".toList, "n.e. h.e. 7 2 3 4 5".toList⟩]).map
      (fun z => (ofType typeSOA (z.recordsAt "e.".toList)).length) = some 2 ∧
    (zoneAfter [addTo ⟨"@".toList, 60, [], "NS".toList, "m.e.".toList⟩]).map
      (fun z => ((ofType Transfer.typeNS (z.recordsAt "e.".toList)).length, z.ns.length)) = some (2, 1) := by
  decide

end NothingDNS
