import NothingDNS.Zone.RoundTrip
import NothingDNS.Transfer.DdnsSafety
/-!
# Zones built by calls of the manager (`internal/zone/manager.go:305-567`, `639-655`)

The files and the mutation hook are left out. A zone that is created and changed
by calls with plain arguments stays one that its file tells completely
(`faithful_of_calls`).
-/

namespace NothingDNS

open List Transfer Record

def qualifyName (name origin : Text) : Text := makeAbsolute (Text.trimSpace name).lower origin

def normalizeZoneName (name : Text) : Text :=
  let name := (Text.trimSpace name).lower
  if name = [] then [] else if ['.'] <:+ name then name else name ++ ['.']

def reservedZoneNames : List Text :=
  [".", "com.", "net.", "org.", "edu.", "gov.", "mil.", "int.", "info.", "biz.", "name.", "io.", "co.", "uk.", "us.",
    "de.", "fr.", "jp.", "cn.", "ru.", "br.", "au.", "ca.", "it.", "es.", "nl.", "tr."].map String.toList

/-- `m.zones`. -/
abbrev Manager := AList fun _ : Text => Zone

inductive ManagerError where
  | invalidOrigin
  | reserved (origin : Text)
  | soaRequired
  | nsRequired
  | zoneExists (origin : Text)
  | zoneNotFound (name : Text)
  | recordData (e : Transfer.UpdateError)
  | noRecords (name : Text)
  | recordNotFound (name rtype : Text)
deriving DecidableEq

inductive Call where
  | createZone (origin : Text) (defaultTTL : UInt32) (soa : Option SOARecord) (nsRecords : List NSRecord)
  | addRecord (zoneName : Text) (record : Record)
  | deleteRecord (zoneName name rtype : Text)
  | updateRecord (zoneName name rtype oldData : Text) (newRecord : Record)

def withClass (r : Record) : Record := if r.recordClass = [] then { r with recordClass := "IN".toList } else r

/-- `if soa.TTL == 0 { soa.TTL = defaultTTL }`. -/
def soaWithTTL (defaultTTL : UInt32) (soa : SOARecord) : SOARecord :=
  if soa.ttl = 0 then { soa with ttl := defaultTTL } else soa

/-- The NS records get the default TTL for a TTL of 0; `z.NS` does not. -/
def createdRecords (origin : Text) (defaultTTL : UInt32) (soa : SOARecord) (nsRecords : List NSRecord) : List Record :=
  ⟨origin, soa.ttl, "IN".toList, "SOA".toList, soa.rdata⟩ :: nsRecords.map fun ns =>
    ⟨origin, if ns.ttl = 0 then defaultTTL else ns.ttl, "IN".toList, "NS".toList, ns.nsdname⟩

def newZone (origin : Text) (defaultTTL : UInt32) (soa : SOARecord) (nsRecords : List NSRecord) : Zone where
  origin := origin
  defaultTTL := defaultTTL
  soa := some (soaWithTTL defaultTTL soa)
  ns := nsRecords
  records := (∅ : RecordMap).insert origin
    (createdRecords origin defaultTTL (soaWithTTL defaultTTL soa) nsRecords)

/-- From `manager.go:306-379`. -/
def createZone (m : Manager) (origin : Text) (defaultTTL : UInt32) (soa : Option SOARecord)
    (nsRecords : List NSRecord) : Except ManagerError Manager :=
  let origin := normalizeZoneName origin
  if origin = [] ∨ origin = ['.'] then .error .invalidOrigin
  else if origin ∈ reservedZoneNames then .error (.reserved origin)
  else match soa with
    | none => .error .soaRequired
    | some soa =>
      if nsRecords = [] then .error .nsRequired
      else if (m.lookup origin).isSome then .error (.zoneExists origin)
      else .ok (m.insert origin (newZone origin defaultTTL soa nsRecords))

def addToZone (datePrefix : UInt32) (z : Zone) (record : Record) : Zone :=
  let record := { withClass record with name := qualifyName record.name z.origin }
  Transfer.incrementSerial datePrefix { z with records := appendRecord z.records record.name record }

def deleteFromZone (datePrefix : UInt32) (z : Zone) (name rtype : Text) : Except ManagerError Zone :=
  let name := qualifyName name z.origin
  match z.records.lookup name with
  | none => .error (.noRecords name)
  | some records =>
    if records.any fun r => r.type.upper = rtype.upper then
      .ok (Transfer.incrementSerial datePrefix
        (Transfer.putRecords z name (records.filter fun r => decide (r.type.upper ≠ rtype.upper))))
    else .error (.recordNotFound name rtype.upper)

def updateInZone (datePrefix : UInt32) (z : Zone) (name rtype oldData : Text) (newRecord : Record) :
    Except ManagerError Zone :=
  let name := qualifyName name z.origin
  let newRecord := { withClass newRecord with name := qualifyName newRecord.name z.origin }
  match z.records.lookup name with
  | none => .error (.noRecords name)
  | some records =>
    match Transfer.updateFirst (fun r => r.type.upper = rtype.upper && Transfer.equalFold r.rdata oldData)
        (fun _ => newRecord) records with
    | none => .error (.recordNotFound name rtype.upper)
    | some records => .ok (Transfer.incrementSerial datePrefix (Transfer.setRecords z name records))

def onZone (m : Manager) (zoneName : Text) (f : Zone → Except ManagerError Zone) : Except ManagerError Manager :=
  match m.lookup (normalizeZoneName zoneName) with
  | none => .error (.zoneNotFound (normalizeZoneName zoneName))
  | some z => (f z).map fun z => m.insert (normalizeZoneName zoneName) z

/-- From `manager.go:409-448`. -/
def addRecord (datePrefix : UInt32) (m : Manager) (zoneName : Text) (record : Record) : Except ManagerError Manager :=
  match Transfer.validateRecordData record.name record.rdata with
  | some e => .error (.recordData e)
  | none => onZone m zoneName fun z => .ok (addToZone datePrefix z record)

/-- `datePrefix` is the day of the call, from which the new serial is made. -/
def call (m : Manager) (datePrefix : UInt32) : Call → Except ManagerError Manager
  | .createZone origin defaultTTL soa nsRecords => createZone m origin defaultTTL soa nsRecords
  | .addRecord zoneName record => addRecord datePrefix m zoneName record
  | .deleteRecord zoneName name rtype => onZone m zoneName fun z => deleteFromZone datePrefix z name rtype
  | .updateRecord zoneName name rtype oldData newRecord =>
    onZone m zoneName fun z => updateInZone datePrefix z name rtype oldData newRecord

def stored (z : Zone) (r : Record) : Record := { withClass r with name := qualifyName r.name z.origin }

def AtApex (z : Zone) (name rtype : Text) : Prop :=
  qualifyName name z.origin = z.origin ∧ (rtype.upper = "SOA".toList ∨ rtype.upper = "NS".toList)

/-- Names are absolute, a TTL of 0 is not given against a default, records are plain, and the SOA and NS of
the apex are left to `createZone`. -/
def PlainCall (m : Manager) : Call → Prop
  | .createZone origin defaultTTL soa nsRecords =>
    let origin := normalizeZoneName origin
    Absolute origin ∧ (∀ s ∈ soa, s.name = origin ∧ Absolute s.mname ∧ Absolute s.rname) ∧
      ∀ ns ∈ nsRecords, ns.name = origin ∧ Absolute ns.nsdname ∧ (ns.ttl = 0 → defaultTTL = 0)
  | .addRecord zoneName record =>
    ∀ z ∈ m.lookup (normalizeZoneName zoneName), (stored z record).Plain z (stored z record).name
  | .deleteRecord zoneName name rtype => ∀ z ∈ m.lookup (normalizeZoneName zoneName), ¬ AtApex z name rtype
  | .updateRecord zoneName name rtype _ newRecord => ∀ z ∈ m.lookup (normalizeZoneName zoneName),
    ¬ AtApex z name rtype ∧ (stored z newRecord).Plain z (qualifyName name z.origin)

/-- The apex list is the SOA and NS of the zone, then other types. -/
def ApexSplit (z : Zone) (l : List Record) : Prop :=
  ∃ above rest, l = above ++ rest ∧ above.map Record.body = (apexRecords z).map Record.body ∧
    ∀ r ∈ rest, writtenAbove z z.origin r = false

theorem Record.Plain.not_above {z : Zone} {name : Text} {r : Record} (h : r.Plain z name) (n : Text) :
    writtenAbove z n r = false := by
  rw [writtenAbove, decide_eq_false_iff_not, upper_recordType h.type]
  rintro ⟨-, hso | hns⟩
  · exact h.notSOA hso
  · exact h.notNS hns

variable {soa : Option SOARecord}

/-- **The SOA and the records of one name change.** -/
theorem Zone.Faithful.change {z : Zone} (h : z.Faithful) {m : RecordMap} (name : Text)
    (hso : ∀ s ∈ soa, s.name = z.origin ∧ Absolute s.mname ∧ Absolute s.rname ∧ KeepsTTL z s.ttl)
    (hot : ∀ n, n ≠ name → recordsOf m n = z.recordsAt n)
    (hp : ∀ r ∈ recordsOf m name, writtenAbove z name r = false → r.Plain z name)
    (hap : ApexSplit { z with soa := soa } (recordsOf m z.origin)) :
    ({ z with soa := soa, records := m } : Zone).Faithful where
  origin := h.origin
  lower := h.lower
  soa := hso
  ns := h.ns
  apex := hap
  records n r hr hav := by
    have hz : r.Plain z n := by
      by_cases hn : n = name
      · subst hn
        exact hp r hr hav
      · exact h.records n r (hot n hn ▸ hr) hav
    exact { hz with }

theorem Zone.Faithful.changeRecords {z : Zone} (h : z.Faithful) {m : RecordMap} (name : Text)
    (hot : ∀ n, n ≠ name → recordsOf m n = z.recordsAt n)
    (hp : ∀ r ∈ recordsOf m name, writtenAbove z name r = false → r.Plain z name)
    (hap : name = z.origin → ApexSplit z (recordsOf m name)) : ({ z with records := m } : Zone).Faithful := by
  refine h.change name h.soa hot hp ?_
  by_cases hn : z.origin = name
  · have hsp := hap hn.symm
    rw [← hn] at hsp
    exact hsp
  · rw [hot _ hn]
    exact h.apex

/-! ## What a call leaves of the apex -/

section apex

variable {z : Zone} {l : List Record}

variable {r : Record}

theorem ApexSplit.append (h : ApexSplit z l) (hr : writtenAbove z z.origin r = false) : ApexSplit z (l ++ [r]) := by
  obtain ⟨above, rest, rfl, hav, hrs⟩ := h
  exact ⟨above, rest ++ [r], by simp, hav, forall_mem_append.2 ⟨hrs, forall_mem_singleton.2 hr⟩⟩

theorem type_of_above {above : List Record} (hav : above.map body = (apexRecords z).map body)
    (hr : r ∈ above) : r.type.upper = "SOA".toList ∨ r.type.upper = "NS".toList := by
  have hb : r.body ∈ (apexRecords z).map body := hav ▸ mem_map_of_mem hr
  exact (of_decide_eq_true (writtenAbove_of_body hb)).2

theorem ApexSplit.filter (h : ApexSplit z l) {rtype : Text} (hrt : ¬ (rtype = "SOA".toList ∨ rtype = "NS".toList)) :
    ApexSplit z (l.filter fun r => decide (r.type.upper ≠ rtype)) := by
  obtain ⟨above, rest, rfl, hav, hrs⟩ := h
  refine ⟨above, rest.filter fun r => decide (r.type.upper ≠ rtype), ?_, hav, ?_⟩
  · rw [filter_append, filter_eq_self.2]
    intro r hr
    refine decide_eq_true fun hty => hrt ?_
    rw [← hty]
    exact type_of_above hav hr
  · intro r hr
    exact hrs r (mem_filter.1 hr).1

theorem ApexSplit.update (h : ApexSplit z l) {l' : List Record} {p : Record → Bool} {new : Record}
    (hp : ∀ r, p r = true → ¬ (r.type.upper = "SOA".toList ∨ r.type.upper = "NS".toList))
    (hnw : writtenAbove z z.origin new = false) (hu : updateFirst p (fun _ => new) l = some l') : ApexSplit z l' := by
  obtain ⟨above, rest, rfl, hav, hrs⟩ := h
  obtain ⟨a, r, b, hl, rfl, hr, -⟩ := updateFirst_eq_some hu
  -- the record that is replaced lies behind the first part
  rcases append_eq_append_iff.1 hl with ⟨c, rfl, hc⟩ | ⟨c, rfl, hc⟩
  · cases c with
    | nil =>
      rw [hc, nil_append, forall_mem_cons] at hrs
      exact ⟨above, new :: b, by simp, hav, forall_mem_cons.2 ⟨hnw, hrs.2⟩⟩
    | cons y c =>
      obtain ⟨hb, haf⟩ := forall_mem_append.1 (hc ▸ hrs)
      refine ⟨above, y :: c ++ new :: b, by simp, hav, ?_⟩
      exact forall_mem_append.2 ⟨hb, forall_mem_cons.2 ⟨hnw, (forall_mem_cons.1 haf).2⟩⟩
  cases c with
  | nil =>
    rw [nil_append] at hc
    rw [← hc, forall_mem_cons] at hrs
    exact ⟨a, new :: b, rfl, by simpa using hav, forall_mem_cons.2 ⟨hnw, hrs.2⟩⟩
  | cons y c =>
    rw [cons_append, cons.injEq] at hc
    obtain ⟨rfl, -⟩ := hc
    exact absurd (type_of_above hav (mem_append.2 (.inr mem_cons_self))) (hp r hr)

end apex

section zone

variable {z : Zone} (h : z.Faithful)

include h

variable {name : Text}

theorem Zone.Faithful.append {r : Record} (hr : r.Plain z name) :
    ({ z with records := appendRecord z.records name r } : Zone).Faithful := by
  refine h.changeRecords name (fun n hn => ?_) (fun x hx hno => ?_) fun hn => ?_
  · rw [recordsOf_appendRecord, if_neg fun h' => hn h'.symm]
    rfl
  · rw [recordsOf_appendRecord, if_pos rfl] at hx
    rcases mem_append.1 hx with hx | hx
    · exact h.records name x hx hno
    · rw [mem_singleton.1 hx]
      exact hr
  · rw [recordsOf_appendRecord, if_pos rfl]
    have hsp : ApexSplit z (recordsOf z.records name) := hn ▸ h.apex
    exact hsp.append (hr.not_above _)

variable {recs : List Record}

theorem Zone.Faithful.set (hp : ∀ r ∈ recs, writtenAbove z name r = false → r.Plain z name)
    (hap : name = z.origin → ApexSplit z recs) : (setRecords z name recs).Faithful := by
  have hsl : recordsOf (z.records.insert name recs) name = recs := recordsAt_setRecords_self
  refine h.changeRecords name (fun n hn => recordsAt_setRecords_of_ne hn) ?_ ?_
  · rwa [hsl]
  · rwa [hsl]

theorem Zone.Faithful.put (hp : ∀ r ∈ recs, writtenAbove z name r = false → r.Plain z name)
    (hap : name = z.origin → ApexSplit z recs) : (putRecords z name recs).Faithful := by
  unfold putRecords
  split
  next hnil =>
    subst hnil
    have hsl : recordsOf (z.records.erase name) name = [] := recordsAt_erase_self
    refine h.changeRecords name (fun n hn => recordsAt_erase_of_ne hn) ?_ ?_
    · rwa [hsl]
    · rwa [hsl]
  next => exact h.set hp hap

theorem Zone.Faithful.incrementSerial (d : UInt32) : (Transfer.incrementSerial d z).Faithful := by
  cases hz : z.soa with
  | none =>
    rw [Transfer.incrementSerial, hz]
    exact h
  | some soa =>
    obtain ⟨above, rest, hsp, hav, hrs⟩ := h.apex
    have hap : (apexRecords z).map body = (soaRecord soa).body :: z.ns.map fun ns => (nsRecord ns).body := by
      simp [apexRecords, hz]
    rw [hap] at hav
    obtain ⟨r, above', rfl, hr, ha'⟩ := map_eq_cons_iff.1 hav
    have hty : r.type = "SOA".toList := congrArg Prod.fst hr
    have htt : r.ttl = soa.ttl := congrArg (fun b => b.2.1) hr
    obtain ⟨serial, a, x, b, hat, -, ha, heq⟩ := Transfer.incrementSerial_eq hz
      (hsp ▸ mem_append_left rest mem_cons_self) hty d
    obtain rfl : a = [] := by
      rcases append_eq_cons_iff.1 (hat.symm.trans hsp) with ⟨hnil, -⟩ | ⟨a', rfl, -⟩
      · exact hnil
      · exact absurd hty (ha r mem_cons_self)
    obtain ⟨rfl, rfl⟩ := cons.inj (hat.symm.trans hsp)
    rw [heq]
    -- only the serial changes, in the SOA and in its record
    refine h.change z.origin ?_ (fun n hn => Transfer.recordsAt_setRecords_of_ne hn) ?_ ?_
    · rintro s hs
      cases hs
      exact h.soa soa hz
    all_goals rw [show recordsOf (AList.insert z.origin _ z.records) z.origin = _ from Transfer.recordsAt_setRecords_self]
    · intro x hx hno
      rcases mem_cons.1 hx with rfl | hx
      · rw [writtenAbove, decide_eq_false_iff_not] at hno
        exact absurd ⟨rfl, .inl (by rw [show type _ = _ from hty]; decide)⟩ hno
      refine h.records z.origin x ?_ hno
      rw [hsp]
      exact mem_cons_of_mem _ hx
    · refine ⟨{ x with rdata := SOARecord.rdata { soa with serial } } :: above', rest, rfl, ?_, hrs⟩
      rw [map_cons, ha', body, hty, htt]
      simp [apexRecords, soaRecord, body]

end zone

/-! ## One call, and all calls -/

theorem lower_normalizeZoneName (name : Text) : (normalizeZoneName name).lower = normalizeZoneName name := by
  unfold normalizeZoneName
  dsimp only
  split
  · rfl
  split
  · exact Text.lower_lower _
  · rw [Text.lower_append, Text.lower_lower]
    rfl

theorem recordsAt_newZone (origin : Text) (defaultTTL : UInt32) (soa : SOARecord) (nsRecords : List NSRecord)
    (name : Text) : (newZone origin defaultTTL soa nsRecords).recordsAt name =
      if name = origin then createdRecords origin defaultTTL (soaWithTTL defaultTTL soa) nsRecords else [] := by
  split
  next h =>
    rw [h, newZone, Zone.recordsAt, AList.lookup_insert]
    rfl
  next h =>
    rw [newZone, Zone.recordsAt, AList.lookup_insert_ne h]
    rfl

variable {origin : Text} {defaultTTL : UInt32} {nsRecords : List NSRecord}

theorem faithful_newZone {soa : SOARecord} (ho : Absolute origin) (hlw : origin.lower = origin)
    (hso : soa.name = origin ∧ Absolute soa.mname ∧ Absolute soa.rname)
    (hns : ∀ ns ∈ nsRecords, ns.name = origin ∧ Absolute ns.nsdname ∧ (ns.ttl = 0 → defaultTTL = 0)) :
    (newZone origin defaultTTL soa nsRecords).Faithful := by
  have hb : (createdRecords origin defaultTTL (soaWithTTL defaultTTL soa) nsRecords).map body =
      (apexRecords (newZone origin defaultTTL soa nsRecords)).map body := by
    have hkp : ∀ ns ∈ nsRecords, (if ns.ttl = 0 then defaultTTL else ns.ttl) = ns.ttl := by
      intro ns hmem
      split
      next h0 => rw [(hns ns hmem).2.2 h0, h0]
      next => rfl
    simp only [createdRecords, apexRecords, newZone, Option.toList_some, map_cons, map_nil, map_map,
      singleton_append, Function.comp_def, body, nsRecord, soaRecord]
    rw [map_congr_left fun ns hmem => by rw [hkp ns hmem]]
  have haO := recordsAt_newZone origin defaultTTL soa nsRecords origin
  rw [if_pos rfl] at haO
  refine ⟨ho, hlw, ?_, hns, ⟨_, [], (append_nil _).symm, ?_, by simp⟩, ?_⟩
  · rintro s hs
    cases hs
    unfold soaWithTTL
    split
    · exact ⟨hso.1, hso.2.1, hso.2.2, fun h => h⟩
    next hne => exact ⟨hso.1, hso.2.1, hso.2.2, fun h => absurd h hne⟩
  · change ((newZone origin defaultTTL soa nsRecords).recordsAt origin).map body = _
    rw [haO, hb]
  · intro name r hr hno
    rw [recordsAt_newZone] at hr
    split at hr
    next hn =>
      subst hn
      have hbd : r.body ∈ (apexRecords (newZone name defaultTTL soa nsRecords)).map body := hb ▸ mem_map_of_mem hr
      have hav : writtenAbove (newZone name defaultTTL soa nsRecords) name r = true := writtenAbove_of_body hbd
      rw [hav] at hno
      cases hno
    next => cases hr

def Manager.Faithful (m : Manager) : Prop := ∀ name, ∀ z ∈ m.lookup name, z.Faithful

variable {m : Manager}

variable {P : Zone → Prop}

theorem forall_lookup_insert (h : ∀ name, ∀ z ∈ m.lookup name, P z) {name : Text}
    {z : Zone} (hz : P z) : ∀ n, ∀ z' ∈ (AList.insert name z m).lookup n, P z' := by
  intro n z' hz'
  by_cases hn : n = name
  · subst hn
    rw [AList.lookup_insert] at hz'
    cases hz'
    exact hz
  · rw [AList.lookup_insert_ne hn] at hz'
    exact h n z' hz'

theorem ok_of_toOption {ε α : Type} {x : Except ε α} {a : α} (h : x.toOption = some a) : x = .ok a := by
  cases x with
  | error e => cases h
  | ok b => rw [Option.some.inj h]

variable {m' : Manager}

theorem createZone_ok (h : createZone m origin defaultTTL soa nsRecords = .ok m') :
    ∃ soa', soa = some soa' ∧ m' = m.insert (normalizeZoneName origin)
      (newZone (normalizeZoneName origin) defaultTTL soa' nsRecords) := by
  unfold createZone at h
  dsimp only at h
  split at h; · cases h
  split at h; · cases h
  split at h
  · cases h
  split at h; · cases h
  split at h; · cases h
  exact ⟨_, rfl, (Except.ok.inj h).symm⟩

variable {zoneName : Text} {f : Zone → Except ManagerError Zone}

theorem onZone_ok (h : onZone m zoneName f = .ok m') :
    ∃ z z', m.lookup (normalizeZoneName zoneName) = some z ∧ f z = .ok z' ∧
      m' = m.insert (normalizeZoneName zoneName) z' := by
  unfold onZone at h
  split at h
  · cases h
  next z hz =>
    cases hf : f z with
    | error e =>
      rw [hf] at h
      cases h
    | ok z' =>
      rw [hf] at h
      exact ⟨z, z', hz, hf, (Except.ok.inj h).symm⟩

theorem forall_lookup_onZone (h : ∀ name, ∀ z ∈ m.lookup name, P z)
    (hf : ∀ z ∈ m.lookup (normalizeZoneName zoneName), ∀ z', f z = .ok z' → P z')
    (hm : onZone m zoneName f = .ok m') : ∀ n, ∀ z' ∈ m'.lookup n, P z' := by
  obtain ⟨z, z', hz, hz', rfl⟩ := onZone_ok hm
  exact forall_lookup_insert h (hf z hz z' hz')

theorem Manager.Faithful.call (h : m.Faithful) {d : UInt32} {c : Call} (hc : PlainCall m c)
    (hm : call m d c = .ok m') : m'.Faithful := by
  cases c with
  | createZone origin defaultTTL soa nsRecords =>
    obtain ⟨ho, hso, hns⟩ := hc
    obtain ⟨soa, rfl, rfl⟩ := createZone_ok hm
    exact forall_lookup_insert h (faithful_newZone ho (lower_normalizeZoneName origin) (hso soa rfl) hns)
  | addRecord zoneName record =>
    rw [NothingDNS.call, addRecord] at hm
    split at hm
    · cases hm
    refine forall_lookup_onZone h (fun z hz z' hz' => ?_) hm
    cases hz'
    exact ((h _ z hz).append (hc z hz)).incrementSerial d
  | deleteRecord zoneName name rtype =>
    refine forall_lookup_onZone h (fun z hz z' hz' => ?_) hm
    have hft := h _ z hz
    unfold deleteFromZone at hz'
    dsimp only at hz'
    split at hz'
    · cases hz'
    next records hl =>
      have hat := Zone.recordsAt_of_lookup hl
      split at hz' <;> cases hz'
      refine (hft.put (fun r hr hno => ?_) fun hn => ?_).incrementSerial d
      · exact hft.records _ r (hat ▸ (mem_filter.1 hr).1) hno
      · have hsp : ApexSplit z records := by
          rw [← hat, hn]
          exact hft.apex
        exact hsp.filter fun hty => hc z hz ⟨hn, hty⟩
  | updateRecord zoneName name rtype oldData newRecord =>
    refine forall_lookup_onZone h (fun z hz z' hz' => ?_) hm
    have hft := h _ z hz
    obtain ⟨hap, hnw⟩ := hc z hz
    unfold updateInZone at hz'
    dsimp only at hz'
    split at hz'
    · cases hz'
    next records hl =>
      have hat := Zone.recordsAt_of_lookup hl
      split at hz'
      · cases hz'
      next records' hu =>
        cases hz'
        refine (hft.set ?_ fun hn => ?_).incrementSerial d
        · obtain ⟨a, old, b, hsp, rfl, -, -⟩ := updateFirst_eq_some hu
          have hp := hft.records (qualifyName name z.origin)
          rw [hat, hsp, forall_mem_append, forall_mem_cons] at hp
          exact forall_mem_append.2 ⟨hp.1, forall_mem_cons.2 ⟨fun _ => hnw, hp.2.2⟩⟩
        · have hsp : ApexSplit z records := by
            rw [← hat, hn]
            exact hft.apex
          refine hsp.update (fun r hr hty => ?_) (hnw.not_above _) hu
          rw [Bool.and_eq_true, decide_eq_true_eq] at hr
          rw [hr.1] at hty
          exact hap ⟨hn, hty⟩

/-- **Every zone built by plain calls** is one its file tells completely, so it is read back as it was as long
as its lines are not too long for the scanner. -/
theorem faithful_of_calls {calls : List (UInt32 × Call)}
    (hrn : Run.exec (fun m c => (call m c.1 c.2).toOption) ∅ calls = some m)
    (hp : Run.Meets (fun m c => (call m c.1 c.2).toOption) (fun m c => PlainCall m c.2) ∅ calls) : m.Faithful := by
  refine Run.invariant (fun m c m' hm hc hst => ?_) calls hrn hp ?_
  · exact hm.call hc (ok_of_toOption hst)
  · intro name z hz
    cases hz

instance (m : Manager) : (c : Call) → Decidable (PlainCall m c)
  | .createZone .. => inferInstanceAs (Decidable (_ ∧ _ ∧ _))
  | .addRecord .. => inferInstanceAs (Decidable (∀ z ∈ m.lookup _, _))
  | .deleteRecord .. => inferInstanceAs (Decidable (∀ z ∈ m.lookup _, ¬(_ ∧ _)))
  | .updateRecord .. => inferInstanceAs (Decidable (∀ z ∈ m.lookup _, ¬(_ ∧ _) ∧ _))

/-- A zone and a record, which is then deleted. -/
def plainCalls : List (UInt32 × Call) := [(0, .createZone "e".toList 60
    (some ⟨"e.".toList, 0, "n.e.".toList, "h.e.".toList, 1, 2, 3, 4, 5⟩) [⟨"e.".toList, 60, "n.e.".toList⟩]),
  (0, .addRecord "e.".toList ⟨"t".toList, 30, [], "TXT".toList, "a; b".toList⟩),
  (0, .deleteRecord "e.".toList "t".toList "TXT".toList)]

theorem faithful_of_plainCalls : ∃ m : Manager, Run.exec (fun m c => (call m c.1 c.2).toOption) ∅ plainCalls = some m ∧
    m.Faithful := by
  obtain ⟨m, hm, -⟩ := Run.exists_of_any (P := fun _ => True)
    (o := Run.exec (fun m c => (call m c.1 c.2).toOption) ∅ plainCalls) (by decide +kernel)
  exact ⟨m, hm, faithful_of_calls hm (by decide +kernel)⟩

end NothingDNS
