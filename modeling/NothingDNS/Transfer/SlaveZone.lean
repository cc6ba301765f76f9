import NothingDNS.Transfer.IxfrConvergence
/-!
# What a secondary makes of a transfer (`slave.go`)

`Transfer.Ixfr` has the same functions with a serial for each SOA (`applyTransferredZone_toWire`). Here the SOA has
all its fields and the state is passed on, so that an error can be seen to leave it alone.

The code follows a well-formed answer (`applyTransferredZone_fits`), but it checks neither the serials between
the differences nor that a deleted record is there, and it takes only the serial of the new SOA and of a lone
SOA (`applyTransferredZone_misfit`).
-/

namespace NothingDNS.Transfer

open List

structure SoaData where
  mname : Text
  rname : Text
  serial : UInt32
  refresh : UInt32
  retry : UInt32
  expire : UInt32
  minimum : UInt32
deriving DecidableEq

inductive Received where
  | soa (data : Option SoaData)
  | rr (r : RR)
deriving DecidableEq

def Received.data : Received → Option SoaData
  | .soa d => d
  | .rr _ => none

def Received.toWire : Received → Wire
  | .soa d => .soa ((d.map SoaData.serial).getD 0)
  | .rr r => .rr r

structure ZoneData where
  soa : Option SOARecord
  records : RRMap

structure SlaveZone where
  zone : Option ZoneData
  lastSerial : UInt32

inductive ApplyError where
  | noRecords
  | noLeadingSOA
  | singleNotSOA
  | noBase
  | incrementalNotSOA
  | noSOA
deriving DecidableEq

/-- The owner name and the TTL stay at their zero values. -/
def soaFromRData (d : SoaData) : SOARecord where
  name := []
  ttl := 0
  mname := d.mname
  rname := d.rname
  serial := d.serial
  refresh := d.refresh
  retry := d.retry
  expire := d.expire
  minimum := d.minimum

namespace SlaveZone

open List

def updateZone (_ : SlaveZone) (zone : Option ZoneData) (serial : UInt32) : SlaveZone :=
  { zone, lastSerial := serial }

/-- From `slave.go:502-526`. -/
def applyFullZone (s : SlaveZone) (records : List Received) : SlaveZone × Option ApplyError :=
  -- the first SOA with data gives the serial; the others are skipped
  match records.findSome? Received.data with
  | none => (s, some .noSOA)
  | some d =>
    let newZone := ⟨some (soaFromRData d), Transfer.applyFullZone (records.map Received.toWire) ∅⟩
    (s.updateZone (some newZone) d.serial, none)

/-- From `slave.go:532-582`. -/
def applyIncrementalIXFR (s : SlaveZone) (base : ZoneData) : List Received → SlaveZone × Option ApplyError
  | .soa (some target) :: rest =>
    let records := applyBody false false (rest.dropLast.map Received.toWire) base.records
    let soa := match base.soa with
      | none => soaFromRData target
      | some old => { old with serial := target.serial }
    (s.updateZone (some ⟨some soa, records⟩) target.serial, none)
  | _ => (s, some .incrementalNotSOA)

/-- From `slave.go:469-499`. -/
def applyTransferredZone (s : SlaveZone) : List Received → SlaveZone × Option ApplyError
  | [] => (s, some .noRecords)
  | .rr _ :: _ => (s, some .noLeadingSOA)
  | [.soa (some d)] => (s.updateZone s.zone d.serial, none)
  | [.soa none] => (s, some .singleNotSOA)
  | .soa d :: .soa d' :: rest =>
    match s.zone with
    | none => (s, some .noBase)
    | some base => s.applyIncrementalIXFR base (.soa d :: .soa d' :: rest)
  | .soa d :: .rr r :: rest => s.applyFullZone (.soa d :: .rr r :: rest)

section
variable {s : SlaveZone} {d d' : Option SoaData} {rest : List Received}

theorem applyTransferredZone_noBase (h : s.zone = none) :
    s.applyTransferredZone (.soa d :: .soa d' :: rest) = (s, some .noBase) := by
  cases d <;> simp [applyTransferredZone, h]

theorem applyTransferredZone_incremental {base : ZoneData} (h : s.zone = some base) :
    s.applyTransferredZone (.soa d :: .soa d' :: rest) = s.applyIncrementalIXFR base (.soa d :: .soa d' :: rest) := by
  cases d <;> simp [applyTransferredZone, h]

theorem applyTransferredZone_full {r : RR} :
    s.applyTransferredZone (.soa d :: .rr r :: rest) = s.applyFullZone (.soa d :: .rr r :: rest) := by
  cases d <;> rfl

end

variable {records : List Received} {e : ApplyError}

theorem applyFullZone_error {s : SlaveZone}
    (h : (s.applyFullZone records).2 = some e) : (s.applyFullZone records).1 = s := by
  unfold applyFullZone at h ⊢
  split
  · rfl
  next d hd =>
    rw [hd] at h
    cases h

theorem applyIncrementalIXFR_error {s : SlaveZone} {base : ZoneData}
    (h : (s.applyIncrementalIXFR base records).2 = some e) : (s.applyIncrementalIXFR base records).1 = s := by
  unfold applyIncrementalIXFR at h ⊢
  split
  · cases h
  · rfl

theorem applyTransferredZone_error {s : SlaveZone}
    (h : (s.applyTransferredZone records).2 = some e) : (s.applyTransferredZone records).1 = s := by
  match records, h with
  | [], _ | .rr _ :: _, _ | [.soa none], _ => rfl
  | .soa d :: .soa d' :: rest, h =>
    cases hzn : s.zone with
    | none => rw [applyTransferredZone_noBase hzn]
    | some base =>
      rw [applyTransferredZone_incremental hzn] at h ⊢
      exact applyIncrementalIXFR_error h
  | .soa d :: .rr r :: rest, h =>
    rw [applyTransferredZone_full] at h ⊢
    exact applyFullZone_error h

/-! ## The coarser model -/

theorem applyTransferredZone_toWire (s : SlaveZone) (h : ∀ x ∈ records, x ≠ .soa none) :
    match Transfer.applyTransferredZone (s.zone.map ZoneData.records) (records.map Received.toWire) with
    | .ok (m, serial) => (s.applyTransferredZone records).2 = none ∧
        (s.applyTransferredZone records).1.zone.map ZoneData.records = m ∧
        (s.applyTransferredZone records).1.lastSerial = serial
    | .error _ => (s.applyTransferredZone records).2 ≠ none := by
  match records, h with
  | [], _ => simp [Transfer.applyTransferredZone, applyTransferredZone]
  | .rr r :: rest, _ => simp [Transfer.applyTransferredZone, applyTransferredZone, Received.toWire]
  | .soa none :: rest, h => exact absurd rfl (h _ mem_cons_self)
  | [.soa (some d)], _ => exact ⟨rfl, rfl, rfl⟩
  | .soa (some d) :: .rr r :: rest, _ => exact ⟨rfl, rfl, rfl⟩
  | .soa (some d) :: .soa d' :: rest, _ =>
    obtain ⟨zone, last⟩ := s
    cases zone with
    | none => simp [Transfer.applyTransferredZone, applyTransferredZone, Received.toWire]
    | some z =>
      refine ⟨rfl, ?_, rfl⟩
      show some (applyBody false false ((Received.soa d' :: rest).dropLast.map Received.toWire) z.records) = _
      rw [map_dropLast]
      rfl

end SlaveZone

structure Difference where
  old : SoaData
  deleted : List RR
  new : SoaData
  added : List RR

def Difference.received (d : Difference) : List Received :=
  .soa (some d.old) :: (d.deleted.map .rr ++ .soa (some d.new) :: d.added.map .rr)

/-- The answer with some differences, between the SOA of the new version. -/
def answer (target : SoaData) (ds : List Difference) : List Received :=
  .soa (some target) :: (ds.flatMap Difference.received ++ [.soa (some target)])

def Chains : UInt32 → List Difference → UInt32 → Prop
  | c, [], t => c = t
  | c, d :: ds, t => d.old.serial = c ∧ Chains d.new.serial ds t

def RR.key (r : RR) : Text × Nat × Text := (r.name, r.type, r.rdata)

def keys (rs : List RR) : List (Text × Nat × Text) := rs.map RR.key

/-- Every deleted record is there when its difference is reached. -/
def Present (held : List (Text × Nat × Text)) : List Difference → Prop
  | [] => True
  | d :: ds => (keys (d.deleted.map recordFromRR)).Subperm held ∧
      Present (held.diff (keys (d.deleted.map recordFromRR)) ++ keys (d.added.map recordFromRR)) ds

/-- Each of some records takes away one that is there and has its key. -/
inductive Deletes : List RR → List RR → List RR → Prop
  | nil (recs : List RR) : Deletes recs [] recs
  | cons {recs left ds : List RR} {d x : RR} (hx : x ∈ recs) (hkey : x.key = d.key)
      (hds : Deletes (recs.erase x) ds left) : Deletes recs (d :: ds) left

inductive Replays : List RR → List Difference → List RR → Prop
  | nil (recs : List RR) : Replays recs [] recs
  | cons {recs left last : List RR} {d : Difference} {ds : List Difference}
      (hdel : Deletes recs (d.deleted.map recordFromRR) left)
      (hrest : Replays (left ++ d.added.map recordFromRR) ds last) : Replays recs (d :: ds) last

theorem keys_cons (r : RR) (rs : List RR) : keys (r :: rs) = r.key :: keys rs := rfl

theorem keys_append (rs rs' : List RR) : keys (rs ++ rs') = keys rs ++ keys rs' := map_append

theorem key_eq_iff {x r : RR} : x.key = r.key ↔ x.name = r.name ∧ sameData r x = true := by
  simp [RR.key, sameData]

theorem keys_erase {recs : List RR} {x : RR} (hx : x ∈ recs) :
    (keys (recs.erase x)).Perm ((keys recs).erase x.key) := by
  have hp : (keys recs).Perm (x.key :: keys (recs.erase x)) := (perm_cons_erase hx).map RR.key
  have her := hp.erase x.key
  rw [erase_cons_head] at her
  exact her.symm

theorem Present.perm {ds : List Difference} : ∀ {held held' : List (Text × Nat × Text)}, held.Perm held' →
    Present held ds → Present held' ds := by
  induction ds with
  | nil => exact fun _ h => h
  | cons d ds ih =>
    intro held held' hp h
    exact ⟨hp.subperm_left.1 h.1, ih ((hp.diff_right _).append_right _) h.2⟩

theorem Holds.deletes : ∀ {ds : List RR} {m : RRMap} {recs : List RR}, Holds m recs → (keys ds).Subperm (keys recs) →
    ∃ left, Deletes recs ds left ∧ Holds (ds.foldl removeZoneRecord m) left ∧
      (keys left).Perm ((keys recs).diff (keys ds))
  | [], _, recs, h, _ => ⟨recs, .nil recs, h, .refl _⟩
  | d :: ds, m, recs, h, hds => by
    have hd : d.key ∈ keys recs := hds.subset mem_cons_self
    obtain ⟨y, hy, hkey⟩ := mem_map.1 hd
    obtain ⟨hnm, hdt⟩ := key_eq_iff.1 hkey
    obtain ⟨x, hx, hxn, hxd, hh⟩ := h.remove_one hy hnm hdt
    have hxk : x.key = d.key := key_eq_iff.2 ⟨hxn, hxd⟩
    have her := keys_erase hx
    rw [hxk] at her
    have hrs : (keys ds).Subperm (keys (recs.erase x)) := by
      have := hds.erase d.key
      rw [keys_cons, erase_cons_head] at this
      exact her.symm.subperm_left.1 this
    obtain ⟨left, hdel, hlf, hky⟩ := Holds.deletes hh hrs
    refine ⟨left, .cons hx hxk hdel, hlf, ?_⟩
    rw [keys_cons, diff_cons]
    exact hky.trans (her.diff_right _)

theorem Deletes.keys_perm {recs ds left : List RR} (h : Deletes recs ds left) :
    (keys ds).Subperm (keys recs) ∧ (keys left).Perm ((keys recs).diff (keys ds)) := by
  induction h with
  | nil recs => exact ⟨nil_subperm, .refl _⟩
  | @cons recs left ds d x hx hkey _ ih =>
    have her := keys_erase hx
    rw [hkey] at her
    have hd : d.key ∈ keys recs := mem_map.2 ⟨x, hx, hkey⟩
    rw [keys_cons, diff_cons]
    refine ⟨?_, ih.2.trans (her.diff_right _)⟩
    exact (perm_cons_erase hd).symm.subperm_left.1 ((subperm_cons _).2 (her.subperm_left.1 ih.1))

theorem Replays.present {recs last : List RR} {ds : List Difference} (h : Replays recs ds last) :
    Present (keys recs) ds := by
  induction h with
  | nil => trivial
  | @cons recs left last d ds hdel _ ih =>
    obtain ⟨hsb, hky⟩ := hdel.keys_perm
    refine ⟨hsb, ih.perm ?_⟩
    rw [keys_append]
    exact hky.append_right _

theorem applyBody_received (d : Difference) (started : Bool) (ws : List Wire) (m : RRMap) :
    applyBody false started (d.received.map Received.toWire ++ ws) m = applyBody false true ws
      ((d.added.map recordFromRR).foldl addZoneRecord ((d.deleted.map recordFromRR).foldl removeZoneRecord m)) := by
  have hrr : ∀ rs : List RR, (rs.map Received.rr).map Received.toWire = rs.map Wire.rr := fun rs => by
    rw [map_map]
    rfl
  have hop : (if started = true then !false else true) = true := by cases started <;> rfl
  rw [Difference.received, map_cons, map_append, map_cons, hrr, hrr, cons_append, append_assoc, Received.toWire,
    applyBody, hop, applyBody_rrs, cons_append, Received.toWire, applyBody, applyBody_rrs]
  rfl

theorem Holds.replays : ∀ {ds : List Difference} {m : RRMap} {recs : List RR} (started : Bool), Holds m recs →
    Present (keys recs) ds → ∃ last, Replays recs ds last ∧
      Holds (applyBody false started ((ds.flatMap Difference.received).map Received.toWire) m) last
  | [], _, recs, _, h, _ => ⟨recs, .nil recs, h⟩
  | d :: ds, m, recs, started, h, hp => by
    obtain ⟨left, hdel, hlf, hky⟩ := h.deletes hp.1
    have had := @Holds.adds _ _ (d.added.map recordFromRR) hlf
    have hpr : Present (keys (left ++ d.added.map recordFromRR)) ds := by
      refine hp.2.perm ?_
      rw [keys_append]
      exact hky.symm.append_right _
    obtain ⟨last, hrp, hls⟩ := Holds.replays true had hpr
    refine ⟨last, .cons hdel hrp, ?_⟩
    rw [flatMap_cons, map_append, applyBody_received]
    exact hls

namespace SlaveZone

open List

/-- The answer leads from the recorded serial to its SOA's, deletes what is there, and changes nothing of the
SOA but the serial. -/
structure Fits (s : SlaveZone) (z : ZoneData) (recs : List RR) (target : SoaData) (ds : List Difference) : Prop where
  chains : Chains s.lastSerial ds target.serial
  present : Present (keys recs) ds
  soa : ∀ old, z.soa = some old → { old with serial := target.serial } = soaFromRData target

theorem applyTransferredZone_answer (s : SlaveZone) {z : ZoneData} (target : SoaData) (ds : List Difference)
    (hz : s.zone = some z) : s.applyTransferredZone (answer target ds) = s.applyIncrementalIXFR z (answer target ds) := by
  cases ds with
  | nil | cons => exact applyTransferredZone_incremental hz

/-- What an incremental transfer is for: the answer is difference sequences that chain from the recorded serial to
that of the framing SOA, and the secondary holds their replay with the new SOA in all its fields. -/
def Replayed (s : SlaveZone) (recs : List RR) (records : List Received) : Prop :=
  ∃ target ds z' last, records = answer target ds ∧ Chains s.lastSerial ds target.serial ∧ Replays recs ds last ∧
    (s.applyTransferredZone records).1 = ⟨some z', target.serial⟩ ∧ z'.soa = some (soaFromRData target) ∧
    Holds z'.records last

theorem replayed_iff {s : SlaveZone} {z : ZoneData} {recs : List RR} {records : List Received}
    (hz : s.zone = some z) (hrc : Holds z.records recs) :
    s.Replayed recs records ↔ ∃ target ds, records = answer target ds ∧ s.Fits z recs target ds := by
  constructor
  · rintro ⟨target, ds, z', last, rfl, hch, hrp, hst, hso, -⟩
    refine ⟨target, ds, rfl, hch, hrp.present, fun old hold => ?_⟩
    rw [applyTransferredZone_answer s target ds hz, answer, applyIncrementalIXFR, hold] at hst
    obtain ⟨rfl⟩ := Option.some.inj (congrArg SlaveZone.zone hst)
    exact Option.some.inj hso
  · rintro ⟨target, ds, rfl, hft⟩
    obtain ⟨last, hrp, hls⟩ := hrc.replays false hft.present
    rw [Replayed, applyTransferredZone_answer s target ds hz]
    refine ⟨target, ds, ⟨some (soaFromRData target), _⟩, last, rfl, hft.chains, hrp, ?_, rfl, hls⟩
    rw [answer, applyIncrementalIXFR, dropLast_concat]
    have hsoa : (match z.soa with
        | none => soaFromRData target
        | some old => { old with serial := target.serial }) = soaFromRData target := by
      cases hso : z.soa with
      | none => rfl
      | some old => exact hft.soa old hso
    rw [hsoa]
    rfl

/-- **Incremental transfers.** An error leaves the zone and its serial alone; a lone SOA leaves the zone, and the
serial exactly if it carries the recorded one; and an accepted answer whose second record is an SOA has been replayed
to the new version exactly if it fits. -/
theorem applyTransferredZone_fits (s : SlaveZone) :
    (∀ records e, (s.applyTransferredZone records).2 = some e → (s.applyTransferredZone records).1 = s) ∧
    (∀ d : SoaData, (s.applyTransferredZone [.soa (some d)]).1.zone = s.zone ∧
      ((s.applyTransferredZone [.soa (some d)]).1.lastSerial = s.lastSerial ↔ d.serial = s.lastSerial)) ∧
    ∀ z recs d d' rest, s.zone = some z → Holds z.records recs →
      (((s.applyTransferredZone (.soa d :: .soa d' :: rest)).2 = none → s.Replayed recs (.soa d :: .soa d' :: rest)) ↔
        (d.isSome → ∃ target ds, .soa d :: .soa d' :: rest = answer target ds ∧ s.Fits z recs target ds)) := by
  refine ⟨fun records e h => applyTransferredZone_error h, fun d => ⟨rfl, .rfl⟩, fun z recs d d' rest hz hrc => ?_⟩
  have hok : (s.applyTransferredZone (.soa d :: .soa d' :: rest)).2 = none ↔ d.isSome := by
    rw [applyTransferredZone_incremental hz]
    cases d <;> simp [applyIncrementalIXFR]
  rw [hok, replayed_iff hz hrc]

def soaAt (serial refresh : UInt32) : SoaData := ⟨"ns.e.".toList, "h.e.".toList, serial, refresh, 600, 86400, 300⟩

def holdsA : SlaveZone := ⟨some ⟨some (soaFromRData (soaAt 1 3600)), addZoneRecord ∅ hostA⟩, 1⟩

theorem applyTransferredZone_fits_holdsA :
    holdsA.Replayed [hostA] (answer (soaAt 2 3600) [⟨soaAt 1 3600, [hostA], soaAt 2 3600, [hostB]⟩]) := by
  have hft : holdsA.Fits ⟨some (soaFromRData (soaAt 1 3600)), addZoneRecord ∅ hostA⟩ [hostA] (soaAt 2 3600)
      [⟨soaAt 1 3600, [hostA], soaAt 2 3600, [hostB]⟩] := by
    refine ⟨⟨rfl, rfl⟩, ⟨by decide, trivial⟩, ?_⟩
    rintro old ⟨⟩
    rfl
  exact ((applyTransferredZone_fits holdsA).2.2 _ [hostA] _ _ _ rfl (holds_empty.add hostA)).2
    (fun _ => ⟨_, _, rfl, hft⟩) rfl

theorem applyTransferredZone_misfit : (let ds : List Difference := [⟨soaAt 7 60, [hostB], soaAt 8 60, []⟩]
     ¬ Chains holdsA.lastSerial ds 9 ∧ hostB.key ∉ keys [hostA] ∧
     ∃ z', holdsA.applyTransferredZone (answer (soaAt 9 60) ds) = (⟨some z', 9⟩, none) ∧
       z'.soa.map SOARecord.refresh = some 3600 ∧ (soaFromRData (soaAt 9 60)).refresh = 60 ∧
       z'.records.at hostA.name = [hostA]) ∧
    holdsA.applyTransferredZone [.soa (some (soaAt 7 60))] = ({ holdsA with lastSerial := 7 }, none) := by
  refine ⟨⟨fun h => absurd h.1 (by decide), by decide, _, rfl, rfl, rfl, by decide⟩, rfl⟩

end SlaveZone

end NothingDNS.Transfer
