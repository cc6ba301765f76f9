import NothingDNS.Zone.Manager
import Mathlib.Logic.Function.Iterate
/-!
# Every change advances the serial (`manager.go:656-684`, `ddns.go:451-492`)

A change sets the serial to the date if the date is newer, and then adds one, so the serial can move by exactly half
the range, which is not newer (`serial_half_range`).

Seen from the serial before, the serials of one day only go up (`iterate_bump_lt`),
so they are different even where one is not newer than the one before it.
-/

namespace NothingDNS

open Transfer Option

/-- The number of a day, `YYYYMMDD00`. -/
def datePrefix (year month day : Nat) : UInt32 := UInt32.ofNat (year * 10000 + month * 100 + day) * 100

/-- The serial after `IncrementSerial` on the day `d`. -/
def bumpSerial (d s : UInt32) : UInt32 := if serialIsNewer d s then d + 1 else serialIncrement s

def Zone.serial (z : Zone) : Option UInt32 := z.soa.map (·.serial)

theorem serial_incrementSerial (d : UInt32) (z : Zone) :
    (incrementSerial d z).serial = z.serial.map (bumpSerial d) := by
  unfold incrementSerial Zone.serial
  cases hso : z.soa with
  | none => simp [hso]
  | some soa =>
    dsimp only
    split
    · rfl
    · split <;> rfl

/-! ## Serial arithmetic -/

section Arithmetic

variable {d s n : UInt32}

/-- From `s`, bumping `n` on the day `d` stays within half the range. -/
def Near (d s n : UInt32) : Prop := ((if serialIsNewer d n then d else n) - s).toNat + 1 < 2 ^ 31

instance : Decidable (Near d s n) := inferInstanceAs (Decidable (_ < _))

theorem toNat_add_one_sub (h : (n - s).toNat + 1 < 2 ^ 32) : (n + 1 - s).toNat = (n - s).toNat + 1 := by
  have hon : (1 : UInt32).toNat = 1 := rfl
  rw [UInt32.toNat_sub] at h ⊢
  rw [UInt32.toNat_add, hon, UInt32.toNat_sub]
  omega

theorem serialIsNewer_add_one : serialIsNewer (n + 1) s = true ↔ (n - s).toNat + 1 < 2 ^ 31 := by
  have hon : (1 : UInt32).toNat = 1 := rfl
  have hn := n.toNat_lt
  have hs := s.toNat_lt
  rw [serialIsNewer_iff, UInt32.toNat_sub, UInt32.toNat_add, hon, UInt32.toNat_sub]
  omega

theorem newer_bumpSerial_iff : serialIsNewer (bumpSerial d n) s = true ↔ Near d s n := by
  unfold bumpSerial Near
  split_ifs
  · exact serialIsNewer_add_one
  · exact serialIsNewer_add_one

theorem serialIsNewer_by (d n s : UInt32) : serialIsNewer d n = true ↔
    ((n - s).toNat < (d - s).toNat ∧ (d - s).toNat < (n - s).toNat + 2 ^ 31) ∨ (d - s).toNat + 2 ^ 31 < (n - s).toNat := by
  have hd := d.toNat_lt
  have hn := n.toNat_lt
  have hs := s.toNat_lt
  rw [serialIsNewer_iff, UInt32.toNat_sub, UInt32.toNat_sub, UInt32.toNat_sub]
  omega

theorem toNat_bumpSerial_sub (d n s : UInt32) (h : ((n - s).toNat ≤ (d - s).toNat ∧ (n - s).toNat + 1 < 2 ^ 31) ∨
      ((d - s).toNat < (n - s).toNat ∧ (n - s).toNat ≤ (d - s).toNat + 2 ^ 31 ∧ (n - s).toNat + 1 < 2 ^ 32)) :
    (bumpSerial d n - s).toNat =
      if (n - s).toNat < (d - s).toNat ∧ (d - s).toNat < (n - s).toNat + 2 ^ 31 then (d - s).toNat + 1
      else (n - s).toNat + 1 := by
  by_cases hnw : serialIsNewer d n = true
  · have hd := (serialIsNewer_by d n s).1 hnw
    rw [bumpSerial, if_pos hnw, toNat_add_one_sub (by omega), if_pos (by omega)]
  · have hd := mt (serialIsNewer_by d n s).2 hnw
    rw [bumpSerial, if_neg hnw, serialIncrement, toNat_add_one_sub (by omega), if_neg (by omega)]

theorem iterate_bump_position (d s : UInt32) : ∀ i < 2 ^ 31,
    ((((bumpSerial d)^[i] s - s).toNat ≤ (d - s).toNat ∧ ((bumpSerial d)^[i] s - s).toNat = i) ∨
      ((d - s).toNat < ((bumpSerial d)^[i] s - s).toNat ∧ ((bumpSerial d)^[i] s - s).toNat ≤ i + (2 ^ 31 - 1) ∧
        ((bumpSerial d)^[i] s - s).toNat ≤ (d - s).toNat + i))
  | 0, _ => .inl (by simp)
  | i + 1, hi => by
    have ih := iterate_bump_position d s i (by omega)
    rw [Function.iterate_succ_apply']
    generalize (bumpSerial d)^[i] s = n at ih ⊢
    rw [toNat_bumpSerial_sub d n s (by omega)]
    split_ifs <;> omega

theorem iterate_bump_lt (d s : UInt32) {i j : Nat} (hij : i < j) (hj : j < 2 ^ 31) :
    ((bumpSerial d)^[i] s - s).toNat < ((bumpSerial d)^[j] s - s).toNat := by
  induction j with
  | zero => omega
  | succ j ih =>
    have hpos := iterate_bump_position d s j (by omega)
    have hst : ((bumpSerial d)^[j] s - s).toNat < ((bumpSerial d)^[j + 1] s - s).toNat := by
      rw [Function.iterate_succ_apply', toNat_bumpSerial_sub d _ s (by omega)]
      split_ifs <;> omega
    rcases Nat.lt_succ_iff_lt_or_eq.1 hij with hlt | rfl
    · exact (ih hlt (by omega)).trans hst
    · exact hst

end Arithmetic

/-! ## Changes of a zone -/

/-- A call of the manager, or a dynamic update of one of its zones. -/
inductive Change where
  | call (c : Call)
  | update (zoneName : Text) (req : Transfer.UpdateRequest)

def Change.run (d : UInt32) (m : Manager) : Change → Option Manager
  | .call c => (NothingDNS.call m d c).toOption
  | .update zoneName req => (m.lookup zoneName).bind fun z =>
    match Transfer.applyUpdate d z req with
    | (z, none) => some (m.insert zoneName z)
    | (_, some _) => none

def Change.target : Change → Option Text
  | .call (.createZone ..) => none
  | .call (.addRecord zoneName _) => some (normalizeZoneName zoneName)
  | .call (.deleteRecord zoneName ..) => some (normalizeZoneName zoneName)
  | .call (.updateRecord zoneName ..) => some (normalizeZoneName zoneName)
  | .update zoneName _ => some zoneName

/-- What an operation makes of the serial: `applyAddToZone` takes the SOA added at the apex if it is newer
(`ddns.go:619-642`). -/
def takeSerial (origin : Text) (n : UInt32) (op : Transfer.UpdateOperation) : UInt32 :=
  if op.operation = .add ∧ op.type = typeSOA ∧ normalizeZoneOwner op.name origin = apexOf origin then
    match parseSOAFromRData op.rdata with
    | some soa => if serialIsNewer soa.serial n then soa.serial else n
    | none => n
  else n

/-- The serial that the date is compared with: the one before, or of the last SOA taken from the update. -/
def Change.serialTaken (z : Zone) (s : UInt32) : Change → UInt32
  | .call _ => s
  | .update _ req => req.updates.foldl (takeSerial z.origin) s

/-- No CNAME stands at the apex beside the SOA, and none is added there. -/
def Change.PlainApex (z : Zone) : Change → Prop
  | .call _ => True
  | .update _ req => (∀ r ∈ z.recordsAt (apexOf z.origin), r.type ≠ typeCNAME) ∧
      ∀ op ∈ req.updates, op.operation = .add → op.type = typeCNAME →
        normalizeZoneOwner op.name z.origin ≠ apexOf z.origin

def Change.serialLeft (z : Zone) : Change → Option UInt32
  | .call _ => z.serial
  | .update _ req => (Transfer.applyOperations z req.updates).1.serial

def Change.NoSOA : Change → Prop
  | .call _ => True
  | .update _ req => ∀ op ∈ req.updates, op.operation = .add → op.type ≠ Transfer.typeSOA

section Changes

variable {d : UInt32} {m m' : Manager} {name : Text} {z z' : Zone}

theorem serial_putRecords (z : Zone) (n : Text) (recs : List Record) : (putRecords z n recs).serial = z.serial := by
  unfold putRecords
  split <;> rfl

theorem serial_deleteFromZone {n rtype : Text} (h : deleteFromZone d z n rtype = .ok z') :
    z'.serial = z.serial.map (bumpSerial d) := by
  unfold deleteFromZone at h
  dsimp only at h
  split at h
  · cases h
  split_ifs at h
  cases h
  rw [serial_incrementSerial, serial_putRecords]

theorem serial_updateInZone {n rtype oldData : Text} {newRecord : Record}
    (h : updateInZone d z n rtype oldData newRecord = .ok z') : z'.serial = z.serial.map (bumpSerial d) := by
  unfold updateInZone at h
  dsimp only at h
  split at h
  · cases h
  split at h
  · cases h
  cases h
  exact serial_incrementSerial d _

theorem serial_applyUpdate {update : Transfer.UpdateRequest} (h : applyUpdate d z update = (z', none)) :
    z'.serial = (applyOperations z update.updates).1.serial.map (bumpSerial d) := by
  unfold applyUpdate at h
  split at h
  · cases h
  split at h
  · cases h
  split at h
  · cases h
  next z1 hops =>
    rw [hops, ← (Prod.mk.inj h).1]
    exact serial_incrementSerial d z1

theorem Change.run_serial {c : Change} (hrn : c.run d m = some m') (htr : c.target = some name) :
    ∃ z z', m.lookup name = some z ∧ m'.lookup name = some z' ∧ z'.serial = (c.serialLeft z).map (bumpSerial d) := by
  have hcl : ∀ {zoneName : Text} {f : Zone → Except ManagerError Zone}, onZone m zoneName f = .ok m' →
      (∀ z z', f z = .ok z' → z'.serial = z.serial.map (bumpSerial d)) →
      ∃ z z', m.lookup (normalizeZoneName zoneName) = some z ∧ m'.lookup (normalizeZoneName zoneName) = some z' ∧
        z'.serial = z.serial.map (bumpSerial d) := by
    intro zoneName f h hf
    obtain ⟨z, z', hz, hz', rfl⟩ := onZone_ok h
    exact ⟨z, z', hz, AList.lookup_insert _, hf z z' hz'⟩
  cases c with
  | call c =>
    have hok : NothingDNS.call m d c = .ok m' := ok_of_toOption hrn
    cases c with cases htr
    | addRecord zoneName record =>
      simp only [NothingDNS.call, addRecord] at hok
      split at hok
      · cases hok
      · refine hcl hok fun z z' h => ?_
        cases h
        exact serial_incrementSerial d _
    | deleteRecord zoneName n rtype => exact hcl hok fun z z' h => serial_deleteFromZone h
    | updateRecord zoneName n rtype oldData newRecord => exact hcl hok fun z z' h => serial_updateInZone h
  | update zoneName req =>
    cases htr
    obtain ⟨z, hz, hup⟩ := bind_eq_some_iff.1 hrn
    split at hup
    next z' hap =>
      cases hup
      exact ⟨z, z', hz, AList.lookup_insert _, serial_applyUpdate hap⟩
    · cases hup

/-! ## Updates without an SOA -/

theorem applyAdd_soa (z : Zone) (owner : Text) {op : Transfer.UpdateOperation} (h : op.type ≠ typeSOA) :
    (applyAdd z owner op).1.soa = z.soa := by
  unfold applyAdd
  dsimp only
  split
  · split
    · rfl
    split <;> rfl
  split
  · rfl
  split <;> rfl

theorem applyOperation_soa (z : Zone) {op : Transfer.UpdateOperation}
    (h : op.operation = .add → op.type ≠ typeSOA) : (applyOperation z op).1.soa = z.soa := by
  unfold applyOperation
  cases hop : op.operation with
  | add =>
    dsimp only
    split
    · rfl
    · exact applyAdd_soa z _ (h hop)
  | delete | deleteRRSet => exact (filterRecords_frame _ _ _).2
  | deleteName => rfl

theorem applyOperations_soa : ∀ {ops : List Transfer.UpdateOperation} {z : Zone},
    (∀ op ∈ ops, op.operation = .add → op.type ≠ typeSOA) → (applyOperations z ops).1.soa = z.soa
  | [], _, _ => rfl
  | op :: ops, z, h => by
    have hop := applyOperation_soa z (h op List.mem_cons_self)
    rcases applyOperations_cons z op ops with ⟨err, -, heq⟩ | ⟨-, heq⟩
    · rw [heq, hop]
    · rw [heq, applyOperations_soa fun o ho => h o (List.mem_cons_of_mem _ ho), hop]

theorem Change.NoSOA.serialLeft {c : Change} (h : c.NoSOA) (z : Zone) : c.serialLeft z = z.serial := by
  cases c with
  | call c => rfl
  | update zoneName req => rw [Change.serialLeft, Zone.serial, applyOperations_soa h, Zone.serial]

/-! ## Updates with an SOA -/

theorem type_of_mem_updateFirst {p : Record → Bool} {f : Record → Record} (hf : ∀ r, (f r).type = r.type)
    {l l' : List Record} (h : updateFirst p f l = some l') {r : Record} (hr : r ∈ l') : ∃ x ∈ l, x.type = r.type := by
  obtain ⟨a, x, b, rfl, rfl, -⟩ := updateFirst_eq_some h
  rw [List.mem_append, List.mem_cons] at hr
  rcases hr with hr | rfl | hr
  · exact ⟨r, by simp [hr], rfl⟩
  · exact ⟨x, by simp, (hf x).symm⟩
  · exact ⟨r, by simp [hr], rfl⟩

theorem type_of_mem_setRecords {z₁ : Zone} (hz : z₁.records = z.records) {owner a type : Text} {recs : List Record}
    (hrecs : ∀ r ∈ recs, (∃ x ∈ z.recordsAt owner, x.type = r.type) ∨ r.type = type) {r : Record}
    (hr : r ∈ (setRecords z₁ owner recs).recordsAt a) :
    (∃ x ∈ z.recordsAt a, x.type = r.type) ∨ owner = a ∧ r.type = type := by
  by_cases ha : a = owner
  · subst ha
    rw [recordsAt_setRecords_self] at hr
    exact (hrecs r hr).imp_right fun h => ⟨rfl, h⟩
  · rw [recordsAt_setRecords_of_ne ha, Zone.recordsAt, hz] at hr
    exact .inl ⟨r, hr, rfl⟩

/-- An addition brings no type to an owner but its own. -/
theorem type_of_mem_applyAdd {owner a : Text} {op : Transfer.UpdateOperation} {r : Record}
    (hr : r ∈ (applyAdd z owner op).1.recordsAt a) :
    (∃ x ∈ z.recordsAt a, x.type = r.type) ∨ owner = a ∧ r.type = op.type := by
  have happ : ∀ z₁ : Zone, z₁.records = z.records → r ∈ (Transfer.appendRecord z₁ owner op).recordsAt a →
      (∃ x ∈ z.recordsAt a, x.type = r.type) ∨ owner = a ∧ r.type = op.type := by
    intro z₁ hz h
    refine type_of_mem_setRecords hz (fun x hx => ?_) h
    rw [Zone.recordsAt, hz] at hx
    rcases List.mem_append.1 hx with hx | hx
    · exact .inl ⟨x, hx, rfl⟩
    · rw [List.mem_singleton.1 hx]
      exact .inr rfl
  have hupd : ∀ {z₁ : Zone} {p : Record → Bool} {f : Record → Record} {recs : List Record},
      updateFirst p f (z.recordsAt owner) = some recs → r ∈ (setRecords z₁ owner recs).recordsAt a →
      z₁.records = z.records → (∀ r, (f r).type = r.type) →
      (∃ x ∈ z.recordsAt a, x.type = r.type) ∨ owner = a ∧ r.type = op.type :=
    fun hu h hz hf => type_of_mem_setRecords hz (fun x hx => .inl (type_of_mem_updateFirst hf hu hx)) h
  unfold applyAdd at hr
  dsimp only at hr
  split at hr
  · split at hr
    next hu => exact hupd hu hr rfl fun _ => rfl
    split at hr
    · exact .inl ⟨r, hr, rfl⟩
    · exact happ z rfl hr
  split at hr
  · exact .inl ⟨r, hr, rfl⟩
  split at hr
  · unfold applyAddSOA at hr
    split at hr
    · exact .inl ⟨r, hr, rfl⟩
    split at hr
    · exact .inl ⟨r, hr, rfl⟩
    split at hr
    · exact .inl ⟨r, hr, rfl⟩
    dsimp only at hr
    split at hr
    next hu => exact hupd hu hr rfl fun _ => rfl
    · exact happ _ rfl hr
  · split at hr
    next hu => exact hupd hu hr rfl fun _ => rfl
    · exact happ z rfl hr

theorem noCname_applyOperation {op : Transfer.UpdateOperation} {a : Text}
    (hno : ∀ r ∈ z.recordsAt a, r.type ≠ typeCNAME)
    (hop : op.operation = .add → op.type = typeCNAME → normalizeZoneOwner op.name z.origin ≠ a) :
    ∀ r ∈ (applyOperation z op).1.recordsAt a, r.type ≠ typeCNAME := by
  intro r hr
  have hfl : ∀ n drop, r ∈ (filterRecords z n drop).recordsAt a → r.type ≠ typeCNAME := by
    intro n drop h
    by_cases ha : a = n
    · subst ha
      rw [recordsAt_filterRecords_self] at h
      exact hno r (List.mem_of_mem_filter h)
    · rw [recordsAt_filterRecords_of_ne drop ha] at h
      exact hno r h
  unfold applyOperation at hr
  cases hk : op.operation with rw [hk] at hr
  | delete | deleteRRSet => exact hfl _ _ hr
  | deleteName =>
    by_cases ha : a = normalizeZoneOwner op.name z.origin
    · subst ha
      rw [Transfer.deleteName, recordsAt_erase_self] at hr
      cases hr
    · rw [Transfer.deleteName, recordsAt_erase_of_ne ha] at hr
      exact hno r hr
  | add =>
    dsimp only at hr
    split at hr
    · exact hno r hr
    rcases type_of_mem_applyAdd hr with ⟨x, hx, hxt⟩ | ⟨ha, ht⟩
    · exact hxt ▸ hno x hx
    · exact fun hc => hop hk (ht.symm.trans hc) ha

theorem serial_applyAddSOA {op : Transfer.UpdateOperation} {n : UInt32} (hs : z.serial = some n)
    (hok : (applyAddSOA z (apexOf z.origin) op).2 = none) :
    (applyAddSOA z (apexOf z.origin) op).1.serial = some (match parseSOAFromRData op.rdata with
      | some soa => if serialIsNewer soa.serial n then soa.serial else n
      | none => n) := by
  obtain ⟨soa, hso, hsn⟩ := map_eq_some_iff.1 hs
  unfold applyAddSOA at hok ⊢
  rw [if_neg (not_not.2 rfl)] at hok ⊢
  cases hp : parseSOAFromRData op.rdata with
  | none =>
    rw [hp] at hok
    cases hok
  | some newSOA =>
    dsimp only
    rw [hso, any_some, hsn]
    cases hnw : serialIsNewer newSOA.serial n with
    | true =>
      rw [if_neg (by decide), if_pos rfl]
      split <;> rfl
    | false =>
      rw [if_pos (by decide), if_neg (by decide)]
      exact hs

theorem applyAdd_of_soa {op : Transfer.UpdateOperation} {owner : Text} (hty : op.type = typeSOA)
    (hno : ∀ r ∈ z.recordsAt owner, r.type ≠ typeCNAME) : applyAdd z owner op = applyAddSOA z owner op := by
  have hcn : ¬op.type = typeCNAME := by
    rw [hty]
    decide
  have hay : ¬((z.recordsAt owner).any fun r => r.type = typeCNAME) = true := by simpa using hno
  unfold applyAdd
  dsimp only
  rw [if_neg hcn, if_neg hay, if_pos hty]

theorem applyAdd_soa_of_ne {op : Transfer.UpdateOperation} {owner : Text} (hty : op.type = typeSOA)
    (hne : owner ≠ apexOf z.origin) : (applyAdd z owner op).1 = z := by
  have hcn : ¬op.type = typeCNAME := by
    rw [hty]
    decide
  unfold applyAdd applyAddSOA
  dsimp only
  rw [if_neg hcn, if_pos hty, if_pos hne]
  split <;> rfl

theorem serial_applyOperation {op : Transfer.UpdateOperation} {n : UInt32} (hs : z.serial = some n)
    (hno : ∀ r ∈ z.recordsAt (apexOf z.origin), r.type ≠ typeCNAME) (hok : (applyOperation z op).2 = none) :
    (applyOperation z op).1.serial = some (takeSerial z.origin n op) := by
  by_cases had : op.operation = .add ∧ op.type = typeSOA ∧ normalizeZoneOwner op.name z.origin = apexOf z.origin
  · rw [takeSerial, if_pos had]
    obtain ⟨hop, hty, hap⟩ := had
    simp only [applyOperation, hop] at hok ⊢
    split at hok
    · cases hok
    · rw [hap, applyAdd_of_soa hty hno] at hok ⊢
      exact serial_applyAddSOA hs hok
  · rw [takeSerial, if_neg had, ← hs]
    by_cases hns : op.operation = .add → op.type ≠ typeSOA
    · rw [Zone.serial, applyOperation_soa z hns, Zone.serial]
    · obtain ⟨hop, hty⟩ := not_forall.1 hns
      have hap : normalizeZoneOwner op.name z.origin ≠ apexOf z.origin := fun h => had ⟨hop, not_not.1 hty, h⟩
      simp only [applyOperation, hop]
      split
      · rfl
      · rw [applyAdd_soa_of_ne (not_not.1 hty) hap]

theorem serial_applyOperations : ∀ {ops : List Transfer.UpdateOperation} {z : Zone} {n : UInt32}, z.serial = some n →
    (∀ r ∈ z.recordsAt (apexOf z.origin), r.type ≠ typeCNAME) →
    (∀ op ∈ ops, op.operation = .add → op.type = typeCNAME → normalizeZoneOwner op.name z.origin ≠ apexOf z.origin) →
    (applyOperations z ops).2 = none →
    (applyOperations z ops).1.serial = some (ops.foldl (takeSerial z.origin) n)
  | [], _, _, hs, _, _, _ => hs
  | op :: ops, z, n, hs, hno, hops, hok => by
    rcases applyOperations_cons z op ops with ⟨e, -, heq⟩ | ⟨hnn, heq⟩
    · rw [heq] at hok
      cases hok
    rw [heq] at hok ⊢
    have hor := applyOperation_origin z op
    rw [List.foldl_cons, ← hor]
    refine serial_applyOperations ?_ ?_ ?_ hok
    · rw [hor]
      exact serial_applyOperation hs hno hnn
    · rw [hor]
      exact noCname_applyOperation hno (hops op List.mem_cons_self)
    · rw [hor]
      exact fun o ho => hops o (List.mem_cons_of_mem _ ho)

theorem Change.serialLeft_eq {c : Change} {s : UInt32} (hrn : c.run d m = some m') (htr : c.target = some name)
    (hz : m.lookup name = some z) (hs : z.serial = some s) (hpl : c.PlainApex z) :
    c.serialLeft z = some (c.serialTaken z s) := by
  cases c with
  | call c => exact hs
  | update zoneName req =>
    cases htr
    refine serial_applyOperations hs hpl.1 hpl.2 ?_
    rw [Change.run, hz, bind_some] at hrn
    unfold applyUpdate at hrn
    rcases hops : applyOperations z req.updates with ⟨z1, none | e⟩
    · rfl
    · simp only [hops] at hrn
      split at hrn
      next hap =>
        split at hap
        · cases hap
        split at hap
        · cases hap
        · cases hap
      · cases hrn

def Manager.serial (m : Manager) (name : Text) : Option UInt32 := (m.lookup name).bind Zone.serial

theorem serial_of_run : ∀ {cs : List Change} {m m' : Manager}, Run.exec (fun m c => c.run d m) m cs = some m' →
    (∀ c ∈ cs, c.target = some name ∧ c.NoSOA) → m'.serial name = (m.serial name).map (bumpSerial d)^[cs.length]
  | [], m, m', h, _ => by
    cases h
    simp
  | c :: cs, m, m', h, hcs => by
    obtain ⟨m1, hc, hrs⟩ := Run.exec_cons h
    obtain ⟨htr, hno⟩ := hcs c List.mem_cons_self
    obtain ⟨z, z1, hz, hz1, hsr⟩ := Change.run_serial hc htr
    have hfr : m1.serial name = (m.serial name).map (bumpSerial d) := by
      rw [Manager.serial, Manager.serial, hz, hz1, bind_some, bind_some, hsr, hno.serialLeft]
    rw [serial_of_run hrs fun b hb => hcs b (List.mem_cons_of_mem _ hb), hfr, map_map, List.length_cons,
      Function.iterate_succ]

end Changes

/-- **The serial advances.** A change of a zone without an alias at its apex makes the serial newer exactly if bumping
the serial it has taken stays within half the range. The serials of fewer than 2³¹ changes of one day are different,
if no update among them adds an SOA. -/
theorem serial_advances (d : UInt32) (name : Text) :
    (∀ (m m' : Manager) (z : Zone) (c : Change) (s : UInt32), c.target = some name → c.run d m = some m' →
      m.lookup name = some z → z.serial = some s → c.PlainApex z →
      ((∃ s', m'.serial name = some s' ∧ serialIsNewer s' s = true) ↔ Near d s (c.serialTaken z s))) ∧
    ∀ (m : Manager) (cs : List Change), (m.serial name).isSome → cs.length < 2 ^ 31 →
      (∀ c ∈ cs, c.target = some name ∧ c.NoSOA) → ∀ i j m₁ m₂, i < j → j ≤ cs.length →
      Run.exec (fun m c => c.run d m) m (cs.take i) = some m₁ →
      Run.exec (fun m c => c.run d m) m (cs.take j) = some m₂ → m₁.serial name ≠ m₂.serial name := by
  constructor
  · intro m m' z c s htr hrn hz hs hpl
    obtain ⟨z₁, z', hz₁, hz', hsr⟩ := Change.run_serial hrn htr
    obtain rfl : z = z₁ := some.inj (hz.symm.trans hz₁)
    rw [Change.serialLeft_eq hrn htr hz hs hpl, map_some] at hsr
    rw [Manager.serial, hz', bind_some, hsr, ← newer_bumpSerial_iff]
    simp
  · intro m cs hs hlen hcs i j m₁ m₂ hij hj h1 h2 heq
    obtain ⟨s, hs⟩ := isSome_iff_exists.1 hs
    rw [serial_of_run h1 fun c hc => hcs c (List.mem_of_mem_take hc),
      serial_of_run h2 fun c hc => hcs c (List.mem_of_mem_take hc), hs, List.length_take, List.length_take,
      Nat.min_eq_left (by omega), Nat.min_eq_left hj] at heq
    have hlt := iterate_bump_lt d s hij (by omega)
    rw [some.inj heq] at hlt
    omega

def serialManager (s : UInt32) : Manager :=
  (∅ : Manager).insert "e.".toList
    { Transfer.updateZone with soa := some ⟨"e.".toList, 60, "n.e.".toList, "h.e.".toList, s, 2, 3, 4, 5⟩ }

def addTxt : Change :=
  .call (.addRecord "e.".toList ⟨"a".toList, 60, [], "TXT".toList, "x".toList⟩)

def addSOA : Change :=
  .update "e.".toList ⟨[], [⟨"e.".toList, "SOA".toList, 60, "n.e. h.e. 2147483648 2 3 4 5".toList, .add⟩]⟩

theorem serial_advances_txt : ∃ m', addTxt.run (datePrefix 2026 11 15) (serialManager 1) = some m' ∧
      ∃ s', m'.serial "e.".toList = some s' ∧ serialIsNewer s' 1 = true :=
  ⟨_, rfl, ((serial_advances (datePrefix 2026 11 15) "e.".toList).1 (serialManager 1) _ _ addTxt 1 rfl rfl rfl rfl
    trivial).2 (by decide)⟩

theorem serial_half_range :
    ((addTxt.run (datePrefix 2026 11 15) (serialManager 4173595149)).bind fun m => m.serial "e.".toList) =
      some 2026111501 ∧ serialIsNewer 2026111501 4173595149 = false ∧
    ((addSOA.run (datePrefix 2026 11 15) (serialManager 1)).bind fun m => m.serial "e.".toList) = some 2147483649 ∧
    serialIsNewer 2147483649 1 = false := by
  decide

end NothingDNS
