import NothingDNS.Transfer.Ixfr
/-!
# A slave catches up

The journal keeps the last changes only. `generateIncrementalIXFR` starts at the first entry newer than the client's
serial and compares the entry before it with that serial, but where there is no entry before it nothing is compared
(`ixfr.go:298`): a client older than the journal gets the diffs it has without those it misses
(`trimmed_journal_loses_change`).
-/

namespace NothingDNS.Transfer

open List Master Option

variable {m : RRMap} {recs : List RR} {r : RR} {name : Text}

/-- How far the serial moves in some changes. -/
def span (c : UInt32) : List JournalEntry → Nat
  | [] => 0
  | e :: es => (e.serial - c).toNat + span e.serial es

def lastSerial (c : UInt32) : List JournalEntry → UInt32
  | [] => c
  | e :: es => lastSerial e.serial es

theorem lastSerial_append (c : UInt32) (es fs : List JournalEntry) :
    lastSerial c (es ++ fs) = lastSerial (lastSerial c es) fs := by
  induction es generalizing c with
  | nil => rfl
  | cons e es ih => exact ih e.serial

theorem span_append (c : UInt32) (es fs : List JournalEntry) :
    span c (es ++ fs) = span c es + span (lastSerial c es) fs := by
  induction es generalizing c with
  | nil => exact (Nat.zero_add _).symm
  | cons e es ih =>
    have := ih e.serial
    simp only [cons_append, span, lastSerial]
    omega

variable {es : List JournalEntry}

theorem toNat_lastSerial_sub {c : UInt32} (h : span c es < 2 ^ 32) : (lastSerial c es - c).toNat = span c es := by
  induction es generalizing c with
  | nil => simp [lastSerial, span]
  | cons e es ih =>
    rw [span] at h
    have hrs := ih (c := e.serial) (by omega)
    have hc := c.toNat_lt
    have he := e.serial.toNat_lt
    rw [lastSerial, span]
    rw [UInt32.toNat_sub] at h hrs ⊢
    rw [UInt32.toNat_sub]
    omega

theorem not_newer_of_before : ∀ {c : UInt32} {es : List JournalEntry}, span c es < 2 ^ 31 →
    ∀ p ∈ es, serialIsNewer p.serial (lastSerial c es) = false
  | _, e :: es, h, p, hp => by
    rw [span] at h
    rcases mem_cons.1 hp with rfl | hp
    · have hsp : span p.serial es < 2 ^ 32 := by omega
      have hd := toNat_lastSerial_sub hsp
      have hp' := p.serial.toNat_lt
      have hl := (lastSerial p.serial es).toNat_lt
      have hnt : ¬ serialIsNewer p.serial (lastSerial p.serial es) = true := by
        rw [serialIsNewer_iff, UInt32.toNat_sub]
        rw [UInt32.toNat_sub] at hd
        omega
      exact Bool.eq_false_iff.2 hnt
    · have hrs : span e.serial es < 2 ^ 31 := by omega
      exact not_newer_of_before hrs p hp

/-! ## What the slave holds -/

/-- The slave's map holds exactly the records `recs`. -/
def Holds (m : RRMap) (recs : List RR) : Prop :=
  ∀ name, (m.at name).Perm (recs.filter fun r => decide (r.name = name))

/-- No two records differ in their TTL only. -/
def TwinFree (recs : List RR) : Prop :=
  ∀ a ∈ recs, ∀ b ∈ recs, a.name = b.name → a.type = b.type → a.rdata = b.rdata → a = b

instance (recs : List RR) : Decidable (TwinFree recs) :=
  inferInstanceAs (Decidable (∀ a ∈ recs, ∀ b ∈ recs, _))

theorem Holds.perm {recs' : List RR} (h : Holds m recs) (hp : recs.Perm recs') : Holds m recs' :=
  fun name => (h name).trans (hp.filter _)

theorem at_insert_self (m : RRMap) (name : Text) (l : List RR) : RRMap.at (m.insert name l) name = l := by
  rw [RRMap.at, AList.lookup_insert]
  rfl

variable {n : Text}

theorem at_insert_of_ne (h : n ≠ name) (l : List RR) : RRMap.at (m.insert name l) n = m.at n := by
  rw [RRMap.at, AList.lookup_insert_ne h]
  rfl

theorem at_erase_self (m : RRMap) (name : Text) : RRMap.at (m.erase name) name = [] := by
  rw [RRMap.at, AList.lookup_erase]
  rfl

theorem at_erase_of_ne (h : n ≠ name) : RRMap.at (m.erase name) n = m.at n := by
  rw [RRMap.at, AList.lookup_erase_ne h]
  rfl

theorem holds_empty : Holds ∅ [] := fun _ => List.Perm.nil

theorem Holds.add (h : Holds m recs) (r : RR) : Holds (addZoneRecord m r) (recs ++ [r]) := by
  intro n
  rw [filter_append]
  by_cases hn : n = r.name
  · subst hn
    rw [addZoneRecord, at_insert_self, filter_cons_of_pos (by simp), filter_nil]
    exact (h r.name).append_right _
  · rw [addZoneRecord, at_insert_of_ne hn, filter_cons_of_neg (by simpa using fun he => hn he.symm),
      filter_nil, append_nil]
    exact h n

theorem at_removeZoneRecord_self (m : RRMap) (r : RR) :
    RRMap.at (removeZoneRecord m r) r.name = (m.at r.name).eraseP (sameData r) := by
  unfold removeZoneRecord
  cases hl : m.lookup r.name with
  | none => simp only [RRMap.at, hl]; rfl
  | some l =>
    have hat : m.at r.name = l := by rw [RRMap.at, hl]; rfl
    simp only
    split
    · split
      next hnil => rw [at_erase_self, hat, hnil]
      next => rw [at_insert_self, hat]
    next hnn =>
    rw [hat, eraseP_of_forall_not]
    intro a ha hsm
    exact hnn (any_eq_true.2 ⟨a, ha, hsm⟩)

theorem at_removeZoneRecord_of_ne (h : n ≠ r.name) : RRMap.at (removeZoneRecord m r) n = m.at n := by
  unfold removeZoneRecord
  split
  · rfl
  split
  · split
    · exact at_erase_of_ne h
    · exact at_insert_of_ne h _
  · rfl

theorem Holds.remove_one {y : RR} (h : Holds m recs) (hy : y ∈ recs) (hnm : y.name = r.name)
    (hd : sameData r y = true) :
    ∃ x ∈ recs, x.name = r.name ∧ sameData r x = true ∧ Holds (removeZoneRecord m r) (recs.erase x) := by
  have hrc := h r.name
  have hmem : y ∈ m.at r.name := hrc.mem_iff.2 (mem_filter.2 ⟨hy, by simpa using hnm⟩)
  obtain ⟨x, l1, l2, -, hsm, hl, her⟩ := exists_of_eraseP hmem hd
  obtain ⟨hx, hxn⟩ := mem_filter.1 (hrc.mem_iff.1 (show x ∈ m.at r.name by rw [hl]; simp))
  have hxn : x.name = r.name := by simpa using hxn
  refine ⟨x, hx, hxn, hsm, fun n => ?_⟩
  have hfl := (perm_cons_erase hx).filter fun z => decide (z.name = n)
  by_cases hn : n = r.name
  · subst hn
    rw [filter_cons_of_pos (by simpa using hxn)] at hfl
    rw [at_removeZoneRecord_self, her]
    have hp : (x :: (l1 ++ l2)).Perm (m.at r.name) := by
      rw [hl]
      exact perm_middle.symm
    exact ((hp.trans hrc).trans hfl).cons_inv
  · rw [at_removeZoneRecord_of_ne hn]
    rw [filter_cons_of_neg (by simpa [hxn] using fun he => hn he.symm)] at hfl
    exact (h n).trans hfl

theorem Holds.remove (h : Holds m recs) (htw : TwinFree recs) (hr : r ∈ recs) :
    Holds (removeZoneRecord m r) (recs.erase r) := by
  obtain ⟨x, hx, hnm, hsm, hh⟩ := h.remove_one hr rfl (by simp [sameData])
  simp only [sameData, decide_eq_true_eq] at hsm
  -- the record found is `r` itself, since nothing else has its data
  rwa [htw x hx r hr hnm hsm.1 hsm.2] at hh

theorem TwinFree.subset {l : List RR} (h : TwinFree recs) (hl : l ⊆ recs) : TwinFree l :=
  fun a ha b hb => h a (hl ha) b (hl hb)

theorem Holds.removes {ds : List RR} (h : Holds m recs) (htw : TwinFree recs) (hds : ds.Subperm recs) :
    Holds (ds.foldl removeZoneRecord m) (recs.diff ds) := by
  induction ds generalizing m recs with
  | nil => exact h
  | cons d ds ih =>
    have hd : d ∈ recs := hds.subset mem_cons_self
    have hrs : ds.Subperm (recs.erase d) := by
      have := hds.erase d
      rwa [erase_cons_head] at this
    rw [foldl_cons, diff_cons]
    exact ih (h.remove htw hd) (htw.subset erase_subset) hrs

theorem Holds.adds {as : List RR} (h : Holds m recs) : Holds (as.foldl addZoneRecord m) (recs ++ as) := by
  induction as generalizing m recs with
  | nil => rwa [append_nil]
  | cons a as ih =>
    rw [foldl_cons, append_cons]
    exact ih (h.add a)

/-! ## Walking the diff -/

def Plain (r : RR) : Prop := r.type ≠ rrTypeSOA ∧ r.name.lower = r.name

instance (r : RR) : Decidable (Plain r) := inferInstanceAs (Decidable (_ ∧ _))

def JournalEntry.Plain (e : JournalEntry) : Prop :=
  (∀ r ∈ e.deleted, Transfer.Plain r) ∧ ∀ r ∈ e.added, Transfer.Plain r

instance (e : JournalEntry) : Decidable e.Plain := inferInstanceAs (Decidable (_ ∧ _))

theorem Plain.changeToRR (h : Plain r) : changeToRR r = .rr r := if_neg h.1

theorem Plain.recordFromRR (h : Plain r) : recordFromRR r = r := by
  unfold Transfer.recordFromRR
  rw [h.2]

theorem applyBody_rrs (rs : List RR) (deleting started : Bool) (ws : List Wire) (m : RRMap) :
    applyBody deleting started (rs.map Wire.rr ++ ws) m = applyBody deleting started ws
      ((rs.map recordFromRR).foldl (fun m r => if deleting then removeZoneRecord m r else addZoneRecord m r) m) := by
  induction rs generalizing m with
  | nil => rfl
  | cons r rs ih =>
    rw [map_cons, cons_append, applyBody, ih]
    rfl

theorem applyBody_records {rs : List RR} (h : ∀ r ∈ rs, Plain r) (deleting started : Bool) (ws : List Wire)
    (m : RRMap) : applyBody deleting started (rs.map changeToRR ++ ws) m = applyBody deleting started ws
        (rs.foldl (fun m r => if deleting then removeZoneRecord m r else addZoneRecord m r) m) := by
  have hw : rs.map changeToRR = rs.map Wire.rr := map_congr_left fun r hr => (h r hr).changeToRR
  have hsm : rs.map recordFromRR = rs := (map_congr_left fun r hr => (h r hr).recordFromRR).trans (map_id rs)
  rw [hw, applyBody_rrs, hsm]

def applyEntry (m : RRMap) (e : JournalEntry) : RRMap :=
  e.added.foldl addZoneRecord (e.deleted.foldl removeZoneRecord m)

theorem applyBody_diffs : ∀ {es : List JournalEntry}, (∀ e ∈ es, e.Plain) →
    ∀ (c : UInt32) (started : Bool) (m : RRMap), applyBody false started (diffs c es) m = es.foldl applyEntry m
  | [], _, _, _, _ => rfl
  | e :: es, h, c, started, m => by
    have he := h e mem_cons_self
    have hop : (if started = true then !false else true) = true := by cases started <;> rfl
    rw [diffs, applyBody, hop, applyBody_records he.1, applyBody]
    rw [applyBody_records he.2]
    exact applyBody_diffs (fun x hx => h x (mem_cons_of_mem _ hx)) _ _ _

theorem Holds.replay : ∀ {es : List JournalEntry} {v : List RR × UInt32} {m : RRMap},
    Holds m v.1 → Valid v es → (∀ fs, fs <+: es → TwinFree (replay v fs).1) →
      Holds (es.foldl applyEntry m) (Transfer.replay v es).1
  | [], _, _, h, _, _ => h
  | e :: es, v, m, h, hv, ht => by
    have hen : Holds (applyEntry m e) (applyChange v.1 e) := (h.removes (ht [] (List.nil_prefix)) hv.2.1).adds
    show Holds (es.foldl applyEntry (applyEntry m e)) (Transfer.replay (applyChange v.1 e, e.serial) es).1
    exact Holds.replay hen hv.2.2 fun fs hfs => ht (e :: fs) ((List.prefix_cons_inj e).2 hfs)

/-! ## The starting point -/

variable {e : JournalEntry}

theorem findIdx?_append_cons {q : JournalEntry → Bool} {pre post : List JournalEntry}
    (hpre : ∀ p ∈ pre, q p = false) (he : q e = true) : (pre ++ e :: post).findIdx? q = some pre.length := by
  induction pre with
  | nil => simp [findIdx?_cons, he]
  | cons p pre ih =>
    rw [cons_append, findIdx?_cons, hpre p mem_cons_self, ih fun x hx => hpre x (mem_cons_of_mem _ hx)]
    rfl

theorem generateIncrementalIXFR_eq {S : UInt32} {pre : List JournalEntry}
    (hsp : span S pre < 2 ^ 31) (he : serialIsNewer e.serial (lastSerial S pre) = true)
    (serial : UInt32) (post : List JournalEntry) :
    generateIncrementalIXFR serial (pre ++ e :: post) (lastSerial S pre) =
      some (.soa serial :: (diffs (lastSerial S pre) (e :: post) ++ [.soa serial])) := by
  unfold generateIncrementalIXFR
  rw [findIdx?_append_cons (not_newer_of_before hsp) he, bind_some, if_neg, drop_left' rfl]
  rintro ⟨hpos, hne⟩
  refine hne ?_
  obtain ⟨init, x, rfl⟩ : ∃ init x, pre = init ++ [x] :=
    ⟨pre.dropLast, pre.getLast (length_pos_iff.1 hpos), (dropLast_append_getLast _).symm⟩
  rw [lastSerial_append, length_append, length_singleton, Nat.add_sub_cancel, append_assoc,
    getElem?_append_right le_rfl, Nat.sub_self]
  rfl

/-! ## Runs of the master -/

theorem replay_serial (v : List RR × UInt32) (es : List JournalEntry) : (replay v es).2 = lastSerial v.2 es := by
  induction es generalizing v with
  | nil => rfl
  | cons e es ih => exact ih _

theorem replay_append (v : List RR × UInt32) (es fs : List JournalEntry) :
    replay v (es ++ fs) = replay (replay v es) fs := by
  induction es generalizing v with
  | nil => rfl
  | cons e es ih => exact ih _

theorem valid_append {v : List RR × UInt32} {fs : List JournalEntry} :
    Valid v (es ++ fs) ↔ Valid v es ∧ Valid (replay v es) fs := by
  induction es generalizing v with
  | nil => simp [Valid, replay]
  | cons e es ih => rw [cons_append, Valid, Valid, ih, replay, and_assoc, and_assoc]

namespace Master

structure Inv (s : Master) : Prop where
  valid : Valid s.initial s.changes
  current : (s.records, s.serial) = replay s.initial s.changes
  /-- Whatever is trimmed, the journal in memory is the end of the history. -/
  journal : s.store = none → s.journal <:+ s.changes

theorem inv_start (records : List RR) (serial : UInt32) (store : Option Nat) : (start records serial store).Inv :=
  ⟨trivial, rfl, fun _ => nil_suffix⟩

theorem usedJournal_of_store {s : Master} (h : s.store = none) : s.usedJournal = s.journal := by
  unfold usedJournal
  rw [h]
  split
  next hnil => rw [hnil]; rfl
  next => rfl

theorem recordChange_journal (s : Master) (entry : JournalEntry) (saved : Bool) :
    (s.recordChange entry saved).journal <:+ s.journal ++ [entry] := by
  simp only [recordChange]
  generalize (if s.maxJournalSize = 0 then 100 else s.maxJournalSize) = limit
  split
  · exact drop_suffix _ _
  · exact suffix_refl _

theorem inv_step {s s' : Master} {a : Step} (h : s.Inv) (hs : s.step a = some s') : s'.Inv := by
  cases a with
  | change entry saved =>
    simp only [step] at hs
    split at hs
    next hok =>
      cases hs
      have hcr := h.current
      refine ⟨valid_append.2 ⟨h.valid, ?_⟩, ?_, fun hst => ?_⟩
      · show Valid (replay s.initial s.changes) [entry]
        rw [← hcr]
        exact ⟨hok.1, hok.2, trivial⟩
      · show (applyChange s.records entry, entry.serial) = replay s.initial (s.changes ++ [entry])
        rw [replay_append, ← hcr]
        rfl
      · have hnn : s.store = none := by
          have : s.store.map _ = none := hst
          exact map_eq_none_iff.1 this
        obtain ⟨older, holder⟩ := h.journal hnn
        refine (recordChange_journal s entry saved).trans ⟨older, ?_⟩
        show older ++ (s.journal ++ [entry]) = s.changes ++ [entry]
        rw [← holder, append_assoc]
    next => cases hs
  | setMaxJournalSize size =>
    cases hs
    exact ⟨h.valid, h.current, h.journal⟩
  | serve =>
    cases hs
    refine ⟨h.valid, h.current, fun hst => ?_⟩
    have hnn : s.store = none := hst
    show s.usedJournal <:+ s.changes
    rw [usedJournal_of_store hnn]
    exact h.journal hnn
  | restart =>
    cases hs
    exact ⟨h.valid, h.current, fun _ => nil_suffix⟩

end Master

/-! ## Full transfers -/

theorem applyFullZone_records {rs : List RR} (h : ∀ r ∈ rs, Plain r) (ws : List Wire) (m : RRMap) :
    applyFullZone (rs.map Wire.rr ++ ws) m = applyFullZone ws (rs.foldl addZoneRecord m) := by
  induction rs generalizing m with
  | nil => rfl
  | cons r rs ih =>
    rw [map_cons, cons_append, applyFullZone, (h r mem_cons_self).recordFromRR,
      ih fun x hx => h x (mem_cons_of_mem _ hx)]
    rfl

theorem applyTransferredZone_full (serial : UInt32) {sorted : List RR} (hne : sorted ≠ [])
    (hp : ∀ r ∈ sorted, Plain r) (base : Option RRMap) :
    ∃ m', applyTransferredZone base (generateAXFRRecords serial sorted) = .ok (some m', serial) ∧ Holds m' sorted := by
  have hfl : sorted.filter (fun r => decide (r.type ≠ rrTypeSOA)) = sorted :=
    filter_eq_self.2 fun r hr => by simpa using (hp r hr).1
  rw [generateAXFRRecords, hfl]
  have hfu := applyFullZone_records hp [Wire.soa serial] ∅
  cases sorted with
  | nil => exact absurd rfl hne
  | cons r rs =>
    refine ⟨_, rfl, ?_⟩
    show Holds (applyFullZone ((r :: rs).map Wire.rr ++ [.soa serial]) ∅) _
    rw [hfu]
    exact (holds_empty.adds : Holds _ ([] ++ (r :: rs)))

theorem newer_of_span {c : UInt32} {v : List RR × UInt32}
    (hv : Valid v (e :: es)) (hc : v.2 = c) (hsp : span c (e :: es) < 2 ^ 31) :
    serialIsNewer (lastSerial c (e :: es)) c = true := by
  subst hc
  have hfr := serialIsNewer_iff.1 hv.1
  rw [serialIsNewer_iff, toNat_lastSerial_sub (by omega)]
  rw [span] at hsp ⊢
  omega

/-- **IXFR converges.** A slave that holds the zone as it was after the changes `old` and applies the
answer to its serial ends with the master's records and serial, if the journal reaches back to `old` or
is empty, the serial moved by less than `2^31`, and no version since then has two records that differ in
the TTL only. -/
theorem ixfr_converges {records : List RR} {serial : UInt32} {store : Option Nat} {steps : List Master.Step}
    {s : Master} (hs : Run.exec step (start records serial store) steps = some s)
    {old new : List JournalEntry} (hchanges : s.changes = old ++ new) {m : RRMap}
    (hm : Holds m (replay s.initial old).1) (hstore : s.store = none ∨ s.usedJournal <:+ s.changes)
    (hcover : new <:+ s.usedJournal ∨ s.usedJournal = [] ∧ s.records ≠ [])
    (hspan : span (replay s.initial old).2 new < 2 ^ 31) (hspanJ : ∀ older, s.changes = older ++ s.usedJournal →
      span (replay s.initial older).2 s.usedJournal < 2 ^ 31)
    (htwins : ∀ fs, fs <+: new → TwinFree (replay s.initial (old ++ fs)).1)
    (hplain : (∀ r ∈ s.records, Plain r) ∧ ∀ e ∈ new, e.Plain) {sorted : List RR} (hsorted : sorted.Perm s.records) :
    ∃ m', applyTransferredZone (some m) (s.handleIXFR (replay s.initial old).2 sorted) = .ok (some m', s.serial) ∧
      Holds m' s.records := by
  have hiv : s.Inv := Run.invariant (fun _ _ _ hi _ hst => inv_step hi hst) steps hs
    (Run.Meets.of_forall (fun _ _ => trivial) _ _) (inv_start records serial store)
  have hvl := (valid_append.1 (hchanges ▸ hiv.valid)).2
  have hcr : (s.records, s.serial) = replay (replay s.initial old) new := by
    rw [← replay_append, ← hchanges]
    exact hiv.current
  have hrc : s.records = (replay (replay s.initial old) new).1 := congrArg Prod.fst hcr
  have hsr : s.serial = lastSerial (replay s.initial old).2 new := by
    rw [← replay_serial]
    exact congrArg Prod.snd hcr
  obtain ⟨older, holder⟩ : s.usedJournal <:+ s.changes :=
    hstore.elim (fun h => usedJournal_of_store h ▸ hiv.journal h) id
  have hJ := hspanJ older holder.symm
  generalize hv : replay s.initial old = v at *
  cases new with
  | nil =>
    -- the client is up to date
    have hsm : serialIsNewer s.serial v.2 = false := by
      rw [hsr]
      simp [lastSerial, serialIsNewer]
    refine ⟨m, ?_, hrc ▸ hm⟩
    rw [handleIXFR, if_pos hsm]
    rfl
  | cons e es =>
    have hnw : serialIsNewer s.serial v.2 = true := hsr ▸ newer_of_span hvl rfl hspan
    rw [handleIXFR, if_neg (by rw [hnw]; decide)]
    rcases hcover with ⟨pre, hpre⟩ | ⟨hem, hne⟩
    · -- the journal is `pre` and then the changes since the client's version
      have hol : older ++ pre = old := by
        rw [← hpre, ← append_assoc, hchanges] at holder
        exact append_cancel_right holder
      have hc : lastSerial (replay s.initial older).2 pre = v.2 := by
        rw [← hv, ← hol, replay_append, replay_serial (replay s.initial older)]
      rw [← hpre, span_append] at hJ
      have he : serialIsNewer e.serial (lastSerial (replay s.initial older).2 pre) = true := hc ▸ hvl.1
      have hg := generateIncrementalIXFR_eq (by omega) he s.serial es
      rw [hc, hpre] at hg
      rw [hg, getD_some]
      refine ⟨(e :: es).foldl applyEntry m, ?_, ?_⟩
      · show Except.ok (some (applyBody false false (diffs v.2 (e :: es) ++ [Wire.soa s.serial]).dropLast m),
          s.serial) = _
        rw [dropLast_concat, applyBody_diffs hplain.2]
      · have hvr : ∀ fs, fs <+: e :: es → TwinFree (replay v fs).1 := fun fs hfs => by
          have := htwins fs hfs
          rwa [replay_append, hv] at this
        rw [hrc]
        exact hm.replay hvl hvr
    have hnn : generateIncrementalIXFR s.serial s.usedJournal v.2 = none := by rw [hem]; rfl
    rw [hnn, getD_none]
    have hso : sorted ≠ [] := fun h => hne (nil_perm.1 (h ▸ hsorted))
    obtain ⟨m', hap, hh⟩ := applyTransferredZone_full s.serial hso
      (fun r hr => hplain.1 r (hsorted.subset hr)) (some m)
    exact ⟨m', hap, hh.perm hsorted⟩

def hostA : RR := ⟨"a.e.".toList, 1, 60, "192.0.2.1".toList⟩
def hostB : RR := ⟨"b.e.".toList, 1, 60, "192.0.2.2".toList⟩

def addBoth : List JournalEntry := [⟨2, [hostA], []⟩, ⟨3, [hostB], []⟩]

def bothAdded : Master where
  records := [hostA, hostB]
  serial := 3
  journal := addBoth
  maxJournalSize := 100
  store := none
  initial := ([], 1)
  changes := addBoth

theorem ixfr_converges_bothAdded :
    Run.exec step (start [] 1 none) (addBoth.map fun e => .change e true) = some bothAdded ∧
      ∃ m', applyTransferredZone (some ∅) (bothAdded.handleIXFR 1 [hostA, hostB]) = .ok (some m', 3) ∧
        Holds m' [hostA, hostB] := by
  have hrn : Run.exec step (start [] 1 none) (addBoth.map fun e => .change e true) = some bothAdded := rfl
  refine ⟨hrn, @ixfr_converges _ _ _ _ bothAdded hrn [] addBoth rfl _ holds_empty (.inl rfl)
    (.inl (suffix_refl _)) (by decide) (fun older h => ?_) (fun fs hfs => ?_) (by decide) _ (List.Perm.refl _)⟩
  · have hnil : older = [] := self_eq_append_left.1 h
    subst hnil
    decide
  · have hall : ∀ fs ∈ addBoth.inits, TwinFree (replay bothAdded.initial ([] ++ fs)).1 := by decide
    exact hall fs ((mem_inits _ _).2 hfs)

theorem trimmed_journal_loses_change : Run.exec step (start [] 1 none)
        (.setMaxJournalSize 1 :: addBoth.map fun e => .change e true) =
      some { bothAdded with journal := addBoth.drop 1, maxJournalSize := 1 } ∧
      ∃ m', applyTransferredZone (some ∅) (({ bothAdded with journal := addBoth.drop 1, maxJournalSize := 1 } :
        Master).handleIXFR 1 [hostA, hostB]) = .ok (some m', 3) ∧
        m'.at hostB.name = [hostB] ∧ m'.at hostA.name = [] := by
  refine ⟨rfl, _, rfl, ?_, ?_⟩ <;> decide

end NothingDNS.Transfer
