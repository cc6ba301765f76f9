import NothingDNS.Dnssec.Rollover
/-!
# What a key rollover keeps

The keys of one kind evolve on their own: seen on them, a check is `rolled` after `advance`, whatever
happens to the other kind (`ofKind_check`). The invariant of a run is about these keys (`Safe`).
-/

namespace NothingDNS.Rollover

open List SigningKey

def ofKind (kind : Kind) (keys : List SigningKey) : List SigningKey := keys.filter (·.isOf kind)

def rolled (cfg : RolloverConfig) (kind : Kind) (now : Int) (generated : Option UInt16) (keys : List SigningKey) :
    List SigningKey :=
  if cfg.lifetime kind = 0 then keys
  else if needsRollover cfg kind now keys then
    match generated with
    | none => keys
    | some keyTag => generatedKey cfg kind now keyTag :: keys.map (retimed cfg kind now)
  else keys

section Rolled

variable {cfg : RolloverConfig} {kind : Kind} {now : Int} {generated : Option UInt16} {keys : List SigningKey}

theorem rolled_idle (h : needsRollover cfg kind now keys = false) : rolled cfg kind now generated keys = keys := by
  unfold rolled
  rw [h, if_neg Bool.false_ne_true, ite_self]

theorem rolled_some (hlf : cfg.lifetime kind ≠ 0) (h : needsRollover cfg kind now keys = true) (keyTag : UInt16) :
    rolled cfg kind now (some keyTag) keys = generatedKey cfg kind now keyTag :: keys.map (retimed cfg kind now) := by
  unfold rolled
  rw [if_neg hlf, if_pos h]

theorem rolled_cases (cfg : RolloverConfig) (kind : Kind) (now : Int) (generated : Option UInt16) (keys : List SigningKey) :
    rolled cfg kind now generated keys = keys ∨ ∃ keyTag ∈ generated,
        rolled cfg kind now generated keys = generatedKey cfg kind now keyTag :: keys.map (retimed cfg kind now) := by
  unfold rolled
  split_ifs
  · exact .inl rfl
  · cases generated with
    | none => exact .inl rfl
    | some keyTag => exact .inr ⟨keyTag, rfl, rfl⟩
  · exact .inl rfl

theorem mem_rolled {key : SigningKey} (hkey : key ∈ keys) (hsm : retimed cfg kind now key = key) :
    key ∈ rolled cfg kind now generated keys := by
  obtain h | ⟨keyTag, -, h⟩ := rolled_cases cfg kind now generated keys
  · rwa [h]
  · rw [h]
    exact mem_cons_of_mem _ (mem_map.2 ⟨key, hkey, hsm⟩)

end Rolled

structure WellFormed (keys : List SigningKey) : Prop where
  nodup : (keys.map SigningKey.keyTag).Nodup
  oneKind : ∀ key ∈ keys, key.isZSK = true → key.isKSK = false

structure Check.Fresh (c : Check) (keys : List SigningKey) : Prop where
  new : ∀ kind, ∀ keyTag ∈ c.generated kind, keyTag ∉ keys.map SigningKey.keyTag
  distinct : ∀ keyTag ∈ c.zskTag, keyTag ∉ c.kskTag

section Kinds

variable {cfg : RolloverConfig} {kind other : Kind} {now : Int} {keys : List SigningKey} {key : SigningKey}

theorem retimed_cases (cfg : RolloverConfig) (kind : Kind) (now : Int) (key : SigningKey) :
    ∃ timing, retimed cfg kind now key = { key with timing } ∧ timing.isSome = key.timing.isSome := by
  unfold retimed
  split_ifs
  · exact scheduled_cases cfg now key
  · exact ⟨_, rfl, rfl⟩

@[simp] theorem keyTag_retimed : (retimed cfg kind now key).keyTag = key.keyTag := by
  obtain ⟨timing, h, -⟩ := retimed_cases cfg kind now key
  rw [h]

@[simp] theorem isOf_retimed : (retimed cfg kind now key).isOf other = key.isOf other := by
  obtain ⟨timing, h, -⟩ := retimed_cases cfg kind now key
  rw [h]
  cases other <;> rfl

@[simp] theorem state_retimed : (retimed cfg kind now key).state = key.state := by
  obtain ⟨timing, h, -⟩ := retimed_cases cfg kind now key
  rw [h]

@[simp] theorem isSome_timing_retimed : (retimed cfg kind now key).timing.isSome = key.timing.isSome := by
  obtain ⟨timing, h, hsm⟩ := retimed_cases cfg kind now key
  rw [h, hsm]

theorem isActive_eq (key : SigningKey) : isActive key = (!key.timing.isSome || decide (key.state = .active)) := by
  unfold isActive
  cases key.timing <;> rfl

@[simp] theorem isActive_retimed : isActive (retimed cfg kind now key) = isActive key := by
  rw [isActive_eq, isActive_eq, isSome_timing_retimed, state_retimed]

theorem retimed_of_not_active (h : isActive key = false) : retimed cfg kind now key = key := by
  simp [retimed, h]

theorem retimed_of_not_isOf (h : key.isOf kind = false) : retimed cfg kind now key = key := by
  simp [retimed, h]

theorem retimed_of_retire {retire : Int} (h : retire ∈ key.retireTime) : retimed cfg kind now key = key := by
  rw [retimed, scheduled]
  rw [retireTime] at h
  split_ifs
  · split
    · rfl
    next timing htm =>
      rw [htm, Option.bind_some] at h
      refine if_neg fun hnn => ?_
      rw [hnn] at h
      cases h
  · rfl

theorem ofKind_generatedKey (keyTag : UInt16) : (generatedKey cfg kind now keyTag).isOf other = decide (kind = other) := by
  cases kind <;> cases other <;> rfl

theorem mem_getActive : key ∈ getActive kind keys ↔ key ∈ keys ∧ key.isOf kind = true ∧ isActive key = true := by
  rw [getActive, mem_filter, Bool.and_eq_true]

theorem getActive_ofKind : getActive kind (ofKind kind keys) = getActive kind keys := by
  rw [getActive, getActive, ofKind, filter_filter]
  refine filter_congr fun key _ => ?_
  cases key.isOf kind <;> simp

theorem needsRollover_ofKind : needsRollover cfg kind now (ofKind kind keys) = needsRollover cfg kind now keys := by
  rw [needsRollover, needsRollover, getActive_ofKind]

theorem ofKind_map_retimed : ofKind other (keys.map (retimed cfg kind now)) = (ofKind other keys).map (retimed cfg kind now) := by
  rw [ofKind, filter_map]
  exact congrArg _ (filter_congr fun key _ => isOf_retimed)

theorem ofKind_advance : ofKind kind (keys.filterMap (advance now)) = (ofKind kind keys).filterMap (advance now) := by
  rw [ofKind, ofKind, filter_filterMap, filterMap_filter]
  refine filterMap_congr fun key _ => ?_
  cases had : advance now key with
  | none => simp
  | some key' => simp [Option.filter, isOf_advance kind had]

theorem ofKind_rolled_self (generated : Option UInt16) :
    ofKind kind (rolled cfg kind now generated keys) = rolled cfg kind now generated (ofKind kind keys) := by
  unfold rolled
  rw [needsRollover_ofKind]
  split_ifs
  · rfl
  · cases generated with
    | none => rfl
    | some keyTag =>
      dsimp only
      rw [← ofKind_map_retimed, ofKind, filter_cons_of_pos (by rw [ofKind_generatedKey]; simp)]
      rfl
  · rfl

theorem ofKind_rolled_other (hne : kind ≠ other) (hwf : ∀ key ∈ keys, key.isZSK = true → key.isKSK = false)
    (generated : Option UInt16) : ofKind kind (rolled cfg other now generated keys) = ofKind kind keys := by
  have hot : ∀ key ∈ ofKind kind keys, key.isOf other = false := by
    intro key hkey
    obtain ⟨hkey, hof⟩ := mem_filter.1 hkey
    have hkn := hwf key hkey
    cases kind <;> cases other
    · exact absurd rfl hne
    · exact hkn hof
    · by_contra hz
      have hz : key.isZSK = true := by simpa [isOf] using hz
      exact absurd hof (by simp [isOf, hkn hz])
    · exact absurd rfl hne
  obtain h | ⟨keyTag, -, h⟩ := rolled_cases cfg other now generated keys
  · rw [h]
  rw [h, ofKind, filter_cons_of_neg (by rw [ofKind_generatedKey]; simp [Ne.symm hne])]
  refine ofKind_map_retimed.trans ?_
  exact (map_congr_left fun key hkey => retimed_of_not_isOf (hot key hkey)).trans (map_id _)

variable {generated : Option UInt16} {c : Check}

theorem maybeRollover_eq (hnd : (keys.map SigningKey.keyTag).Nodup)
    (hfr : ∀ keyTag ∈ generated, keyTag ∉ keys.map SigningKey.keyTag) :
    maybeRollover cfg kind now generated keys = rolled cfg kind now generated keys := by
  unfold maybeRollover rolled
  split_ifs
  · rfl
  · cases generated with
    | none => rfl
    | some keyTag => exact generateRollover_eq cfg kind now hnd (hfr keyTag rfl)
  · rfl

theorem WellFormed.advance (h : WellFormed keys) (now : Int) : WellFormed (keys.filterMap (advance now)) := by
  refine ⟨h.nodup.sublist (Snapshot.map_filterMap_sublist (keyTag_advance now) keys), fun key' hkey' => ?_⟩
  obtain ⟨key, hkey, had⟩ := mem_filterMap.1 hkey'
  obtain ⟨state, rfl, -⟩ := advance_cases had
  exact h.oneKind key hkey

theorem tags_map_retimed : (keys.map (retimed cfg kind now)).map keyTag = keys.map keyTag := by
  rw [map_map]
  exact map_congr_left fun _ _ => keyTag_retimed

theorem mem_tags_rolled {keyTag : UInt16}
    (h : keyTag ∈ (rolled cfg kind now generated keys).map SigningKey.keyTag) :
    keyTag ∈ generated ∨ keyTag ∈ keys.map SigningKey.keyTag := by
  obtain hr | ⟨newTag, hnw, hr⟩ := rolled_cases cfg kind now generated keys
  · exact .inr (hr ▸ h)
  rw [hr, map_cons, tags_map_retimed, mem_cons] at h
  rcases h with rfl | h
  · exact .inl hnw
  · exact .inr h

theorem WellFormed.rolled (h : WellFormed keys)
    (hfr : ∀ keyTag ∈ generated, keyTag ∉ keys.map SigningKey.keyTag) :
    WellFormed (rolled cfg kind now generated keys) := by
  obtain hr | ⟨keyTag, hnw, hr⟩ := rolled_cases cfg kind now generated keys
  · rwa [hr]
  rw [hr]
  refine ⟨?_, forall_mem_cons.2 ⟨by cases kind <;> simp [generatedKey, newKey], fun key' hkey' => ?_⟩⟩
  · rw [map_cons, tags_map_retimed]
    exact nodup_cons.2 ⟨hfr keyTag hnw, h.nodup⟩
  · obtain ⟨key, hkey, rfl⟩ := mem_map.1 hkey'
    obtain ⟨timing, hr, -⟩ := retimed_cases cfg kind now key
    rw [hr]
    exact h.oneKind key hkey

theorem Check.Fresh.advance (h : c.Fresh keys) : c.Fresh (keys.filterMap (advance c.now)) where
  new := fun kind keyTag hnw hmem =>
    h.new kind keyTag hnw ((Snapshot.map_filterMap_sublist (keyTag_advance c.now) keys).subset hmem)
  distinct := h.distinct

theorem check_eq (cfg : RolloverConfig) (hwf : WellFormed keys) (hfr : c.Fresh keys) :
    check cfg c keys = rolled cfg .ksk c.now c.kskTag (rolled cfg .zsk c.now c.zskTag (keys.filterMap (advance c.now))) ∧
      WellFormed (check cfg c keys) := by
  have had := hwf.advance c.now
  have hzs := hfr.advance.new .zsk
  rw [Check.generated] at hzs
  have hks : ∀ keyTag ∈ c.kskTag,
      keyTag ∉ (rolled cfg .zsk c.now c.zskTag (keys.filterMap (advance c.now))).map SigningKey.keyTag := by
    intro keyTag h hmem
    rcases mem_tags_rolled hmem with hz | hold
    · exact hfr.distinct keyTag hz h
    · exact hfr.advance.new .ksk keyTag h hold
  have heq : check cfg c keys =
      rolled cfg .ksk c.now c.kskTag (rolled cfg .zsk c.now c.zskTag (keys.filterMap (advance c.now))) := by
    rw [check, transitionKeys_eq c.now hwf.nodup, maybeRolloverZSK, maybeRollover_eq had.nodup hzs, maybeRolloverKSK,
      maybeRollover_eq (had.rolled hzs).nodup hks]
  exact ⟨heq, heq ▸ (had.rolled hzs).rolled hks⟩

/-- **The keys of one kind evolve on their own.** -/
theorem ofKind_check (cfg : RolloverConfig) (kind : Kind) (hwf : WellFormed keys) (hfr : c.Fresh keys) :
    ofKind kind (check cfg c keys) =
      rolled cfg kind c.now (c.generated kind) ((ofKind kind keys).filterMap (advance c.now)) := by
  have had := hwf.advance c.now
  have hzs := hfr.advance.new .zsk
  rw [Check.generated] at hzs
  rw [(check_eq cfg hwf hfr).1, ← ofKind_advance]
  cases kind with
  | zsk => rw [ofKind_rolled_other (by decide) (had.rolled hzs).oneKind, ofKind_rolled_self]; rfl
  | ksk => rw [ofKind_rolled_self, ofKind_rolled_other (by decide) had.oneKind]; rfl

end Kinds

/-! ## One kind of keys -/

def waiting (key : SigningKey) : Bool := key.timing.isSome && (key.state = .created || key.state = .published)

/-- The key is active and will be at the next check. Either it does not retire within `PublishSafety`, or
a rollover is under way that will not be over by then. -/
def Lasting (cfg : RolloverConfig) (last : Int) (keys : List SigningKey) (key : SigningKey) : Prop :=
  isActive key = true ∧ ((∀ retire ∈ key.retireTime, cfg.publishSafety < retire - last) ∨
    (∃ retire ∈ key.retireTime, retire - last ≤ cfg.publishSafety ∧ cfg.publishSafety < 2 * (retire - last)) ∧
    ∃ next ∈ keys, next.state = .published ∧ ∃ timing ∈ next.timing, ∃ active ∈ timing.active,
      cfg.publishSafety < 2 * (active - last))

structure Safe (cfg : RolloverConfig) (last : Int) (keys : List SigningKey) : Prop where
  lasting : ∃ key ∈ keys, Lasting cfg last keys key
  waits : keys.countP waiting ≤ 1

section Step

variable {cfg : RolloverConfig} {kind : Kind} {last now : Int} {keys : List SigningKey} {key : SigningKey}

theorem not_due {time : Option Int} (h : ∀ t ∈ time, now < t) : due time now = false := by
  cases time with
  | none => rfl
  | some t => simpa [due] using h t rfl

theorem advance_of_active (hac : isActive key = true) (h : ∀ retire ∈ key.retireTime, now < retire) :
    advance now key = some key := by
  rw [retireTime] at h
  cases htm : key.timing with
  | none => simp [advance, htm]
  | some timing =>
    have hst : key.state = .active := by simpa [isActive, htm] using hac
    rw [htm, Option.bind_some] at h
    simp [advance, htm, hst, not_due h]

theorem advance_of_published {timing : KeyTiming} (hst : key.state = .published) (htm : key.timing = some timing)
    (h : ∀ active ∈ timing.active, now < active) : advance now key = some key := by
  simp [advance, htm, hst, not_due h]

theorem waiting_of_advance {key' : SigningKey} (h : advance now key = some key') (hw : waiting key' = true) :
    waiting key = true := by
  unfold advance at h
  split at h
  · cases h
    exact hw
  next timing htm =>
    split at h
    next hs => simp [waiting, htm, hs]
    next hs => simp [waiting, htm, hs]
    next hs =>
      -- an active key stays so or is retired
      split_ifs at h
      · cases h
        simp [waiting] at hw
      · cases h
        exact hw
    next hs =>
      split_ifs at h
      cases h
      exact hw
    next hs =>
      cases h
      exact hw

theorem countP_advance_le : (keys.filterMap (advance now)).countP waiting ≤ keys.countP waiting := by
  rw [countP_filterMap]
  refine countP_mono_left fun key _ h => ?_
  cases had : advance now key with
  | none => simp [had] at h
  | some key' =>
    rw [had] at h
    exact waiting_of_advance had h

theorem needsRollover_of_mem {retire : Int} (hkey : key ∈ keys) (hof : key.isOf kind = true) (hac : isActive key = true)
    (hrt : retire ∈ key.retireTime) (hnr : retire - now ≤ cfg.publishSafety) :
    needsRollover cfg kind now keys = true := by
  refine Bool.or_eq_true_iff.2 (.inr (any_eq_true.2 ⟨key, mem_getActive.2 ⟨hkey, hof, hac⟩, ?_⟩))
  rw [Option.mem_def.1 hrt]
  exact decide_eq_true hnr

theorem not_needsRollover {retire : Int} (h : needsRollover cfg kind now keys = false) (hkey : key ∈ keys)
    (hof : key.isOf kind = true) (hac : isActive key = true) (hrt : retire ∈ key.retireTime) :
    cfg.publishSafety < retire - now := by
  by_contra hnr
  rw [needsRollover_of_mem hkey hof hac hrt (Int.not_lt.1 hnr)] at h
  cases h

theorem lasting_retimed (hP : 0 < cfg.publishSafety) (hg : 2 * (now - last) ≤ cfg.publishSafety)
    (hof : key.isOf kind = true) (hac : isActive key = true)
    (hfr : ∀ retire ∈ key.retireTime, cfg.publishSafety < retire - last) (keyTag : UInt16) :
    Lasting cfg now (generatedKey cfg kind now keyTag :: keys.map (retimed cfg kind now)) (retimed cfg kind now key) := by
  refine ⟨by rw [isActive_retimed, hac], ?_⟩
  have hnx : ∃ next ∈ generatedKey cfg kind now keyTag :: keys.map (retimed cfg kind now),
      next.state = .published ∧ ∃ timing ∈ next.timing, ∃ active ∈ timing.active, cfg.publishSafety < 2 * (active - now) :=
    ⟨_, mem_cons_self, rfl, _, rfl, _, rfl, by omega⟩
  cases hrt : key.retireTime with
  | some retire =>
    have := hfr retire hrt
    rw [retimed_of_retire hrt, hrt]
    by_cases hnr : retire - now ≤ cfg.publishSafety
    · exact .inr ⟨⟨retire, rfl, hnr, by omega⟩, hnx⟩
    refine .inl fun r hr => ?_
    cases hr
    omega
  | none =>
    cases htm : key.timing with
    | none =>
      have hsm : retimed cfg kind now key = key := by simp [retimed, scheduled, htm]
      rw [hsm, hrt]
      exact .inl fun r hr => by cases hr
    | some timing =>
      -- the key was to stay, now it retires when the new one becomes active
      have hnn : timing.retire = none := by simpa [retireTime, htm] using hrt
      refine .inr ⟨⟨now + cfg.publishSafety, ?_, by omega, by omega⟩, hnx⟩
      simp [retimed, hof, hac, scheduled, htm, hnn, retireTime]

/-- **A check keeps the keys safe**, if it starts a rollover only while no key waits. -/
theorem Safe.rolled (h : Safe cfg last keys) (hP : 0 < cfg.publishSafety) (hlf : cfg.lifetime kind ≠ 0)
    (hnw : last ≤ now) (hg : 2 * (now - last) ≤ cfg.publishSafety) (hkn : ∀ key ∈ keys, key.isOf kind = true)
    {generated : Option UInt16} (hft : needsRollover cfg kind now (keys.filterMap (advance now)) = true →
      (∀ key ∈ keys.filterMap (advance now), waiting key = false) ∧ generated.isSome = true) :
    Safe cfg now (rolled cfg kind now generated (keys.filterMap (advance now))) := by
  obtain ⟨key, hkey, hac, hls⟩ := h.lasting
  have hof := hkn key hkey
  rcases hls with hfr | ⟨⟨retire, hrt, hnr, hh⟩, next, hnx, hst, timing, htm, active, ha, hwt⟩
  · have hmem : key ∈ keys.filterMap (advance now) :=
      mem_filterMap.2 ⟨key, hkey, advance_of_active hac fun r hr => by have := hfr r hr; omega⟩
    cases hnd : needsRollover cfg kind now (keys.filterMap (advance now)) with
    | false =>
      rw [rolled_idle hnd]
      refine ⟨⟨key, hmem, hac, .inl fun r hr => ?_⟩, Nat.le_trans countP_advance_le h.waits⟩
      exact not_needsRollover hnd hmem hof hac hr
    | true =>
      obtain ⟨hnn, hsm⟩ := hft hnd
      obtain ⟨keyTag, rfl⟩ := Option.isSome_iff_exists.1 hsm
      rw [rolled_some hlf hnd]
      refine ⟨⟨_, mem_cons_of_mem _ (mem_map_of_mem hmem), lasting_retimed hP hg hof hac hfr keyTag⟩, ?_⟩
      have hot : ((keys.filterMap (advance now)).map (retimed cfg kind now)).countP waiting = 0 := by
        rw [countP_eq_zero]
        intro k' hk'
        obtain ⟨k, hk, rfl⟩ := mem_map.1 hk'
        have := hnn k hk
        simpa [waiting] using this
      rw [countP_cons, hot]
      split_ifs <;> omega
  -- the old key is near its end and the new one still waits, so the check would start a second rollover
  have hmem : key ∈ keys.filterMap (advance now) := by
    refine mem_filterMap.2 ⟨key, hkey, advance_of_active hac fun r hr => ?_⟩
    obtain rfl := Option.mem_unique hr hrt
    omega
  have hnM : next ∈ keys.filterMap (advance now) := by
    refine mem_filterMap.2 ⟨next, hnx, advance_of_published hst htm fun a ha' => ?_⟩
    obtain rfl := Option.mem_unique ha' ha
    omega
  have hnd : needsRollover cfg kind now (keys.filterMap (advance now)) = true :=
    needsRollover_of_mem hmem hof hac hrt (by omega)
  have hw : waiting next = true := by simp [waiting, Option.mem_def.1 htm, hst]
  rw [(hft hnd).1 next hnM] at hw
  cases hw

end Step

def Resting (deadline : Int) (keyTag : UInt16) (keys : List SigningKey) : Prop :=
  ∃ key ∈ keys, key.keyTag = keyTag ∧ key.state = .retired ∧ key.timing.isSome = true ∧
    ∀ remove ∈ key.removeTime, deadline ≤ remove

section Resting

variable {cfg : RolloverConfig} {kind : Kind} {now deadline : Int} {keys : List SigningKey} {key : SigningKey}
  {keyTag : UInt16} {generated : Option UInt16}

theorem not_isActive_retired (hst : key.state = .retired) (htm : key.timing.isSome = true) : isActive key = false := by
  rw [isActive_eq, htm, hst]
  rfl

theorem Resting.rolled (h : Resting deadline keyTag keys) (hnw : now < deadline) :
    Resting deadline keyTag (rolled cfg kind now generated (keys.filterMap (advance now))) := by
  obtain ⟨key, hkey, htag, hst, hsm, hrm⟩ := h
  obtain ⟨timing, htm⟩ := Option.isSome_iff_exists.1 hsm
  have hd : due timing.remove now = false := by
    refine not_due fun r hr => Int.lt_of_lt_of_le hnw (hrm r ?_)
    rw [removeTime, htm]
    exact hr
  have had : advance now key = some key := by simp [advance, htm, hst, hd]
  refine ⟨key, mem_rolled (mem_filterMap.2 ⟨key, hkey, had⟩) ?_, htag, hst, hsm, hrm⟩
  exact retimed_of_not_active (not_isActive_retired hst hsm)

def stopsAt (now : Int) (key : SigningKey) : Bool := key.timing.isSome && isActive key && due key.retireTime now

theorem resting_of_stopped (hkey : key ∈ keys) (hac : isActive key = true)
    (hst : ∀ key' ∈ rolled cfg kind now generated (keys.filterMap (advance now)),
      isActive key' = true → key'.keyTag ≠ key.keyTag)
    (hrm : stopsAt now key = true → ∀ remove ∈ key.removeTime, deadline ≤ remove) :
    Resting deadline key.keyTag (rolled cfg kind now generated (keys.filterMap (advance now))) := by
  cases hsp : stopsAt now key with
  | true =>
    obtain ⟨htd, hd⟩ := Bool.and_eq_true_iff.1 hsp
    obtain ⟨timing, htm⟩ := Option.isSome_iff_exists.1 (Bool.and_eq_true_iff.1 htd).1
    have hse : key.state = .active := by simpa [isActive, htm] using hac
    have had : advance now key = some { key with state := .retired } := by
      rw [retireTime, htm, Option.bind_some] at hd
      simp [advance, htm, hse, hd]
    have hsm : ({ key with state := .retired } : SigningKey).timing.isSome = true := by
      rw [htm]
      rfl
    refine ⟨_, mem_rolled (mem_filterMap.2 ⟨key, hkey, had⟩) ?_, rfl, rfl, hsm, hrm hsp⟩
    exact retimed_of_not_active (not_isActive_retired rfl hsm)
  | false =>
    -- the key is still active
    have had : advance now key = some key := by
      cases htm : key.timing with
      | none => simp [advance, htm]
      | some timing =>
        refine advance_of_active hac fun r hr => ?_
        have hnt : due key.retireTime now = false := by simpa [stopsAt, htm, hac] using hsp
        rw [Option.mem_def.1 hr] at hnt
        simpa [due] using hnt
    have hmem := mem_filterMap.2 ⟨key, hkey, had⟩
    exfalso
    obtain hr | ⟨newTag, -, hr⟩ := rolled_cases cfg kind now generated (keys.filterMap (advance now))
    · rw [hr] at hst
      exact hst key hmem hac rfl
    rw [hr] at hst
    refine hst _ (mem_cons_of_mem _ (mem_map_of_mem hmem)) ?_ keyTag_retimed
    rw [isActive_retimed, hac]

end Resting

structure Sched where
  last : Int
  keys : List SigningKey

/-- A check at most half of `PublishSafety` after the last one. -/
def checkStep (cfg : RolloverConfig) (s : Sched) (c : Check) : Option Sched :=
  if s.last ≤ c.now ∧ 2 * (c.now - s.last) ≤ cfg.publishSafety then some ⟨c.now, check cfg c s.keys⟩ else none

/-- The check starts a rollover only while no key waits, and then a key is generated; and it does not
retire a key later than `RetireSafety` before the key is to be removed. -/
structure Check.Fits (cfg : RolloverConfig) (kind : Kind) (s : Sched) (c : Check) : Prop where
  fresh : c.Fresh s.keys
  alone : needsRollover cfg kind c.now (transitionKeys c.now s.keys) = true →
    (∀ key ∈ transitionKeys c.now s.keys, key.isOf kind = true → waiting key = false) ∧ (c.generated kind).isSome = true
  onTime : ∀ key ∈ s.keys, key.isOf kind = true → stopsAt c.now key = true →
    ∀ remove ∈ key.removeTime, c.now + cfg.retireSafety ≤ remove

/-- A key is active whose retirement is at least two `PublishSafety` away, and at most one key waits. -/
structure Sched.Starts (cfg : RolloverConfig) (kind : Kind) (s : Sched) : Prop extends WellFormed s.keys where
  active : ∃ key ∈ getActive kind s.keys, ∀ retire ∈ key.retireTime, 2 * cfg.publishSafety ≤ retire - s.last
  waits : (ofKind kind s.keys).countP waiting ≤ 1

structure Sched.Inv (cfg : RolloverConfig) (kind : Kind) (s : Sched) : Prop extends WellFormed s.keys where
  safe : Safe cfg s.last (ofKind kind s.keys)

section Runs

variable {cfg : RolloverConfig} {kind : Kind} {s s' : Sched} {c : Check}

theorem checkStep_cases (h : checkStep cfg s c = some s') :
    s.last ≤ c.now ∧ 2 * (c.now - s.last) ≤ cfg.publishSafety ∧ s' = ⟨c.now, check cfg c s.keys⟩ := by
  unfold checkStep at h
  split_ifs at h with hg
  cases h
  exact ⟨hg.1, hg.2, rfl⟩

theorem Sched.Starts.inv (h : s.Starts cfg kind) (hP : 0 < cfg.publishSafety) : s.Inv cfg kind := by
  obtain ⟨key, hkey, hfr⟩ := h.active
  obtain ⟨hkey, hof, hac⟩ := mem_getActive.1 hkey
  refine ⟨h.toWellFormed, ⟨key, mem_filter.2 ⟨hkey, hof⟩, hac, .inl fun r hr => ?_⟩, h.waits⟩
  have := hfr r hr
  omega

theorem checkStep_inv (hP : 0 < cfg.publishSafety) (hlf : 0 < cfg.lifetime kind) (h : s.Inv cfg kind)
    (hft : c.Fits cfg kind s) (hst : checkStep cfg s c = some s') : s'.Inv cfg kind := by
  obtain ⟨hnw, hg, rfl⟩ := checkStep_cases hst
  refine ⟨(check_eq cfg h.toWellFormed hft.fresh).2, ?_⟩
  rw [ofKind_check cfg kind h.toWellFormed hft.fresh]
  refine h.safe.rolled hP (by omega) hnw hg (fun key hkey => (mem_filter.1 hkey).2) fun hnd => ?_
  have hal := hft.alone
  rw [transitionKeys_eq c.now h.nodup] at hal
  rw [← ofKind_advance, needsRollover_ofKind] at hnd
  refine ⟨fun key hkey => ?_, (hal hnd).2⟩
  rw [← ofKind_advance] at hkey
  obtain ⟨hkey, hof⟩ := mem_filter.1 hkey
  exact (hal hnd).1 key hkey hof

theorem Sched.Inv.getActive (h : s.Inv cfg kind) : getActive kind s.keys ≠ [] := by
  obtain ⟨key, hkey, hac, -⟩ := h.safe.lasting
  obtain ⟨hkey, hof⟩ := mem_filter.1 hkey
  exact ne_nil_of_mem (mem_getActive.2 ⟨hkey, hof, hac⟩)

end Runs

/-- **A rollover never leaves the zone without a key.** From a key that is active for two `PublishSafety`
more, with checks at most half of it apart and while no rollover is started when a key waits: after every
check a key of the kind is active, at most one waits, and a retired key stays for `RetireSafety`. -/
theorem rollover_keeps_key (cfg : RolloverConfig) (kind : Kind) (hP : 0 < cfg.publishSafety)
    (hlife : 0 < cfg.lifetime kind) (s t : Sched) (hs : s.Starts cfg kind) (checks : List Check)
    (hrun : Run.exec (checkStep cfg) s checks = some t)
    (hfits : Run.Meets (checkStep cfg) (fun s c => c.Fits cfg kind s) s checks) :
    getActive kind t.keys ≠ [] ∧ (ofKind kind t.keys).countP waiting ≤ 1 ∧
    ∀ before c after s₁ s₂, checks = before ++ c :: after → Run.exec (checkStep cfg) s before = some s₁ →
      checkStep cfg s₁ c = some s₂ → Run.exec (checkStep cfg) s₂ after = some t →
      ∀ key ∈ getActive kind s₁.keys, (∀ key' ∈ getActive kind s₂.keys, key'.keyTag ≠ key.keyTag) →
        t.last < c.now + cfg.retireSafety → ∃ key' ∈ t.keys, key'.keyTag = key.keyTag := by
  have hsr := hs.inv hP
  have hst : ∀ s c s', Sched.Inv cfg kind s → Check.Fits cfg kind s c → checkStep cfg s c = some s' → s'.Inv cfg kind :=
    fun _ _ _ h hf hs => checkStep_inv hP hlife h hf hs
  have hen := Run.invariant hst checks hrun hfits hsr
  refine ⟨hen.getActive, hen.safe.waits, ?_⟩
  intro before c after s₁ s₂ hch hb hc haf key hkey hsp ht
  subst hch
  obtain ⟨hm1, hm2⟩ := hfits.of_append hb
  have h1 := Run.invariant hst before hb hm1 hsr
  obtain ⟨hkey, hof, hac⟩ := mem_getActive.1 hkey
  have hrs : Resting (c.now + cfg.retireSafety) key.keyTag (ofKind kind s₂.keys) := by
    obtain ⟨-, -, rfl⟩ := checkStep_cases hc
    have hkn := ofKind_check cfg kind h1.toWellFormed hm2.1.fresh
    rw [hkn]
    refine resting_of_stopped (mem_filter.2 ⟨hkey, hof⟩) hac (fun key' hkey' ha' => ?_) (hm2.1.onTime key hkey hof)
    rw [← hkn] at hkey'
    obtain ⟨hkey', ho'⟩ := mem_filter.1 hkey'
    exact hsp key' (mem_getActive.2 ⟨hkey', ho', ha'⟩)
  -- by induction over the later checks, each of which comes before the deadline
  obtain ⟨-, hls⟩ := @Run.invariant _ _ _ _
    (fun s => s.Inv cfg kind ∧ (s.last < c.now + cfg.retireSafety → Resting (c.now + cfg.retireSafety) key.keyTag (ofKind kind s.keys)))
    (fun s c s' h hf hs => ⟨hst s c s' h.1 hf hs, fun hls => by
      obtain ⟨hnw, -, rfl⟩ := checkStep_cases hs
      rw [ofKind_check cfg kind h.1.toWellFormed hf.fresh]
      exact (h.2 (Int.lt_of_le_of_lt hnw hls)).rolled hls⟩)
    after _ _ haf (hm2.tail hc) ⟨hst _ _ _ h1 hm2.1 hc, fun _ => hrs⟩
  obtain ⟨key', hkey', htag, -⟩ := hls ht
  exact ⟨key', (mem_filter.1 hkey').1, htag⟩

def tens : RolloverConfig where
  zskLifetime := 1000
  kskLifetime := 1000
  publishSafety := 10
  retireSafety := 20

/-- Two `PublishSafety` before the zone signing key retires; the key signing key is to stay. -/
def atEighty : Sched where
  last := 80
  keys := [⟨1, false, true, .active, some ⟨none, none, some 100, some 120⟩⟩, ⟨2, true, false, .active, none⟩]

def checkAt (now : Int) (zskTag : Option UInt16) : Check := ⟨now, zskTag, none⟩

theorem checkAt_fresh (now : Int) {zskTag : Option UInt16} {keys : List SigningKey}
    (h : ∀ keyTag, zskTag = some keyTag → keyTag ∉ keys.map SigningKey.keyTag) : (checkAt now zskTag).Fresh keys where
  new := by
    rintro (_ | _) keyTag hg
    · exact h keyTag hg
    · cases hg
  distinct := by simp [checkAt]

theorem atEighty_starts : atEighty.Starts tens .zsk where
  nodup := by decide
  oneKind := by decide
  active := ⟨_, mem_cons_self, by decide⟩
  waits := by decide

theorem rollover_keeps_key_atEighty : ∃ t, Run.exec (checkStep tens) atEighty [checkAt 85 none, checkAt 90 (some 3)] = some t ∧
    getActive .zsk t.keys ≠ [] ∧ (ofKind .zsk t.keys).countP waiting ≤ 1 := by
  obtain ⟨t, hrn⟩ : ∃ t, Run.exec (checkStep tens) atEighty [checkAt 85 none, checkAt 90 (some 3)] = some t := ⟨_, rfl⟩
  have hf1 : (checkAt 85 none).Fresh atEighty.keys := checkAt_fresh 85 (by simp)
  have hf2 : (checkAt 90 (some 3)).Fresh (check tens (checkAt 85 none) atEighty.keys) :=
    checkAt_fresh 90 (by rintro keyTag ⟨⟩; decide)
  have hall := rollover_keeps_key tens .zsk (by decide) (by decide) atEighty t atEighty_starts _ hrn
    ⟨⟨hf1, by decide, by decide⟩, ⟨hf2, by decide, by decide⟩, trivial⟩
  exact ⟨t, hrn, hall.1, hall.2.1⟩

/-- Two checks see the old key near its end, and each makes a new key. At 100 the old key retires and the
new one becomes active at 101. And a key that retires at 100, by a check at 104, is removed at 120. -/
theorem rollover_leaves_no_key : atEighty.Starts tens .zsk ∧
    (∃ t, Run.exec (checkStep tens) atEighty [checkAt 85 none, checkAt 90 (some 3), checkAt 95 (some 4)] = some t ∧
      (ofKind .zsk t.keys).countP waiting = 2) ∧ (∃ t, Run.exec (checkStep tens) atEighty
        [checkAt 81 none, checkAt 86 none, checkAt 91 (some 3), checkAt 96 (some 4), checkAt 100 (some 5)] = some t ∧
      getActive .zsk t.keys = []) ∧ ∃ s₁ s₂ t, Run.exec (checkStep tens) atEighty
        [checkAt 85 none, checkAt 90 (some 3), checkAt 95 (some 4), checkAt 99 (some 5)] = some s₁ ∧
      checkStep tens s₁ (checkAt 104 none) = some s₂ ∧
      Run.exec (checkStep tens) s₂ [checkAt 109 none, checkAt 114 none, checkAt 119 none, checkAt 120 none] = some t ∧
      1 ∈ (getActive .zsk s₁.keys).map keyTag ∧ 1 ∉ (getActive .zsk s₂.keys).map keyTag ∧
      t.last < 104 + tens.retireSafety ∧ 1 ∉ t.keys.map keyTag := by
  refine ⟨atEighty_starts, ⟨_, rfl, by decide⟩, ⟨_, rfl, by decide⟩, ?_⟩
  exact ⟨_, _, _, rfl, rfl, rfl, by decide, by decide, by decide, by decide⟩

end NothingDNS.Rollover
