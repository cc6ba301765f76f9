import NothingDNS.Lib.Run
import NothingDNS.Lib.Snapshot
/-!
# Key rollover (`internal/dnssec/rollover.go`, the key set of `signer.go`)

The key set is the list of the values of `Signer.keys`, in any order, without the key pairs and
`KeyTiming.Created`, which no decision reads. An unset time is `none`.

A check starts a rollover whenever an active key retires within `PublishSafety`, also one whose rollover has been
started. So a second check makes a second waiting key, and the old key can retire before a new one is active
(`rollover_leaves_no_key`).
-/

namespace NothingDNS.Rollover

open Snapshot List

inductive KeyState where
  | created
  | published
  | active
  | retired
  | dead
deriving DecidableEq

structure KeyTiming where
  publish : Option Int
  active : Option Int
  retire : Option Int
  remove : Option Int
deriving DecidableEq

structure SigningKey where
  keyTag : UInt16
  isKSK : Bool
  isZSK : Bool
  state : KeyState
  timing : Option KeyTiming
deriving DecidableEq

structure RolloverConfig where
  zskLifetime : Int
  kskLifetime : Int
  publishSafety : Int
  retireSafety : Int

/-- The two kinds of keys. Their functions in the source differ in nothing else. -/
inductive Kind where
  | zsk
  | ksk
deriving DecidableEq

def SigningKey.isOf (kind : Kind) (key : SigningKey) : Bool :=
  match kind with
  | .zsk => key.isZSK
  | .ksk => key.isKSK

def RolloverConfig.lifetime (cfg : RolloverConfig) : Kind → Int
  | .zsk => cfg.zskLifetime
  | .ksk => cfg.kskLifetime

/-- A key without timing is always active. -/
def isActive (key : SigningKey) : Bool :=
  match key.timing with
  | none => true
  | some _ => key.state = .active

def getActive (kind : Kind) (keys : List SigningKey) : List SigningKey :=
  keys.filter fun key => key.isOf kind && isActive key

def getActiveZSKs (keys : List SigningKey) : List SigningKey := getActive .zsk keys
def getActiveKSKs (keys : List SigningKey) : List SigningKey := getActive .ksk keys

def removeKey (keyTag : UInt16) (keys : List SigningKey) : List SigningKey := keys.filter (·.keyTag ≠ keyTag)

def addKey (key : SigningKey) (keys : List SigningKey) : List SigningKey := key :: removeKey key.keyTag keys

def setKeyState (keyTag : UInt16) (state : KeyState) (keys : List SigningKey) : List SigningKey :=
  keys.map fun key => if key.keyTag = keyTag then { key with state } else key

def setKeyTiming (keyTag : UInt16) (timing : KeyTiming) (keys : List SigningKey) : List SigningKey :=
  keys.map fun key => if key.keyTag = keyTag then { key with timing := some timing } else key

def due (time : Option Int) (now : Int) : Bool := time.any (· ≤ now)

/-- From `rollover.go:200-229`. -/
def transitionKey (now : Int) (keys : List SigningKey) (key : SigningKey) : List SigningKey :=
  match key.timing with
  | none => keys
  | some timing =>
    match key.state with
    | .created => if due timing.publish now then setKeyState key.keyTag .published keys else keys
    | .published => if due timing.active now then setKeyState key.keyTag .active keys else keys
    | .active => if due timing.retire now then setKeyState key.keyTag .retired keys else keys
    | .retired => if due timing.remove now then removeKey key.keyTag (setKeyState key.keyTag .dead keys) else keys
    | .dead => keys

/-- The loop of `check`, over copies of the keys. -/
def transitionKeys (now : Int) (keys : List SigningKey) : List SigningKey := keys.foldl (transitionKey now) keys

def SigningKey.retireTime (key : SigningKey) : Option Int := key.timing.bind (·.retire)
def SigningKey.removeTime (key : SigningKey) : Option Int := key.timing.bind (·.remove)

def needsRollover (cfg : RolloverConfig) (kind : Kind) (now : Int) (keys : List SigningKey) : Bool :=
  (getActive kind keys).isEmpty ||
    (getActive kind keys).any fun key => key.retireTime.any fun retire => retire - now ≤ cfg.publishSafety

/-- What `generateKeyPairOnce` makes. -/
def newKey (kind : Kind) (keyTag : UInt16) : SigningKey :=
  { keyTag, isKSK := kind = .ksk, isZSK := kind = .zsk, state := .created, timing := none }

def newTiming (cfg : RolloverConfig) (kind : Kind) (now : Int) : KeyTiming where
  publish := some now
  active := some (now + cfg.publishSafety)
  retire := some (now + cfg.publishSafety + cfg.lifetime kind)
  remove := some (now + cfg.publishSafety + cfg.lifetime kind + cfg.retireSafety)

def scheduleRetirement (cfg : RolloverConfig) (now : Int) (newTag : UInt16) (keys : List SigningKey) (key : SigningKey) :
    List SigningKey :=
  match key.timing with
  | none => keys
  | some timing =>
    if key.keyTag ≠ newTag ∧ timing.retire = none then
      setKeyTiming key.keyTag { timing with
        retire := some (now + cfg.publishSafety)
        remove := some (now + cfg.publishSafety + cfg.retireSafety) } keys
    else keys

def generateRollover (cfg : RolloverConfig) (kind : Kind) (now : Int) (generated : Option UInt16)
    (keys : List SigningKey) : List SigningKey :=
  match generated with
  | none => keys
  | some keyTag =>
    let keys := addKey (newKey kind keyTag) keys
    let keys := setKeyState keyTag .published keys
    let keys := setKeyTiming keyTag (newTiming cfg kind now) keys
    (getActive kind keys).foldl (scheduleRetirement cfg now keyTag) keys

def generateRolloverZSK (cfg : RolloverConfig) := generateRollover cfg .zsk
def generateRolloverKSK (cfg : RolloverConfig) := generateRollover cfg .ksk

def maybeRollover (cfg : RolloverConfig) (kind : Kind) (now : Int) (generated : Option UInt16) (keys : List SigningKey) :
    List SigningKey :=
  if cfg.lifetime kind = 0 then keys
  else if needsRollover cfg kind now keys then generateRollover cfg kind now generated keys
  else keys

def maybeRolloverZSK (cfg : RolloverConfig) := maybeRollover cfg .zsk
def maybeRolloverKSK (cfg : RolloverConfig) := maybeRollover cfg .ksk

/-- The time of a check, and the tags of the keys that are generated if it needs any. -/
structure Check where
  now : Int
  zskTag : Option UInt16
  kskTag : Option UInt16

def Check.generated (c : Check) : Kind → Option UInt16
  | .zsk => c.zskTag
  | .ksk => c.kskTag

def check (cfg : RolloverConfig) (c : Check) (keys : List SigningKey) : List SigningKey :=
  maybeRolloverKSK cfg c.now c.kskTag (maybeRolloverZSK cfg c.now c.zskTag (transitionKeys c.now keys))

/-! ## What a check does to each key -/

/-- What becomes of a key as time goes by; `none` if it is removed. -/
def advance (now : Int) (key : SigningKey) : Option SigningKey :=
  match key.timing with
  | none => some key
  | some timing =>
    match key.state with
    | .created => some (if due timing.publish now then { key with state := .published } else key)
    | .published => some (if due timing.active now then { key with state := .active } else key)
    | .active => some (if due timing.retire now then { key with state := .retired } else key)
    | .retired => if due timing.remove now then none else some key
    | .dead => some key

theorem advance_cases {now : Int} {key key' : SigningKey} (h : advance now key = some key') :
    ∃ state, key' = { key with state } ∧ (key.timing = none → state = key.state) := by
  unfold advance at h
  split at h
  · cases h
    exact ⟨_, rfl, fun _ => rfl⟩
  next timing htm =>
    have hne : ∀ {p : Prop}, key.timing = none → p := fun hn => by simp [hn] at htm
    split at h
    all_goals first
      | cases h; exact ⟨_, rfl, fun _ => rfl⟩
      | split_ifs at h <;> cases h <;> exact ⟨_, rfl, hne⟩

theorem keyTag_advance (now : Int) (key key' : SigningKey) (h : advance now key = some key') : key'.keyTag = key.keyTag := by
  obtain ⟨state, rfl, -⟩ := advance_cases h
  rfl

theorem isOf_advance (kind : Kind) {now : Int} {key key' : SigningKey} (h : advance now key = some key') :
    key'.isOf kind = key.isOf kind := by
  obtain ⟨state, rfl, -⟩ := advance_cases h
  cases kind <;> rfl

section Loops

variable {keys : List SigningKey} {key : SigningKey} {keyTag : UInt16}

theorem setKeyState_current (hcr : Snapshot.Current SigningKey.keyTag keys key) (state : KeyState) :
    setKeyState key.keyTag state keys = keys.map fun k => if k.keyTag = key.keyTag then { key with state } else k := by
  refine map_congr_left fun k hk => ?_
  split_ifs with htag
  · rw [hcr k hk htag]
  · rfl

theorem removeKey_setKeyState (keyTag : UInt16) (state : KeyState) (keys : List SigningKey) :
    removeKey keyTag (setKeyState keyTag state keys) = removeKey keyTag keys := by
  induction keys with
  | nil => rfl
  | cons k keys ih =>
    by_cases htag : k.keyTag = keyTag
    · simpa [removeKey, setKeyState, htag] using ih
    · simpa [removeKey, setKeyState, htag] using ih

theorem transitionKey_eq (now : Int) (hcr : Snapshot.Current SigningKey.keyTag keys key) :
    transitionKey now keys key = update SigningKey.keyTag (advance now) keys key := by
  have hkp (h : advance now key = some key) := update_keep hcr h
  have hse {state : KeyState} (h : advance now key = some { key with state }) :
      setKeyState key.keyTag state keys = update SigningKey.keyTag (advance now) keys key :=
    (setKeyState_current hcr state).trans (update_set hcr h).symm
  unfold transitionKey
  split
  next htm => exact (hkp (by simp [advance, htm])).symm
  next timing htm =>
    split
    iterate 3
      next hst =>
        split_ifs with hd
        · exact hse (by simp [advance, htm, hst, hd])
        · exact (hkp (by simp [advance, htm, hst, hd])).symm
    next hst =>
      split_ifs with hd
      · rw [removeKey_setKeyState]
        exact (update_remove hcr (by simp [advance, htm, hst, hd])).symm
      · exact (hkp (by simp [advance, htm, hst, hd])).symm
    next hst => exact (hkp (by simp [advance, htm, hst])).symm

theorem transitionKeys_eq (now : Int) (hnd : (keys.map SigningKey.keyTag).Nodup) :
    transitionKeys now keys = keys.filterMap (advance now) :=
  foldl_self (fun _ _ => transitionKey_eq now) (keyTag_advance now) hnd

/-- The retirement of a key that was to stay. -/
def scheduled (cfg : RolloverConfig) (now : Int) (key : SigningKey) : SigningKey :=
  match key.timing with
  | none => key
  | some timing =>
    if timing.retire = none then
      { key with timing := some { timing with
          retire := some (now + cfg.publishSafety)
          remove := some (now + cfg.publishSafety + cfg.retireSafety) } }
    else key

theorem scheduled_cases (cfg : RolloverConfig) (now : Int) (key : SigningKey) :
    ∃ timing, scheduled cfg now key = { key with timing } ∧ timing.isSome = key.timing.isSome := by
  unfold scheduled
  split
  · exact ⟨_, rfl, rfl⟩
  next timing htm =>
    split_ifs
    · exact ⟨_, rfl, by rw [htm]; rfl⟩
    · exact ⟨_, rfl, rfl⟩

def retimed (cfg : RolloverConfig) (kind : Kind) (now : Int) (key : SigningKey) : SigningKey :=
  if key.isOf kind && isActive key then scheduled cfg now key else key

def generatedKey (cfg : RolloverConfig) (kind : Kind) (now : Int) (keyTag : UInt16) : SigningKey :=
  { newKey kind keyTag with state := .published, timing := some (newTiming cfg kind now) }

theorem scheduleRetirement_eq (cfg : RolloverConfig) (now : Int) (newTag : UInt16)
    (hcr : Snapshot.Current SigningKey.keyTag keys key) : scheduleRetirement cfg now newTag keys key =
      update SigningKey.keyTag (fun k => some (if k.keyTag = newTag then k else scheduled cfg now k)) keys key := by
  unfold scheduleRetirement
  split
  next htm =>
    refine (update_keep hcr ?_).symm
    simp [scheduled, htm]
  next timing htm =>
    split_ifs with h
    · rw [update_set hcr (by rw [if_neg h.1])]
      refine map_congr_left fun k hk => ?_
      split_ifs with htag
      · rw [hcr k hk htag]
        simp [scheduled, htm, h.2]
      · rfl
    · refine (update_keep hcr ?_).symm
      split_ifs with htag
      · rfl
      · rw [scheduled, htm]
        exact congrArg some (if_neg fun hr => h ⟨htag, hr⟩)

theorem removeKey_of_fresh (h : keyTag ∉ keys.map SigningKey.keyTag) : removeKey keyTag keys = keys := by
  refine filter_eq_self.2 fun k hk => decide_eq_true fun htag => h ?_
  exact htag ▸ mem_map_of_mem hk

theorem setKeyState_cons (key : SigningKey) (state : KeyState) (h : key.keyTag ∉ keys.map SigningKey.keyTag) :
    setKeyState key.keyTag state (key :: keys) = { key with state } :: keys :=
  map_cons_of_fresh h fun k => { k with state }

theorem setKeyTiming_cons (key : SigningKey) (timing : KeyTiming) (h : key.keyTag ∉ keys.map SigningKey.keyTag) :
    setKeyTiming key.keyTag timing (key :: keys) = { key with timing := some timing } :: keys :=
  map_cons_of_fresh h fun k => { k with timing := some timing }

theorem generateRollover_eq (cfg : RolloverConfig) (kind : Kind) (now : Int) (hnd : (keys.map SigningKey.keyTag).Nodup)
    (hfr : keyTag ∉ keys.map SigningKey.keyTag) : generateRollover cfg kind now (some keyTag) keys =
      generatedKey cfg kind now keyTag :: keys.map (retimed cfg kind now) := by
  have had : setKeyTiming keyTag (newTiming cfg kind now)
      (setKeyState keyTag .published (addKey (newKey kind keyTag) keys)) = generatedKey cfg kind now keyTag :: keys := by
    rw [addKey, show (newKey kind keyTag).keyTag = keyTag from rfl, removeKey_of_fresh hfr]
    rw [show setKeyState keyTag .published (newKey kind keyTag :: keys) = { newKey kind keyTag with state := .published } :: keys
      from setKeyState_cons (newKey kind keyTag) .published hfr]
    exact setKeyTiming_cons { newKey kind keyTag with state := .published } _ hfr
  have hn' : ((generatedKey cfg kind now keyTag :: keys).map SigningKey.keyTag).Nodup := nodup_cons.2 ⟨hfr, hnd⟩
  have htag (a b : SigningKey) (h : some (if a.keyTag = keyTag then a else scheduled cfg now a) = some b) :
      b.keyTag = a.keyTag := by
    rw [← Option.some.inj h]
    split_ifs
    · rfl
    · obtain ⟨timing, hs, -⟩ := scheduled_cases cfg now a
      rw [hs]
  have hlp := foldl_filter (fun _ _ => scheduleRetirement_eq cfg now keyTag)
    htag hn' fun key => key.isOf kind && isActive key
  rw [generateRollover, had]
  refine hlp.trans ?_
  have hnw : (((generatedKey cfg kind now keyTag).isOf kind && isActive (generatedKey cfg kind now keyTag))) = false :=
    Bool.and_eq_false_imp.2 fun _ => rfl
  rw [filterMap_cons]
  simp only [hnw, Bool.false_eq_true, if_false]
  rw [← filterMap_eq_map]
  refine congrArg _ (filterMap_congr fun k hk => ?_)
  have hne : k.keyTag ≠ keyTag := fun htag => hfr (htag ▸ mem_map_of_mem hk)
  rw [Function.comp_apply, retimed, if_neg hne]
  split_ifs <;> rfl

end Loops

end NothingDNS.Rollover
