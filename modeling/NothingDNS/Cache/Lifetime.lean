import NothingDNS.Resolver.Bailiwick
import NothingDNS.Lib.Run
/-!
# The life of a cached answer (`internal/cache/cache.go`)

Times are whole seconds. The pipeline and the resolver share one cache under keys of different forms. Of a message the
answers and what the negative TTL is made from are kept; two fields that no function reads tell what an answer was
received as.

Four steps lengthen an answer's life (`answers_outlive_ttl`): `extractTTL` goes by the *first* answer, the resolver
serves stored TTLs, a reload starts the count again, and a negative message is kept by its SOA.
-/

namespace NothingDNS.Cache

open List Option

open NothingDNS.Resolver

structure Answer where
  owner : Text
  type : Nat
  ttl : Nat
  /-- The TTL the record was received with. -/
  received : Nat
  receivedAt : Nat
deriving DecidableEq

def typeA : Nat := 1
def typeAAAA : Nat := 28
def typeOPT : Nat := 41

structure Message where
  rcode : Nat
  answers : List Answer
  /-- The smaller of TTL and minimum of the first SOA of the authority section. -/
  soa : Option Nat
deriving DecidableEq

structure Entry where
  key : Text
  message : Message
  rcode : Nat
  expireTime : Nat
  insertedAt : Nat
  isNegative : Bool
deriving DecidableEq

structure Config where
  minTTL : Nat
  maxTTL : Nat
  negativeTTL : Nat
  /-- Of one shard. -/
  capacity : Nat
  shards : Nat
  shardOf : Text → Nat

/-- Each shard's entries, the most recently used first. -/
abbrev Shards := Nat → List Entry

variable (C : Config)

/-- The bounds of the configuration; a `maxTTL` of 0 means no upper bound. -/
def clampTTL (duration : Nat) : Nat :=
  let duration := max duration C.minTTL
  if 0 < C.maxTTL ∧ C.maxTTL < duration then C.maxTTL else duration

/-- From `cache.go:706-729`. -/
def addEntry (c : Shards) (e : Entry) : Shards := fun i =>
  if i = C.shardOf e.key then
    -- an entry of the same key goes first, then the oldest until there is room
    e :: ((c i).filter fun e' => e'.key ≠ e.key).take (C.capacity - 1)
  else c i

def set (now : Nat) (c : Shards) (key : Text) (msg : Message) (ttl : Nat) : Shards :=
  addEntry C c
    { key, message := msg, rcode := 0, expireTime := now + clampTTL C ttl, insertedAt := now, isNegative := false }

/-- How long `SetNegativeMessage` keeps a message, before the general bounds. -/
def negativeDuration (ttl : Nat) : Nat :=
  let d := if ttl = 0 then C.negativeTTL else ttl
  if 0 < C.negativeTTL ∧ C.negativeTTL < d then C.negativeTTL else d

/-- From `cache.go:619-628`. -/
def setNegativeMessage (now : Nat) (c : Shards) (key : Text) (rcode : Nat) (msg : Message) (ttl : Nat) : Shards :=
  addEntry C c
    { key, message := msg, rcode, expireTime := now + clampTTL C (negativeDuration C ttl), insertedAt := now,
      isNegative := true }

def isExpired (now : Nat) (e : Entry) : Bool := e.expireTime ≤ now

/-- From `cache.go:413-505`. -/
def get (now : Nat) (c : Shards) (key : Text) : Option Entry × Shards :=
  match (c (C.shardOf key)).find? fun e => e.key = key with
  | none => (none, c)
  | some e =>
    if isExpired now e then
      (none, fun i => if i = C.shardOf key then (c i).filter fun e' => e'.key ≠ key else c i)
    else (some e, c)

def decrementTTL (age : Nat) (a : Answer) : Answer :=
  if a.type = typeOPT then a else { a with ttl := max 1 (a.ttl - age) }

def ageAdjusted (now : Nat) (e : Entry) : Message :=
  if now - e.insertedAt = 0 then e.message
  else { e.message with answers := e.message.answers.map (decrementTTL (now - e.insertedAt)) }

/-! ## What is stored, and for how long -/

def extractTTL (msg : Message) : Nat :=
  ((msg.answers.map Answer.ttl).find? fun ttl => 0 < ttl).getD 300

/-- The resolver's least TTL: a TTL of 0 is overwritten by the next one. -/
def leastTTL (msg : Message) : Nat :=
  let ttl := msg.answers.foldl (fun ttl a => if ttl = 0 ∨ a.ttl < ttl then a.ttl else ttl) 0
  if ttl = 0 then 300 else ttl

def cacheKey (name : Text) (qtype : Nat) : Text := name.lower ++ ':' :: Nat.toDigits 10 qtype

/-- `synthesizeSideRecord`: the records of the message with the owner and type of `a`. -/
def sideRecords (a : Answer) (msg : Message) : Message :=
  { rcode := 0, answers := msg.answers.filter (fun b => b.type = a.type ∧ b.owner.lower = a.owner.lower),
    soa := none }

def isSide (name : Text) (qtype : Nat) (zoneCut : Text) (a : Answer) : Bool :=
  (a.type = typeA ∨ a.type = typeAAAA) && !(a.type = qtype ∧ a.owner.lower = name.lower)
    && inBailiwick a.owner zoneCut

def cacheResponse (now : Nat) (c : Shards) (name : Text) (qtype : Nat) (msg : Message) (zoneCut : Text) : Shards :=
  (msg.answers.filter (isSide name qtype zoneCut)).foldl
    (fun c a => set C now c (cacheKey a.owner a.type) (sideRecords a msg) a.ttl)
    (set C now c (cacheKey name qtype) msg (leastTTL msg))

def isAnswer (msg : Message) : Bool := msg.rcode = 0 ∧ msg.answers ≠ []

/-- What the upstream stage stores as a negative answer. -/
def isNegative (msg : Message) : Bool := msg.rcode = 3 ∨ msg.rcode = 0 ∧ msg.answers = []

/-- What the resolver does: NXDOMAIN, or NODATA with an SOA. -/
def isDenial (msg : Message) : Bool := msg.rcode = 3 ∨ msg.rcode = 0 ∧ msg.answers = [] ∧ msg.soa.isSome

/-! ## The server over time -/

structure State where
  now : Nat
  cache : Shards
  saved : List Entry
  /-- The answers served from the cache, each with the time of serving. -/
  served : List (Nat × Answer)

def initial (now : Nat) : State := ⟨now, fun _ => [], [], []⟩

inductive Event where
  | tick
  | upstream (key : Text) (msg : Message)
  /-- A response accepted by the iterative resolver, asked for `name` inside `zoneCut`. -/
  | resolved (name : Text) (qtype : Nat) (zoneCut : Text) (msg : Message)
  /-- A client's query that reaches the pipeline's cache stage. -/
  | query (key : Text)
  /-- A client's query that the resolver looks up in the cache. -/
  | resolverQuery (name : Text) (qtype : Nat)
  | save
  | restart
  | load
deriving DecidableEq

def receive (now : Nat) (msg : Message) : Message :=
  { msg with answers := msg.answers.map fun a => { a with received := a.ttl, receivedAt := now } }

def save (now : Nat) (c : Shards) : List Entry :=
  ((List.range C.shards).flatMap c).filter fun e => !isExpired now e && !e.isNegative

def load (now : Nat) (c : Shards) (saved : List Entry) : Shards :=
  saved.foldl (fun c e => if e.expireTime ≤ now then c else set C now c e.key e.message (e.expireTime - now)) c

def storeUpstream (now : Nat) (c : Shards) (key : Text) (msg : Message) : Shards :=
  if isAnswer msg then set C now c key msg (extractTTL msg)
  else if isNegative msg then setNegativeMessage C now c key msg.rcode msg (msg.soa.getD 0)
  else c

def storeResolved (now : Nat) (c : Shards) (name : Text) (qtype : Nat) (zoneCut : Text) (msg : Message) : Shards :=
  if isAnswer msg then cacheResponse C now c name qtype msg zoneCut
  else if isDenial msg then setNegativeMessage C now c (cacheKey name qtype) msg.rcode msg (msg.soa.getD 0)
  else c

def State.serve (s : State) (key : Text) (view : Entry → Message) : State :=
  let found := get C s.now s.cache key
  { s with
    cache := found.2
    served := s.served ++ (found.1.map fun e => (view e).answers.map fun a => (s.now, a)).getD [] }

def step (s : State) : Event → Option State
  | .tick => some { s with now := s.now + 1 }
  | .upstream key msg => some { s with cache := storeUpstream C s.now s.cache key (receive s.now msg) }
  | .resolved name qtype zoneCut msg =>
    some { s with cache := storeResolved C s.now s.cache name qtype zoneCut (receive s.now msg) }
  | .query key => some (s.serve C key (ageAdjusted s.now))
  -- the adapter hands out the stored message and drops the time it was inserted at
  | .resolverQuery name qtype => some (s.serve C (cacheKey name qtype) Entry.message)
  | .save => some { s with saved := save C s.now s.cache }
  | .restart => some { s with cache := fun _ => [] }
  | .load => some { s with cache := load C s.now s.cache s.saved }

/-! ## When no answer outlives its TTL -/

/-- The time an entry is kept for is at most what each of its answers allows. -/
def Fits (d : Nat) (msg : Message) : Prop :=
  ∀ a ∈ msg.answers, 0 < a.ttl → a.type ≠ typeOPT ∧ d ≤ a.ttl

def Current (now : Nat) (msg : Message) : Prop := ∀ a ∈ msg.answers, 0 < a.received → a.receivedAt = now

instance (d : Nat) (msg : Message) : Decidable (Fits d msg) := List.decidableBAll _ _
instance (now : Nat) (msg : Message) : Decidable (Current now msg) := List.decidableBAll _ _

/-- The condition on an event: what it stores fits, and what the resolver finds in the
cache or a reload brings back was received in the same second. -/
def Admissible (s : State) : Event → Prop
  | .upstream _ msg =>
    let msg := receive s.now msg
    (isAnswer msg = true → Fits (extractTTL msg) msg)
      ∧ (isNegative msg = true → Fits (negativeDuration C (msg.soa.getD 0)) msg)
  | .resolved name qtype zoneCut msg =>
    let msg := receive s.now msg
    (isAnswer msg = true → Fits (leastTTL msg) msg
        ∧ ∀ a ∈ msg.answers.filter (isSide name qtype zoneCut), Fits a.ttl (sideRecords a msg))
      ∧ (isDenial msg = true → Fits (negativeDuration C (msg.soa.getD 0)) msg)
  | .resolverQuery name qtype =>
    ∀ e ∈ (get C s.now s.cache (cacheKey name qtype)).1, Current s.now e.message
  | .load => ∀ e ∈ s.saved, Current s.now e.message
  | _ => True

instance (s : State) : ∀ e : Event, Decidable (Admissible C s e)
  | .upstream _ _ => inferInstanceAs (Decidable (_ ∧ _))
  | .resolved _ _ _ msg =>
    have : ∀ l : List Answer, Decidable (∀ a ∈ l, Fits a.ttl (sideRecords a (receive s.now msg))) :=
      fun _ => List.decidableBAll _ _
    inferInstanceAs (Decidable (_ ∧ _))
  | .resolverQuery _ _ => inferInstanceAs (Decidable (∀ e ∈ (_ : Option Entry), _))
  | .load => List.decidableBAll _ _
  | .tick | .query _ | .save | .restart => .isTrue trivial

variable {C}

variable {d : Nat}

theorem clampTTL_le {bound : Nat} (h : d ≤ bound) (hmn : C.minTTL ≤ bound) : clampTTL C d ≤ bound := by
  simp only [clampTTL]
  split <;> omega

structure Sound (C : Config) (now : Nat) (e : Entry) : Prop where
  inserted : e.insertedAt ≤ now
  answer : ∀ a ∈ e.message.answers, 0 < a.received →
    a.type ≠ typeOPT ∧ a.ttl = a.received ∧ a.receivedAt = e.insertedAt
      ∧ e.expireTime ≤ a.receivedAt + max a.received C.minTTL

variable {now : Nat} {e : Entry}

theorem Sound.later {now' : Nat} (h : Sound C now e) (hle : now ≤ now') : Sound C now' e :=
  ⟨h.inserted.trans hle, h.answer⟩

/-- A message whose answers were received just now and allow `d` seconds. -/
def Fresh (C : Config) (now d : Nat) (msg : Message) : Prop :=
  ∀ a ∈ msg.answers, 0 < a.received →
    a.type ≠ typeOPT ∧ a.ttl = a.received ∧ a.receivedAt = now ∧ d ≤ max a.received C.minTTL

theorem Fresh.sound (h : Fresh C now d e.message) (hat : e.insertedAt = now)
    (hep : e.expireTime = now + clampTTL C d) : Sound C now e := by
  refine ⟨hat.le, fun a ha hpos => ?_⟩
  obtain ⟨hop, htt, hrc, hd⟩ := h a ha hpos
  have hcl := clampTTL_le hd (le_max_right a.received C.minTTL)
  refine ⟨hop, htt, hrc.trans hat.symm, ?_⟩
  omega

variable {msg : Message}

theorem mem_receive {a : Answer} (h : a ∈ (receive now msg).answers) : a.ttl = a.received ∧ a.receivedAt = now := by
  obtain ⟨b, -, rfl⟩ := mem_map.1 h
  exact ⟨rfl, rfl⟩

theorem Fits.fresh {part : Message} (h : Fits d part)
    (hsb : part.answers ⊆ (receive now msg).answers) : Fresh C now d part := by
  intro a ha hpos
  obtain ⟨htt, hat⟩ := mem_receive (hsb ha)
  obtain ⟨hop, hd⟩ := h a ha (htt ▸ hpos)
  exact ⟨hop, htt, hat, by omega⟩

def AllSound (C : Config) (now : Nat) (c : Shards) : Prop := ∀ i, ∀ e ∈ c i, Sound C now e

variable {c : Shards}

theorem addEntry_sound (h : AllSound C now c) (he : Sound C now e) : AllSound C now (addEntry C c e) := by
  intro i e' he'
  unfold addEntry at he'
  split at he'
  · obtain rfl | he' := mem_cons.1 he'
    · exact he
    · exact h i e' (mem_of_mem_filter (mem_of_mem_take he'))
  · exact h i e' he'

variable {key : Text}

variable {ttl : Nat}

theorem set_sound (h : AllSound C now c) (hms : Fresh C now ttl msg) : AllSound C now (set C now c key msg ttl) :=
  addEntry_sound h (Fresh.sound hms rfl rfl)

theorem setNegativeMessage_sound {rcode : Nat} (h : AllSound C now c) (hms : Fresh C now (negativeDuration C ttl) msg) :
    AllSound C now (setNegativeMessage C now c key rcode msg ttl) :=
  addEntry_sound h (Fresh.sound hms rfl rfl)

variable {qtype : Nat} {name zoneCut : Text}

theorem cacheResponse_sound (h : AllSound C now c) (hms : Fresh C now (leastTTL msg) msg)
    (hsd : ∀ a ∈ msg.answers.filter (isSide name qtype zoneCut), Fresh C now a.ttl (sideRecords a msg)) :
    AllSound C now (cacheResponse C now c name qtype msg zoneCut) := by
  -- the side records are stored one after the other
  refine foldlRecOn (motive := AllSound C now) _ _ (set_sound h hms) fun c hc a ha => ?_
  exact set_sound hc (hsd a ha)

theorem load_sound {saved : List Entry} (h : AllSound C now c)
    (hsv : ∀ e ∈ saved, Sound C now e ∧ Current now e.message) : AllSound C now (load C now c saved) := by
  refine foldlRecOn (motive := AllSound C now) _ _ h fun c hc e he => ?_
  split_ifs
  · exact hc
  refine set_sound hc fun a ha hpos => ?_
  obtain ⟨hsn, hcr⟩ := hsv e he
  obtain ⟨hop, htt, -, hlf⟩ := hsn.answer a ha hpos
  have hat := hcr a ha hpos
  exact ⟨hop, htt, hat, by omega⟩

theorem get_sound (h : AllSound C now c) :
    (∀ e ∈ (get C now c key).1, Sound C now e ∧ now < e.expireTime) ∧ AllSound C now (get C now c key).2 := by
  unfold get
  split
  · exact ⟨nofun, h⟩
  next e hfn =>
    split
    · refine ⟨nofun, fun i e' he' => ?_⟩
      dsimp only at he'
      split at he'
      · exact h i e' (mem_of_mem_filter he')
      · exact h i e' he'
    next hlv =>
      refine ⟨fun e' he' => ?_, h⟩
      obtain rfl := mem_some_iff.1 he'
      exact ⟨h _ e (mem_of_find?_eq_some hfn), by simpa [isExpired] using hlv⟩

/-- An answer served at `t` is younger than its TTL or the configured minimum, and
says at most what is left of its TTL. -/
def Within (C : Config) (t : Nat) (a : Answer) : Prop :=
  a.receivedAt ≤ t ∧ t - a.receivedAt < max a.received C.minTTL ∧ a.ttl ≤ max 1 (a.received - (t - a.receivedAt))

theorem ageAdjusted_within (h : Sound C now e) (hlv : now < e.expireTime) :
    ∀ a ∈ (ageAdjusted now e).answers, 0 < a.received → Within C now a := by
  intro a ha hpos
  have hin := h.inserted
  unfold ageAdjusted at ha
  split at ha
  next hae =>
    obtain ⟨-, htt, hat, hlf⟩ := h.answer a ha hpos
    exact ⟨by omega, by omega, by omega⟩
  next hae =>
    obtain ⟨b, hb, rfl⟩ := mem_map.1 ha
    have hfl : (decrementTTL (now - e.insertedAt) b).received = b.received
        ∧ (decrementTTL (now - e.insertedAt) b).receivedAt = b.receivedAt := by
      unfold decrementTTL
      split <;> exact ⟨rfl, rfl⟩
    rw [hfl.1] at hpos
    obtain ⟨hop, htt, hat, hlf⟩ := h.answer b hb hpos
    have hnw : (decrementTTL (now - e.insertedAt) b).ttl = max 1 (b.ttl - (now - e.insertedAt)) := by
      rw [decrementTTL, if_neg hop]
    unfold Within
    rw [hfl.1, hfl.2, hnw]
    exact ⟨by omega, by omega, by omega⟩

theorem stored_within (h : Sound C now e) (hlv : now < e.expireTime)
    (hcr : Current now e.message) : ∀ a ∈ e.message.answers, 0 < a.received → Within C now a := by
  intro a ha hpos
  obtain ⟨-, htt, -, hlf⟩ := h.answer a ha hpos
  have hat := hcr a ha hpos
  exact ⟨by omega, by omega, by omega⟩

structure Inv (C : Config) (s : State) : Prop where
  cache : AllSound C s.now s.cache
  saved : ∀ e ∈ s.saved, Sound C s.now e
  served : ∀ p ∈ s.served, 0 < p.2.received → Within C p.1 p.2

variable {s : State}

theorem Inv.serve {view : Entry → Message} (h : Inv C s)
    (hvw : ∀ e ∈ (get C s.now s.cache key).1, Sound C s.now e → s.now < e.expireTime →
      ∀ a ∈ (view e).answers, 0 < a.received → Within C s.now a) : Inv C (s.serve C key view) := by
  obtain ⟨hh, hcc⟩ : (∀ e ∈ (get C s.now s.cache key).1, Sound C s.now e ∧ s.now < e.expireTime)
      ∧ AllSound C s.now (get C s.now s.cache key).2 := get_sound h.cache
  refine ⟨hcc, h.saved, fun p hp hpos => ?_⟩
  obtain hp | hp := mem_append.1 hp
  · exact h.served p hp hpos
  · cases hg : (get C s.now s.cache key).1 with
    | none => simp [hg] at hp
    | some e =>
      simp only [hg, map_some, getD_some] at hp
      obtain ⟨a, ha, rfl⟩ := mem_map.1 hp
      have hmem : e ∈ (get C s.now s.cache key).1 := hg ▸ mem_some_self e
      exact hvw e hmem (hh e hmem).1 (hh e hmem).2 a ha hpos

theorem storeUpstream_sound (h : Inv C s) (hok : Admissible C s (.upstream key msg)) :
    AllSound C s.now (storeUpstream C s.now s.cache key (receive s.now msg)) := by
  obtain ⟨hpos, hng⟩ := hok
  unfold storeUpstream
  split
  next ha => exact set_sound h.cache ((hpos ha).fresh (List.Subset.refl _))
  · split
    next hn => exact setNegativeMessage_sound h.cache ((hng hn).fresh (List.Subset.refl _))
    · exact h.cache

theorem storeResolved_sound (h : Inv C s) (hok : Admissible C s (.resolved name qtype zoneCut msg)) :
    AllSound C s.now (storeResolved C s.now s.cache name qtype zoneCut (receive s.now msg)) := by
  obtain ⟨hpos, hng⟩ := hok
  unfold storeResolved
  split
  next ha =>
    obtain ⟨hft, hsd⟩ := hpos ha
    refine cacheResponse_sound h.cache (hft.fresh (List.Subset.refl _)) fun a hmem => ?_
    exact (hsd a hmem).fresh fun b hb => mem_of_mem_filter hb
  · split
    next hn => exact setNegativeMessage_sound h.cache ((hng hn).fresh (List.Subset.refl _))
    · exact h.cache

theorem save_sound (h : Inv C s) : ∀ e ∈ save C s.now s.cache, Sound C s.now e := by
  intro e he
  obtain ⟨i, -, he⟩ := mem_flatMap.1 (mem_of_mem_filter he)
  exact h.cache i e he

theorem Inv.step {s' : State} {ev : Event} (h : Inv C s) (hok : Admissible C s ev)
    (hs : step C s ev = some s') : Inv C s' := by
  cases ev with cases hs
  | tick =>
    exact ⟨fun i e he => (h.cache i e he).later (Nat.le_succ _),
      fun e he => (h.saved e he).later (Nat.le_succ _), h.served⟩
  | upstream key msg => exact ⟨storeUpstream_sound h hok, h.saved, h.served⟩
  | resolved name qtype zoneCut msg => exact ⟨storeResolved_sound h hok, h.saved, h.served⟩
  | query key => exact h.serve fun e _ hsn hlv => ageAdjusted_within hsn hlv
  | resolverQuery name qtype => exact h.serve fun e he hsn hlv => stored_within hsn hlv (hok e he)
  | save => exact ⟨h.cache, save_sound h, h.served⟩
  | restart => exact ⟨nofun, h.saved, h.served⟩
  | load => exact ⟨load_sound h.cache fun e he => ⟨h.saved e he, hok e he⟩, h.saved, h.served⟩

/-- Over every run of admissible events, an answer received with a positive TTL is
served only while it lives, and with at most what is left of its TTL. -/
theorem served_within_ttl (C : Config) (start : Nat) (events : List Event) (s : State)
    (h : Run.exec (step C) (initial start) events = some s)
    (hok : Run.Meets (step C) (Admissible C) (initial start) events) :
    ∀ p ∈ s.served, 0 < p.2.received → Within C p.1 p.2 := by
  have hinit : Inv C (initial start) :=
    ⟨nofun, nofun,
      nofun⟩
  exact (Run.invariant (fun _ _ _ hi ho hs => hi.step ho hs) events h hok hinit).served

/-! ### Runs in which an answer outlives its TTL -/

instance (C : Config) (t : Nat) (a : Answer) : Decidable (Within C t a) :=
  inferInstanceAs (Decidable (_ ∧ _ ∧ _))

def oneShard : Config := ⟨5, 0, 60, 10, 1, fun _ => 0⟩

def address (ttl : Nat) : Answer := ⟨"w.".toList, typeA, ttl, 0, 0⟩

def twentySeconds : List Event := List.replicate 20 .tick

def refreshed : List Event :=
  [.upstream "k".toList ⟨0, [address 10, address 20], none⟩, .tick, .tick, .tick, .query "k".toList]

theorem served_within_ttl_refreshed : ∃ s, Run.exec (step oneShard) (initial 0) refreshed = some s ∧ s.served.length = 2
      ∧ ∀ p ∈ s.served, 0 < p.2.received → Within oneShard p.1 p.2 := by
  obtain ⟨s, hs, hlen⟩ : ∃ s, Run.exec (step oneShard) (initial 0) refreshed = some s
      ∧ s.served.length = 2 := Run.exists_of_any (by decide +kernel)
  exact ⟨s, hs, hlen, served_within_ttl oneShard 0 refreshed s hs (by decide +kernel)⟩

def Outlives (C : Config) (events : List Event) : Prop :=
  ∃ s, Run.exec (step C) (initial 0) events = some s
    ∧ ∃ p ∈ s.served, 0 < p.2.received ∧ ¬ Within C p.1 p.2

theorem answers_outlive_ttl :
    Outlives oneShard ([.upstream "k".toList ⟨0, [address 300, address 10], none⟩] ++ twentySeconds
        ++ [.query "k".toList]) ∧ Outlives oneShard ([.upstream "k".toList ⟨3, [address 10], some 60⟩] ++ twentySeconds
        ++ [.query "k".toList])
      ∧ Outlives oneShard ([.resolved "w.".toList typeA ".".toList ⟨0, [address 300], none⟩] ++ twentySeconds
        ++ [.resolverQuery "w.".toList typeA])
      ∧ Outlives oneShard ([.upstream "k".toList ⟨0, [address 300], none⟩] ++ twentySeconds
        ++ [.save, .restart, .load, .query "k".toList]) := by
  refine ⟨?_, ?_, ?_, ?_⟩ <;> exact Run.exists_of_any (by decide +kernel)

end NothingDNS.Cache
