import Mathlib.Data.List.Perm.Subperm
import NothingDNS.Cluster.Gossip
/-!
# Merging membership tables (`handleGossip` and `gossip` of `gossip_swim.go`, `Add` and `UpdateState` of `node.go`)

An entry about a known node is taken if its version is greater, but the version in the table is then counted up
by one and not set to the entry's: an older entry may still be taken, or the same entry again
(`merge_depends_on_order`).
-/

namespace NothingDNS.Cluster

open List AList

variable {F : Type}

def NodeList.view (nl : NodeList F) (id : NodeID) : Option (NodeState × UInt64) :=
  (nl.nodes.lookup id).map fun node => (node.state, node.version)

/-- What `gossip` sends: one entry for each node of the table. -/
def NodeList.payload (nl : NodeList F) : List NodeInfo :=
  nl.nodes.entries.map fun e => ⟨e.2.id, e.2.addr, e.2.port, e.2.state, e.2.version, e.2.lastSeen, e.2.nodeMeta⟩

abbrev Delivery := Nat × List NodeInfo

def deliver [Zero F] (nl : NodeList F) (d : Delivery) : NodeList F := d.2.foldl (mergeInfo d.1) nl

/-- All entries with the time they are handled at, in the order of the deliveries. -/
def timed (ds : List Delivery) : List (Nat × NodeInfo) := ds.flatMap fun d => d.2.map fun info => (d.1, info)

theorem foldl_deliver [Zero F] : ∀ (ds : List Delivery) (nl : NodeList F),
    ds.foldl deliver nl = (timed ds).foldl (fun nl t => mergeInfo t.1 nl t.2) nl
  | [], _ => rfl
  | d :: ds, nl => by
    have hsp : timed (d :: ds) = (d.2.map fun info => (d.1, info)) ++ timed ds := rfl
    rw [foldl_cons, foldl_deliver ds, hsp, foldl_append, foldl_map]
    rfl

theorem nodeList_handleGossip [Zero F] {Z C : Type} (now : Nat) (g : Gossip F) (nodes : List NodeInfo) :
    (handleGossip (Z := Z) (C := C) now g nodes).1.nodeList = deliver g.nodeList (now, nodes) := by
  suffices h : ∀ (nodes : List NodeInfo) (r : Gossip F × List (Event F Z C)),
      (nodes.foldl (fun r info => ({ r.1 with nodeList := mergeInfo now r.1.nodeList info },
        r.2 ++ infoEvents r.1.callbacks r.1.nodeList info)) r).1.nodeList = nodes.foldl (mergeInfo now) r.1.nodeList from
    h nodes (g, [])
  intro nodes
  induction nodes with
  | nil => exact fun _ => rfl
  | cons info nodes ih => exact fun r => ih _

/-! ## Which entries count -/

/-- The entry is about another node, and about a newer version of it than the table's. -/
def Newer (nl : NodeList F) (info : NodeInfo) : Prop :=
  info.id ≠ nl.selfID ∧ ∀ e, nl.nodes.lookup info.id = some e → e.version < info.version

structure Fits (nl : NodeList F) (infos : List NodeInfo) : Prop where
  /-- A newer entry is one version ahead. -/
  next : ∀ info ∈ infos, Newer nl info → ∀ e, nl.nodes.lookup info.id = some e → info.version = e.version + 1
  agree : ∀ i ∈ infos, ∀ j ∈ infos, i.id = j.id → Newer nl i → Newer nl j → i.state = j.state ∧ i.version = j.version
  /-- All the new nodes have room in the table. -/
  room : ∃ ids : List NodeID, (∀ i ∈ infos, nl.nodes.lookup i.id = none → i.id ∈ ids) ∧
    nl.nodes.keys.length + ids.length ≤ maxClusterNodes

theorem Fits.subset {nl : NodeList F} {infos infos' : List NodeInfo} (h : Fits nl infos) (hsb : infos' ⊆ infos) :
    Fits nl infos' where
  next := fun info hinfo => h.next info (hsb hinfo)
  agree := fun i hi j hj => h.agree i (hsb hi) j (hsb hj)
  room := by
    obtain ⟨ids, his, hrm⟩ := h.room
    exact ⟨ids, fun i hi => his i (hsb hi), hrm⟩

/-- The table after the entries `seen`: a node is as it was and no entry about it counts, or it is as
the entries that count say. -/
structure Settled (nl : NodeList F) (seen : List NodeInfo) (cur : NodeList F) : Prop where
  self : cur.selfID = nl.selfID
  view : ∀ id, (cur.view id = nl.view id ∧ ∀ info ∈ seen, info.id = id → ¬ Newer nl info) ∨
    ∃ info ∈ seen, info.id = id ∧ Newer nl info ∧ cur.view id = some (info.state, info.version)
  keys : ∀ id ∈ cur.nodes.keys, id ∈ nl.nodes.keys ∨ ∃ info ∈ seen, info.id = id ∧ nl.nodes.lookup id = none

section Step

variable {nl cur : NodeList F} {seen infos : List NodeInfo} {info : NodeInfo}

theorem Settled.start (nl : NodeList F) : Settled nl [] nl where
  self := rfl
  view _ := .inl ⟨rfl, nofun⟩
  keys _ h := .inl h

theorem Settled.skip (h : Settled nl seen cur)
    (hsk : Newer nl info → ∃ i ∈ seen, i.id = info.id ∧ Newer nl i) : Settled nl (seen ++ [info]) cur where
  self := h.self
  view id := by
    rcases h.view id with ⟨hvw, hold⟩ | ⟨i, hi, hid, hnw, hvw⟩
    · refine .inl ⟨hvw, fun i hi hid hnw => ?_⟩
      rcases mem_append.1 hi with hi | hi
      · exact hold i hi hid hnw
      obtain rfl := mem_singleton.1 hi
      obtain ⟨j, hj, hjd, hjn⟩ := hsk hnw
      exact hold j hj (hjd.trans hid) hjn
    · exact .inr ⟨i, mem_append_left _ hi, hid, hnw, hvw⟩
  keys id hid := (h.keys id hid).imp_right fun ⟨i, hi, hrs⟩ => ⟨i, mem_append_left _ hi, hrs⟩

theorem Settled.take {cur' : NodeList F} (h : Settled nl seen cur) (hnw : Newer nl info) (hsl : cur'.selfID = cur.selfID)
    (hot : ∀ id, id ≠ info.id → cur'.view id = cur.view id) (hvw : cur'.view info.id = some (info.state, info.version))
    (hky : ∀ id ∈ cur'.nodes.keys, id ∈ cur.nodes.keys ∨ id = info.id ∧ nl.nodes.lookup info.id = none) :
    Settled nl (seen ++ [info]) cur' where
  self := hsl.trans h.self
  view id := by
    by_cases hid : id = info.id
    · subst hid
      exact .inr ⟨info, by simp, rfl, hnw, hvw⟩
    rcases h.view id with ⟨hsm, hold⟩ | ⟨i, hi, hii, hiw, hsm⟩
    · refine .inl ⟨(hot id hid).trans hsm, fun i hi hii => ?_⟩
      rcases mem_append.1 hi with hi | hi
      · exact hold i hi hii
      · obtain rfl := mem_singleton.1 hi
        exact absurd hii.symm hid
    · exact .inr ⟨i, mem_append_left _ hi, hii, hiw, (hot id hid).trans hsm⟩
  keys id hid := by
    rcases hky id hid with hcr | ⟨rfl, hnn⟩
    · exact (h.keys id hcr).imp_right fun ⟨i, hi, hrs⟩ => ⟨i, mem_append_left _ hi, hrs⟩
    · exact .inr ⟨info, by simp, rfl, hnn⟩

theorem Settled.room (hft : Fits nl infos) (hsn : ∀ i ∈ seen, i ∈ infos) (hinfo : info ∈ infos)
    (h : Settled nl seen cur) (hcr : cur.nodes.lookup info.id = none) (hnl : nl.nodes.lookup info.id = none) :
    cur.nodes.entries.length < maxClusterNodes := by
  obtain ⟨ids, his, hrm⟩ := hft.room
  have hnd : (info.id :: cur.nodes.keys).Nodup :=
    nodup_cons.2 ⟨fun hmem => by simp [AList.lookup_eq_none, AList.mem_keys, hmem] at hcr, cur.nodes.keys_nodup⟩
  have hsb : info.id :: cur.nodes.keys ⊆ nl.nodes.keys ++ ids := by
    intro id hid
    rcases mem_cons.1 hid with rfl | hid
    · exact mem_append_right _ (his info hinfo hnl)
    rcases h.keys id hid with hold | ⟨i, hi, rfl, hnn⟩
    · exact mem_append_left _ hold
    · exact mem_append_right _ (his i (hsn i hi) hnn)
  have hlen := (subperm_of_subset hnd hsb).length_le
  have hky : cur.nodes.keys.length = cur.nodes.entries.length := length_map _
  rw [length_cons, length_append] at hlen
  omega

variable {id : NodeID}

theorem view_eq_none : nl.view id = none ↔ nl.nodes.lookup id = none := Option.map_eq_none_iff

variable {e : Node F}

theorem lookup_of_view (h : cur.view id = nl.view id) (he : cur.nodes.lookup id = some e) :
    ∃ e', nl.nodes.lookup id = some e' ∧ e'.version = e.version := by
  unfold NodeList.view at h
  rw [he, Option.map_some] at h
  obtain ⟨e', he', hp⟩ := Option.map_eq_some_iff.1 h.symm
  exact ⟨e', he', congrArg Prod.snd hp⟩

theorem not_newer_of_le (he : nl.nodes.lookup info.id = some e) (h : ¬ e.version < info.version) :
    ¬ Newer nl info := fun hnw => h (hnw.2 e he)

theorem settled_add [Zero F] (hft : Fits nl infos) (hsn : ∀ i ∈ seen, i ∈ infos) (hinfo : info ∈ infos)
    (h : Settled nl seen cur) (hid : info.id ≠ cur.selfID) (hcr : cur.nodes.lookup info.id = none) :
    Settled nl (seen ++ [info]) (cur.add info.node).1 := by
  have hnl : nl.nodes.lookup info.id = none := by
    rcases h.view info.id with ⟨hvw, -⟩ | ⟨i, -, -, -, hvw⟩
    · exact view_eq_none.1 (hvw.symm.trans (view_eq_none.2 hcr))
    · rw [view_eq_none.2 hcr] at hvw
      cases hvw
  have hnw : Newer nl info := ⟨h.self ▸ hid, fun e he => by rw [hnl] at he; cases he⟩
  have had : (cur.add info.node).1 = { cur with nodes := cur.nodes.insert info.id info.node } := by
    have hrm := Settled.room hft hsn hinfo h hcr hnl
    unfold NodeList.add
    simp only [NodeInfo.node, hcr, if_neg (Nat.not_le.2 hrm)]
  rw [had]
  refine h.take hnw rfl (fun id hne => ?_) ?_ fun id hmem => ?_
  · exact congrArg _ (lookup_insert_ne hne)
  · simp [NodeList.view, NodeInfo.node]
  · rcases (mem_insert _).1 hmem with rfl | hmem
    · exact .inr ⟨rfl, hnl⟩
    · exact .inl hmem

theorem settled_update (hft : Fits nl infos) (hinfo : info ∈ infos) (h : Settled nl seen cur)
    (hid : info.id ≠ cur.selfID) (he : cur.nodes.lookup info.id = some e)
    (hsm : cur.view info.id = nl.view info.id) (hlt : e.version < info.version) (now : Nat) :
    Settled nl (seen ++ [info]) (cur.updateState info.id info.state now) := by
  obtain ⟨e', he', hvr⟩ := lookup_of_view hsm he
  have hnw : Newer nl info := by
    refine ⟨h.self ▸ hid, fun e'' he'' => ?_⟩
    rw [he'] at he''
    cases he''
    rw [hvr]
    exact hlt
  have hnx : info.version = e.version + 1 := hvr ▸ hft.next info hinfo hnw e' he'
  unfold NodeList.updateState
  rw [if_neg hid]
  refine h.take hnw (selfID_modify _) (fun id hne => ?_) ?_ fun id hmem => ?_
  · exact congrArg _ (lookup_modify_ne hne _)
  · rw [NodeList.view, lookup_modify, if_pos rfl, he, hnx]
    rfl
  · refine .inl ?_
    rw [← AList.mem_keys, ← AList.lookup_isSome, lookup_modify] at hmem
    rw [← AList.mem_keys, ← AList.lookup_isSome]
    split_ifs at hmem with heq
    · rw [heq, he]
      rfl
    · exact hmem

theorem Settled.step [Zero F] (hft : Fits nl infos) (hsn : ∀ i ∈ seen, i ∈ infos) (hinfo : info ∈ infos)
    (h : Settled nl seen cur) (now : Nat) : Settled nl (seen ++ [info]) (mergeInfo now cur info) := by
  unfold mergeInfo
  split
  next hsl => exact h.skip fun hnw => absurd (hsl.trans h.self) hnw.1
  next hid =>
    split
    next hnn => exact settled_add hft hsn hinfo h hid hnn
    next e he =>
      rcases h.view info.id with ⟨hsm, -⟩ | ⟨i, hi, hii, hiw, hvw⟩
      · split
        next hlt => exact settled_update hft hinfo h hid he hsm hlt now
        next hle =>
          -- not newer than the old table either
          obtain ⟨e', he', hvr⟩ := lookup_of_view hsm he
          exact h.skip fun hnw => absurd hnw (not_newer_of_le he' (hvr ▸ hle))
      -- an entry about this node was taken before: a newer one would be of the same version
      have hvr : e.version = i.version := by
        rw [NodeList.view, he, Option.map_some] at hvw
        exact congrArg Prod.snd (Option.some.inj hvw)
      split
      next hlt =>
        have hnw : Newer nl info := by
          refine ⟨h.self ▸ hid, fun e' he' => ?_⟩
          exact UInt64.lt_trans (hiw.2 e' (hii ▸ he')) (hvr ▸ hlt)
        have hsm := (hft.agree i (hsn i hi) info hinfo hii hiw hnw).2
        rw [hvr, hsm] at hlt
        exact absurd hlt (UInt64.lt_irrefl _)
      next => exact h.skip fun _ => ⟨i, hi, hii, hiw⟩

end Step

section Runs

variable {nl : NodeList F} {infos : List NodeInfo}

theorem settled_foldl [Zero F] (hft : Fits nl infos) : ∀ (ts : List (Nat × NodeInfo)) {seen : List NodeInfo} {cur : NodeList F},
    (∀ t ∈ ts, t.2 ∈ infos) → (∀ i ∈ seen, i ∈ infos) → Settled nl seen cur →
      Settled nl (seen ++ ts.map Prod.snd) (ts.foldl (fun nl t => mergeInfo t.1 nl t.2) cur)
  | [], seen, cur, _, _, h => by
    rw [map_nil, append_nil]
    exact h
  | t :: ts, seen, cur, hts, hsn, h => by
    obtain ⟨ht, hts⟩ := forall_mem_cons.1 hts
    have hst := h.step hft hsn ht t.1
    have hs' : ∀ i ∈ seen ++ [t.2], i ∈ infos := forall_mem_append.2 ⟨hsn, forall_mem_singleton.2 ht⟩
    have hrs := settled_foldl hft ts hts hs' hst
    rw [append_assoc] at hrs
    exact hrs

def entriesOf (ds : List Delivery) : List NodeInfo := ds.flatMap Prod.snd

theorem map_timed : ∀ ds : List Delivery, (timed ds).map Prod.snd = entriesOf ds
  | [] => rfl
  | d :: ds => by
    have hsp : timed (d :: ds) = (d.2.map fun info => (d.1, info)) ++ timed ds := rfl
    have hh : ((d.2.map fun info => (d.1, info)).map Prod.snd) = d.2 := by
      rw [map_map]
      exact map_id _
    rw [hsp, map_append, hh, map_timed ds]
    rfl

theorem settled_deliver [Zero F] {ds : List Delivery} (hft : Fits nl infos) (hds : ∀ i ∈ entriesOf ds, i ∈ infos) :
    Settled nl (entriesOf ds) (ds.foldl deliver nl) := by
  have hts : ∀ t ∈ timed ds, t.2 ∈ infos := fun t ht => hds t.2 (map_timed ds ▸ mem_map_of_mem ht)
  have h := settled_foldl hft (timed ds) hts (fun i hi => absurd hi not_mem_nil) (.start nl)
  rw [map_timed, nil_append] at h
  rw [foldl_deliver]
  exact h

def NodeList.Keyed (nl : NodeList F) : Prop := ∀ id node, nl.nodes.lookup id = some node → node.id = id

/-- The receiver has no member of the sender's table in the sender's version or a later one. -/
def OnlyOlder (nl sender : NodeList F) : Prop :=
  ∀ id e node, nl.nodes.lookup id = some e → sender.nodes.lookup id = some node → e.version < node.version

variable {sender : NodeList F}

theorem mem_payload (hky : sender.Keyed) {info : NodeInfo} :
    info ∈ sender.payload → ∃ node, sender.nodes.lookup info.id = some node ∧
      info.state = node.state ∧ info.version = node.version := by
  intro h
  obtain ⟨e, he, rfl⟩ := mem_map.1 h
  have hlk : sender.nodes.lookup e.1 = some e.2 := mem_lookup_iff.2 he
  exact ⟨e.2, hky e.1 e.2 hlk ▸ hlk, rfl, rfl⟩

variable {id : NodeID} {node : Node F}

theorem exists_mem_payload (hky : sender.Keyed)
    (h : sender.nodes.lookup id = some node) : ∃ info ∈ sender.payload, info.id = id ∧ info.version = node.version :=
  ⟨_, mem_map_of_mem (mem_lookup_iff.1 h), hky id node h, rfl⟩

theorem view_of_payload [Zero F] (hky : sender.Keyed) (hft : Fits nl sender.payload)
    (hold : OnlyOlder nl sender) (now : Nat) (hid : id ≠ nl.selfID) (hnd : sender.nodes.lookup id = some node) :
    (deliver nl (now, sender.payload)).view id = some (node.state, node.version) := by
  have hen : entriesOf [(now, sender.payload)] = sender.payload := append_nil _
  have hst : Settled nl (entriesOf [(now, sender.payload)]) (deliver nl (now, sender.payload)) :=
    settled_deliver hft fun i hi => hen ▸ hi
  rw [hen] at hst
  rcases hst.view id with ⟨-, hnn⟩ | ⟨i, hi, rfl, -, hvw⟩
  · obtain ⟨info, hinfo, rfl, hvr⟩ := exists_mem_payload hky hnd
    refine absurd ⟨hid, fun e he => ?_⟩ (hnn info hinfo rfl)
    exact hvr ▸ hold info.id e node he hnd
  obtain ⟨node', hn', hse, hvr⟩ := mem_payload hky hi
  rw [hnd] at hn'
  cases hn'
  rw [← hse, ← hvr]
  exact hvw

/-- **Membership gossip converges** where the newer entries about a node agree and are one version
ahead, and there is room for the new nodes: what is recorded does not depend on the order of the
payloads nor on how often each is handled, and a payload brings the receiver to the sender's state. -/
theorem gossip_converges [Zero F] (nl : NodeList F) :
    (∀ ds ds' : List Delivery, (∀ p, p ∈ ds.map Prod.snd ↔ p ∈ ds'.map Prod.snd) → Fits nl (entriesOf ds) →
      ∀ id, (ds.foldl deliver nl).view id = (ds'.foldl deliver nl).view id) ∧
    (∀ (sender : NodeList F) (now : Nat), sender.Keyed → Fits nl sender.payload → OnlyOlder nl sender →
      ∀ id node, id ≠ nl.selfID → sender.nodes.lookup id = some node →
        (deliver nl (now, sender.payload)).view id = some (node.state, node.version)) := by
  refine ⟨fun ds ds' hsm hft id => ?_, fun sender now hky hft hold id node hid hnd =>
    view_of_payload hky hft hold now hid hnd⟩
  have hmem : ∀ i, i ∈ entriesOf ds ↔ i ∈ entriesOf ds' := by
    intro i
    have hfl : ∀ ds : List Delivery, i ∈ entriesOf ds ↔ ∃ p ∈ ds.map Prod.snd, i ∈ p := by
      intro ds
      simp only [entriesOf, mem_flatMap, mem_map, exists_exists_and_eq_and]
    rw [hfl, hfl]
    exact ⟨fun ⟨p, hp, hi⟩ => ⟨p, (hsm p).1 hp, hi⟩, fun ⟨p, hp, hi⟩ => ⟨p, (hsm p).2 hp, hi⟩⟩
  rcases (settled_deliver hft fun _ h => h).view id with ⟨hvw, hold⟩ | ⟨i, hi, hid, hnw, hvw⟩ <;>
    rcases (settled_deliver hft fun i => (hmem i).2).view id with ⟨hv', hold'⟩ | ⟨j, hj, hjd, hn', hv'⟩
  · exact hvw.trans hv'.symm
  · exact absurd hn' (hold j ((hmem j).2 hj) hjd)
  · exact absurd hnw (hold' i ((hmem i).1 hi) hid)
  · obtain ⟨hst, hvr⟩ := hft.agree i hi j ((hmem j).2 hj) (hid.trans hjd.symm) hnw hn'
    rw [hvw, hv', hst, hvr]

end Runs

def infoOf (id : NodeID) (state : NodeState) (version : UInt64) : NodeInfo :=
  ⟨id, [], 0, state, version, 0, ⟨[], [], 0, []⟩⟩

def tableOfN : NodeList Nat where
  selfID := ['s']
  selfVersion := 1
  nodes := AList.insert ['n'] (infoOf ['n'] .alive 1).node ∅

def senderOfN : NodeList Nat where
  selfID := ['r']
  selfVersion := 1
  nodes := AList.insert ['n'] (infoOf ['n'] .dead 2).node ∅

theorem lookup_insert_empty {id k : NodeID} {node e : Node F}
    (h : (insert k node (∅ : AList fun _ : NodeID => Node F)).lookup id = some e) : id = k ∧ e = node := by
  by_cases hid : id = k
  · subst hid
    rw [lookup_insert] at h
    exact ⟨rfl, (Option.some.inj h).symm⟩
  · rw [lookup_insert_ne hid, lookup_empty] at h
    cases h

theorem fits_dead : Fits tableOfN [infoOf ['n'] .dead 2, infoOf ['m'] .alive 4] where
  next := by
    intro info hinfo _ e he
    obtain ⟨hid, rfl⟩ := lookup_insert_empty he
    rcases mem_cons.1 hinfo with rfl | hinfo
    · rfl
    · obtain rfl := mem_singleton.1 hinfo
      exact absurd hid (by decide)
  agree := by
    intro i hi j hj hid _ _
    rcases mem_cons.1 hi with rfl | hi <;> rcases mem_cons.1 hj with rfl | hj
    · exact ⟨rfl, rfl⟩
    · obtain rfl := mem_singleton.1 hj
      exact absurd hid (by decide)
    · obtain rfl := mem_singleton.1 hi
      exact absurd hid (by decide)
    obtain rfl := mem_singleton.1 hi
    obtain rfl := mem_singleton.1 hj
    exact ⟨rfl, rfl⟩
  room := by
    refine ⟨[['m']], fun i hi hnn => ?_, by decide⟩
    rcases mem_cons.1 hi with rfl | hi
    · cases hnn
    · obtain rfl := mem_singleton.1 hi
      exact mem_singleton_self _

theorem gossip_converges_two :
    let dead := [infoOf ['n'] .dead 2]
    let new := [infoOf ['m'] .alive 4]
    ([(1, dead), (2, new)].foldl deliver tableOfN).view ['n'] = ([(1, new), (2, dead), (3, new)].foldl deliver tableOfN).view ['n'] ∧
      ([(1, dead), (2, new)].foldl deliver tableOfN).view ['n'] = some (.dead, 2) ∧
      (deliver tableOfN (1, senderOfN.payload)).view ['n'] = some (.dead, 2) := by
  refine ⟨?_, by decide, ?_⟩
  · exact (gossip_converges tableOfN).1 [(1, [infoOf ['n'] .dead 2]), (2, [infoOf ['m'] .alive 4])] _ (by simp) fits_dead _
  · have hky : senderOfN.Keyed := by
      intro id node h
      obtain ⟨rfl, rfl⟩ := lookup_insert_empty h
      rfl
    have hold : OnlyOlder tableOfN senderOfN := by
      intro id e node he hnd
      obtain ⟨-, rfl⟩ := lookup_insert_empty he
      obtain ⟨-, rfl⟩ := lookup_insert_empty hnd
      decide
    have hft : Fits tableOfN senderOfN.payload := fits_dead.subset (by decide)
    exact (gossip_converges tableOfN).2 senderOfN 1 hky hft hold ['n'] (infoOf ['n'] .dead 2).node (by decide) rfl

theorem merge_depends_on_order :
    let suspect := [infoOf ['n'] .suspect 5]
    let dead := [infoOf ['n'] .dead 3]
    ([(1, suspect), (2, dead)].foldl deliver tableOfN).view ['n'] = some (.dead, 3) ∧
      ([(1, dead), (2, suspect)].foldl deliver tableOfN).view ['n'] = some (.suspect, 3) ∧
      ([(1, suspect)].foldl deliver tableOfN).view ['n'] = some (.suspect, 2) ∧
      ([(1, suspect), (2, suspect)].foldl deliver tableOfN).view ['n'] = some (.suspect, 3) := by
  decide

end NothingDNS.Cluster
