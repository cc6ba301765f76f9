import NothingDNS.Cluster.Gossip
/-!
# What no message changes

Whatever peers send, a node keeps what it has recorded about itself, and of every node it knows the address it recorded
first; and its table does not outgrow `maxClusterNodes` (`handleMessages_kept`).
-/

namespace NothingDNS.Cluster

variable {F Z C : Type} {nl nl' nl'' : NodeList F} {id : NodeID}

/-- Who a node is and where. -/
def Node.place (node : Node F) : NodeID × Text × Int × NodeMeta := (node.id, node.addr, node.port, node.nodeMeta)

structure Kept (nl nl' : NodeList F) : Prop where
  selfID : nl'.selfID = nl.selfID
  self : nl'.nodes.lookup nl.selfID = nl.nodes.lookup nl.selfID
  known : ∀ n, ∀ node ∈ nl.nodes.lookup n, ∃ node' ∈ nl'.nodes.lookup n, node'.place = node.place
  size : nl'.nodes.entries.length ≤ max nl.nodes.entries.length maxClusterNodes

theorem Kept.refl (nl : NodeList F) : Kept nl nl :=
  ⟨rfl, rfl, fun _ node h => ⟨node, h, rfl⟩, le_max_left _ _⟩

theorem Kept.trans (h : Kept nl nl') (h' : Kept nl' nl'') : Kept nl nl'' := by
  refine ⟨h'.selfID.trans h.selfID, ?_, fun n node hn => ?_, ?_⟩
  · rw [← h.self, ← h.selfID, h'.self]
  · obtain ⟨node', hn', hp⟩ := h.known n node hn
    obtain ⟨node'', hn'', hp'⟩ := h'.known n node' hn'
    exact ⟨node'', hn'', hp'.trans hp⟩
  · have h1 := h.size
    have h2 := h'.size
    omega

theorem length_insert {α β : Type} [DecidableEq α] (m : AList fun _ : α => β) (a : α) (b : β) :
    (m.insert a b).entries.length = m.entries.length + if a ∈ m then 0 else 1 := by
  have hlen (m : AList fun _ : α => β) : m.entries.length = m.keys.length := by simp [AList.keys, List.keys]
  rw [hlen, hlen, AList.keys_insert, List.length_cons, List.length_erase]
  split
  next h =>
    have := List.length_pos_of_mem h
    rw [if_pos (AList.mem_keys.2 h)]
    omega
  next h => rw [if_neg (mt AList.mem_keys.1 h)]

theorem Kept.modify {f : Node F → Node F} (hid : id ≠ nl.selfID) (hf : ∀ node, (f node).place = node.place) :
    Kept nl (nl.modify id f) := by
  refine ⟨selfID_modify f, lookup_modify_ne hid.symm f, fun n node hn => ?_, ?_⟩
  · rw [lookup_modify]
    split_ifs with h
    · subst h
      exact ⟨f node, by rw [hn]; rfl, hf node⟩
    · exact ⟨node, hn, rfl⟩
  · unfold NodeList.modify
    split
    · exact le_max_left _ _
    next node hn =>
      have hmem : id ∈ nl.nodes := AList.lookup_isSome.1 (by rw [hn]; rfl)
      rw [length_insert, if_pos hmem]
      exact le_max_left _ _

theorem Kept.add {node : Node F} (hid : node.id ≠ nl.selfID) (hno : nl.nodes.lookup node.id = none) :
    Kept nl (nl.add node).1 := by
  unfold NodeList.add
  rw [hno]
  dsimp only
  split
  · exact .refl nl
  next hroom =>
    refine ⟨rfl, AList.lookup_insert_ne hid.symm, fun n node' hn => ?_, ?_⟩
    · have hne : n ≠ node.id := by
        rintro rfl
        cases hno.symm.trans hn
      exact ⟨node', (AList.lookup_insert_ne hne).trans hn, rfl⟩
    · rw [length_insert]
      split <;> omega

theorem Kept.updateState (id : NodeID) (state : NodeState) (now : Nat) : Kept nl (nl.updateState id state now) := by
  unfold NodeList.updateState
  split
  · exact .refl nl
  next hid => exact .modify hid fun _ => rfl

theorem Kept.mergeInfo [Zero F] (now : Nat) (nl : NodeList F) (info : NodeInfo) : Kept nl (mergeInfo now nl info) := by
  unfold Cluster.mergeInfo
  split
  · exact .refl nl
  next hid =>
    split
    next hno => exact .add hid hno
    · split
      · exact .updateState info.id info.state now
      · exact .refl nl

theorem handleGossip_kept [Zero F] (now : Nat) (nodes : List NodeInfo) (g : Gossip F) :
    Kept g.nodeList (handleGossip (Z := Z) (C := C) now g nodes).1.nodeList :=
  List.foldlRecOn (motive := fun r : Gossip F × List (Event F Z C) => Kept g.nodeList r.1.nodeList) nodes _ (.refl _)
    fun _ h info _ => h.trans (.mergeInfo now _ info)

theorem handleMessage_kept [Zero F] (now : Nat) (g : Gossip F) (msg : Message F Z C) :
    Kept g.nodeList (handleMessage now g msg).1.nodeList := by
  unfold handleMessage
  split
  · exact .refl _
  next hself =>
    have hseen {nodeID : NodeID} (h : msg.sender = nodeID) : Kept g.nodeList (g.nodeList.markSeen nodeID now) :=
      .modify (h ▸ hself) fun _ => rfl
    split
    · unfold handlePing
      split
      · exact .refl _
      next h => exact hseen (not_not.1 h)
    · unfold handleAck
      split
      · exact .refl _
      next h => exact (hseen (not_not.1 h)).trans (.updateState _ _ now)
    · exact handleGossip_kept now _ g
    all_goals first | exact .refl _ | skip
    · unfold handleDraining
      split
      · exact .refl _
      split
      · exact .refl _
      next h => exact (hseen (not_not.1 h)).trans (.updateState _ _ now)
    · unfold handleNodeStats
      split
      · exact .refl _
      next hne =>
        split
        · exact .refl _
        · exact .modify hne fun _ => rfl
    · unfold handleClusterMetrics
      split
      · exact .refl _
      split <;> exact .refl _

/-- **A node keeps its own record and the addresses of others**, through all messages of all peers. -/
theorem handleMessages_kept [Zero F] (g : Gossip F) (msgs : List (Nat × Message F Z C)) :
    Kept g.nodeList (msgs.foldl (fun g m => (handleMessage m.1 g m.2).1) g).nodeList :=
  List.foldlRecOn (motive := fun g' : Gossip F => Kept g.nodeList g'.nodeList) msgs _ (.refl _)
    fun g' h m _ => h.trans (handleMessage_kept m.1 g' m.2)

end NothingDNS.Cluster
