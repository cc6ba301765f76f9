import NothingDNS.Pipeline.UpstreamData
/-!
# Split-horizon views and the response cache

The cache is asked before the view is chosen, and its keys do not name a view: what a client without the view has been
sent from upstream is sent to a client of the view (`view_leak`).
-/

namespace NothingDNS.Pipeline

open NothingDNS.Dnssec List

variable {Client Net Z : Type} {C : Config Client Net Z} {s s' : State Net} {q : Query Client} {qn : Question}
  {w : World}

/-- Queries that store nothing under a key, and evictions; the policies stay. -/
def Undisturbed (C : Config Client Net Z) (k : Key) : State Net → Event Client Net → Prop
  | s, .query q w => (serve C s q w).1.cache k = s.cache k
  | _, .reload _ => False
  | _, .evict _ => True

theorem undisturbed_run {k : Key} {rpz : Option (Policy.Engine Net)} {es : List (Event Client Net)}
    (h : Run.exec (step C) (.empty rpz) es = some s) (hok : Run.Meets (step C) (Undisturbed C k) (.empty rpz) es) :
    s.cache k = none ∧ s.rpz = rpz := by
  refine @Run.invariant _ _ _ _ (fun s => s.cache k = none ∧ s.rpz = rpz) (fun s e s' hi hok hs => ?_) es _ _ h hok
    ⟨rfl, rfl⟩
  cases e with
  | query q w =>
    cases hs
    exact ⟨hok.trans hi.1, serve_rpz.trans hi.2⟩
  | reload rpz' => exact absurd hok id
  | evict keep =>
    cases hs
    refine ⟨?_, hi.2⟩
    dsimp only
    split
    · exact hi.1
    · rfl

theorem filters_pass (hrp : s.rpz = s'.rpz) (h : ∀ x ∈ filterStages C s q qn w, x = none) :
    ∀ x ∈ filterStages C s' q qn w, x = none := by
  simp only [filterStages, forall_mem_cons, not_mem_nil, false_implies, implies_true, and_true,
    validationStage, aclStage, rpzClientStage, rateLimitStage, cookieStage, anyStage, transferStage, blocklistStage,
    rpzQnameStage, Option.map_eq_none_iff, hrp] at h ⊢
  obtain ⟨h1, h2, h3, h4, h5, h6, h7, h8, h9⟩ := h
  have hie : ∀ {p : Prop} [Decidable p] {ms : List Msg},
      (if p then answered s ms else none) = none → (if p then answered s' ms else none) = none := by
    intro p _ ms h
    split at h
    · cases h
    next hp =>
      rw [if_neg hp]
  refine ⟨hie h1, ?_, h3, hie h4, hie h5, hie h6, h7, hie h8, h9⟩
  split at h2
  next hc =>
    rw [if_pos hc]
  next hc =>
    rw [if_neg hc]
    cases hac : w.acl with
    | allowed => rfl
    | denied => simp [hac, answered] at h2
    | redirect target => cases target <;> simp [hac, answered] at h2

/-- **A view's client gets its view's answer**, and what other clients asked before makes no difference. -/
theorem view_isolated {rpz : Option (Policy.Engine Net)} {es₁ es₂ : List (Event Client Net)} {s₁ s₂ : State Net}
    {rest : List Question} {client : Client} {z : Z} {sec : Sections}
    (h₁ : Run.exec (step C) (.empty rpz) es₁ = some s₁) (h₂ : Run.exec (step C) (.empty rpz) es₂ = some s₂)
    (hq : q.questions = qn :: rest) (hclient : q.client = some client)
    (hview : (C.viewZones client).filter (C.isSubdomain qn.name) = [z]) (hz : C.handleAuthoritative z q = .sections sec)
    (hfilters : ∀ x ∈ filterStages C (.empty rpz) q qn w, x = none)
    (hok₁ : Run.Meets (step C) (Undisturbed C (clientKey C q qn)) (.empty rpz) es₁)
    (hok₂ : Run.Meets (step C) (Undisturbed C (clientKey C q qn)) (.empty rpz) es₂)
    (hnsec₁ : C.nsecLookup.find s₁.nsec qn.name qn.qtype w.now = none)
    (hnsec₂ : C.nsecLookup.find s₂.nsec qn.name qn.qtype w.now = none) : (serve C s₁ q w).2 = (serve C s₂ q w).2 ∧
      ∃ s', handleZone C (.empty rpz) q qn w (C.handleAuthoritative z q) = some (s', (serve C s₁ q w).2) := by
  have hsr : ∀ {es : List (Event Client Net)} {s : State Net}, Run.exec (step C) (.empty rpz) es = some s →
      Run.Meets (step C) (Undisturbed C (clientKey C q qn)) (.empty rpz) es →
      C.nsecLookup.find s.nsec qn.name qn.qtype w.now = none →
      (serve C s q w).2 = (ipPolicy C (.empty rpz) q qn (q.respond sec.own)).getD
        [reply C.nsTarget q (q.respond sec.own)] := by
    intro es s h hok hnc
    obtain ⟨hcc, hrp⟩ := undisturbed_run h hok
    have hnn : (filterStages C s q qn w).findSome? id = none :=
      List.findSome?_eq_none_iff.2 (filters_pass (s := .empty rpz) hrp.symm hfilters)
    have hg : cacheStage C s q qn w = none := by
      rw [cacheStage, State.get, hcc]
      rfl
    have hns : nsecCacheStage C s q qn w = none := by
      rw [nsecCacheStage, hnc]
      rfl
    have hsp : splitHorizonStage C s q qn w =
        some (s, (ipPolicy C s q qn (q.respond sec.own)).getD [reply C.nsTarget q (q.respond sec.own)]) := by
      rw [splitHorizonStage, hclient, Option.bind_some, hview]
      simp [hz, handleZone]
    have hpol : ipPolicy C s q qn (q.respond sec.own) = ipPolicy C (.empty rpz) q qn (q.respond sec.own) := by
      rw [ipPolicy, ipPolicy, hrp]
      rfl
    rw [serve, hq]
    dsimp only
    rw [stages, List.findSome?_append, hnn, Option.none_or, List.findSome?_cons, hg]
    rw [List.findSome?_cons, hns]
    dsimp only [id]
    rw [List.findSome?_cons, hsp, hpol]
    rfl
  have hs1 := hsr h₁ hok₁ hnsec₁
  refine ⟨hs1.trans (hsr h₂ hok₂ hnsec₂).symm, ?_⟩
  rw [hs1, hz]
  exact ⟨_, rfl⟩

def viewServer : Config Nat Addr Unit :=
  { forwarder with
    viewZones := fun client => if client = 1 then [()] else []
    handleAuthoritative := fun _ _ => .sections ⟨true, rcodeSuccess, [addressRec exampleName [10, 0, 0, 1]], [], []⟩ }

def outsideQuery (name : Name) : Query Nat := { addressQuery name with client := some 2 }

theorem view_isolated_other_name :
    let w := quietWorld 0 (echo false [192, 0, 2, 1]) .secure
    let s := (serve viewServer (.empty none) (outsideQuery targetName) w).1
    (serve viewServer (.empty none) (addressQuery exampleName) w).2 =
        (serve viewServer s (addressQuery exampleName) w).2 ∧
      ∃ s', handleZone viewServer (.empty none) (addressQuery exampleName) ⟨exampleName, typeA, classIN⟩ w
          (viewServer.handleAuthoritative () (addressQuery exampleName)) =
        some (s', (serve viewServer (.empty none) (addressQuery exampleName) w).2) := by
  intro w s
  refine @view_isolated _ _ _ viewServer (addressQuery exampleName) ⟨exampleName, typeA, classIN⟩ w none []
    [.query (outsideQuery targetName) w] _ s [] 1 () _ rfl rfl rfl rfl rfl rfl (fun x hx => ?_) trivial
    ⟨?_, trivial⟩ rfl rfl
  · simp only [filterStages, mem_cons, not_mem_nil, or_false] at hx
    rcases hx with rfl | rfl | rfl | rfl | rfl | rfl | rfl | rfl | rfl <;> rfl
  · show (serve viewServer (.empty none) (outsideQuery targetName) w).1.cache _ = none
    decide

theorem view_leak :
    let w := quietWorld 0 (echo false [192, 0, 2, 1]) .secure
    ∃ s, Run.exec (step viewServer) (.empty none) [.query (outsideQuery exampleName) w] = some s ∧
      (serve viewServer (.empty none) (addressQuery exampleName) w).2.map (addresses ·.answers) = [[[10, 0, 0, 1]]] ∧
      (serve viewServer s (addressQuery exampleName) w).2.map (addresses ·.answers) = [[[192, 0, 2, 1]]] :=
  ⟨_, rfl, by decide, by decide⟩

end NothingDNS.Pipeline
