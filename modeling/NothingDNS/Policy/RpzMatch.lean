import NothingDNS.Policy.Rpz
/-!
# Which rule a policy decision returns

`loadedRules` is what the files say, line by line; the tables hold of each key the
best of its rules (`lookup_tables`) and of each kind of address all rules
(`client_tables`, `resp_tables`). A decision about a name stops at the first key that
has a rule, the name before its wildcards and near wildcards before far ones, whatever
the priorities are; and rules for name servers lie in the same tables as those for
query names and response addresses. `policy_best` says exactly when neither matters.
-/

namespace NothingDNS.Policy

open List Least

section Tables

variable {Net IP : Type} (parseCIDR : Text → Option Net) (contains : Net → IP → Bool)

def loadedRules (policies : Text → Option Int) (read : Text → Option Source) (files : List Text) : List Rule :=
  files.flatMap fun file => ((read file).elim [] Source.lines).filterMap (ruleOfLine policies file)

def buildTables (rules : List Rule) : Tables Net := rules.foldl (addRule parseCIDR) .empty

theorem loadFile_eq (policies : Text → Option Int) (file : Text) : ∀ (lines : List Text) (t : Tables Net),
    loadFile parseCIDR policies t file lines = (lines.filterMap (ruleOfLine policies file)).foldl (addRule parseCIDR) t
  | [], _ => rfl
  | line :: lines, t => by
    rw [loadFile, foldl_cons]
    cases hrl : ruleOfLine policies file line with
    | none =>
      rw [filterMap_cons_none hrl]
      exact loadFile_eq policies file lines t
    | some rule =>
      rw [filterMap_cons_some hrl, foldl_cons]
      exact loadFile_eq policies file lines _

theorem loadFiles_ok (policies : Text → Option Int) (read : Text → Option Source) :
    ∀ {files : List Text} {t t' : Tables Net}, loadFiles parseCIDR policies read t files = (t', none) →
      t' = (loadedRules policies read files).foldl (addRule parseCIDR) t
  | [], t, t', h => by
    rw [loadFiles] at h
    exact (Prod.mk.inj h).1.symm
  | file :: files, t, t', h => by
    rw [loadFiles] at h
    cases hrd : read file with rw [hrd] at h
    | none =>
      cases h
    | some source =>
      dsimp only at h
      split_ifs at h
      · cases h
      rw [loadFiles_ok policies read h, loadFile_eq, loadedRules, loadedRules, flatMap_cons, foldl_append, hrd]
      rfl

/-! ## What the tables hold -/

def Keyed (k : Text) (r : Rule) : Bool :=
  (r.trigger = .qname ∨ r.trigger = .nsdname) ∧ r.pattern.lower = k

def netOf (a b : TriggerType) (r : Rule) : Option (Net × Rule) :=
  if r.trigger = a ∨ r.trigger = b then (parseCIDR r.pattern).map fun net => (net, r) else none

theorem lookup_addRule (t : Tables Net) (r : Rule) (k : Text) : (addRule parseCIDR t r).qnameRules.lookup k =
      if Keyed k r then pick Rule.priority (t.qnameRules.lookup k) r else t.qnameRules.lookup k := by
  have hnm : (r.trigger = .qname ∨ r.trigger = .nsdname) → (addRule parseCIDR t r).qnameRules.lookup k =
      if Keyed k r then pick Rule.priority (t.qnameRules.lookup k) r else t.qnameRules.lookup k := by
    intro htr
    obtain ⟨best, hb⟩ : ∃ best, pick Rule.priority (t.qnameRules.lookup r.pattern.lower) r = some best := by
      cases t.qnameRules.lookup r.pattern.lower with
      | none => exact ⟨r, rfl⟩
      | some b =>
        rw [pick]
        split_ifs
        · exact ⟨r, rfl⟩
        · exact ⟨b, rfl⟩
    have had : addRule parseCIDR t r = { t with qnameRules := t.qnameRules.insert r.pattern.lower best } := by
      unfold addRule
      rcases htr with h | h <;> simp only [h, hb]
    rw [had]
    by_cases hk : r.pattern.lower = k
    · subst hk
      rw [AList.lookup_insert, if_pos (by simpa [Keyed] using htr), hb]
    · rw [AList.lookup_insert_ne (Ne.symm hk), if_neg (by simp [Keyed, hk])]
  have hot : ∀ {t' : Tables Net}, addRule parseCIDR t r = t' → t'.qnameRules = t.qnameRules →
      r.trigger ≠ .qname → r.trigger ≠ .nsdname → (addRule parseCIDR t r).qnameRules.lookup k =
        if Keyed k r then pick Rule.priority (t.qnameRules.lookup k) r else t.qnameRules.lookup k := by
    intro t' had hsm hq hns
    rw [had, hsm, if_neg (by simp [Keyed, hq, hns])]
  cases htr : r.trigger with
  | qname => exact hnm (.inl htr)
  | nsdname => exact hnm (.inr htr)
  | clientIP | responseIP | nsip =>
    refine hot rfl ?_ (by simp [htr]) (by simp [htr])
    simp only [addRule, htr]
    split <;> rfl

theorem nets_addRule (t : Tables Net) (r : Rule) :
    (addRule parseCIDR t r).client = t.client ++ (netOf parseCIDR .clientIP .clientIP r).toList ∧
      (addRule parseCIDR t r).resp = t.resp ++ (netOf parseCIDR .responseIP .nsip r).toList := by
  unfold addRule netOf
  cases htr : r.trigger with
  | qname | nsdname =>
    simp only [reduceCtorEq, or_self, if_false]
    split <;> simp
  | clientIP | responseIP | nsip => cases parseCIDR r.pattern <;> simp

theorem lookup_tables (rules : List Rule) (k : Text) :
    (buildTables parseCIDR rules).qnameRules.lookup k = least Rule.priority (rules.filter (Keyed k)) := by
  suffices h : ∀ (rules : List Rule) (t : Tables Net), (rules.foldl (addRule parseCIDR) t).qnameRules.lookup k =
      (rules.filter (Keyed k)).foldl (pick Rule.priority) (t.qnameRules.lookup k) from h rules .empty
  intro rules
  induction rules with
  | nil => intro t; rfl
  | cons r rules ih =>
    intro t
    rw [foldl_cons, ih, lookup_addRule, filter_cons]
    by_cases hk : Keyed k r = true
    · rw [if_pos hk, if_pos hk, foldl_cons]
    · rw [if_neg hk, if_neg hk]

theorem foldl_append_filterMap {T β : Type} {step : T → Rule → T} {field : T → List β} {g : Rule → Option β}
    (h : ∀ t r, field (step t r) = field t ++ (g r).toList) (rules : List Rule) (t : T) :
    field (rules.foldl step t) = field t ++ rules.filterMap g := by
  induction rules generalizing t with
  | nil => simp
  | cons r rules ih =>
    rw [foldl_cons, ih, h, filterMap_cons, append_assoc]
    cases g r <;> rfl

theorem client_tables (rules : List Rule) :
    (buildTables parseCIDR rules).client = rules.filterMap (netOf parseCIDR .clientIP .clientIP) :=
  foldl_append_filterMap (fun t r => (nets_addRule parseCIDR t r).1) rules .empty

theorem resp_tables (rules : List Rule) :
    (buildTables parseCIDR rules).resp = rules.filterMap (netOf parseCIDR .responseIP .nsip) :=
  foldl_append_filterMap (fun t r => (nets_addRule parseCIDR t r).2) rules .empty

def hits (rules : List (Net × Rule)) (ip : IP) : List Rule :=
  (rules.filter fun p => contains p.1 ip).map (·.2)

theorem scanNets_eq (ip : IP) : ∀ (rules : List (Net × Rule)) (best : Option Rule),
    scanNets contains rules best ip = (hits contains rules ip).foldl (pick Rule.priority) best
  | [], _ => rfl
  | (net, r) :: rules, best => by
    rw [scanNets, foldl_cons, hits, filter_cons]
    dsimp only
    by_cases hc : contains net ip = true
    · rw [if_pos hc, if_pos hc]
      exact scanNets_eq ip rules _
    · rw [if_neg hc, if_neg hc]
      exact scanNets_eq ip rules _

theorem foldl_scanNets_eq (rules : List (Net × Rule)) : ∀ (ips : List IP) (best : Option Rule),
    ips.foldl (scanNets contains rules) best = (ips.flatMap (hits contains rules)).foldl (pick Rule.priority) best
  | [], _ => rfl
  | ip :: ips, best => by
    rw [foldl_cons, foldl_scanNets_eq, scanNets_eq, flatMap_cons, foldl_append]

def MatchesIP (trigger : TriggerType) (ip : IP) (r : Rule) : Prop :=
  r.trigger = trigger ∧ ∃ net, parseCIDR r.pattern = some net ∧ contains net ip = true

theorem mem_hits {a b : TriggerType} {rules : List Rule} {ip : IP} {r : Rule} :
    r ∈ hits contains (rules.filterMap (netOf parseCIDR a b)) ip ↔
      r ∈ rules ∧ (MatchesIP parseCIDR contains a ip r ∨ MatchesIP parseCIDR contains b ip r) := by
  rw [hits, mem_map]
  constructor
  · rintro ⟨⟨net, r'⟩, hmem, rfl⟩
    obtain ⟨hmem, hin⟩ := mem_filter.1 hmem
    obtain ⟨r, hr, hnt⟩ := mem_filterMap.1 hmem
    unfold netOf at hnt
    split_ifs at hnt with htr
    obtain ⟨net', hp, heq⟩ := Option.map_eq_some_iff.1 hnt
    cases heq
    exact ⟨hr, htr.imp (fun h => ⟨h, net, hp, hin⟩) fun h => ⟨h, net, hp, hin⟩⟩
  · rintro ⟨hr, hmt⟩
    obtain ⟨htr, net, hp, hin⟩ :
        (r.trigger = a ∨ r.trigger = b) ∧ ∃ net, parseCIDR r.pattern = some net ∧ contains net ip = true :=
      hmt.elim (fun h => ⟨.inl h.1, h.2⟩) fun h => ⟨.inr h.1, h.2⟩
    refine ⟨(net, r), mem_filter.2 ⟨mem_filterMap.2 ⟨r, hr, ?_⟩, hin⟩, rfl⟩
    rw [netOf, if_pos htr, hp]
    rfl

def MatchesName (qname : Text) (r : Rule) : Prop := r.trigger = .qname ∧ r.pattern.lower ∈ candidates qname

end Tables

def IsBest (rules : List Rule) (matching : Rule → Prop) : Option Rule → Prop
  | none => ∀ r ∈ rules, ¬ matching r
  | some r => r ∈ rules ∧ matching r ∧ ∀ s ∈ rules, matching s → r.priority ≤ s.priority

section Decisions

variable {Net IP : Type} {parseCIDR : Text → Option Net} {contains : Net → IP → Bool} {rules : List Rule}

theorem isBest_least {l : List Rule} {matching : Rule → Prop} (h : ∀ r, r ∈ l ↔ r ∈ rules ∧ matching r) :
    IsBest rules matching (least Rule.priority l) := by
  cases hl : least Rule.priority l with
  | none =>
    intro r hr hmt
    have hmem := (h r).2 ⟨hr, hmt⟩
    rw [least_eq_none.1 hl] at hmem
    cases hmem
  | some r =>
    obtain ⟨hmem, hls⟩ := least_eq_some hl
    exact ⟨((h r).1 hmem).1, ((h r).1 hmem).2, fun s hs hmt => hls s ((h s).2 ⟨hs, hmt⟩)⟩

/-- The best rule of the nearest key, the first one if there are several, is for query names, and no rule for the name
is better. -/
def NearestIsBest (rules : List Rule) (qname : Text) : Prop :=
  ∀ before k after, candidates qname = before ++ k :: after → (∀ k' ∈ before, ∀ s ∈ rules, Keyed k' s = false) →
    ∀ r, least Rule.priority (rules.filter (Keyed k)) = some r →
      r.trigger = .qname ∧ ∀ s ∈ rules, MatchesName qname s → r.priority ≤ s.priority

theorem isBest_name_iff {qname : Text} : IsBest rules (MatchesName qname)
      ((candidates qname).findSome? (buildTables parseCIDR rules).qnameRules.lookup) ↔ NearestIsBest rules qname := by
  have hlk : (buildTables parseCIDR rules).qnameRules.lookup =
      fun k => least Rule.priority (rules.filter (Keyed k)) := funext (lookup_tables parseCIDR rules)
  rw [hlk]
  constructor
  · intro h before k after hsp hb r hr
    have hfn : (candidates qname).findSome? (fun k => least Rule.priority (rules.filter (Keyed k))) = some r := by
      refine findSome?_eq_some_iff.2 ⟨before, k, after, hsp, hr, fun k' hk' => least_eq_none.2 ?_⟩
      rw [filter_eq_nil_iff]
      intro s hs
      simp [hb k' hk' s hs]
    rw [hfn] at h
    exact ⟨h.2.1.1, h.2.2⟩
  · intro h
    cases hfn : (candidates qname).findSome? fun k => least Rule.priority (rules.filter (Keyed k)) with
    | none =>
      intro r hr hmt
      have hnn := least_eq_none.1 (findSome?_eq_none_iff.1 hfn _ hmt.2)
      exact filter_eq_nil_iff.1 hnn r hr (decide_eq_true ⟨.inl hmt.1, rfl⟩)
    | some r =>
      obtain ⟨before, k, after, hsp, hk, hbf⟩ := findSome?_eq_some_iff.1 hfn
      have hb : ∀ k' ∈ before, ∀ s ∈ rules, Keyed k' s = false := fun k' hk' s hs => by
        simpa using filter_eq_nil_iff.1 (least_eq_none.1 (hbf k' hk')) s hs
      obtain ⟨htr, hls⟩ := h before k after hsp hb r hk
      obtain ⟨hr, hkey⟩ := mem_filter.1 (least_eq_some hk).1
      refine ⟨hr, ⟨htr, ?_⟩, hls⟩
      rw [(of_decide_eq_true hkey).2, hsp]
      simp

theorem isBest_client (ip : IP) : IsBest rules (MatchesIP parseCIDR contains .clientIP ip)
    (scanNets contains (buildTables parseCIDR rules).client none ip) := by
  rw [scanNets_eq, client_tables]
  refine isBest_least fun r => ?_
  rw [mem_hits, or_self]

/-- The rules for response addresses and for name servers that contain one of the addresses, in the order of the
scan. -/
def responseHits (parseCIDR : Text → Option Net) (contains : Net → IP → Bool) (rules : List Rule) (ips : List IP) :
    List Rule :=
  ips.flatMap (hits contains (rules.filterMap (netOf parseCIDR .responseIP .nsip)))

theorem mem_responseHits {ips : List IP} {r : Rule} : r ∈ responseHits parseCIDR contains rules ips ↔
    r ∈ rules ∧ ∃ ip ∈ ips, MatchesIP parseCIDR contains .responseIP ip r ∨ MatchesIP parseCIDR contains .nsip ip r := by
  simp only [responseHits, mem_flatMap, mem_hits]
  constructor
  · rintro ⟨ip, hip, hr, hmt⟩
    exact ⟨hr, ip, hip, hmt⟩
  · rintro ⟨hr, ip, hip, hmt⟩
    exact ⟨ip, hip, hr, hmt⟩

theorem isBest_response_iff {ips : List IP} :
    IsBest rules (fun r => ∃ ip ∈ ips, MatchesIP parseCIDR contains .responseIP ip r)
      (ips.foldl (scanNets contains (buildTables parseCIDR rules).resp) none) ↔
    ∀ r, least Rule.priority (responseHits parseCIDR contains rules ips) = some r → r.trigger = .responseIP := by
  have hsc : ips.foldl (scanNets contains (buildTables parseCIDR rules).resp) none =
      least Rule.priority (responseHits parseCIDR contains rules ips) := by
    rw [foldl_scanNets_eq, resp_tables]
    rfl
  rw [hsc]
  constructor
  · intro h r hr
    rw [hr] at h
    obtain ⟨-, ⟨ip, -, hmt⟩, -⟩ := h
    exact hmt.1
  · intro h
    cases hl : least Rule.priority (responseHits parseCIDR contains rules ips) with
    | none =>
      rintro r hr ⟨ip, hip, hmt⟩
      have hmem : r ∈ responseHits parseCIDR contains rules ips := mem_responseHits.2 ⟨hr, ip, hip, .inl hmt⟩
      rw [least_eq_none.1 hl] at hmem
      cases hmem
    | some r =>
      obtain ⟨hmem, hls⟩ := least_eq_some hl
      obtain ⟨hr, ip, hip, hmt⟩ := mem_responseHits.1 hmem
      refine ⟨hr, ⟨ip, hip, hmt.resolve_right fun hns => ?_⟩, fun s hs hms => ?_⟩
      · have htr := h r hl
        rw [hns.1] at htr
        cases htr
      · obtain ⟨ip', hip', hms⟩ := hms
        exact hls s (mem_responseHits.2 ⟨hs, ip', hip', .inl hms⟩)

end Decisions

def twoFiles (first second : List String) (file : Text) : Option Source :=
  some { lines := (if file = ['p'] then first else second).map String.toList, err := false }

def twoPolicies : Engine Text where
  enabled := true
  files := [['p'], ['q']]
  policies file := some (if file = ['p'] then 5 else 1)
  tables := .empty

def loaded (first second : List String) : Engine Text := (twoPolicies.load some (twoFiles first second)).1

def sameAddress (net ip : Text) : Bool := net = ip

def nameAndWildcard : List Rule := loadedRules twoPolicies.policies
  (twoFiles ["*.e. 60 IN A 192.0.2.1"] ["bad.e. 60 IN A 192.0.2.2"]) twoPolicies.files

theorem nearestIsBest_bad : NearestIsBest nameAndWildcard "bad.e".toList := by
  intro before k after hsp hb r hr
  have hbest : (least Rule.priority (nameAndWildcard.filter (Keyed "bad.e".toList))).all (fun r =>
      r.trigger = .qname ∧ ∀ s ∈ nameAndWildcard, r.priority ≤ s.priority) = true := by decide +kernel
  have hkey : ∃ s ∈ nameAndWildcard, Keyed "bad.e".toList s = true := by decide +kernel
  cases before with
  | nil =>
    obtain ⟨rfl, -⟩ := cons.inj hsp
    rw [hr, Option.all_some, decide_eq_true_eq] at hbest
    exact ⟨hbest.1, fun s hs _ => hbest.2 s hs⟩
  | cons b before =>
    obtain ⟨rfl, -⟩ := cons.inj hsp
    obtain ⟨s, hs, hks⟩ := hkey
    rw [hb _ mem_cons_self s hs] at hks
    cases hks

end NothingDNS.Policy
