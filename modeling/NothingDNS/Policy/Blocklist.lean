import NothingDNS.Policy.RpzMatch
/-!
# The blocklist and its reload (`internal/blocklist/blocklist.go`)

Reading a source is refused or gives lines and then the end or an error. A file's lines go into the table as they are
read, an URL's all at once at its end.

Nothing is put back when a call fails. The decisions are then those of what was read before the failure and what
the call keeps (`BlockCall.left`): the old ones exactly if each of the two lists covers the other
(`failed_reload_keeps_decisions`).
-/

namespace NothingDNS.Policy

open List

/-- `sourceEntries`: the domains of each source. -/
abbrev SourceMap := AList fun _ : Text => List Text

inductive BlocklistError where
  | refused (source : Text)
  | scan (source : Text)
  | tooManyEntries (url : Text)
  | sourceNotFound (id : Text)
deriving DecidableEq

structure Blocklist where
  enabled : Bool
  files : List Text
  urls : List Text
  sourceEntries : SourceMap
  disabledSources : List Text
  manualEntries : List Text

/-- What the two kinds of sources give when they are read. -/
structure Sources where
  file : Text → Option Source
  url : Text → Option Source

def normalizeDomain (t : Text) : Text := (Text.trimDot t).lower

def domainOfLine (line : Text) : Option Text :=
  let line := Text.trimSpace line
  if line = [] ∨ line.head? = some '#' then none
  else match Text.words line with
    | [] => none
    | [domain] => some (normalizeDomain domain)
    | _ :: domain :: _ => some (normalizeDomain domain)

def domainsOf (source : Source) : List Text := source.lines.filterMap domainOfLine

def maxEntries : Nat := 10000000

def addDomain (path : Text) (m : SourceMap) (domain : Text) : SourceMap :=
  m.insert path ((m.lookup path).getD [] ++ [domain])

def loadBlockFile (read : Text → Option Source) (m : SourceMap) (path : Text) : SourceMap × Option BlocklistError :=
  match read path with
  | none => (m, some (.refused path))
  | some source =>
    ((domainsOf source).foldl (addDomain path) m, if source.err then some (.scan path) else none)

def loadBlockURL (fetch : Text → Option Source) (m : SourceMap) (url : Text) : SourceMap × Option BlocklistError :=
  match fetch url with
  | none => (m, some (.refused url))
  | some source =>
    if maxEntries < (domainsOf source).length then (m, some (.tooManyEntries url))
    else if source.err then (m, some (.scan url))
    else (m.insert url (domainsOf source), none)

def loadEach (load : SourceMap → Text → SourceMap × Option BlocklistError) (m : SourceMap) :
    List Text → SourceMap × Option BlocklistError
  | [] => (m, none)
  | s :: rest => match load m s with
    | (m, some err) => (m, some err)
    | (m, none) => loadEach load m rest

def loadAll (src : Sources) (m : SourceMap) (files urls : List Text) : SourceMap × Option BlocklistError :=
  match loadEach (loadBlockFile src.file) m files with
  | (m, some err) => (m, some err)
  | (m, none) => loadEach (loadBlockURL src.url) m urls

/-- From `blocklist.go:132-158`. -/
def Blocklist.load (src : Sources) (bl : Blocklist) : Blocklist × Option BlocklistError :=
  if bl.enabled then
    ({ bl with sourceEntries := (loadAll src ∅ bl.files bl.urls).1 }, (loadAll src ∅ bl.files bl.urls).2)
  else (bl, none)

/-- From `blocklist.go:504-513`. -/
def Blocklist.addFile (src : Sources) (bl : Blocklist) (path : Text) : Blocklist × Option BlocklistError :=
  match loadBlockFile src.file bl.sourceEntries path with
  | (m, some err) => ({ bl with sourceEntries := m }, some err)
  | (m, none) => ({ bl with sourceEntries := m, files := bl.files ++ [path] }, none)

/-- The source and what is known about it are taken out before the others are read again. -/
def Blocklist.withoutSource (bl : Blocklist) (id : Text) : Blocklist :=
  { bl with
    sourceEntries := bl.sourceEntries.erase id
    disabledSources := bl.disabledSources.filter (· ≠ id) }

/-- From `blocklist.go:649-686`. -/
def Blocklist.removeSource (src : Sources) (bl : Blocklist) (id : Text) : Blocklist × Option BlocklistError :=
  if id ∈ bl.files then
    let bl := { bl.withoutSource id with files := bl.files.erase id }
    let r := loadEach (loadBlockFile src.file) bl.sourceEntries bl.files
    ({ bl with sourceEntries := r.1 }, r.2)
  else if id ∈ bl.urls then
    let bl := { bl.withoutSource id with urls := bl.urls.erase id }
    let r := loadEach (loadBlockURL src.url) bl.sourceEntries bl.urls
    ({ bl with sourceEntries := r.1 }, r.2)
  else (bl, some (.sourceNotFound id))

def pairs (m : SourceMap) : List (Text × Text) := m.entries.flatMap fun s => s.2.map fun domain => (s.1, domain)

/-- An enabled source names the domain or one above it. -/
def blockedBy (disabled : List Text) (ps : List (Text × Text)) (domain : Text) : Bool :=
  ps.any fun p => decide (p.1 ∉ disabled) && decide (p.2 ∈ domain :: Text.superdomains domain)

def Blocklist.isBlocked (bl : Blocklist) (domain : Text) : Bool :=
  bl.enabled && (blockedBy bl.disabledSources (pairs bl.sourceEntries) (normalizeDomain domain) ||
    decide (normalizeDomain domain ∈ bl.manualEntries))

/-! ## What a load leaves -/

section Pairs

variable {m : SourceMap} {p : Text × Text}

theorem mem_pairs : p ∈ pairs m ↔ ∃ ds, m.lookup p.1 = some ds ∧ p.2 ∈ ds := by
  rw [pairs, mem_flatMap]
  constructor
  · rintro ⟨s, hs, hp⟩
    obtain ⟨d, hd, rfl⟩ := mem_map.1 hp
    exact ⟨s.2, AList.mem_lookup_iff.2 hs, hd⟩
  · rintro ⟨ds, hlk, hd⟩
    exact ⟨⟨p.1, ds⟩, AList.mem_lookup_iff.1 hlk, mem_map.2 ⟨p.2, hd, rfl⟩⟩

theorem mem_pairs_insert {source : Text} {ds : List Text} :
    p ∈ pairs (m.insert source ds) ↔ (p.1 ≠ source ∧ p ∈ pairs m) ∨ (p.1 = source ∧ p.2 ∈ ds) := by
  obtain ⟨a, b⟩ := p
  rw [mem_pairs, mem_pairs]
  by_cases h : a = source
  · subst h
    simp [AList.lookup_insert]
  · simp [h, AList.lookup_insert_ne h]

theorem mem_pairs_erase {id : Text} : p ∈ pairs (m.erase id) ↔ p.1 ≠ id ∧ p ∈ pairs m := by
  obtain ⟨a, b⟩ := p
  rw [mem_pairs, mem_pairs]
  by_cases h : a = id
  · subst h
    simp [AList.lookup_erase]
  · simp [h, AList.lookup_erase_ne h]

theorem mem_pairs_addDomains {path : Text} : ∀ {ds : List Text} {m : SourceMap},
    p ∈ pairs (ds.foldl (addDomain path) m) ↔ p ∈ pairs m ∨ (p.1 = path ∧ p.2 ∈ ds)
  | [], m => by simp
  | d :: ds, m => by
    rw [foldl_cons, mem_pairs_addDomains, addDomain, mem_pairs_insert, mem_append, mem_singleton, mem_cons]
    obtain ⟨a, b⟩ := p
    by_cases h : a = path
    · subst h
      have hold : b ∈ (m.lookup a).getD [] ↔ (a, b) ∈ pairs m := by
        rw [mem_pairs]
        cases m.lookup a <;> simp
      simp only [ne_eq, not_true_eq_false, false_and, true_and, false_or, hold, or_assoc]
    · simp [h]

/-- The pairs that some files give, up to the first that fails and with its lines before the failure. -/
def filePairs (read : Text → Option Source) : List Text → List (Text × Text)
  | [] => []
  | path :: rest => match read path with
    | none => []
    | some source =>
      (domainsOf source).map (fun d => (path, d)) ++ if source.err then [] else filePairs read rest

/-- The URLs that are read to their ends before the first that fails. -/
def urlsRead (fetch : Text → Option Source) : List Text → List Text
  | [] => []
  | url :: rest => match (loadBlockURL fetch ∅ url).2 with
    | some _ => []
    | none => url :: urlsRead fetch rest

def urlPairs (fetch : Text → Option Source) (urls : List Text) : List (Text × Text) :=
  (urlsRead fetch urls).flatMap fun url => ((fetch url).elim [] domainsOf).map fun d => (url, d)

theorem mem_pairs_loadFiles (read : Text → Option Source) (p : Text × Text) : ∀ (files : List Text) (m : SourceMap),
    p ∈ pairs (loadEach (loadBlockFile read) m files).1 ↔ p ∈ pairs m ∨ p ∈ filePairs read files
  | [], m => by simp [loadEach, filePairs]
  | path :: rest, m => by
    rw [loadEach, filePairs, loadBlockFile]
    cases read path with
    | none => simp
    | some source =>
      have had : p ∈ (domainsOf source).map (fun d => (path, d)) ↔ p.1 = path ∧ p.2 ∈ domainsOf source := by
        rw [mem_map]
        constructor
        · rintro ⟨d, hd, rfl⟩
          exact ⟨rfl, hd⟩
        · rintro ⟨h, hd⟩
          exact ⟨p.2, hd, Prod.ext h.symm rfl⟩
      cases her : source.err with
      | true => simp only [her, if_true, append_nil, mem_pairs_addDomains, had]
      | false =>
        simp only [her, Bool.false_eq_true, if_false, mem_append, mem_pairs_loadFiles read p rest,
          mem_pairs_addDomains, had, or_assoc]

theorem mem_urlPairs (fetch : Text → Option Source) {urls : List Text} : p ∈ urlPairs fetch urls ↔
    p.1 ∈ urlsRead fetch urls ∧ p.2 ∈ (fetch p.1).elim [] domainsOf := by
  rw [urlPairs, mem_flatMap]
  constructor
  · rintro ⟨url, hu, hp⟩
    obtain ⟨d, hd, rfl⟩ := mem_map.1 hp
    exact ⟨hu, hd⟩
  · rintro ⟨hu, hd⟩
    exact ⟨p.1, hu, mem_map.2 ⟨p.2, hd, rfl⟩⟩

theorem loadBlockURL_cases (fetch : Text → Option Source) (m : SourceMap) (url : Text) :
    (∃ err, (loadBlockURL fetch ∅ url).2 = some err ∧ loadBlockURL fetch m url = (m, some err)) ∨
    (loadBlockURL fetch ∅ url).2 = none ∧
      loadBlockURL fetch m url = (m.insert url ((fetch url).elim [] domainsOf), none) := by
  unfold loadBlockURL
  cases fetch url with
  | none => exact .inl ⟨_, rfl, rfl⟩
  | some source =>
    dsimp only
    split_ifs
    · exact .inl ⟨_, rfl, rfl⟩
    · exact .inl ⟨_, rfl, rfl⟩
    · exact .inr ⟨rfl, rfl⟩

/-- The pairs left when some URLs are read on top of `ps`: an URL's domains replace those it had. -/
def replaceBy (fetch : Text → Option Source) (urls : List Text) (ps : List (Text × Text)) : List (Text × Text) :=
  ps.filter (fun p => decide (p.1 ∉ urlsRead fetch urls)) ++ urlPairs fetch urls

theorem mem_replaceBy (fetch : Text → Option Source) {urls : List Text} {ps : List (Text × Text)} :
    p ∈ replaceBy fetch urls ps ↔ (p ∈ ps ∧ p.1 ∉ urlsRead fetch urls) ∨ p ∈ urlPairs fetch urls := by
  rw [replaceBy, mem_append, mem_filter, decide_eq_true_eq]

theorem mem_pairs_loadURLs (fetch : Text → Option Source) (p : Text × Text) : ∀ (urls : List Text) (m : SourceMap),
    p ∈ pairs (loadEach (loadBlockURL fetch) m urls).1 ↔ p ∈ replaceBy fetch urls (pairs m)
  | [], m => by simp [loadEach, mem_replaceBy, mem_urlPairs, urlsRead]
  | url :: rest, m => by
    rw [loadEach, mem_replaceBy, mem_urlPairs, urlsRead]
    rcases loadBlockURL_cases fetch m url with ⟨err, her, hld⟩ | ⟨hok, hld⟩
    · simp [hld, her]
    have hrs := mem_pairs_loadURLs fetch p rest (m.insert url ((fetch url).elim [] domainsOf))
    rw [mem_replaceBy, mem_urlPairs, mem_pairs_insert] at hrs
    simp only [hld, hok, mem_cons, hrs]
    by_cases hu : p.1 = url
    · rw [hu]
      by_cases hmem : url ∈ urlsRead fetch rest <;> simp [hmem]
    · simp [hu]

theorem blockedBy_congr {disabled : List Text} {ps qs : List (Text × Text)} (h : ∀ p, p ∈ ps ↔ p ∈ qs) (domain : Text) :
    blockedBy disabled ps domain = blockedBy disabled qs domain := by
  rw [Bool.eq_iff_iff, blockedBy, blockedBy, any_eq_true, any_eq_true]
  simp [h]

end Pairs

/-- The calls that read sources; `Reload` is `load`. -/
inductive BlockCall where
  | load
  | addFile (path : Text)
  | removeSource (id : Text)

def BlockCall.run (src : Sources) (bl : Blocklist) : BlockCall → Blocklist × Option BlocklistError
  | .load => bl.load src
  | .addFile path => bl.addFile src path
  | .removeSource id => bl.removeSource src id

/-- What the sources, as far as the call reads them, and the tables it keeps say. -/
def BlockCall.left (src : Sources) (bl : Blocklist) : BlockCall → List (Text × Text)
  | .load => match (loadEach (loadBlockFile src.file) ∅ bl.files).2 with
    | some _ => filePairs src.file bl.files
    | none => replaceBy src.url bl.urls (filePairs src.file bl.files)
  | .addFile path => pairs bl.sourceEntries ++ filePairs src.file [path]
  | .removeSource id =>
    let others := (pairs bl.sourceEntries).filter fun p => decide (p.1 ≠ id)
    if id ∈ bl.files then others ++ filePairs src.file (bl.files.erase id)
    else if id ∈ bl.urls then replaceBy src.url (bl.urls.erase id) others
    else pairs bl.sourceEntries

/-- A source that is removed is not disabled any more. -/
def BlockCall.disabledLeft (bl : Blocklist) : BlockCall → List Text
  | .load => bl.disabledSources
  | .addFile _ => bl.disabledSources
  | .removeSource id =>
    if id ∈ bl.files ∨ id ∈ bl.urls then bl.disabledSources.filter (· ≠ id) else bl.disabledSources

section Failed

variable {src : Sources} {bl bl' : Blocklist} {err : BlocklistError}

/-- What a failed call leaves: its tables, and the rest of the blocklist as it was. -/
structure Leaves (bl bl' : Blocklist) (disabled : List Text) (left : List (Text × Text)) : Prop where
  enabled : bl'.enabled = bl.enabled
  manual : bl'.manualEntries = bl.manualEntries
  disabled : bl'.disabledSources = disabled
  pairs : ∀ p, p ∈ pairs bl'.sourceEntries ↔ p ∈ left

theorem Leaves.isBlocked {disabled : List Text} {left : List (Text × Text)} (h : Leaves bl bl' disabled left)
    (domain : Text) : bl'.isBlocked domain = (bl.enabled && (blockedBy disabled left (normalizeDomain domain) ||
        decide (normalizeDomain domain ∈ bl.manualEntries))) := by
  rw [Blocklist.isBlocked, h.enabled, h.manual, h.disabled, blockedBy_congr h.pairs]

theorem pairs_empty : pairs (∅ : SourceMap) = [] := rfl

theorem load_leaves (h : (bl.load src).2 = some err) :
    Leaves bl (bl.load src).1 bl.disabledSources (BlockCall.load.left src bl) := by
  unfold Blocklist.load at h ⊢
  split_ifs at h ⊢ with hon
  refine ⟨rfl, rfl, rfl, fun p => ?_⟩
  have hfl := mem_pairs_loadFiles src.file p bl.files ∅
  rw [pairs_empty, mem_nil_iff, false_or] at hfl
  rw [loadAll, BlockCall.left]
  rcases hld : loadEach (loadBlockFile src.file) ∅ bl.files with ⟨m, _ | e⟩
  · rw [hld] at hfl
    rw [mem_pairs_loadURLs, mem_replaceBy, mem_replaceBy, hfl]
  · rw [hld] at hfl
    exact hfl

theorem addFile_leaves {path : Text} (h : (bl.addFile src path).2 = some err) :
    Leaves bl (bl.addFile src path).1 bl.disabledSources ((BlockCall.addFile path).left src bl) := by
  have hfl : loadEach (loadBlockFile src.file) bl.sourceEntries [path] = loadBlockFile src.file bl.sourceEntries path := by
    rw [loadEach]
    rcases loadBlockFile src.file bl.sourceEntries path with ⟨m, _ | e⟩ <;> rfl
  unfold Blocklist.addFile at h ⊢
  rcases hld : loadBlockFile src.file bl.sourceEntries path with ⟨m, _ | e⟩
  · rw [hld] at h
    cases h
  refine ⟨rfl, rfl, rfl, fun p => ?_⟩
  have hp := mem_pairs_loadFiles src.file p [path] bl.sourceEntries
  rw [hfl, hld] at hp
  rw [BlockCall.left, mem_append]
  exact hp

theorem removeSource_leaves (id : Text) :
    Leaves bl (bl.removeSource src id).1 ((BlockCall.removeSource id).disabledLeft bl)
      ((BlockCall.removeSource id).left src bl) := by
  have hot : ∀ p, p ∈ pairs (bl.sourceEntries.erase id) ↔
      p ∈ (pairs bl.sourceEntries).filter fun p => decide (p.1 ≠ id) := by
    intro p
    rw [mem_pairs_erase, mem_filter, decide_eq_true_eq, and_comm]
  unfold Blocklist.removeSource BlockCall.left BlockCall.disabledLeft
  by_cases hfl : id ∈ bl.files
  · simp only [hfl, true_or, if_true]
    refine ⟨rfl, rfl, rfl, fun p => ?_⟩
    rw [mem_append, ← hot]
    exact mem_pairs_loadFiles src.file p _ _
  by_cases hu : id ∈ bl.urls
  · simp only [if_neg hfl, hu, or_true, if_true]
    refine ⟨rfl, rfl, rfl, fun p => ?_⟩
    have hp := mem_pairs_loadURLs src.url p (bl.urls.erase id) (bl.sourceEntries.erase id)
    rw [mem_replaceBy, hot] at hp
    rw [mem_replaceBy]
    exact hp
  · simp only [hfl, hu, or_self, if_false]
    exact ⟨rfl, rfl, rfl, fun p => Iff.rfl⟩

theorem BlockCall.leaves {c : BlockCall} (h : (c.run src bl).2 = some err) :
    Leaves bl (c.run src bl).1 (c.disabledLeft bl) (c.left src bl) := by
  cases c with
  | load => exact load_leaves h
  | addFile path => exact addFile_leaves h
  | removeSource id => exact removeSource_leaves id

theorem lower_domainOfLine {line d : Text} (h : domainOfLine line = some d) : d.lower = d := by
  unfold domainOfLine at h
  dsimp only at h
  split_ifs at h
  split at h <;> cases h <;> exact Text.lower_lower _

theorem lower_domainsOf {source : Source} {d : Text} (h : d ∈ domainsOf source) : d.lower = d := by
  obtain ⟨line, -, hd⟩ := mem_filterMap.1 h
  exact lower_domainOfLine hd

theorem lower_filePairs {read : Text → Option Source} : ∀ {files : List Text}, ∀ p ∈ filePairs read files, p.2.lower = p.2
  | path :: rest, p, hp => by
    rw [filePairs] at hp
    split at hp
    · cases hp
    rcases mem_append.1 hp with hp | hp
    · obtain ⟨d, hd, rfl⟩ := mem_map.1 hp
      exact lower_domainsOf hd
    · split_ifs at hp
      · cases hp
      · exact lower_filePairs p hp

theorem lower_replaceBy {fetch : Text → Option Source} {urls : List Text} {ps : List (Text × Text)}
    (h : ∀ p ∈ ps, p.2.lower = p.2) : ∀ p ∈ replaceBy fetch urls ps, p.2.lower = p.2 := by
  intro p hp
  rcases (mem_replaceBy fetch).1 hp with hp | hp
  · exact h p hp.1
  · have hd := ((mem_urlPairs fetch).1 hp).2
    cases hs : fetch p.1 with rw [hs] at hd
    | none => cases hd
    | some source => exact lower_domainsOf hd

theorem BlockCall.lower_left {c : BlockCall} (h : ∀ p ∈ pairs bl.sourceEntries, p.2.lower = p.2) :
    ∀ p ∈ c.left src bl, p.2.lower = p.2 := by
  have hot : ∀ id, ∀ p ∈ (pairs bl.sourceEntries).filter fun p => decide (p.1 ≠ id), p.2.lower = p.2 :=
    fun id p hp => h p (mem_filter.1 hp).1
  cases c with
  | load =>
    rw [BlockCall.left]
    cases (loadEach (loadBlockFile src.file) ∅ bl.files).2 with
    | some err => exact lower_filePairs
    | none => exact lower_replaceBy lower_filePairs
  | addFile path => exact fun p hp => (mem_append.1 hp).elim (h p) (lower_filePairs p)
  | removeSource id =>
    unfold BlockCall.left
    dsimp only
    split_ifs
    · exact fun p hp => (mem_append.1 hp).elim (hot id p) (lower_filePairs p)
    · exact lower_replaceBy (hot id)
    · exact h

end Failed

/-! ## Lists that block the same -/

/-- What an enabled source of `ps` lists is listed in `ps'` by an enabled source, itself or a domain above it. The
empty name has nothing below it and may be a manual entry instead. -/
def Covers (manual disabled disabled' : List Text) (ps ps' : List (Text × Text)) : Prop :=
  ∀ p ∈ ps, p.1 ∉ disabled → (p.2 = [] ∧ [] ∈ manual) ∨
    ∃ p' ∈ ps', p'.1 ∉ disabled' ∧ p'.2 ∈ p.2 :: Text.superdomains p.2

section Covers

variable {manual disabled disabled' : List Text} {ps ps' : List (Text × Text)}

def Listed (manual disabled : List Text) (ps : List (Text × Text)) (d : Text) : Prop :=
  (∃ p ∈ ps, p.1 ∉ disabled ∧ p.2 ∈ d :: Text.superdomains d) ∨ d ∈ manual

theorem listed_iff {d : Text} : Listed manual disabled ps d ↔ (blockedBy disabled ps d || decide (d ∈ manual)) = true := by
  simp only [Listed, blockedBy, Bool.or_eq_true, any_eq_true, Bool.and_eq_true, decide_eq_true_eq]

theorem mem_superdomains_trans {a b d : Text} (hab : a ∈ b :: Text.superdomains b) (hbd : b ∈ d :: Text.superdomains d) :
    a ∈ d :: Text.superdomains d := by
  rcases mem_cons.1 hab with rfl | hab
  · exact hbd
  rcases mem_cons.1 hbd with rfl | hbd
  · exact mem_cons_of_mem _ hab
  · exact mem_cons_of_mem _ (Text.mem_superdomains.2 ((Text.mem_superdomains.1 hab).trans (Text.mem_superdomains.1 hbd)))

theorem Covers.listed (h : Covers manual disabled disabled' ps ps') {d : Text} (hd : Listed manual disabled ps d) :
    Listed manual disabled' ps' d := by
  rcases hd with ⟨p, hp, hen, hpd⟩ | hd
  · rcases h p hp hen with ⟨hnil, hm⟩ | ⟨p', hp', hen', hpp⟩
    · rw [hnil] at hpd
      rcases mem_cons.1 hpd with rfl | hpd
      · exact .inr hm
      · exact absurd rfl (Text.mem_superdomains.1 hpd).1
    · exact .inl ⟨p', hp', hen', mem_superdomains_trans hpp hpd⟩
  · exact .inr hd

theorem exists_longer (ts : List Text) : ∃ n, ∀ t ∈ ts, t.length < n := by
  induction ts with
  | nil => exact ⟨0, nofun⟩
  | cons t ts ih =>
    obtain ⟨n, hn⟩ := ih
    refine ⟨max n (t.length + 1), forall_mem_cons.2 ⟨by omega, fun s hs => ?_⟩⟩
    have := hn s hs
    omega

theorem superdomains_label {p : Text} (hp : p ≠ []) : ∀ n : Nat,
    Text.superdomains (replicate n 'a' ++ '.' :: p) = p :: Text.superdomains p
  | 0 => by simp [Text.superdomains, hp]
  | n + 1 => by
    rw [replicate_succ, cons_append, Text.superdomains, if_neg (by simp), superdomains_label hp n]

/-- Every name in lower case is what some argument is normalised to. -/
theorem normalizeDomain_dotted {d : Text} (h : d.lower = d) : normalizeDomain (d ++ ['.']) = d := by
  rw [normalizeDomain, Text.trimDot, if_pos (by simp), dropLast_concat, h]

/-- A name just below a listed one, by a label too long to be listed itself, shows whether that one is covered. -/
theorem covers_of_listed (hlow : ∀ p ∈ ps, p.2.lower = p.2)
    (h : ∀ domain, Listed manual disabled ps (normalizeDomain domain) → Listed manual disabled' ps' (normalizeDomain domain)) :
    Covers manual disabled disabled' ps ps' := by
  intro p hp hen
  by_cases hnil : p.2 = []
  · have hl := h [] (.inl ⟨p, hp, hen, by rw [hnil]; exact mem_cons_self⟩)
    rcases hl with ⟨p', hp', hen', hpd⟩ | hm
    · exact .inr ⟨p', hp', hen', by rw [hnil]; exact hpd⟩
    · exact .inl ⟨hnil, hm⟩
  obtain ⟨n, hn⟩ := exists_longer (ps'.map Prod.snd ++ manual)
  have hlw : Text.lower (replicate n 'a' ++ '.' :: p.2) = replicate n 'a' ++ '.' :: p.2 := by
    have hc : Text.lower ('.' :: p.2) = '.' :: p.2 := congrArg (cons '.') (hlow p hp)
    rw [Text.lower_append, hc, Text.lower, map_replicate]
    rfl
  have hlong : n ≤ (replicate n 'a' ++ '.' :: p.2).length := by simp
  have hl := h (replicate n 'a' ++ '.' :: p.2 ++ ['.'])
  rw [normalizeDomain_dotted hlw] at hl
  rcases hl (.inl ⟨p, hp, hen, by simp [superdomains_label hnil]⟩) with ⟨p', hp', hen', hpd⟩ | hm
  · refine .inr ⟨p', hp', hen', ?_⟩
    rw [superdomains_label hnil] at hpd
    refine (mem_cons.1 hpd).resolve_left fun heq => ?_
    have := hn p'.2 (mem_append_left _ (mem_map_of_mem hp'))
    rw [heq] at this
    omega
  · have := hn _ (mem_append_right _ hm)
    omega

end Covers

/-! ## A failed load of the policy zones -/

/-- The rules the files give up to the first that fails, with its lines before the failure. -/
def rulesRead (policies : Text → Option Int) (read : Text → Option Source) : List Text → List Rule
  | [] => []
  | file :: rest => match read file with
    | none => []
    | some source =>
      source.lines.filterMap (ruleOfLine policies file) ++ if source.err then [] else rulesRead policies read rest

theorem loadFiles_tables {Net : Type} (parseCIDR : Text → Option Net) (policies : Text → Option Int)
    (read : Text → Option Source) : ∀ (files : List Text) (t : Tables Net),
    (loadFiles parseCIDR policies read t files).1 = (rulesRead policies read files).foldl (addRule parseCIDR) t
  | [], _ => rfl
  | file :: rest, t => by
    rw [loadFiles, rulesRead]
    cases read file with
    | none => rfl
    | some source =>
      cases her : source.err with
      | true => simp only [her, if_true, append_nil, loadFile_eq]
      | false => simp [her, loadFiles_tables parseCIDR policies read rest, loadFile_eq]

/-- The engine with the rules that its files give up to the first failure. -/
def Engine.reread {Net : Type} (parseCIDR : Text → Option Net) (read : Text → Option Source) (e : Engine Net) :
    Engine Net :=
  { e with tables := buildTables parseCIDR (rulesRead e.policies read e.files) }

theorem load_failed {Net : Type} {parseCIDR : Text → Option Net} {read : Text → Option Source} {e : Engine Net}
    {err : LoadError} (h : (e.load parseCIDR read).2 = some err) : (e.load parseCIDR read).1 = e.reread parseCIDR read := by
  unfold Engine.load at h ⊢
  split_ifs at h ⊢
  simp only [loadFiles_tables]
  rfl

section Rules

variable {Net IP : Type} (parseCIDR : Text → Option Net) (contains : Net → IP → Bool)

/-- Under every name the table has the best of the rules for it, and of the rules for an address the best one is the
best of those in the table. -/
structure SameBest (t : Tables Net) (rules : List Rule) : Prop where
  names : ∀ k, t.qnameRules.lookup k = Least.least Rule.priority (rules.filter (Keyed k))
  clients : ∀ ip, Least.least Rule.priority (hits contains t.client ip) =
    Least.least Rule.priority (hits contains (rules.filterMap (netOf parseCIDR .clientIP .clientIP)) ip)
  responses : ∀ ip, Least.least Rule.priority (hits contains t.resp ip) =
    Least.least Rule.priority (hits contains (rules.filterMap (netOf parseCIDR .responseIP .nsip)) ip)

/-- A rule stands under the name it is for. -/
def KeyedTable (t : Tables Net) : Prop := ∀ k r, t.qnameRules.lookup k = some r → r.pattern.lower = k

variable {parseCIDR contains} {t t' : Tables Net} {rules : List Rule}

theorem keyedTable_buildTables : KeyedTable (buildTables parseCIDR rules) := by
  intro k r h
  rw [lookup_tables] at h
  have hk := (mem_filter.1 (Least.least_eq_some h).1).2
  simp only [Keyed, decide_eq_true_eq] at hk
  exact hk.2

theorem lookup_of_findSome (ht : KeyedTable t) (ht' : KeyedTable t')
    (h : ∀ qname : Text, (candidates qname.trimDot.lower).findSome? t.qnameRules.lookup =
      (candidates qname.trimDot.lower).findSome? t'.qnameRules.lookup) {k : Text} {r : Rule}
    (hk : t.qnameRules.lookup k = some r) : t'.qnameRules.lookup k = some r := by
  have hkr := ht k r hk
  have hlow : k.lower = k := by rw [← hkr, Text.lower_lower]
  have hn := h (k ++ ['.'])
  rw [show (k ++ ['.'] : Text).trimDot.lower = k from normalizeDomain_dotted hlow] at hn
  have hfd : (candidates k).findSome? t.qnameRules.lookup = some r := by rw [candidates, findSome?_cons, hk]
  obtain ⟨c, -, hc⟩ := exists_of_findSome?_eq_some (hn.symm.trans hfd)
  rwa [← hkr, ← ht' c r hc] at *

theorem findSome_iff (ht : KeyedTable t) (ht' : KeyedTable t') :
    (∀ qname : Text, (candidates qname.trimDot.lower).findSome? t.qnameRules.lookup =
      (candidates qname.trimDot.lower).findSome? t'.qnameRules.lookup) ↔
    ∀ k, t.qnameRules.lookup k = t'.qnameRules.lookup k := by
  constructor
  · intro h k
    refine Option.ext fun r => ⟨lookup_of_findSome ht ht' h, lookup_of_findSome ht' ht fun q => (h q).symm⟩
  · intro h qname
    rw [show t.qnameRules.lookup = t'.qnameRules.lookup from funext h]

theorem scanNets_none (nets : List (Net × Rule)) (ip : IP) :
    scanNets contains nets none ip = Least.least Rule.priority (hits contains nets ip) := scanNets_eq contains ip nets none

theorem foldl_scanNets_iff {nets nets' : List (Net × Rule)} :
    (∀ ips : List IP, ips.foldl (scanNets contains nets) none = ips.foldl (scanNets contains nets') none) ↔
    ∀ ip, Least.least Rule.priority (hits contains nets ip) = Least.least Rule.priority (hits contains nets' ip) := by
  constructor
  · intro h ip
    rw [← scanNets_none, ← scanNets_none]
    exact h [ip]
  · intro h ips
    have hsc : scanNets contains nets = scanNets contains nets' := by
      funext best ip
      rw [scanNets_eq, scanNets_eq, Least.foldl_pick, Least.foldl_pick, h]
    rw [hsc]

end Rules

def oneDomain : Blocklist where
  enabled := true
  files := ["/a".toList, "/b".toList]
  urls := []
  sourceEntries := (∅ : SourceMap).insert "/a".toList ["ads.e".toList]
  disabledSources := []
  manualEntries := []

def brokenSources : Sources where
  file path := if path = "/b".toList then some { lines := ["0.0.0.0 x.e".toList], err := true } else none
  url _ := none

end NothingDNS.Policy
