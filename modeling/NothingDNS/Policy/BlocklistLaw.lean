import NothingDNS.Lib.Run
import NothingDNS.Policy.Blocklist
/-!
# What the blocklist decides (`internal/blocklist/blocklist.go`)

The law is stated against a history: the domains added by hand and not removed since, and what the last reading of
each source gave (`Tracked`). A domain added by hand blocks itself and not what is below it
(`added_domain_not_above`). All calls but `Reload` read a file again without clearing its table. `RemoveFile` with an
URL forgets the URL's table and keeps the URL. And the root is never compared with.
-/

namespace NothingDNS.Policy

open List Blocklist

def Blocklist.new (enabled : Bool) (files urls : List Text) : Blocklist := ⟨enabled, files, urls, ∅, [], []⟩

/-- All entries of the path are removed, and the other files are read again. -/
def Blocklist.removeFile (src : Sources) (bl : Blocklist) (path : Text) : Blocklist × Option BlocklistError :=
  let bl := { bl.withoutSource path with files := bl.files.filter (· ≠ path) }
  let r := loadEach (loadBlockFile src.file) bl.sourceEntries bl.files
  ({ bl with sourceEntries := r.1 }, r.2)

/-- From `blocklist.go:620-646`. -/
def Blocklist.toggleSource (bl : Blocklist) (id : Text) : Blocklist × Option BlocklistError :=
  if id ∈ bl.files ∨ id ∈ bl.urls then
    ({ bl with
        disabledSources := if id ∈ bl.disabledSources then bl.disabledSources.filter (· ≠ id)
          else id :: bl.disabledSources }, none)
  else (bl, some (.sourceNotFound id))

def Blocklist.addDomain (bl : Blocklist) (domain : Text) : Blocklist :=
  { bl with manualEntries := normalizeDomain domain :: bl.manualEntries }

def Blocklist.removeDomain (bl : Blocklist) (domain : Text) : Blocklist :=
  { bl with manualEntries := bl.manualEntries.filter (· ≠ normalizeDomain domain) }

/-- The sources that are present, each with whether it is enabled. -/
def Blocklist.getSources (bl : Blocklist) : List (Text × Bool) :=
  (bl.files ++ bl.urls).map fun s => (s, decide (s ∉ bl.disabledSources))

inductive ListCall where
  | addFile (path : Text)
  | removeFile (path : Text)
  | toggleSource (id : Text)
  | removeSource (id : Text)
  | addDomain (domain : Text)
  | removeDomain (domain : Text)
  | reload

def ListCall.run (src : Sources) (bl : Blocklist) : ListCall → Blocklist × Option BlocklistError
  | .addFile path => bl.addFile src path
  | .removeFile path => bl.removeFile src path
  | .toggleSource id => bl.toggleSource id
  | .removeSource id => bl.removeSource src id
  | .addDomain domain => (bl.addDomain domain, none)
  | .removeDomain domain => (bl.removeDomain domain, none)
  | .reload => bl.load src

def ListCall.filesRead (bl : Blocklist) : ListCall → List Text
  | .addFile path => [path]
  | .removeFile path => bl.files.filter (· ≠ path)
  | .removeSource id => if id ∈ bl.files then bl.files.erase id else []
  | .reload => bl.files
  | _ => []

def ListCall.urlsRead (bl : Blocklist) : ListCall → List Text
  | .removeSource id => if id ∈ bl.files then [] else bl.urls.erase id
  | .reload => bl.urls
  | _ => []

def Sources.fileDomains (src : Sources) (path : Text) : List Text := (src.file path).elim [] domainsOf
def Sources.urlDomains (src : Sources) (url : Text) : List Text := (src.url url).elim [] domainsOf

/-- The blocklist and the domains in the content last read from each source. -/
structure Tracked where
  bl : Blocklist
  lastRead : Text → List Text

def ListCall.noteRead (src : Sources) (t : Tracked) (c : ListCall) (s : Text) : List Text :=
  if s ∈ c.urlsRead t.bl then src.urlDomains s
  else if s ∈ c.filesRead t.bl then src.fileDomains s
  else t.lastRead s

def listStep (t : Tracked) (e : Sources × ListCall) : Option Tracked :=
  match e.2.run e.1 t.bl with
  | (bl, none) => some ⟨bl, e.2.noteRead e.1 t⟩
  | (_, some _) => none

def Added (calls : List ListCall) (domain : Text) : Prop :=
  ∃ before d after, calls = before ++ .addDomain d :: after ∧ normalizeDomain d = domain ∧
    ∀ d', ListCall.removeDomain d' ∈ after → normalizeDomain d' ≠ domain

/-- `a` is the domain, one of the names above it, or the root. -/
def OrAbove (a domain : Text) : Prop := a = domain ∨ Text.Under a domain ∨ a = []

instance (a domain : Text) : Decidable (OrAbove a domain) := inferInstanceAs (Decidable (_ ∨ _))

/-- A file that is read on top of its table still has the domains it had, and no source is known both as
a file and as an URL when it is removed. -/
def ListCall.Fits (src : Sources) (t : Tracked) : ListCall → Prop
  | .addFile path => path ∈ t.bl.files ++ t.bl.urls → ∀ d ∈ t.lastRead path, d ∈ src.fileDomains path
  | .removeFile path => path ∉ t.bl.urls ∧ ∀ f ∈ t.bl.files, f ≠ path → ∀ d ∈ t.lastRead f, d ∈ src.fileDomains f
  | .removeSource id => id ∈ t.bl.files → id ∉ t.bl.urls ∧
      ∀ f ∈ t.bl.files, f ≠ id → ∀ d ∈ t.lastRead f, d ∈ src.fileDomains f
  | _ => True

/-! ## What a successful reading gives -/

section Reading

variable {read : Text → Option Source} {p : Text × Text}

theorem mem_filePairs_of_ok : ∀ {files : List Text} {m : SourceMap}, (loadEach (loadBlockFile read) m files).2 = none →
    (p ∈ filePairs read files ↔ p.1 ∈ files ∧ p.2 ∈ (read p.1).elim [] domainsOf)
  | [], _, _ => by simp [filePairs]
  | path :: rest, m, h => by
    rw [loadEach, loadBlockFile] at h
    rw [filePairs]
    cases hrd : read path with
    | none => simp [hrd] at h
    | some source =>
      cases her : source.err with
      | true => simp [hrd, her] at h
      | false =>
        simp only [hrd, her, Bool.false_eq_true, if_false] at h
        have hpt : p ∈ (domainsOf source).map (fun d => (path, d)) ↔ p.1 = path ∧ p.2 ∈ (read p.1).elim [] domainsOf := by
          rw [mem_map]
          constructor
          · rintro ⟨d, hd, rfl⟩
            exact ⟨rfl, by simpa [hrd] using hd⟩
          · rintro ⟨hp, hd⟩
            rw [hp, hrd] at hd
            exact ⟨p.2, hd, Prod.ext hp.symm rfl⟩
        simp only [her, Bool.false_eq_true, if_false]
        rw [mem_append, hpt, mem_filePairs_of_ok h, mem_cons, or_and_right]

theorem urlsRead_of_ok {fetch : Text → Option Source} : ∀ {urls : List Text} {m : SourceMap},
    (loadEach (loadBlockURL fetch) m urls).2 = none → urlsRead fetch urls = urls
  | [], _, _ => rfl
  | url :: rest, m, h => by
    rw [loadEach] at h
    rw [urlsRead]
    rcases loadBlockURL_cases fetch m url with ⟨err, -, hld⟩ | ⟨hok, hld⟩
    · simp [hld] at h
    · rw [hld] at h
      rw [hok]
      exact congrArg _ (urlsRead_of_ok h)

variable {m : SourceMap}

theorem mem_pairs_files_of_ok {files : List Text} (h : (loadEach (loadBlockFile read) m files).2 = none) :
    p ∈ pairs (loadEach (loadBlockFile read) m files).1 ↔
      p ∈ pairs m ∨ p.1 ∈ files ∧ p.2 ∈ (read p.1).elim [] domainsOf := by
  rw [mem_pairs_loadFiles, mem_filePairs_of_ok h]

theorem mem_pairs_urls_of_ok {urls : List Text} (h : (loadEach (loadBlockURL read) m urls).2 = none) :
    p ∈ pairs (loadEach (loadBlockURL read) m urls).1 ↔
      p ∈ pairs m ∧ p.1 ∉ urls ∨ p.1 ∈ urls ∧ p.2 ∈ (read p.1).elim [] domainsOf := by
  rw [mem_pairs_loadURLs, mem_replaceBy, mem_urlPairs, urlsRead_of_ok h]

end Reading

/-! ## The tables hold what was read last -/

/-- The tables hold the last content of every source that is present, and nothing else. -/
structure Tracked.Inv (t : Tracked) : Prop where
  enabled : t.bl.enabled = true
  tables : ∀ p, p ∈ pairs t.bl.sourceEntries ↔ (p.1 ∈ t.bl.files ∨ p.1 ∈ t.bl.urls) ∧ p.2 ∈ t.lastRead p.1

section Steps

variable {src : Sources} {t : Tracked}

variable {files : List Text}

theorem tables_of_files {m : SourceMap} {urls : List Text} {old new : Text → List Text}
    (hok : (loadEach (loadBlockFile src.file) m files).2 = none) (hm : ∀ p, p ∈ pairs m → p.1 ∈ files ∨ p.1 ∈ urls)
    (hfl : ∀ p, p ∈ pairs m → p.1 ∈ files → p.2 ∈ src.fileDomains p.1)
    (hur : ∀ p, p.1 ∉ files → p.1 ∈ urls → (p ∈ pairs m ↔ p.2 ∈ old p.1))
    (hnw : ∀ s, new s = if s ∈ files then src.fileDomains s else old s) (p : Text × Text) :
    p ∈ pairs (loadEach (loadBlockFile src.file) m files).1 ↔ (p.1 ∈ files ∨ p.1 ∈ urls) ∧ p.2 ∈ new p.1 := by
  rw [mem_pairs_files_of_ok hok, hnw]
  by_cases hf : p.1 ∈ files
  · rw [if_pos hf]
    constructor
    · rintro (hold | ⟨-, hd⟩)
      · exact ⟨.inl hf, hfl p hold hf⟩
      · exact ⟨.inl hf, hd⟩
    · exact fun h => .inr ⟨hf, h.2⟩
  rw [if_neg hf]
  constructor
  · rintro (hold | ⟨h, -⟩)
    · have hu := (hm p hold).resolve_left hf
      exact ⟨.inr hu, (hur p hf hu).1 hold⟩
    · exact absurd h hf
  · rintro ⟨hin, hd⟩
    exact .inl ((hur p hf (hin.resolve_left hf)).2 hd)

variable {path : Text}

theorem addFile_inv (h : t.Inv) (hft : (ListCall.addFile path).Fits src t) (hok : (t.bl.addFile src path).2 = none) :
    Tracked.Inv ⟨(t.bl.addFile src path).1, (ListCall.addFile path).noteRead src t⟩ := by
  unfold addFile at hok ⊢
  rcases hfl : loadBlockFile src.file t.bl.sourceEntries path with ⟨m, _ | e⟩
  swap
  · rw [hfl] at hok
    cases hok
  have hld : loadEach (loadBlockFile src.file) t.bl.sourceEntries [path] = (m, none) := by
    rw [loadEach, hfl]
    rfl
  refine ⟨h.enabled, fun p => ?_⟩
  have htb : p ∈ pairs (loadEach (loadBlockFile src.file) t.bl.sourceEntries [path]).1 ↔
      (p.1 ∈ [path] ∨ p.1 ∈ t.bl.files ++ t.bl.urls) ∧
        p.2 ∈ if p.1 ∈ [path] then src.fileDomains p.1 else t.lastRead p.1 := by
    refine tables_of_files (congrArg Prod.snd hld) ?_ ?_ ?_ (fun _ => rfl) p
    · intro p hp
      exact .inr (mem_append.2 ((h.tables p).1 hp).1)
    · intro p hp hpt
      obtain ⟨hin, hd⟩ := (h.tables p).1 hp
      obtain rfl := mem_singleton.1 hpt
      exact hft (mem_append.2 hin) p.2 hd
    · intro p _ hin
      rw [h.tables, and_iff_right (mem_append.1 hin)]
  rw [hld] at htb
  refine htb.trans (and_congr_left' ?_)
  simp only [mem_append, mem_singleton]
  tauto

variable {id : Text}

theorem reread_tables (h : t.Inv) (hid : id ∉ t.bl.urls)
    (hfl : ∀ f ∈ files, f ∈ t.bl.files) (hkp : ∀ f ∈ t.bl.files, f ≠ id → f ∈ files)
    (hft : ∀ f ∈ t.bl.files, f ≠ id → ∀ d ∈ t.lastRead f, d ∈ src.fileDomains f)
    (hok : (loadEach (loadBlockFile src.file) (t.bl.sourceEntries.erase id) files).2 = none) (p : Text × Text) :
    p ∈ pairs (loadEach (loadBlockFile src.file) (t.bl.sourceEntries.erase id) files).1 ↔
      (p.1 ∈ files ∨ p.1 ∈ t.bl.urls) ∧ p.2 ∈ if p.1 ∈ files then src.fileDomains p.1 else t.lastRead p.1 := by
  refine tables_of_files hok ?_ ?_ ?_ (fun _ => rfl) p
  · intro p hp
    obtain ⟨hne, hp⟩ := mem_pairs_erase.1 hp
    exact ((h.tables p).1 hp).1.imp_left fun hf => hkp _ hf hne
  · intro p hp hf
    obtain ⟨hne, hp⟩ := mem_pairs_erase.1 hp
    exact hft _ (hfl _ hf) hne _ ((h.tables p).1 hp).2
  · intro p hf hu
    have hne : p.1 ≠ id := fun he => hid (he ▸ hu)
    rw [mem_pairs_erase, h.tables]
    exact ⟨fun hp => hp.2.2, fun hd => ⟨hne, .inr hu, hd⟩⟩

theorem removeFile_inv (h : t.Inv) (hft : (ListCall.removeFile path).Fits src t)
    (hok : (t.bl.removeFile src path).2 = none) :
    Tracked.Inv ⟨(t.bl.removeFile src path).1, (ListCall.removeFile path).noteRead src t⟩ := by
  refine ⟨h.enabled, fun p => ?_⟩
  refine reread_tables h hft.1 (fun f hf => (mem_filter.1 hf).1) (fun f hf hne => ?_) hft.2 hok p
  rw [mem_filter]
  exact ⟨hf, decide_eq_true hne⟩

theorem removeSource_file_inv (h : t.Inv) (hid : id ∈ t.bl.files)
    (hft : (ListCall.removeSource id).Fits src t) (hok : (t.bl.removeSource src id).2 = none) :
    Tracked.Inv ⟨(t.bl.removeSource src id).1, (ListCall.removeSource id).noteRead src t⟩ := by
  simp only [removeSource, if_pos hid] at hok ⊢
  refine ⟨h.enabled, fun p => ?_⟩
  simp only [ListCall.noteRead, ListCall.urlsRead, ListCall.filesRead, if_pos hid, not_mem_nil, if_false]
  refine reread_tables h (hft hid).1 (fun f => mem_of_mem_erase) (fun f hf hne => ?_) (hft hid).2 hok p
  rwa [mem_erase_of_ne hne]

theorem removeSource_url_inv (h : t.Inv) (hid : id ∉ t.bl.files) (hok : (t.bl.removeSource src id).2 = none) :
    Tracked.Inv ⟨(t.bl.removeSource src id).1, (ListCall.removeSource id).noteRead src t⟩ := by
  simp only [removeSource, if_neg hid] at hok ⊢
  split_ifs at hok ⊢ with hu
  refine ⟨h.enabled, fun p => ?_⟩
  simp only [ListCall.noteRead, ListCall.urlsRead, ListCall.filesRead, if_neg hid, not_mem_nil, if_false]
  refine (mem_pairs_urls_of_ok hok).trans ?_
  simp only [withoutSource]
  by_cases hp : p.1 ∈ t.bl.urls.erase id
  · rw [if_pos hp]
    constructor
    · rintro (⟨-, h'⟩ | ⟨-, hd⟩)
      · exact absurd hp h'
      · exact ⟨.inr hp, hd⟩
    · exact fun hd => .inr ⟨hp, hd.2⟩
  rw [if_neg hp, mem_pairs_erase, h.tables]
  constructor
  · rintro (⟨⟨hne, hin, hd⟩, -⟩ | ⟨h', -⟩)
    · exact ⟨hin.imp_right (mem_erase_of_ne hne).2, hd⟩
    · exact absurd h' hp
  · rintro ⟨hin, hd⟩
    have hf := hin.resolve_right hp
    exact .inl ⟨⟨fun he => hid (he ▸ hf), .inl hf, hd⟩, hp⟩

theorem reload_inv (h : t.Inv) (hok : (t.bl.load src).2 = none) :
    Tracked.Inv ⟨(t.bl.load src).1, ListCall.reload.noteRead src t⟩ := by
  simp only [load, h.enabled, if_true] at hok ⊢
  refine ⟨rfl, fun p => ?_⟩
  simp only [ListCall.noteRead, ListCall.urlsRead, ListCall.filesRead]
  have hfl := mem_pairs_loadFiles src.file p t.bl.files ∅
  rw [pairs_empty, mem_nil_iff, false_or] at hfl
  rw [loadAll] at hok ⊢
  rcases hld : loadEach (loadBlockFile src.file) ∅ t.bl.files with ⟨m, _ | e⟩
  · rw [hld] at hok hfl
    rw [mem_filePairs_of_ok (congrArg Prod.snd hld)] at hfl
    refine (mem_pairs_urls_of_ok hok).trans ?_
    rw [hfl]
    by_cases hu : p.1 ∈ t.bl.urls
    · simp [hu, Sources.urlDomains]
    · by_cases hf : p.1 ∈ t.bl.files
      · simp [hu, hf, Sources.fileDomains]
      · simp [hu, hf]
  · rw [hld] at hok
    cases hok

theorem toggleSource_inv (h : t.Inv) (hok : (t.bl.toggleSource id).2 = none) :
    Tracked.Inv ⟨(t.bl.toggleSource id).1, (ListCall.toggleSource id).noteRead src t⟩ := by
  unfold toggleSource at hok ⊢
  by_cases hid : id ∈ t.bl.files ∨ id ∈ t.bl.urls
  · rw [if_pos hid]
    exact ⟨h.enabled, h.tables⟩
  · rw [if_neg hid] at hok
    cases hok

theorem listStep_cases {t' : Tracked} {e : Sources × ListCall} (hst : listStep t e = some t') :
    (e.2.run e.1 t.bl).2 = none ∧ t' = ⟨(e.2.run e.1 t.bl).1, e.2.noteRead e.1 t⟩ := by
  unfold listStep at hst
  split at hst
  next bl hrn =>
    cases hst
    rw [hrn]
    exact ⟨rfl, rfl⟩
  next => cases hst

theorem listStep_inv (t : Tracked) (e : Sources × ListCall) (t' : Tracked) (h : t.Inv) (hft : e.2.Fits e.1 t)
    (hst : listStep t e = some t') : t'.Inv := by
  obtain ⟨src, c⟩ := e
  obtain ⟨hok, rfl⟩ := listStep_cases hst
  cases c with
  | addFile path => exact addFile_inv h hft hok
  | removeFile path => exact removeFile_inv h hft hok
  | toggleSource id => exact toggleSource_inv h hok
  | removeSource id =>
    by_cases hid : id ∈ t.bl.files
    · exact removeSource_file_inv h hid hft hok
    · exact removeSource_url_inv h hid hok
  | addDomain | removeDomain => exact ⟨h.enabled, h.tables⟩
  | reload => exact reload_inv h hok

end Steps

/-! ## The domains added by hand -/

section Manual

variable {a : Text}

theorem Added.nil : ¬Added [] a := by
  rintro ⟨before, d, after, h, -⟩
  simp at h

theorem added_cons {c : ListCall} {calls : List ListCall} : Added (c :: calls) a ↔
    Added calls a ∨ (∃ d, c = .addDomain d ∧ normalizeDomain d = a) ∧
      ∀ d', ListCall.removeDomain d' ∈ calls → normalizeDomain d' ≠ a := by
  constructor
  · rintro ⟨before, d, after, h, hd, hkp⟩
    cases before with
    | nil =>
      cases h
      exact .inr ⟨⟨d, rfl, hd⟩, hkp⟩
    | cons b before =>
      have h := (cons.inj h).2
      exact .inl ⟨before, d, after, h, hd, hkp⟩
  · rintro (⟨before, d, after, rfl, hd, hkp⟩ | ⟨⟨d, rfl, hd⟩, hkp⟩)
    · exact ⟨c :: before, d, after, rfl, hd, hkp⟩
    · exact ⟨[], d, calls, rfl, hd, hkp⟩

theorem listStep_manual {t t' : Tracked} {e : Sources × ListCall} (hst : listStep t e = some t') :
    a ∈ t'.bl.manualEntries ↔ (∃ d, e.2 = .addDomain d ∧ normalizeDomain d = a) ∨
      a ∈ t.bl.manualEntries ∧ ∀ d, e.2 = .removeDomain d → normalizeDomain d ≠ a := by
  obtain ⟨src, c⟩ := e
  obtain ⟨-, rfl⟩ := listStep_cases hst
  cases c with
  | addDomain domain =>
    simp only [ListCall.run, Blocklist.addDomain, mem_cons, ListCall.addDomain.injEq, exists_eq_left',
      reduceCtorEq, false_imp_iff, implies_true, and_true, eq_comm]
  | removeDomain domain =>
    simp only [ListCall.run, Blocklist.removeDomain, mem_filter, decide_eq_true_eq, reduceCtorEq, false_and,
      exists_false, false_or, ListCall.removeDomain.injEq, forall_eq', ne_comm]
  | addFile path =>
    have hkp : (t.bl.addFile src path).1.manualEntries = t.bl.manualEntries := by
      unfold Blocklist.addFile
      rcases loadBlockFile src.file t.bl.sourceEntries path with ⟨m, _ | e⟩ <;> rfl
    simp [ListCall.run, hkp]
  | removeFile path => simp [ListCall.run, Blocklist.removeFile, Blocklist.withoutSource]
  | toggleSource id =>
    have hkp : (t.bl.toggleSource id).1.manualEntries = t.bl.manualEntries := by
      unfold Blocklist.toggleSource
      split <;> rfl
    simp [ListCall.run, hkp]
  | removeSource id => simp [ListCall.run, (removeSource_leaves id).manual]
  | reload =>
    have hkp : (t.bl.load src).1.manualEntries = t.bl.manualEntries := by
      unfold Blocklist.load
      split <;> rfl
    simp [ListCall.run, hkp]

theorem mem_manualEntries : ∀ {events : List (Sources × ListCall)} {t t' : Tracked},
    Run.exec listStep t events = some t' → (a ∈ t'.bl.manualEntries ↔ Added (events.map Prod.snd) a ∨
        a ∈ t.bl.manualEntries ∧ ∀ d, ListCall.removeDomain d ∈ events.map Prod.snd → normalizeDomain d ≠ a)
  | [], t, t', h => by
    cases h
    simp [Added.nil]
  | e :: events, t, t', h => by
    obtain ⟨t1, hst, hrs⟩ := Run.exec_cons h
    rw [mem_manualEntries hrs, listStep_manual hst, map_cons, added_cons, or_assoc]
    refine or_congr_right ?_
    simp only [mem_cons, or_imp, forall_and, or_and_right, and_assoc, eq_comm]

end Manual

def Tracked.new (files urls : List Text) : Tracked := ⟨.new true files urls, fun _ => []⟩

theorem Tracked.new_inv (files urls : List Text) : (Tracked.new files urls).Inv :=
  ⟨rfl, fun p => by simp [Tracked.new, Blocklist.new, pairs_empty]⟩

theorem mem_getSources {bl : Blocklist} {s : Text} :
    (s, true) ∈ bl.getSources ↔ (s ∈ bl.files ∨ s ∈ bl.urls) ∧ s ∉ bl.disabledSources := by
  simp [getSources, or_and_right]

variable {domain : Text}

theorem orAbove_iff {a : Text} (hrt : a = [] → domain = []) :
    OrAbove a domain ↔ a ∈ domain :: Text.superdomains domain := by
  rw [mem_cons, Text.mem_superdomains, OrAbove]
  constructor
  · rintro (h | h | h)
    · exact .inl h
    · exact .inr h
    · exact .inl (h.trans (hrt h).symm)
  · exact fun h => h.imp_right .inl

theorem blockedBy_iff {t : Tracked} (h : t.Inv)
    (hrt : ∀ s, (s, true) ∈ t.bl.getSources → [] ∈ t.lastRead s → domain = []) :
    blockedBy t.bl.disabledSources (pairs t.bl.sourceEntries) domain = true ↔
      ∃ a s, OrAbove a domain ∧ (s, true) ∈ t.bl.getSources ∧ a ∈ t.lastRead s := by
  rw [blockedBy, any_eq_true]
  simp only [Bool.and_eq_true, decide_eq_true_eq, h.tables]
  constructor
  · rintro ⟨⟨s, a⟩, ⟨hin, hrd⟩, hon, hav⟩
    have hs := mem_getSources.2 ⟨hin, hon⟩
    exact ⟨a, s, (orAbove_iff fun ha => hrt s hs (ha ▸ hrd)).2 hav, hs, hrd⟩
  · rintro ⟨a, s, hav, hs, hrd⟩
    obtain ⟨hin, hon⟩ := mem_getSources.1 hs
    exact ⟨(s, a), ⟨hin, hrd⟩, hon, (orAbove_iff fun ha => hrt s hs (ha ▸ hrd)).1 hav⟩

/-- **Blocklist decisions.** After calls that succeed and fit, a domain is blocked exactly if it or a
name above it was added by hand and not removed since, or was in the last content of a source that is
present and enabled, provided that the names added by hand block nothing below them. -/
theorem isBlocked_iff (files urls : List Text) (events : List (Sources × ListCall)) (t : Tracked)
    (hrun : Run.exec listStep (.new files urls) events = some t)
    (hfits : Run.Meets listStep (fun t e => e.2.Fits e.1 t) (.new files urls) events) (domain : Text)
    (hexact : ∀ a, Added (events.map Prod.snd) a → OrAbove a (normalizeDomain domain) → a = normalizeDomain domain)
    (hroot : ∀ s, (s, true) ∈ t.bl.getSources → [] ∈ t.lastRead s → normalizeDomain domain = []) :
    t.bl.isBlocked domain = true ↔ (∃ a, OrAbove a (normalizeDomain domain) ∧ Added (events.map Prod.snd) a) ∨
      ∃ a s, OrAbove a (normalizeDomain domain) ∧ (s, true) ∈ t.bl.getSources ∧ a ∈ t.lastRead s := by
  have hiv := Run.invariant listStep_inv events hrun hfits (Tracked.new_inv files urls)
  have hmn : normalizeDomain domain ∈ t.bl.manualEntries ↔
      ∃ a, OrAbove a (normalizeDomain domain) ∧ Added (events.map Prod.snd) a := by
    rw [mem_manualEntries hrun]
    constructor
    · rintro (h | ⟨h, -⟩)
      · exact ⟨_, .inl rfl, h⟩
      · simp [Tracked.new, new] at h
    · rintro ⟨a, hav, had⟩
      exact .inl (hexact a had hav ▸ had)
  rw [isBlocked, hiv.enabled, Bool.true_and, Bool.or_eq_true, decide_eq_true_eq, blockedBy_iff hiv hroot,
    hmn, or_comm]

def filesOf (domains : List String) : Sources where
  file _ := some { lines := domains.map String.toList, err := false }
  url _ := none

def someCalls : List (Sources × ListCall) :=
  [(filesOf ["0.0.0.0 Ads.e."], .addFile "/a".toList), (filesOf [], .toggleSource "/a".toList),
    (filesOf ["0.0.0.0 ads.e", "b.e"], .reload), (filesOf [], .toggleSource "/a".toList), (filesOf [], .addDomain "C.e.".toList)]

theorem isBlocked_iff_someCalls : ∃ t, Run.exec listStep (.new [] []) someCalls = some t ∧
    t.bl.isBlocked "x.B.e.".toList = true ∧ (t.bl.isBlocked "x.B.e.".toList = true ↔
      (∃ a, OrAbove a (normalizeDomain "x.B.e.".toList) ∧ Added (someCalls.map Prod.snd) a) ∨
      ∃ a s, OrAbove a (normalizeDomain "x.B.e.".toList) ∧ (s, true) ∈ t.bl.getSources ∧ a ∈ t.lastRead s) := by
  refine ⟨_, rfl, by decide +kernel, isBlocked_iff [] [] someCalls _ rfl ?_ _ ?_ ?_⟩
  · refine ⟨nofun, trivial, trivial, trivial, trivial, trivial⟩
  · rintro a ⟨before, d, after, hcl, rfl, -⟩ hav
    have hd : ListCall.addDomain d ∈ someCalls.map Prod.snd := hcl ▸ by simp
    have hc : d = "C.e.".toList := by simpa [someCalls] using hd
    rw [hc] at hav ⊢
    exact absurd hav (by decide)
  · intro s hs hrd
    rw [show getSources _ = [("/a".toList, true)] from by decide +kernel, mem_singleton] at hs
    cases hs
    exact absurd hrd (by decide +kernel)

theorem added_domain_not_above :
    (∃ t, Run.exec listStep (.new [] []) [(filesOf [], .addDomain "ads.e".toList)] = some t ∧
      OrAbove "ads.e".toList (normalizeDomain "x.ads.e".toList) ∧ Added [.addDomain "ads.e".toList] "ads.e".toList ∧
      t.bl.isBlocked "x.ads.e".toList = false) ∧
    ∃ t, Run.exec listStep (.new [] []) [(filesOf ["ads.e"], .addFile "/a".toList), (filesOf ["b.e"], .addFile "/b".toList),
        (filesOf ["b.e"], .removeFile "/b".toList)] = some t ∧
      t.bl.getSources = [("/a".toList, true)] ∧ t.lastRead "/a".toList = ["b.e".toList] ∧ t.bl.manualEntries = [] ∧
      t.bl.isBlocked "ads.e".toList = true := by
  refine ⟨⟨_, rfl, by decide, ⟨[], _, [], rfl, by decide, by simp⟩, by decide +kernel⟩, ?_⟩
  exact ⟨_, rfl, by decide +kernel, by decide +kernel, by decide +kernel, by decide +kernel⟩

end NothingDNS.Policy
