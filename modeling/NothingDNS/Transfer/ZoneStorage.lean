import NothingDNS.Transfer.Journal
import NothingDNS.Zone.Manager
/-!
# Where zones are stored (`internal/transfer/kvjournal.go`, `internal/zone/manager.go`)

A journal is a directory and a zone a file, both named after the zone. Names that differ only in characters that are
replaced share them (`zones_share`), names that are `Apart` do not (`zones_apart`).
-/

namespace NothingDNS.Transfer

open List Text

def sanitizeFilename (name : Text) : Text :=
  name.map fun c => if c = '/' ∨ c = '\\' ∨ c = ':' ∨ c = '\x00' ∨ c = '.' then '_' else c

/-- `strings.ReplaceAll(name, "..", "_")`. -/
def replaceDots : Text → Text
  | '.' :: '.' :: t => '_' :: replaceDots t
  | c :: t => c :: replaceDots t
  | [] => []

def sanitizeZoneFileName (name : Text) : Text :=
  replaceDots ((trimDot (trimSpace name)).map fun c => if c = '/' ∨ c = '\\' then '_' else c)

def zoneFile (name : Text) : Text := sanitizeZoneFileName (normalizeZoneName name)

structure Stores where
  journals : Text → Dir
  zoneFiles : Text → Option Text
  zones : Text → Bool

/-- The `content` is what is written of the zone; `none` is an error. -/
inductive Op (Entry : Type) where
  | saveEntry (zone : Text) (e : Entry)
  | truncate (zone : Text) (keepCount : Nat)
  | createZone (zone : Text) (content : Option Text)
  | changeZone (zone : Text) (content : Option Text)
  | deleteZone (zone : Text)

def Op.zone {Entry : Type} : Op Entry → Text
  | .saveEntry zone _ | .truncate zone _ | .createZone zone _ | .changeZone zone _ | .deleteZone zone => zone

namespace Stores

def onJournal (s : Stores) (zone : Text) (f : Dir → Dir) : Stores :=
  { s with journals := Function.update s.journals (sanitizeFilename zone) (f (s.journals (sanitizeFilename zone))) }

def onFile (s : Stores) (zone : Text) (f : Option Text → Option Text) (exist : Bool) : Stores :=
  { s with
    zoneFiles := Function.update s.zoneFiles (zoneFile zone) (f (s.zoneFiles (zoneFile zone)))
    zones := Function.update s.zones (normalizeZoneName zone) exist }

def run {Entry : Type} (c : Codec Entry) (maxJournalSize : Nat) (s : Stores) : Op Entry → Stores
  | .saveEntry zone e => s.onJournal zone fun dir => c.saveEntry maxJournalSize dir e
  | .truncate zone keepCount => s.onJournal zone (c.trimJournalToLocked keepCount)
  | .createZone zone content =>
    let origin := normalizeZoneName zone
    if origin = [] ∨ origin ∈ reservedZoneNames ∨ s.zones origin then s else s.onFile zone content.or true
  | .changeZone zone content => if s.zones (normalizeZoneName zone) then s.onFile zone content.or true else s
  | .deleteZone zone => if s.zones (normalizeZoneName zone) then s.onFile zone (fun _ => none) false else s

end Stores

/-- A name whose characters are kept, except that a dot may become an underscore. -/
def PlainName (name : Text) : Prop :=
  (∀ c ∈ name, c ∉ ['/', '\\', ':', '\x00', '_'] ∧ isSpace c = false ∧ c.toNat < 128) ∧ ¬['.', '.'] <:+: name

/-- Different names of zones, as the journal and as the manager spell them. -/
structure Apart (a b : Text) : Prop where
  ne : normalizeZoneName a ≠ normalizeZoneName b
  plain : PlainName a ∧ PlainName b
  normal : ∀ n ∈ [a, b], PlainName (normalizeZoneName n) ∧ normalizeZoneName n ≠ []

theorem sanitizeFilename_inj {a b : Text} (ha : PlainName a) (hb : PlainName b) (h : sanitizeFilename a = sanitizeFilename b) :
    a = b := by
  have hbk : ∀ {n : Text}, PlainName n → (sanitizeFilename n).map (fun c => if c = '_' then '.' else c) = n := by
    intro n hn
    rw [sanitizeFilename, map_map]
    refine (map_congr_left fun c hc => ?_).trans (map_id n)
    have := (hn.1 c hc).1
    simp only [mem_cons, not_mem_nil, or_false, not_or] at this
    by_cases hd : c = '.' <;> simp [this, hd]
  rw [← hbk ha, h, hbk hb]

theorem Apart.dir {a b : Text} (h : Apart a b) : sanitizeFilename b ≠ sanitizeFilename a := fun heq =>
  h.ne (congrArg _ (sanitizeFilename_inj h.plain.1 h.plain.2 heq.symm))

theorem replaceDots_eq : ∀ {t : Text}, ¬['.', '.'] <:+: t → replaceDots t = t
  | [], _ => rfl
  | c :: t, h => by
    have ht := replaceDots_eq fun hi => h (hi.trans (suffix_cons c t).isInfix)
    unfold replaceDots
    split
    next t' heq => exact absurd ⟨[], t', heq.symm⟩ h
    next heq =>
      cases heq
      rw [ht]
    next heq => cases heq

theorem zoneFile_append {n : Text} (hn : PlainName (normalizeZoneName n)) (hne : normalizeZoneName n ≠ []) :
    zoneFile n ++ ['.'] = normalizeZoneName n := by
  obtain ⟨t, ht⟩ : ['.'] <:+ normalizeZoneName n := by
    unfold normalizeZoneName at hne ⊢
    grind [suffix_append]
  rw [zoneFile]
  rw [← ht] at hn ⊢
  have hkp : t.map (fun c => if c = '/' ∨ c = '\\' then '_' else c) = t := by
    refine (map_congr_left fun c hc => if_neg ?_).trans (map_id t)
    have := (hn.1 c (mem_append_left _ hc)).1
    simp_all
  have hsp := trimSpace_eq_self (fun c hc => (hn.1 c (mem_of_head? hc)).2.1) fun c hc => (hn.1 c (mem_of_getLast? hc)).2.1
  rw [sanitizeZoneFileName, hsp, trimDot, if_pos (by simp), dropLast_concat, hkp,
    replaceDots_eq fun hi => hn.2 (hi.trans (prefix_append _ _).isInfix)]

theorem Apart.file {a b : Text} (h : Apart a b) : zoneFile b ≠ zoneFile a := by
  intro heq
  obtain ⟨ha, hae⟩ := h.normal a (by simp)
  obtain ⟨hb, hbn⟩ := h.normal b (by simp)
  apply h.ne
  rw [← zoneFile_append ha hae, ← heq, zoneFile_append hb hbn]

variable {Entry : Type} {c : Codec Entry} {n : Nat} {s : Stores} {op : Op Entry} {b : Text}

theorem Stores.run_of_ne (hd : sanitizeFilename b ≠ sanitizeFilename op.zone) (hfl : zoneFile b ≠ zoneFile op.zone) :
    (s.run c n op).journals (sanitizeFilename b) = s.journals (sanitizeFilename b) ∧
      (s.run c n op).zoneFiles (zoneFile b) = s.zoneFiles (zoneFile b) := by
  cases op with
  | saveEntry | truncate => exact ⟨Function.update_of_ne hd _ _, rfl⟩
  | createZone | changeZone | deleteZone =>
    dsimp only [run]
    split <;> simp_all [onFile, Op.zone]

/-- **Zones apart share no storage.** Calls for other zones change neither the journal nor the file of `b`. -/
theorem zones_apart : ∀ (ops : List (Op Entry)) (s : Stores), (∀ op ∈ ops, Apart op.zone b) →
    (ops.foldl (Stores.run c n) s).journals (sanitizeFilename b) = s.journals (sanitizeFilename b) ∧
      (ops.foldl (Stores.run c n) s).zoneFiles (zoneFile b) = s.zoneFiles (zoneFile b)
  | [], _, _ => ⟨rfl, rfl⟩
  | op :: ops, s, h => by
    obtain ⟨hop, hops⟩ := forall_mem_cons.1 h
    obtain ⟨hjournal, hfile⟩ := Stores.run_of_ne hop.dir hop.file
    obtain ⟨hjournals, hfiles⟩ := zones_apart ops (s.run c n op) hops
    exact ⟨hjournals.trans hjournal, hfiles.trans hfile⟩

theorem zones_apart_two : let s : Stores := ⟨fun _ => [], fun _ => none, fun _ => false⟩
    (s.run serialCodec 9 (.createZone ['b'] (some ['1']))).zoneFiles (zoneFile ['a']) = none := by
  intro s
  have ha : normalizeZoneName ['a'] = ['a', '.'] := by decide
  have hb : normalizeZoneName ['b'] = ['b', '.'] := by decide
  have hp : ∀ n ∈ [['a'], ['b'], ['a', '.'], ['b', '.']], PlainName n := by
    simp only [PlainName, forall_mem_cons, not_mem_nil, false_imp_iff, implies_true, and_true]
    decide
  refine (@zones_apart UInt32 serialCodec 9 ['a'] [.createZone ['b'] (some ['1'])] s ?_).2
  simp only [mem_singleton, forall_eq, Op.zone]
  exact ⟨by simp [ha, hb], by simp [hp], by simp [ha, hb, hp]⟩

theorem zones_share : let s : Stores := ⟨fun _ => [(7, [0, 0, 0, 7])], fun _ => some ['1'], (· = "a_b.".toList)⟩
    let file := zoneFile "a_b.".toList
    let dir := sanitizeFilename "a_b.".toList
    (s.run serialCodec 9 (.createZone "a/b.".toList (some ['2']))).zoneFiles file ≠ s.zoneFiles file ∧
      (s.run serialCodec 9 (.truncate "a.b.".toList 0)).journals dir ≠ s.journals dir := by
  decide

end NothingDNS.Transfer
