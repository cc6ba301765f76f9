import NothingDNS.Zone.ReadLines
/-!
# Reading back a written zone

The SOA stands on several lines in parentheses, which the parser joins again. With it and the one-line records the
whole file is read block by block.
-/

namespace NothingDNS

open List Text Record

/-! ## Stored records -/

theorem makeAbsolute_at {origin : Text} (ho : Absolute origin) : makeAbsolute ['@'] origin = origin := by
  unfold makeAbsolute
  dsimp only
  rw [show trimSpace ['@'] = ['@'] by decide, if_pos (.inr rfl), ho.canonicalize]

theorem storeRecord_plain (z : Zone) (r : Record) (hso : r.type ≠ "SOA".toList) (hns : r.type ≠ "NS".toList) :
    storeRecord z r = .ok { z with records := appendRecord z.records (makeAbsolute r.name z.origin).lower r } := by
  unfold storeRecord handleSpecialRecord
  dsimp only
  rw [if_neg hso, if_neg hns]

def SOARecord.numbers (soa : SOARecord) : List Text :=
  [soa.serial, soa.refresh, soa.retry, soa.expire, soa.minimum].map fun n => decimal n.toNat

/-! ## The SOA in parentheses -/

def deparen (c : Char) : Char := if c = '(' ∨ c = ')' then ' ' else c

theorem Bare.map_deparen {w : Text} (h : Bare w) : w.map deparen = w := by
  have hsl : ∀ c ∈ w, deparen c = c := by
    intro c hc
    obtain ⟨-, -, -, hop, hcl, -⟩ := plainChar_iff.1 (h.2 c hc)
    exact if_neg (by simp [hop, hcl])
  rw [map_congr_left hsl, map_id']

theorem Bare.words_deparen {w : Text} (h : Bare w) {s : Char} (hs : isSpace (deparen s) = true) (rest : Text) :
    words ((w ++ s :: rest).map deparen) = w :: words (rest.map deparen) := by
  rw [map_append, h.map_deparen, map_cons, h.word.words_cons hs]

theorem words_deparen_space {s : Char} (hs : isSpace (deparen s) = true) (rest : Text) :
    words ((s :: rest).map deparen) = words (rest.map deparen) := by
  rw [map_cons, words_space hs]

structure Open (z : Zone) (buf : Text) (p : Parser) : Prop where
  depth : p.parenDepth = 1
  lineBuf : p.lineBuf = buf
  owned : p.recordIndented = false
  zone : p.zone = z

section soa

variable {inc : Parser → List Text → Except ParseError Parser} {z : Zone} {buf : Text} {p : Parser}

theorem Open.number (h : Open z buf p) (n : Nat) {comment : Text} {last : Char}
    (hls : (';' :: comment).getLast? = some last) (hsp : isSpace last = false) :
    ∃ p', parseLine inc p ('\t' :: '\t' :: (decimal n ++ '\t' :: ';' :: comment)) = .ok p' ∧
      Open z (buf ++ ' ' :: decimal n) p' := by
  have hd := bare_decimal n
  have htr : trimSpace ('\t' :: '\t' :: (decimal n ++ '\t' :: ';' :: comment)) =
      decimal n ++ '\t' :: ';' :: comment := by
    rw [trimSpace_cons_space (by decide), trimSpace_cons_space (by decide)]
    refine trimSpace_eq_self (fun c hc => ?_) fun c hc => ?_
    · rw [head?_append_of_ne_nil _ hd.1] at hc
      exact hd.word.2 c (mem_of_head? hc)
    · rw [getLast?_append, getLast?_cons_cons, hls, Option.some_or] at hc
      cases hc
      exact hsp
  have hp : ∀ c ∈ decimal n ++ ['\t'], decide (c ≠ ';') = true := by
    refine forall_mem_append.2 ⟨fun c hc => ?_, forall_mem_singleton.2 (by decide)⟩
    exact decide_eq_true (plainChar_iff.1 (hd.2 c hc)).2.2.1
  have hcm : dropComment (decimal n ++ '\t' :: ';' :: comment) = decimal n := by
    rw [dropComment, if_pos (by simp), ← singleton_append, ← append_assoc, takeWhile_append_of_pos hp,
      takeWhile_cons_of_neg (by decide), append_nil, trimSpace_append_space (by decide), hd.trimSpace]
  have hcn : ∀ c : Char, plainChar c = false → (decimal n).count c = 0 := by
    intro c hc
    refine count_eq_zero.2 fun hmem => ?_
    rw [hd.2 c hmem] at hc
    cases hc
  refine ⟨{ p with parenDepth := 1, lineBuf := buf ++ ' ' :: decimal n }, ?_, ⟨rfl, rfl, h.owned, h.zone⟩⟩
  unfold parseLine
  dsimp only
  rw [htr, hcm, if_pos (by rw [h.depth]; decide), if_neg hd.1, hcn _ (by decide), hcn _ (by decide),
    h.depth, h.lineBuf]
  rfl

variable (inc) in
theorem Open.close (h : Open z buf p) : parseLine inc p ['\t', ')'] =
    (parseRecordOwned { p with parenDepth := 0, lineBuf := [] } (combine (buf ++ " )".toList)) false).mapError
      (.inFile p.filename p.lineStart) := by
  unfold parseLine
  dsimp only
  rw [if_pos (by rw [h.depth]; decide), show dropComment (trimSpace ['\t', ')']) = [')'] by decide,
    if_neg (by decide), h.depth, if_pos (by decide), h.owned, h.lineBuf]
  rfl

def soaHead (ttl mname rname : Text) : Text :=
  '@' :: '\t' :: (ttl ++ "\tIN\tSOA\t".toList ++ mname ++ ' ' :: (rname ++ " (".toList))

section head

variable {ttl mname rname : Text} (ht : Bare ttl) (hm : Bare mname) (hr : Bare rname)

include ht hm hr

theorem mem_soaHead {c : Char} (h : c ∈ soaHead ttl mname rname) :
    plainChar c = true ∨ c = '\t' ∨ c = ' ' ∨ c = '(' := by
  simp only [soaHead, mem_cons, mem_append] at h
  have hli : ∀ c ∈ "\tIN\tSOA\t".toList ++ " (".toList, plainChar c = true ∨ c = '\t' ∨ c = ' ' ∨ c = '(' := by
    intro c hc
    have hall : ("\tIN\tSOA\t".toList ++ " (".toList).all
        (fun c => decide (plainChar c = true ∨ c = '\t' ∨ c = ' ' ∨ c = '(')) = true := by decide
    exact of_decide_eq_true (all_eq_true.1 hall c hc)
  rcases h with rfl | rfl | ((h | h) | h) | rfl | h | h
  · exact .inl (by decide)
  · exact .inr (.inl rfl)
  · exact .inl (ht.2 c h)
  · exact hli c (mem_append.2 (.inl h))
  · exact .inl (hm.2 c h)
  · exact .inr (.inr (.inl rfl))
  · exact .inl (hr.2 c h)
  · exact hli c (mem_append.2 (.inr h))

theorem not_mem_soaHead {c : Char} (hp : plainChar c = false) (htb : c ≠ '\t') (hb : c ≠ ' ')
    (hop : c ≠ '(') : c ∉ soaHead ttl mname rname := by
  intro h
  rcases mem_soaHead ht hm hr h with h | h | h | h
  · rw [hp] at h
    cases h
  · exact htb h
  · exact hb h
  · exact hop h

theorem Open.of_soaHead (hp : p.parenDepth = 0) (hz : p.zone = z) :
    ∃ p', parseLine inc p (soaHead ttl mname rname) = .ok p' ∧ Open z (soaHead ttl mname rname) p' := by
  have htr : trimSpace (soaHead ttl mname rname) = soaHead ttl mname rname := by
    refine trimSpace_eq_self ?_ ?_
    · rintro c h
      cases h
      decide
    · intro c h
      have hls : (soaHead ttl mname rname).getLast? = some '(' := by
        simp [soaHead, getLast?_cons, getLast?_append]
      rw [hls] at h
      cases h
      decide
  have hsm : ';' ∉ soaHead ttl mname rname := not_mem_soaHead ht hm hr (by decide) (by decide) (by decide) (by decide)
  have hcl : ')' ∉ soaHead ttl mname rname := not_mem_soaHead ht hm hr (by decide) (by decide) (by decide) (by decide)
  have hop : '(' ∈ soaHead ttl mname rname := by simp [soaHead]
  have hind : indented (soaHead ttl mname rname) = false := by simp [indented, soaHead]
  refine ⟨{ p with
    parenDepth := 1
    lineStart := p.lineNum
    recordIndented := false
    lineBuf := soaHead ttl mname rname }, ?_, ⟨rfl, rfl, rfl, hz⟩⟩
  unfold parseLine
  dsimp only
  rw [htr, if_neg (by rw [hp]; decide), if_neg (by simp [soaHead]), if_neg (by simp [soaHead]),
    if_pos ⟨hop, hcl⟩, dropComment, if_neg hsm, hind]

end head

def soaFields (ttl mname rname : Text) (numbers : List Text) : List Text :=
  ['@'] :: ttl :: "IN".toList :: "SOA".toList :: mname :: rname :: numbers

theorem combine_soa {ttl mname rname n₁ n₂ n₃ n₄ n₅ : Text} (ht : Bare ttl) (hm : Bare mname) (hr : Bare rname)
    (h₁ : Bare n₁) (h₂ : Bare n₂) (h₃ : Bare n₃) (h₄ : Bare n₄) (h₅ : Bare n₅) :
    combine (soaHead ttl mname rname ++ ' ' :: n₁ ++ ' ' :: n₂ ++ ' ' :: n₃ ++ ' ' :: n₄ ++ ' ' :: n₅ ++ " )".toList) =
      unwords (soaFields ttl mname rname [n₁, n₂, n₃, n₄, n₅]) := by
  have hbf : soaHead ttl mname rname ++ ' ' :: n₁ ++ ' ' :: n₂ ++ ' ' :: n₃ ++ ' ' :: n₄ ++ ' ' :: n₅ ++ " )".toList =
      ['@'] ++ '\t' :: (ttl ++ '\t' :: ("IN".toList ++ '\t' :: ("SOA".toList ++ '\t' :: (mname ++ ' ' :: (rname ++
        ' ' :: '(' :: ' ' :: (n₁ ++ ' ' :: (n₂ ++ ' ' :: (n₃ ++ ' ' :: (n₄ ++ ' ' :: (n₅ ++ ' ' :: [')'])))))))))) := by
    simp [soaHead]
  have hat : Bare ['@'] := by decide
  have hin : Bare "IN".toList := by decide
  have hso : Bare "SOA".toList := by decide
  have hb : isSpace (deparen ' ') = true := by decide
  have htb : isSpace (deparen '\t') = true := by decide
  have hop : isSpace (deparen '(') = true := by decide
  have hw : words ((' ' :: [')']).map deparen) = [] := by decide
  change unwords (words (map deparen _)) = _
  rw [hbf, hat.words_deparen htb, ht.words_deparen htb, hin.words_deparen htb, hso.words_deparen htb,
    hm.words_deparen hb, hr.words_deparen hb, words_deparen_space hop, words_deparen_space hb, h₁.words_deparen hb,
    h₂.words_deparen hb, h₃.words_deparen hb, h₄.words_deparen hb, h₅.words_deparen hb]
  rfl

theorem parseRecordOwned_soa {soa : SOARecord} (ho : Absolute p.zone.origin) (hlw : p.zone.origin.lower = p.zone.origin)
    (hnm : soa.name = p.zone.origin) (hm : Absolute soa.mname) (hr : Absolute soa.rname) :
    parseRecordOwned p (unwords (soaFields (decimal soa.ttl.toNat) soa.mname soa.rname soa.numbers)) false =
      .ok { p with
        zone := { p.zone with
          records := appendRecord p.zone.records p.zone.origin ⟨['@'], soa.ttl, "IN".toList, "SOA".toList, soa.rdata⟩
          soa := some soa }
        lastOwner := ['@'] } := by
  have hd : ∀ w ∈ soa.mname :: soa.rname :: soa.numbers, Bare w :=
    forall_mem_cons.2 ⟨hm.1, forall_mem_cons.2 ⟨hr.1, forall_mem_map.2 fun _ _ => bare_decimal _⟩⟩
  have hb : ∀ w ∈ soaFields (decimal soa.ttl.toNat) soa.mname soa.rname soa.numbers, Bare w := by
    simp only [soaFields, forall_mem_cons] at hd ⊢
    exact ⟨by decide, bare_decimal _, by decide, by decide, hd⟩
  refine (parseRecordOwned_unwords hb (by decide) (by decide) p).trans ?_
  unfold storeRecord handleSpecialRecord parseSOA
  dsimp only
  rw [if_pos rfl, makeAbsolute_at ho, hlw, parseFields_unwords hd]
  simp only [SOARecord.numbers, map_cons, map_nil, parseUint_decimal, parseTTL_decimal, hm.makeAbsolute, hr.makeAbsolute,
    UInt32.ofNat_toNat, ← hnm]
  rfl

theorem Reads.soa {w : Zone} {soa : SOARecord} (ho : Absolute z.origin) (hlw : z.origin.lower = z.origin)
    (hna : soa.name = z.origin) (hm : Absolute soa.mname) (hr : Absolute soa.rname) (ht : KeepsTTL w soa.ttl) :
    Reads inc (soaLines w soa) z { z with
      records := appendRecord z.records z.origin ⟨['@'], soa.ttl, "IN".toList, "SOA".toList, soa.rdata⟩
      soa := some soa } := by
  have hb := bare_decimal
  have hh : Feeds inc (Between z) [soaHead (writtenTTL w soa.ttl) soa.mname soa.rname]
      (Open z (soaHead (writtenTTL w soa.ttl) soa.mname soa.rname)) := by
    rw [ht.written]
    exact Feeds.single (fun _ _ h => h) fun p hp => Open.of_soaHead (hb _) hm.1 hr.1 hp.1 hp.2
  have hnm : ∀ (buf : Text) (n : UInt32) (comment : Text) (last : Char),
      (';' :: comment).getLast? = some last → isSpace last = false →
      Feeds inc (Open z buf) ['\t' :: '\t' :: (decimal n.toNat ++ '\t' :: ';' :: comment)]
        (Open z (buf ++ ' ' :: decimal n.toNat)) := by
    intro buf n comment last hls hsp
    exact Feeds.single (fun p _ h => { h with }) fun p hp => hp.number n.toNat hls hsp
  have hnb := ((((hh.append (hnm _ soa.serial " serial".toList 'l' rfl (by decide))).append
    (hnm _ soa.refresh " refresh".toList 'h' rfl (by decide))).append
    (hnm _ soa.retry " retry".toList 'y' rfl (by decide))).append
    (hnm _ soa.expire " expire".toList 'e' rfl (by decide))).append
    (hnm _ soa.minimum " minimum".toList 'm' rfl (by decide))
  refine (hnb.append (Feeds.single (Q := Between _) (l := ['\t', ')'])
    (fun p _ h => { h with }) fun p hp => ?_)).append (Reads.blank _)
  obtain rfl := hp.zone
  have hrc := @parseRecordOwned_soa { p with parenDepth := 0, lineBuf := [] } soa ho hlw hna hm hr
  have hcl := hp.close inc
  rw [ht.written, combine_soa (hb _) hm.1 hr.1 (hb _) (hb _) (hb _) (hb _) (hb _)] at hcl
  erw [hrc] at hcl
  exact ⟨_, hcl, rfl, rfl⟩

end soa

/-! ## Records on one line -/

def appendRecords (m : RecordMap) (l : List (Text × Record)) : RecordMap :=
  l.foldl (fun m x => appendRecord m x.1 x.2) m

theorem appendRecords_append (m : RecordMap) (l₁ l₂ : List (Text × Record)) :
    appendRecords m (l₁ ++ l₂) = appendRecords (appendRecords m l₁) l₂ := foldl_append

theorem recordsOf_appendRecords (m : RecordMap) (l : List (Text × Record)) (name : Text) :
    recordsOf (appendRecords m l) name = recordsOf m name ++ (l.filter fun x => decide (x.1 = name)).map Prod.snd := by
  induction l generalizing m with
  | nil => simp [appendRecords]
  | cons x l ih =>
    change recordsOf (appendRecords (appendRecord m x.1 x.2) l) name = _
    rw [ih, recordsOf_appendRecord, filter_cons]
    by_cases h : x.1 = name <;> simp [h]

theorem Bare.spaced {t : Text} (h : Bare t) : Spaced t := by
  have hwr := h.word.words_self
  refine ⟨?_, ?_⟩
  · rw [hwr]
    rfl
  · rw [hwr]
    intro w hw
    rw [mem_singleton.1 hw]
    exact h

theorem Record.Plain.data {w : Zone} {name : Text} {r : Record} (h : r.Plain w name) :
    Tail (formatRDataForZone r) ∧ unwords (parseFields (formatRDataForZone r)) = r.rdata := by
  have hd := h.rdata
  rw [formatRDataForZone, upper_recordType h.type]
  split
  next hq =>
    rw [if_pos hq] at hd
    rw [strip_eq_self hd.1, parseFields_quoted]
    exact ⟨hd.tail, rfl⟩
  next hq =>
    rw [if_neg hq] at hd
    rw [hd.strip]
    exact ⟨hd.tail, hd.parseFields⟩

theorem Record.Plain.line {w : Zone} {name : Text} {r : Record} (h : r.Plain w name) :
    recordLine w r = tabbed (relativize r.name w.origin) (decimal r.ttl.toNat) r.recordClass r.type
      (formatRDataForZone r) := by
  rw [recordLine, h.ttl.written, strip_eq_self fun c hc => plainChar_control (h.owner.2 c hc)]

def nsRecord (ns : NSRecord) : Record := ⟨['@'], ns.ttl, "IN".toList, "NS".toList, ns.nsdname⟩

section lines

variable {inc : Parser → List Text → Except ParseError Parser}

theorem Reads.ns {w z : Zone} {nss : List NSRecord} (ho : Absolute z.origin) (hlw : z.origin.lower = z.origin)
    (h : ∀ ns ∈ nss, ns.name = z.origin ∧ Absolute ns.nsdname ∧ KeepsTTL w ns.ttl) :
    Reads inc (nss.map (nsLine w)) z { z with
      records := appendRecords z.records (nss.map fun ns => (z.origin, nsRecord ns))
      ns := z.ns ++ nss } := by
  induction nss generalizing z with
  | nil =>
    rw [append_nil]
    exact .nil z
  | cons ns nss ih =>
    obtain ⟨hnm, habs, htt⟩ := h ns mem_cons_self
    have hst : storeRecord z (nsRecord ns) = .ok { z with
        records := appendRecord z.records z.origin (nsRecord ns)
        ns := z.ns ++ [ns] } := by
      unfold storeRecord handleSpecialRecord nsRecord
      dsimp only
      rw [if_neg (by decide), if_pos rfl, makeAbsolute_at ho, hlw, habs.makeAbsolute, ← hnm]
    have hln : Reads inc [nsLine w ns] z { z with
        records := appendRecord z.records z.origin (nsRecord ns)
        ns := z.ns ++ [ns] } := by
      rw [nsLine, htt.written]
      refine .tabbed (by decide) (by decide) (by decide) (by decide) habs.1.spaced.tail ?_
      rw [habs.1.spaced.parseFields]
      exact hst
    have hrs := hln.append (ih ho hlw fun ns' hn' => h ns' (mem_cons_of_mem _ hn'))
    rw [append_assoc] at hrs
    exact hrs

theorem Reads.records {w z : Zone} {name : Text} {rs : List Record} (ho : z.origin = w.origin)
    (h : ∀ r ∈ rs, r.Plain w name) : Reads inc (rs.map (recordLine w)) z { z with
      records := appendRecords z.records (rs.map fun r => (name, r.rewritten w)) } := by
  induction rs generalizing z with
  | nil => exact .nil z
  | cons r rs ih =>
    have hr := h r mem_cons_self
    obtain ⟨htl, hd⟩ := hr.data
    have hst : storeRecord z (r.rewritten w) =
        .ok { z with records := appendRecord z.records name (r.rewritten w) } := by
      have hfl : (makeAbsolute (r.rewritten w).name z.origin).lower = name := by
        rw [ho]
        exact hr.filed
      rw [storeRecord_plain z (r.rewritten w) hr.notSOA hr.notNS, hfl]
    have hln : Reads inc [recordLine w r] z { z with records := appendRecord z.records name (r.rewritten w) } := by
      rw [hr.line]
      refine .tabbed hr.owner hr.notControl hr.cls hr.type htl ?_
      rw [hd]
      exact hst
    exact hln.append (ih ho fun r' hr' => h r' (mem_cons_of_mem _ hr'))

def namedRecords (w : Zone) (names : List Text) : List (Text × Record) :=
  names.flatMap fun name =>
    ((w.recordsAt name).filter fun r => !writtenAbove w name r).map fun r => (name, r.rewritten w)

theorem Reads.names {w z : Zone} {names : List Text} (ho : z.origin = w.origin)
    (h : ∀ name, ∀ r ∈ w.recordsAt name, writtenAbove w name r = false → r.Plain w name) :
    Reads inc (names.flatMap (ownerLines w)) z { z with
      records := appendRecords z.records (namedRecords w names) } := by
  induction names generalizing z with
  | nil => exact .nil z
  | cons name names ih =>
    have how : ∀ r ∈ (w.recordsAt name).filter fun r => !writtenAbove w name r, r.Plain w name := by
      intro r hr
      obtain ⟨hmem, hav⟩ := mem_filter.1 hr
      exact h name r hmem (by simpa using hav)
    have hfr : Reads inc (ownerLines w name) z { z with records := appendRecords z.records _ } := .records ho how
    have hrd := hfr.append (ih ho)
    rw [← appendRecords_append] at hrd
    exact hrd

end lines

/-! ## The whole file -/

def Record.body (r : Record) : Text × UInt32 × Text := (r.type, r.ttl, r.rdata)

def soaRecord (soa : SOARecord) : Record := ⟨['@'], soa.ttl, "IN".toList, "SOA".toList, soa.rdata⟩

def apexRecords (z : Zone) : List Record :=
  z.soa.toList.map soaRecord ++ z.ns.map nsRecord

/-- A zone that its file tells completely. -/
structure Zone.Faithful (z : Zone) : Prop where
  origin : Absolute z.origin
  lower : z.origin.lower = z.origin
  soa : ∀ soa ∈ z.soa, soa.name = z.origin ∧ Absolute soa.mname ∧ Absolute soa.rname ∧ KeepsTTL z soa.ttl
  ns : ∀ ns ∈ z.ns, ns.name = z.origin ∧ Absolute ns.nsdname ∧ KeepsTTL z ns.ttl
  /-- The apex has its SOA and NS first, and they are those of the zone. -/
  apex : ∃ above rest, z.recordsAt z.origin = above ++ rest ∧
    above.map Record.body = (apexRecords z).map Record.body ∧ ∀ r ∈ rest, writtenAbove z z.origin r = false
  records : ∀ name, ∀ r ∈ z.recordsAt name, writtenAbove z name r = false → r.Plain z name

/-- The lines are in ASCII, so that octets are characters and only ASCII white space is trimmed and split at; and the
line scanner has a limit. -/
structure Zone.Writable (z : Zone) : Prop extends z.Faithful where
  ascii : ∀ l ∈ zoneLines z, Text.Ascii l
  length : ∀ l ∈ zoneLines z, l.length < maxScanTokenSize

theorem writtenAbove_of_body {z : Zone} {r : Record} (h : r.body ∈ (apexRecords z).map body) :
    writtenAbove z z.origin r = true := by
  obtain ⟨a, ha, hb⟩ := mem_map.1 h
  have hty : r.type = a.type := congrArg Prod.fst hb.symm
  rw [writtenAbove, decide_eq_true_eq, hty]
  refine ⟨rfl, ?_⟩
  rcases mem_append.1 ha with ha | ha
  · obtain ⟨soa, -, rfl⟩ := mem_map.1 ha
    exact .inl (show upper "SOA".toList = "SOA".toList by decide)
  · obtain ⟨ns, -, rfl⟩ := mem_map.1 ha
    exact .inr (show upper "NS".toList = "NS".toList by decide)

theorem filter_apex {z : Zone} {above rest : List Record} (hav : above.map body = (apexRecords z).map body)
    (hrs : ∀ r ∈ rest, writtenAbove z z.origin r = false) :
    (above ++ rest).filter (fun r => !writtenAbove z z.origin r) = rest := by
  rw [filter_append, filter_eq_nil_iff.2, filter_eq_self.2, nil_append]
  · intro r hr
    simp [hrs r hr]
  · intro r hr
    have hb : r.body ∈ (apexRecords z).map body := hav ▸ mem_map_of_mem hr
    simp [writtenAbove_of_body hb]

def Zone.partly (z : Zone) (soa : Option SOARecord) (ns : List NSRecord) (l : List (Text × Record)) : Zone :=
  ⟨z.origin, z.defaultTTL, soa, appendRecords ∅ l, ns⟩

section file

variable {z : Zone} (h : z.Writable) (inc : Parser → List Text → Except ParseError Parser)

include h

theorem Zone.Writable.reads_header : Reads inc (["$ORIGIN ".toList ++ z.origin] ++
    (if 0 < z.defaultTTL then ["$TTL ".toList ++ decimal z.defaultTTL.toNat] else []) ++ [[]])
    emptyZone (z.partly none [] []) := by
  have hor : Reads inc ["$ORIGIN ".toList ++ z.origin] emptyZone { emptyZone with origin := z.origin } :=
    .origin h.origin _
  have hd : Reads inc (if 0 < z.defaultTTL then ["$TTL ".toList ++ decimal z.defaultTTL.toNat] else [])
      { emptyZone with origin := z.origin } (z.partly none [] []) := by
    split
    · exact .defaultTTL _ _
    next hzr =>
      have hz : z.defaultTTL = 0 := UInt32.le_zero_iff.1 (UInt32.not_lt.1 hzr)
      rw [Zone.partly, hz]
      exact .nil _
  exact (hor.append hd).append (.blank _)

theorem Zone.Writable.reads_soa : Reads inc (match z.soa with
      | none => []
      | some soa => soaLines z soa)
    (z.partly none [] []) (z.partly z.soa [] (z.soa.toList.map fun soa => (z.origin, soaRecord soa))) := by
  cases hz : z.soa with
  | none => exact .nil _
  | some soa =>
    obtain ⟨hnm, hm, hr, ht⟩ := h.soa soa hz
    have hor : Absolute (z.partly none [] []).origin := h.origin
    exact .soa hor h.lower hnm hm hr ht

theorem Zone.Writable.reads_ns : Reads inc (z.ns.map (nsLine z) ++ if z.ns = [] then [] else [[]])
    (z.partly z.soa [] (z.soa.toList.map fun soa => (z.origin, soaRecord soa)))
    (z.partly z.soa z.ns ((apexRecords z).map fun r => (z.origin, r))) := by
  have hap : appendRecords (appendRecords ∅ (z.soa.toList.map fun soa => (z.origin, soaRecord soa)))
      (z.ns.map fun ns => (z.origin, nsRecord ns)) =
      appendRecords ∅ ((apexRecords z).map fun r => (z.origin, r)) := by
    rw [← appendRecords_append, apexRecords, map_append, map_map, map_map]
    rfl
  have hor : Absolute (z.partly z.soa [] (z.soa.toList.map fun soa => (z.origin, soaRecord soa))).origin := h.origin
  have hns : Reads inc (z.ns.map (nsLine z)) (z.partly z.soa [] (z.soa.toList.map fun soa => (z.origin, soaRecord soa)))
      (z.partly z.soa z.ns ((apexRecords z).map fun r => (z.origin, r))) := by
    rw [Zone.partly, Zone.partly, ← hap]
    exact .ns hor h.lower h.ns
  refine hns.append ?_
  split
  · exact .nil _
  · exact .blank _

def Zone.readBack (z : Zone) : Zone :=
  z.partly z.soa z.ns ((apexRecords z).map (fun r => (z.origin, r)) ++ namedRecords z (sortedNames z))

theorem Zone.Writable.reads_zoneLines : Reads inc (zoneLines z) emptyZone z.readBack := by
  have hnm : Reads inc ((sortedNames z).flatMap (ownerLines z))
      (z.partly z.soa z.ns ((apexRecords z).map fun r => (z.origin, r))) z.readBack := by
    rw [Zone.readBack, Zone.partly, Zone.partly, appendRecords_append]
    exact .names rfl h.records
  have hall := (((h.reads_header inc).append (h.reads_soa inc)).append (h.reads_ns inc)).append hnm
  rw [← append_assoc] at hall
  exact hall

end file

def OneLine (l : Text) : Prop := '\n' ∉ l ∧ '\r' ∉ l

instance (l : Text) : Decidable (OneLine l) := inferInstanceAs (Decidable (_ ∧ _))

@[simp] theorem oneLine_append {s t : Text} : OneLine (s ++ t) ↔ OneLine s ∧ OneLine t := by
  simp only [OneLine, mem_append]
  tauto

@[simp] theorem oneLine_cons {c : Char} {t : Text} : OneLine (c :: t) ↔ (c ≠ '\n' ∧ c ≠ '\r') ∧ OneLine t := by
  simp only [OneLine, mem_cons, ne_eq, eq_comm]
  tauto

theorem Bare.oneLine {t : Text} (h : Bare t) : OneLine t :=
  ⟨fun hc => (plainChar_control (h.2 _ hc)).1 rfl, fun hc => (plainChar_control (h.2 _ hc)).2.1 rfl⟩

theorem oneLine_strip (t : Text) : OneLine (stripZoneControlChars t) := by
  simp [OneLine, stripZoneControlChars]

theorem oneLine_formatRData (r : Record) : OneLine (formatRDataForZone r) := by
  obtain ⟨hn, hr⟩ := oneLine_strip r.rdata
  rw [formatRDataForZone]
  split
  · exact ⟨mt (mem_quoted (by decide) (by decide)).1 hn, mt (mem_quoted (by decide) (by decide)).1 hr⟩
  · exact ⟨hn, hr⟩

theorem oneLine_tabbed {owner ttl cls type d : Text} (ho : OneLine owner) (ht : OneLine ttl) (hc : OneLine cls)
    (hy : OneLine type) (hd : OneLine d) : OneLine (tabbed owner ttl cls type d) := by
  simp [tabbed, ho, ht, hc, hy, hd]

theorem oneLine_soaLines {z : Zone} {soa : SOARecord} (hm : Bare soa.mname) (hr : Bare soa.rname) :
    ∀ l ∈ soaLines z soa, OneLine l := by
  have hd : ∀ n, OneLine (decimal n) := fun n => (bare_decimal n).oneLine
  have hnil : OneLine [] := by decide
  intro l hl
  simp only [soaLines, mem_cons, not_mem_nil, or_false] at hl
  rcases hl with rfl | rfl | rfl | rfl | rfl | rfl | rfl | rfl
  · simp [writtenTTL, hd, hm.oneLine, hr.oneLine, hnil]
  all_goals simp [hd, hnil]

theorem Zone.Writable.oneLine {z : Zone} (h : z.Writable) : ∀ l ∈ zoneLines z, OneLine l := by
  have hd : ∀ n, OneLine (decimal n) := fun n => (bare_decimal n).oneLine
  have hnil : OneLine [] := by decide
  intro l hl
  simp only [zoneLines, mem_append] at hl
  rcases hl with (((((hl | hl) | hl) | hl) | hl) | hl) | hl
  · rw [mem_singleton.1 hl]
    simp [h.origin.1.oneLine]
  · split at hl
    · rw [mem_singleton.1 hl]
      simp [hd]
    · cases hl
  · rw [mem_singleton.1 hl]
    exact hnil
  · split at hl
    · cases hl
    next soa hz =>
      obtain ⟨-, hm, hr, -⟩ := h.soa soa hz
      exact oneLine_soaLines hm.1 hr.1 l hl
  · obtain ⟨ns, hns, rfl⟩ := mem_map.1 hl
    exact oneLine_tabbed (by decide) (hd _) (by decide) (by decide) (h.ns ns hns).2.1.1.oneLine
  · split at hl
    · cases hl
    · rw [mem_singleton.1 hl]
      exact hnil
  · obtain ⟨name, -, hl⟩ := mem_flatMap.1 hl
    obtain ⟨r, hr, rfl⟩ := mem_map.1 hl
    obtain ⟨hmem, hav⟩ := mem_filter.1 hr
    have hp := h.records name r hmem (by simpa using hav)
    exact oneLine_tabbed (oneLine_strip _) (hd _) (bare_class hp.cls).oneLine (bare_type hp.type).oneLine
      (oneLine_formatRData r)

theorem Zone.Writable.parseFile {z : Zone} (h : z.Writable) (files : Files) (filename : Text) :
    parseFile files filename (writeZone z) = .ok z.readBack := by
  have hln : scanLines maxScanTokenSize [] (writeZone z) = (zoneLines z).map some :=
    scanLines_unlines fun l hl => ⟨h.length l hl, h.oneLine l hl⟩
  obtain ⟨p, hp, hd, hzn⟩ :=
    h.reads_zoneLines (handleInclude files maxIncludeDepth) (newParser filename emptyZone []) ⟨rfl, rfl⟩
  rw [NothingDNS.parseFile, parse, hln, hp]
  change (if 0 < p.parenDepth then _ else _) = _
  rw [if_neg (by rw [hd]; decide), hzn]

/-! ## The records of a name -/

theorem filter_namedRecords {w : Zone} {names : List Text} (hnd : names.Nodup) (name : Text) :
    ((namedRecords w names).filter fun x => decide (x.1 = name)).map Prod.snd =
      if name ∈ names then ((w.recordsAt name).filter fun r => !writtenAbove w name r).map (rewritten w) else [] := by
  induction names with
  | nil => rfl
  | cons n names ih =>
    obtain ⟨hn, hnd⟩ := nodup_cons.1 hnd
    have hsp : namedRecords w (n :: names) =
        ((w.recordsAt n).filter fun r => !writtenAbove w n r).map (fun r => (n, r.rewritten w)) ++
          namedRecords w names := rfl
    rw [hsp, filter_append, map_append, ih hnd]
    by_cases hnm : n = name
    · subst hnm
      simp [hn, filter_map, Function.comp_def]
    · have hne : name ≠ n := fun h => hnm h.symm
      simp [hnm, hne, filter_map, Function.comp_def]

theorem recordsAt_readBack (z : Zone) (name : Text) : z.readBack.recordsAt name =
    (if name = z.origin then apexRecords z else []) ++
      ((z.recordsAt name).filter fun r => !writtenAbove z name r).map (rewritten z) := by
  have hnd : (sortedNames z).Nodup := (perm_insertionSort _ _).nodup_iff.2 z.records.keys_nodup
  have hmem : name ∈ sortedNames z ↔ name ∈ z.records.keys := (perm_insertionSort _ _).mem_iff
  have hap : (((apexRecords z).map fun r => (z.origin, r)).filter fun x => decide (x.1 = name)).map Prod.snd =
      if name = z.origin then apexRecords z else [] := by
    by_cases h : name = z.origin
    · simp [h, filter_map, Function.comp_def]
    · have hne : z.origin ≠ name := fun h' => h h'.symm
      simp [h, hne, filter_map, Function.comp_def]
  show recordsOf (appendRecords ∅ _) name = _
  rw [recordsOf_appendRecords, filter_append, map_append, hap, filter_namedRecords hnd]
  change [] ++ _ = _
  rw [nil_append]
  congr 1
  split
  · rfl
  next hno =>
    have hnn : z.recordsAt name = [] := by
      rw [Zone.recordsAt, AList.lookup_eq_none.2 (mt hmem.2 hno)]
      rfl
    rw [hnn]
    rfl

instance (z : Zone) (ttl : UInt32) : Decidable (KeepsTTL z ttl) := inferInstanceAs (Decidable (_ → _))

instance (z : Zone) (name : Text) (r : Record) : Decidable (r.Plain z name) :=
  decidable_of_iff (Bare (relativize r.name z.origin) ∧ (relativize r.name z.origin).head? ≠ some '$' ∧
      (makeAbsolute (relativize r.name z.origin) z.origin).lower = name ∧ KeepsTTL z r.ttl ∧
      r.recordClass ∈ recordClasses ∧ r.type ∈ recordTypes ∧ r.type ≠ "SOA".toList ∧ r.type ≠ "NS".toList ∧
      if r.type ∈ quotedTypes then Quotable r.rdata else Spaced r.rdata)
    ⟨fun ⟨h₁, h₂, h₃, h₄, h₅, h₆, h₇, h₈, h₉⟩ => ⟨h₁, h₂, h₃, h₄, h₅, h₆, h₇, h₈, h₉⟩,
      fun h => ⟨h.owner, h.notControl, h.filed, h.ttl, h.cls, h.type, h.notSOA, h.notNS, h.rdata⟩⟩

def smallZone : Zone where
  origin := "e.".toList
  defaultTTL := 60
  soa := some ⟨"e.".toList, 60, "n.e.".toList, "h.e.".toList, 1, 2, 3, 4, 5⟩
  records := ((∅ : RecordMap).insert "t.e.".toList
    [⟨"t.e.".toList, 30, "IN".toList, "TXT".toList, "a; \"b\" (c)".toList⟩]).insert "e.".toList
    [⟨"e.".toList, 60, "IN".toList, "SOA".toList, "n.e. h.e. 1 2 3 4 5".toList⟩,
      ⟨"e.".toList, 60, "IN".toList, "NS".toList, "n.e.".toList⟩,
      ⟨"e.".toList, 60, "IN".toList, "MX".toList, "10 m.e.".toList⟩]
  ns := [⟨"e.".toList, 60, "n.e.".toList⟩]

theorem writable_smallZone : smallZone.Writable where
  origin := by decide
  lower := by decide
  soa s hs := by
    cases hs
    exact ⟨rfl, by decide, by decide, by decide⟩
  ns ns hns := by
    rw [mem_singleton.1 hns]
    exact ⟨rfl, by decide, by decide⟩
  apex := ⟨(smallZone.recordsAt smallZone.origin).take 2, (smallZone.recordsAt smallZone.origin).drop 2,
    (take_append_drop _ _).symm, by decide, by decide⟩
  records name r hr := by
    have hmem : name ∈ smallZone.records.keys := Zone.Owner.mem_keys (ne_nil_of_mem hr)
    have hall : ∀ n ∈ smallZone.records.keys, ∀ r ∈ smallZone.recordsAt n,
        writtenAbove smallZone n r = false → r.Plain smallZone n := by decide +kernel
    exact hall name hmem r hr
  ascii := by decide +kernel
  length := by decide +kernel

end NothingDNS
