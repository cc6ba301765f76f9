import NothingDNS.Zone.ZoneFile
/-!
# Lines the zone file parser reads back

What stands in a written line for itself (`Bare`, `Spaced`, `Quotable`), and what
a line does to the zone under construction (`Reads`): directives, and records
on one line.
-/

namespace NothingDNS

open List Text

def plainChar (c : Char) : Bool :=
  decide (Text.isSpace c = false ∧ c ≠ '"' ∧ c ≠ ';' ∧ c ≠ '(' ∧ c ≠ ')' ∧ c ≠ '\x00')

def Bare (t : Text) : Prop := t ≠ [] ∧ ∀ c ∈ t, plainChar c = true

instance (t : Text) : Decidable (Bare t) := @instDecidableAnd _ _ inferInstance (List.decidableBAll _ t)

variable {c : Char}

theorem plainChar_iff : plainChar c = true ↔
    isSpace c = false ∧ c ≠ '"' ∧ c ≠ ';' ∧ c ≠ '(' ∧ c ≠ ')' ∧ c ≠ '\x00' := decide_eq_true_iff

variable {t : Text}

theorem Bare.word (h : Bare t) : Text.Word t := ⟨h.1, fun c hc => (plainChar_iff.1 (h.2 c hc)).1⟩

theorem bare_decimal (n : Nat) : Bare (decimal n) := by
  refine ⟨decimal_ne_nil n, fun c hc => ?_⟩
  have hdg := decimal_digits n c hc
  have hne : ∀ d : Char, isDigit d = false → c ≠ d := by
    rintro d hd rfl
    rw [hd] at hdg
    cases hdg
  exact plainChar_iff.2 ⟨(isDigit_plain hdg).1, hne _ (by decide), hne _ (by decide), hne _ (by decide),
    hne _ (by decide), hne _ (by decide)⟩

theorem stripLoop_append (h : ∀ c ∈ t, c ≠ ';' ∧ c ≠ '"') (escape : Bool) (rest : Text) :
    ∃ escape', stripLoop false escape (t ++ rest) = t ++ stripLoop false escape' rest := by
  induction t generalizing escape with
  | nil => exact ⟨escape, rfl⟩
  | cons c t ih =>
    obtain ⟨hsm, hq⟩ := h c mem_cons_self
    have ih := ih fun d hd => h d (mem_cons_of_mem _ hd)
    have hst : ∃ escape', stripLoop false escape (c :: t ++ rest) = c :: stripLoop false escape' (t ++ rest) := by
      cases escape with
      | true => exact ⟨false, by simp [stripLoop]⟩
      | false =>
        by_cases hc : c = '\\'
        · exact ⟨true, by simp [stripLoop, hc]⟩
        · exact ⟨false, by simp [stripLoop, hc, hsm, hq]⟩
    obtain ⟨e1, h1⟩ := hst
    obtain ⟨e2, h2⟩ := ih e1
    exact ⟨e2, by rw [h1, h2, cons_append]⟩

theorem stripZoneComment_plain (h : ∀ c ∈ t, c ≠ ';' ∧ c ≠ '"') : stripZoneComment t = t := by
  obtain ⟨e, he⟩ := stripLoop_append h false []
  rw [append_nil] at he
  rw [stripZoneComment, he, stripLoop, append_nil]

theorem parseFieldsLoop_plain (h : ∀ c ∈ t, plainChar c = true) (current rest : Text) :
    parseFieldsLoop false false false current (t ++ rest) = parseFieldsLoop false false false (current ++ t) rest := by
  induction t generalizing current with
  | nil => simp
  | cons c t ih =>
    obtain ⟨hsp, hq, -, hop, hcl, -⟩ := plainChar_iff.1 (h c mem_cons_self)
    have hb : ¬ (c = ' ' ∨ c = '\t' ∨ c = '(') := by
      rintro (rfl | rfl | rfl)
      · cases hsp
      · cases hsp
      · exact hop rfl
    have ih := ih (fun d hd => h d (mem_cons_of_mem _ hd)) (current ++ [c])
    rw [append_assoc, singleton_append] at ih
    rw [cons_append, parseFieldsLoop, if_neg (by simp), if_neg hq, if_neg hb, if_neg hcl, ih]
    simp

theorem Bare.parseFields_cons (h : Bare t) {s : Char} (hs : s = ' ' ∨ s = '\t') (rest : Text) :
    parseFields (t ++ s :: rest) = t :: parseFields rest := by
  have hs' : s ≠ '\\' ∧ s ≠ '"' := by
    rcases hs with rfl | rfl <;> decide
  have hb : s = ' ' ∨ s = '\t' ∨ s = '(' := by
    rcases hs with h | h
    · exact .inl h
    · exact .inr (.inl h)
  rw [parseFields, parseFieldsLoop_plain h.2, nil_append, parseFieldsLoop, if_neg (by simp), if_neg hs'.1,
    if_neg hs'.2, if_pos hb, if_neg (by simp), flush, if_neg h.1]
  rfl

theorem Bare.parseFields_self (h : Bare t) : parseFields t = [t] := by
  have hlp := parseFieldsLoop_plain h.2 [] []
  rw [append_nil, nil_append] at hlp
  rw [parseFields, hlp, parseFieldsLoop, if_neg (by simp), flush, if_neg h.1]

theorem parseFields_unwords {ws : List Text} (h : ∀ w ∈ ws, Bare w) : parseFields (unwords ws) = ws := by
  induction ws with
  | nil => rfl
  | cons w ws ih =>
    have hw := h w mem_cons_self
    cases ws with
    | nil => exact hw.parseFields_self
    | cons v ws => rw [unwords_cons_cons, hw.parseFields_cons (.inl rfl), ih fun u hu => h u (mem_cons_of_mem _ hu)]

/-! ## Quoted strings -/

def escapeChar (r : Char) : Text := if r = '\\' ∨ r = '"' then ['\\', r] else [r]

theorem quoteZoneCharacterString_eq (s : Text) :
    quoteZoneCharacterString s = '"' :: (s.flatMap escapeChar ++ ['"']) := rfl

theorem stripLoop_escaped (s rest : Text) :
    stripLoop true false (s.flatMap escapeChar ++ rest) = s.flatMap escapeChar ++ stripLoop true false rest := by
  induction s with
  | nil => rfl
  | cons c s ih =>
    rw [flatMap_cons, append_assoc, append_assoc, ← ih, escapeChar]
    split
    next h =>
      rcases h with rfl | rfl <;> simp [stripLoop]
    next h =>
      have hb : ¬ c = '\\' := fun h' => h (.inl h')
      have hq : ¬ c = '"' := fun h' => h (.inr h')
      simp [stripLoop, hb, hq]

theorem parseFieldsLoop_escaped (s current rest : Text) :
    parseFieldsLoop true false false current (s.flatMap escapeChar ++ rest) =
      parseFieldsLoop true false false (current ++ s) rest := by
  induction s generalizing current with
  | nil => simp
  | cons c s ih =>
    have hc : parseFieldsLoop true false false current (escapeChar c ++ (s.flatMap escapeChar ++ rest)) =
        parseFieldsLoop true false false (current ++ [c]) (s.flatMap escapeChar ++ rest) := by
      rw [escapeChar]
      split
      next h =>
        rcases h with rfl | rfl <;> simp [parseFieldsLoop]
      next h =>
        have hb : ¬ c = '\\' := fun h' => h (.inl h')
        have hq : ¬ c = '"' := fun h' => h (.inr h')
        simp [parseFieldsLoop, hb, hq]
    rw [flatMap_cons, append_assoc, hc, ih, append_assoc, singleton_append]

theorem parseFields_quoted (s : Text) : parseFields (quoteZoneCharacterString s) = [s] := by
  rw [quoteZoneCharacterString_eq, parseFields, parseFieldsLoop, if_neg (by simp), if_neg (by decide), if_pos rfl,
    if_neg (by simp), if_neg (by simp), flush, if_pos rfl, parseFieldsLoop_escaped, nil_append]
  simp [parseFieldsLoop, flush]

theorem stripZoneComment_quoted (h : ∀ c ∈ t, c ≠ ';' ∧ c ≠ '"') (s : Text) :
    stripZoneComment (t ++ '\t' :: quoteZoneCharacterString s) = t ++ '\t' :: quoteZoneCharacterString s := by
  have hb : stripLoop false false (quoteZoneCharacterString s) = quoteZoneCharacterString s := by
    rw [quoteZoneCharacterString_eq, stripLoop, if_neg (by simp), if_neg (by decide), if_pos rfl, Bool.not_false,
      stripLoop_escaped]
    simp [stripLoop]
  obtain ⟨e, he⟩ := stripLoop_append h false ('\t' :: quoteZoneCharacterString s)
  rw [stripZoneComment, he]
  cases e <;> simp [stripLoop, hb]

/-! ## The fields before the data -/

theorem upper_decimal (n : Nat) : (decimal n).upper = decimal n := by
  rw [upper, map_congr_left fun c hc => (isDigit_plain (decimal_digits n c hc)).2.2, map_id']

theorem Bare.trimSpace (h : Bare t) : trimSpace t = t :=
  trimSpace_eq_self (fun c hc => h.word.2 c (mem_of_head? hc)) fun c hc => h.word.2 c (mem_of_getLast? hc)

theorem parseUint_decimal (n : UInt32) : parseUint (decimal n.toNat) = some n.toNat := by
  rw [parseUint, if_neg (decimal_ne_nil _)]
  exact parseUint32_decimal n

theorem parseTTL_decimal (n : UInt32) : parseTTL (decimal n.toNat) = some n := by
  have hmx : ¬ (0 < n.toNat ∧ maxUint32 / 1 < n.toNat) := by
    have := n.toNat_lt
    rw [maxUint32]
    omega
  unfold parseTTL
  rw [(bare_decimal _).trimSpace, upper_decimal, if_neg (decimal_ne_nil _), ttlSuffix_decimal]
  dsimp only
  rw [parseUint_decimal, Option.bind_some, if_neg hmx, Nat.mul_one, UInt32.ofNat_toNat]

theorem isType_decimal (n : Nat) : isType (decimal n) = false := by
  have hlr : ∀ t ∈ recordTypes, (t.all isDigit) = false := by decide +kernel
  rw [isType, upper_decimal, decide_eq_false_iff_not]
  intro hmem
  have hd := all_eq_true.2 (decimal_digits n)
  rw [hlr _ hmem] at hd
  cases hd

theorem upper_recordType (h : t ∈ recordTypes) : t.upper = t := by
  have hall : ∀ t ∈ recordTypes, t.upper = t := by decide +kernel
  exact hall t h

theorem scanHead_written (ttl : UInt32) {cls type : Text} (hcs : cls ∈ recordClasses) (hty : type ∈ recordTypes)
    (rdata : List Text) :
    scanHead none "IN".toList (decimal ttl.toNat :: cls :: type :: rdata) = some (some ttl, cls, type, rdata) := by
  have hcl : ∀ c ∈ recordClasses, isType c = false ∧ parseTTL c = none ∧ isClass c = true ∧ c.upper = c := by
    decide +kernel
  have htp : ∀ t ∈ recordTypes, isType t = true := by decide +kernel
  obtain ⟨h1, h2, h3, h4⟩ := hcl cls hcs
  simp [scanHead, isType_decimal, parseTTL_decimal, h1, h2, h3, h4, htp type hty, upper_recordType hty]

/-- **A line with all its fields** becomes the record they spell. -/
theorem parseRecordOwned_of_fields {line owner cls type : Text} {ttl : UInt32} {rdata : List Text}
    (hst : stripZoneComment line = line) (htr : trimSpace line = line)
    (hfl : parseFields line = owner :: decimal ttl.toNat :: cls :: type :: rdata)
    (hcl : cls ∈ recordClasses) (hty : type ∈ recordTypes) (p : Parser) :
    parseRecordOwned p line false = (storeRecord p.zone ⟨owner, ttl, cls, type, unwords rdata⟩).map fun z =>
      { p with zone := z, lastOwner := owner } := by
  have hne : line ≠ [] := by
    rintro rfl
    cases hfl
  have hlen : ¬ (owner :: decimal ttl.toNat :: cls :: type :: rdata).length < 2 := by
    simp only [length_cons]
    omega
  unfold parseRecordOwned
  dsimp only
  rw [hst, htr, if_neg hne, hfl, if_neg hlen, if_neg Bool.false_ne_true, if_neg Bool.false_ne_true,
    tail_cons, scanHead_written ttl hcl hty]
  rfl

theorem parseRecordOwned_unwords {owner cls type : Text} {ttl : UInt32} {rdata : List Text}
    (hb : ∀ w ∈ owner :: decimal ttl.toNat :: cls :: type :: rdata, Bare w)
    (hcl : cls ∈ recordClasses) (hty : type ∈ recordTypes) (p : Parser) :
    parseRecordOwned p (unwords (owner :: decimal ttl.toNat :: cls :: type :: rdata)) false =
      (storeRecord p.zone ⟨owner, ttl, cls, type, unwords rdata⟩).map fun z =>
        { p with zone := z, lastOwner := owner } := by
  have hp : ∀ c ∈ unwords (owner :: decimal ttl.toNat :: cls :: type :: rdata), c ≠ ';' ∧ c ≠ '"' := by
    intro c hc
    rcases mem_unwords hc with rfl | ⟨w, hw, hcw⟩
    · decide
    · obtain ⟨-, hq, hsm, -⟩ := plainChar_iff.1 ((hb w hw).2 c hcw)
      exact ⟨hsm, hq⟩
  have how := hb owner mem_cons_self
  refine parseRecordOwned_of_fields (stripZoneComment_plain hp) (trimSpace_eq_self ?_ ?_)
    (parseFields_unwords hb) hcl hty p
  · intro c hc
    rw [unwords_cons_cons, head?_append_of_ne_nil _ how.1] at hc
    exact how.word.2 c (mem_of_head? hc)
  · intro c hc
    exact getLast?_unwords (fun w hw => (hb w hw).word) hc

theorem fields_tabbed {owner ttl cls type : Text} (ho : Bare owner) (ht : Bare ttl) (hc : Bare cls) (hy : Bare type)
    (rdata : Text) : parseFields (tabbed owner ttl cls type rdata) = owner :: ttl :: cls :: type :: parseFields rdata := by
  rw [tabbed, ho.parseFields_cons (.inr rfl), ht.parseFields_cons (.inr rfl), hc.parseFields_cons (.inr rfl),
    hy.parseFields_cons (.inr rfl)]

/-! ## What is written and read back -/

def Spaced (t : Text) : Prop := t = Text.unwords (Text.words t) ∧ ∀ w ∈ Text.words t, Bare w

instance (t : Text) : Decidable (Spaced t) := inferInstanceAs (Decidable (_ ∧ _))

/-- Data that a character string holds: one line, and no opening parenthesis without a closing one. -/
def Quotable (t : Text) : Prop :=
  (∀ c ∈ t, c ≠ '\n' ∧ c ≠ '\r' ∧ c ≠ '\x00') ∧ ('(' ∈ t → ')' ∈ t)

instance (t : Text) : Decidable (Quotable t) := @instDecidableAnd _ _ (List.decidableBAll _ t) inferInstance

def KeepsTTL (z : Zone) (ttl : UInt32) : Prop := ttl = 0 → z.defaultTTL = 0

theorem KeepsTTL.written {z : Zone} {ttl : UInt32} (h : KeepsTTL z ttl) : writtenTTL z ttl = decimal ttl.toNat := by
  rw [writtenTTL]
  split
  next h0 => rw [h h0, h0]
  next => rfl

/-- A record in the map under `name` whose line says what it is. -/
structure Record.Plain (z : Zone) (name : Text) (r : Record) : Prop where
  owner : Bare (relativize r.name z.origin)
  notControl : (relativize r.name z.origin).head? ≠ some '$'
  filed : (makeAbsolute (relativize r.name z.origin) z.origin).lower = name
  ttl : KeepsTTL z r.ttl
  cls : r.recordClass ∈ recordClasses
  type : r.type ∈ recordTypes
  notSOA : r.type ≠ "SOA".toList
  notNS : r.type ≠ "NS".toList
  rdata : if r.type ∈ quotedTypes then Quotable r.rdata else Spaced r.rdata

def Record.rewritten (z : Zone) (r : Record) : Record := { r with name := relativize r.name z.origin }

theorem strip_eq_self (h : ∀ c ∈ t, c ≠ '\n' ∧ c ≠ '\r' ∧ c ≠ '\x00') : stripZoneControlChars t = t := by
  rw [stripZoneControlChars, filter_eq_self]
  intro c hc
  exact decide_eq_true (h c hc)

theorem plainChar_control (h : plainChar c = true) : c ≠ '\n' ∧ c ≠ '\r' ∧ c ≠ '\x00' := by
  obtain ⟨hsp, -, -, -, -, hnl⟩ := plainChar_iff.1 h
  refine ⟨?_, ?_, hnl⟩ <;> rintro rfl <;> cases hsp

theorem Spaced.mem (h : Spaced t) (hc : c ∈ t) : c = ' ' ∨ plainChar c = true := by
  rw [h.1] at hc
  rcases mem_unwords hc with rfl | ⟨w, hw, hcw⟩
  · exact .inl rfl
  · exact .inr ((h.2 w hw).2 c hcw)

theorem Spaced.strip (h : Spaced t) : stripZoneControlChars t = t := by
  refine strip_eq_self fun c hc => ?_
  rcases h.mem hc with rfl | hc
  · decide
  · exact plainChar_control hc

theorem Spaced.parseFields (h : Spaced t) : unwords (parseFields t) = t := by
  rw [h.1, parseFields_unwords h.2]

structure Tail (d : Text) : Prop where
  last : ∀ c, d.getLast? = some c → Text.isSpace c = false
  closed : '(' ∈ d → ')' ∈ d
  strip : ∀ t : Text, (∀ c ∈ t, c ≠ ';' ∧ c ≠ '"') → stripZoneComment (t ++ '\t' :: d) = t ++ '\t' :: d

theorem Spaced.tail {d : Text} (h : Spaced d) : Tail d where
  last c hc := by
    rw [h.1] at hc
    exact getLast?_unwords (fun w hw => (h.2 w hw).word) hc
  closed hop := by
    rcases h.mem hop with hc | hc
    · cases hc
    · exact absurd hc (by decide)
  strip t ht := by
    refine stripZoneComment_plain fun c hc => ?_
    rcases mem_append.1 hc with hc | hc
    · exact ht c hc
    rcases mem_cons.1 hc with rfl | hc
    · decide
    rcases h.mem hc with rfl | hc
    · decide
    · exact ⟨(plainChar_iff.1 hc).2.2.1, (plainChar_iff.1 hc).2.1⟩

theorem mem_quoted {s : Text} (hc : c ≠ '"') (hb : c ≠ '\\') : c ∈ quoteZoneCharacterString s ↔ c ∈ s := by
  have hec : ∀ x, c ∈ escapeChar x ↔ c = x := by
    intro x
    rw [escapeChar]
    split <;> simp [hb]
  simp [quoteZoneCharacterString_eq, hc, hec]

theorem Quotable.tail {s : Text} (h : Quotable s) : Tail (quoteZoneCharacterString s) where
  last c hc := by
    rw [quoteZoneCharacterString_eq, ← cons_append, getLast?_append, getLast?_singleton, Option.some_or] at hc
    cases hc
    decide
  closed hop := (mem_quoted (by decide) (by decide)).2 (h.2 ((mem_quoted (by decide) (by decide)).1 hop))
  strip t ht := stripZoneComment_quoted ht s

theorem bare_class {cls : Text} (h : cls ∈ recordClasses) : Bare cls := by
  have hall : ∀ c ∈ recordClasses, Bare c := by decide
  exact hall cls h

theorem bare_type {type : Text} (h : type ∈ recordTypes) : Bare type := by
  have hall : ∀ t ∈ recordTypes, Bare t := by decide +kernel
  exact hall type h

def lineHead (owner ttl cls type : Text) : Text := owner ++ '\t' :: (ttl ++ '\t' :: (cls ++ '\t' :: type))

theorem tabbed_eq (owner ttl cls type d : Text) : tabbed owner ttl cls type d = lineHead owner ttl cls type ++ '\t' :: d := by
  simp [tabbed, lineHead]

theorem getLast?_lineHead {owner ttl cls type : Text} (hy : Bare type)
    (h : (lineHead owner ttl cls type).getLast? = some c) : isSpace c = false := by
  have hls : (lineHead owner ttl cls type).getLast? = type.getLast? := by
    simp [lineHead, getLast?_append, getLast?_cons, getLast?_eq_some_getLast hy.1]
  rw [hls] at h
  exact hy.word.2 c (mem_of_getLast? h)

theorem head?_lineHead_append {owner : Text} (ho : Bare owner) (ttl cls type rest : Text) : (lineHead owner ttl cls type ++ rest).head? = owner.head? := by
  rw [lineHead, append_assoc, head?_append_of_ne_nil _ ho.1]

section line

variable {owner ttl cls type : Text} (ho : Bare owner) (ht : Bare ttl) (hc : Bare cls) (hy : Bare type)

include ho ht hc hy

theorem mem_lineHead {c : Char} (h : c ∈ lineHead owner ttl cls type) : c = '\t' ∨ plainChar c = true := by
  simp only [lineHead, mem_append, mem_cons] at h
  rcases h with h | h | h | h | h | h | h
  · exact .inr (ho.2 c h)
  · exact .inl h
  · exact .inr (ht.2 c h)
  · exact .inl h
  · exact .inr (hc.2 c h)
  · exact .inl h
  · exact .inr (hy.2 c h)

theorem lineHead_plain : ∀ c ∈ lineHead owner ttl cls type, c ≠ ';' ∧ c ≠ '"' := by
  intro c hmem
  rcases mem_lineHead ho ht hc hy hmem with rfl | hp
  · decide
  · exact ⟨(plainChar_iff.1 hp).2.2.1, (plainChar_iff.1 hp).2.1⟩

theorem paren_not_mem_lineHead : '(' ∉ lineHead owner ttl cls type := by
  intro hmem
  rcases mem_lineHead ho ht hc hy hmem with h | h
  · cases h
  · exact absurd h (by decide)

theorem trimmed_line {d : Text} (hd : Tail d) :
    ∃ line, trimSpace (tabbed owner ttl cls type d) = line ∧ line.head? = owner.head? ∧
      trimSpace line = line ∧ stripZoneComment line = line ∧ ('(' ∈ line → ')' ∈ line) ∧
      parseFields line = owner :: ttl :: cls :: type :: parseFields d := by
  have hfr : ∀ rest c, (lineHead owner ttl cls type ++ rest).head? = some c → isSpace c = false := by
    intro rest c h
    rw [head?_lineHead_append ho _ _ _] at h
    exact ho.word.2 c (mem_of_head? h)
  by_cases hnil : d = []
  · -- nothing after the last tab, which goes with the trimming
    subst hnil
    have hsl := trimSpace_eq_self (fun c h => hfr [] c (by rwa [append_nil]))
        fun c h => getLast?_lineHead hy h
    refine ⟨lineHead owner ttl cls type, ?_, ?_, hsl, stripZoneComment_plain (lineHead_plain ho ht hc hy), ?_, ?_⟩
    · rw [tabbed_eq, trimSpace_append_space (by decide), hsl]
    · have := head?_lineHead_append ho ttl cls type []
      rwa [append_nil] at this
    · intro h
      exact absurd h (paren_not_mem_lineHead ho ht hc hy)
    · rw [lineHead, ho.parseFields_cons (.inr rfl), ht.parseFields_cons (.inr rfl), hc.parseFields_cons (.inr rfl),
        hy.parseFields_self]
      rfl
  have hsl : trimSpace (tabbed owner ttl cls type d) = tabbed owner ttl cls type d := by
    rw [tabbed_eq]
    refine trimSpace_eq_self (hfr _) fun c h => ?_
    rw [getLast?_append, getLast?_cons, getLast?_eq_some_getLast hnil] at h
    refine hd.last c ?_
    rw [getLast?_eq_some_getLast hnil]
    simpa using h
  refine ⟨_, hsl, ?_, hsl, ?_, ?_, fields_tabbed ho ht hc hy d⟩
  · rw [tabbed_eq]
    exact head?_lineHead_append ho _ _ _ _
  · rw [tabbed_eq]
    exact hd.strip _ (lineHead_plain ho ht hc hy)
  · rw [tabbed_eq]
    intro h
    rcases mem_append.1 h with h | h
    · exact absurd h (paren_not_mem_lineHead ho ht hc hy)
    rcases mem_cons.1 h with h | h
    · cases h
    · exact mem_append.2 (.inr (mem_cons_of_mem _ (hd.closed h)))

end line

/-! ## Lines in sequence -/

section reads

variable (inc : Parser → List Text → Except ParseError Parser)

/-- From a parser state with `P` the lines `ls` lead to one with `Q`. -/
def Feeds (P : Parser → Prop) (ls : List Text) (Q : Parser → Prop) : Prop :=
  ∀ p, P p → ∃ p', parseLines inc p (ls.map some) = .ok p' ∧ Q p'

/-- The parser is between two records and has read `z` so far. -/
def Between (z : Zone) (p : Parser) : Prop := p.parenDepth = 0 ∧ p.zone = z

/-- Between records, the lines `ls` turn the zone `z` into `z'`. -/
def Reads (ls : List Text) (z z' : Zone) : Prop := Feeds inc (Between z) ls (Between z')

variable {inc} {z z₁ z₂ z₃ : Zone} {ls ls' : List Text} {P Q R : Parser → Prop}

theorem parseLines_append {p p' : Parser} (h : parseLines inc p (ls.map some) = .ok p') (rest : List (Option Text)) :
    parseLines inc p (ls.map some ++ rest) = parseLines inc p' rest := by
  induction ls generalizing p with
  | nil =>
    cases h
    rfl
  | cons l ls ih =>
    rw [map_cons, parseLines] at h
    rw [map_cons, cons_append, parseLines]
    cases hst : parseLine inc { p with lineNum := p.lineNum + 1 } l with rw [hst] at h
    | error e =>
      cases h
    | ok q =>
      exact ih h

theorem Feeds.append (h₁ : Feeds inc P ls Q) (h₂ : Feeds inc Q ls' R) : Feeds inc P (ls ++ ls') R := by
  intro p hp
  obtain ⟨q, hq, hQ⟩ := h₁ p hp
  obtain ⟨r, hr, hR⟩ := h₂ q hQ
  refine ⟨r, ?_, hR⟩
  rw [map_append, parseLines_append hq]
  exact hr

theorem Feeds.single {l : Text} (hnm : ∀ p n, P p → P { p with lineNum := n })
    (h : ∀ p, P p → ∃ p', parseLine inc p l = .ok p' ∧ Q p') : Feeds inc P [l] Q := by
  intro p hp
  obtain ⟨p', hl, hQ⟩ := h { p with lineNum := p.lineNum + 1 } (hnm p _ hp)
  refine ⟨p', ?_, hQ⟩
  rw [map_singleton, parseLines, hl]
  rfl

theorem Reads.nil (z : Zone) : Reads inc [] z z := fun p hp => ⟨p, rfl, hp⟩

theorem Reads.append (h₁ : Reads inc ls z₁ z₂) (h₂ : Reads inc ls' z₂ z₃) : Reads inc (ls ++ ls') z₁ z₃ :=
  Feeds.append h₁ h₂

theorem Reads.single {l : Text} (h : ∀ p : Parser, p.parenDepth = 0 → p.zone = z₁ →
    ∃ p' : Parser, parseLine inc p l = .ok p' ∧ p'.parenDepth = 0 ∧ p'.zone = z₂) : Reads inc [l] z₁ z₂ :=
  Feeds.single (fun _ _ hp => hp) fun p hp => h p hp.1 hp.2

theorem Reads.blank (z : Zone) : Reads inc [[]] z z := by
  refine .single fun p hp hz => ⟨p, ?_, hp, hz⟩
  unfold parseLine
  rw [if_neg (by rw [hp]; decide), if_pos (.inl rfl)]

theorem Reads.tabbed {owner cls type d : Text} {ttl : UInt32} (ho : Bare owner) (hdl : owner.head? ≠ some '$')
    (hcl : cls ∈ recordClasses) (hty : type ∈ recordTypes) (hd : Tail d)
    (hst : storeRecord z₁ ⟨owner, ttl, cls, type, unwords (parseFields d)⟩ = .ok z₂) :
    Reads inc [tabbed owner (decimal ttl.toNat) cls type d] z₁ z₂ := by
  obtain ⟨c, owner', rfl⟩ := exists_cons_of_ne_nil ho.1
  obtain ⟨hsp, -, hsm, -⟩ := plainChar_iff.1 (ho.2 c mem_cons_self)
  obtain ⟨line, htr, hh, ht', hsr, hpr, hfl⟩ :=
    trimmed_line ho (bare_decimal ttl.toNat) (bare_class hcl) (bare_type hty) hd
  have hne : ¬ (line = [] ∨ line.head? = some ';') := by
    rintro (rfl | h)
    · cases hh
    · rw [hh] at h
      cases h
      exact hsm rfl
  have hind : indented (NothingDNS.tabbed (c :: owner') (decimal ttl.toNat) cls type d) = false := by
    rw [indented, decide_eq_false_iff_not]
    rintro (h | h) <;> cases h <;> cases hsp
  refine .single fun p hp hz => ?_
  subst hz
  refine ⟨{ p with zone := z₂, lastOwner := c :: owner' }, ?_, hp, rfl⟩
  unfold parseLine
  dsimp only
  rw [htr, if_neg (by rw [hp]; decide), if_neg hne, if_neg (by rwa [hh]),
    if_neg fun h => h.2 (hpr h.1), hind, parseRecordOwned_of_fields hsr ht' hfl hcl hty, hst]
  rfl

def Absolute (t : Text) : Prop := Bare t ∧ ['.'] <:+ t

instance (t : Text) : Decidable (Absolute t) := inferInstanceAs (Decidable (_ ∧ _))

omit inc in
theorem Absolute.canonicalize {t : Text} (h : Absolute t) : canonicalize t = t :=
  canonicalize_eq_self h.2 fun c hc => h.1.word.2 c (mem_of_head? hc)

omit inc in
theorem Absolute.makeAbsolute {t : Text} (h : Absolute t) (origin : Text) : makeAbsolute t origin = t := by
  have hat : ¬ (t = [] ∨ t = ['@']) := by
    rintro (rfl | rfl)
    · exact h.1.1 rfl
    · exact absurd h.2 (by decide)
  unfold NothingDNS.makeAbsolute
  rw [h.1.trimSpace, if_neg hat, if_pos h.2]

theorem Reads.control (directive : Text) {arg : Text} {f : Zone → Zone} (ha : Bare arg)
    (h : ∀ p : Parser, handleControl inc p ('$' :: directive ++ ' ' :: arg) = .ok { p with zone := f p.zone })
    (z : Zone) : Reads inc ['$' :: directive ++ ' ' :: arg] z (f z) := by
  have htr : trimSpace ('$' :: directive ++ ' ' :: arg) = '$' :: directive ++ ' ' :: arg := by
    refine trimSpace_eq_self ?_ ?_
    · rintro c h
      cases h
      decide
    · intro c hc
      rw [getLast?_append, getLast?_cons, getLast?_eq_some_getLast ha.1] at hc
      refine ha.word.2 c (mem_of_getLast? ?_)
      rw [getLast?_eq_some_getLast ha.1]
      simpa using hc
  refine .single fun p hp hz => ⟨{ p with zone := f p.zone }, ?_, hp, by rw [← hz]⟩
  unfold parseLine
  rw [htr, if_neg (by rw [hp]; decide), if_neg (by simp), if_pos (by simp), h]
  rfl

theorem Reads.origin {origin : Text} (ho : Absolute origin) (z : Zone) :
    Reads inc ["$ORIGIN ".toList ++ origin] z { z with origin := origin } := by
  have hwr : Text.Word "$ORIGIN".toList := by decide
  have hw : words ("$ORIGIN".toList ++ ' ' :: origin) = ["$ORIGIN".toList, origin] := by
    rw [hwr.words_cons (by decide), ho.1.word.words_self]
  have hcn : ∀ p : Parser, handleControl inc p ("$ORIGIN".toList ++ ' ' :: origin) =
      .ok { p with zone := { p.zone with origin := origin } } := by
    intro p
    unfold handleControl
    rw [hw]
    dsimp only
    rw [if_pos (by decide), ho.canonicalize]
  exact Reads.control (f := fun z => { z with origin := origin }) "ORIGIN".toList ho.1 hcn z

theorem Reads.defaultTTL (ttl : UInt32) (z : Zone) :
    Reads inc ["$TTL ".toList ++ decimal ttl.toNat] z { z with defaultTTL := ttl } := by
  have hwr : Text.Word "$TTL".toList := by decide
  have hw : words ("$TTL".toList ++ ' ' :: decimal ttl.toNat) = ["$TTL".toList, decimal ttl.toNat] := by
    rw [hwr.words_cons (by decide), (bare_decimal _).word.words_self]
  have hcn : ∀ p : Parser, handleControl inc p ("$TTL".toList ++ ' ' :: decimal ttl.toNat) =
      .ok { p with zone := { p.zone with defaultTTL := ttl } } := by
    intro p
    unfold handleControl
    rw [hw]
    dsimp only
    rw [if_neg (by decide), if_pos (by decide)]
    simp only [parseTTL_decimal]
  exact Reads.control (f := fun z => { z with defaultTTL := ttl }) "TTL".toList (bare_decimal _) hcn z

end reads

end NothingDNS
