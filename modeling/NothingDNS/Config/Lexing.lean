import NothingDNS.Config.Stream
/-!
# The tokenizer on the lines of a document

The tokenizer gives the `stream` of the lines it reads, provided the indentations nest.
-/

namespace NothingDNS.Config

open List NothingDNS.Config.Tokenizer

def mid (s : Text) (col : Nat) (S : List Nat) : Tokenizer := ⟨s, col, S, false, []⟩

def atStart (s : Text) (S : List Nat) : Tokenizer := ⟨s, 1, S, true, []⟩

section Inside

variable {s r : Text} {col L : Nat} {S : List Nat} {tok : Token} {t : Tokenizer} {st : Stream}

theorem yields_congr {t' : Tokenizer} (h : t.nextToken = t'.nextToken) (ht : t'.Yields st) : t.Yields st := by
  cases st with
  | nil => trivial
  | cons x st =>
    rw [Tokenizer.Yields, h]
    exact ht

theorem nextToken_mid (hs : s ≠ []) : (mid s col S).nextToken = (mid s col S).readToken := by
  rw [nextToken]
  simp [mid, hs]

theorem yields_mid (hs : s ≠ []) (h : (mid s col S).readToken = (tok, t)) (htk : tok.type ≠ .comment)
    (hL : t.currentIndent = L) (ht : t.Yields st) : (mid s col S).Yields ((tok, L) :: st) := by
  have hnx : (mid s col S).nextToken = (tok, t) := (nextToken_mid hs).trans h
  refine ⟨by rw [hnx], htk, ?_, ?_⟩ <;> rw [hnx] <;> assumption

variable {c : Char}

theorem skipSpaces_mid (hc : c ≠ ' ' ∧ c ≠ '\t') : (mid (c :: r) col S).skipSpaces = mid (c :: r) col S := by
  have hfl : (decide (c = ' ' ∨ c = '\t')) = false := by simp [hc.1, hc.2]
  simp only [skipSpaces, skipWhile, mid, dropWhile_cons, takeWhile_cons, hfl]
  rfl

theorem readToken_space (s : Text) (col : Nat) (S : List Nat) :
    (mid (' ' :: s) col S).readToken = (mid s (col + 1) S).readToken := by
  have hsk : (mid (' ' :: s) col S).skipSpaces = (mid s (col + 1) S).skipSpaces := by
    simp only [skipSpaces, skipWhile, mid, dropWhile_cons, takeWhile_cons, true_or, decide_true, if_true,
      length_cons, Tokenizer.mk.injEq, and_true, true_and]
    omega
  rw [readToken, readToken, hsk]

theorem readToken_newline (r : Text) (col : Nat) (S : List Nat) :
    (mid ('\n' :: r) col S).readToken = (newline, atStart r S) := by
  rw [readToken, skipSpaces_mid (by decide)]
  rfl

theorem readToken_colon (r : Text) (col : Nat) (S : List Nat) :
    (mid (':' :: r) col S).readToken = (⟨.colon, [':'], col⟩, mid r (col + 1) S) := by
  rw [readToken, skipSpaces_mid (by decide)]
  rfl

theorem readToken_minus (r : Text) (col : Nat) (S : List Nat) :
    (mid ('-' :: r) col S).readToken = if isNumberStart ('-' :: r) then (mid ('-' :: r) col S).readNumber
      else (dash col, mid r (col + 1) S) := by
  rw [readToken, skipSpaces_mid (by decide)]
  rfl

theorem readToken_dash (hc : isBlank c) (r : Text) (col : Nat) (S : List Nat) :
    (mid ('-' :: c :: r) col S).readToken = (dash col, mid (c :: r) (col + 1) S) := by
  have hnm : isNumberStart ('-' :: c :: r) = false := by
    have : isDigit c = false ∧ c ≠ '.' := by
      simp only [isBlank, isBreak, Bool.decide_or, Bool.or_eq_true, decide_eq_true_eq] at hc
      obtain rfl | rfl | rfl | rfl := hc <;> decide
    simp [isNumberStart, this.1, this.2]
  rw [readToken_minus, hnm, if_neg (by simp)]

/-- A scalar ends at the end of its line, or at a colon with a blank behind it. -/
def Stops (r : Text) : Prop := (∃ r', r = '\n' :: r') ∨ ∃ c r', r = ':' :: c :: r' ∧ isBlank c

theorem scalarSpan_plain (hr : Stops r) :
    ∀ {s : Text} (prev : Option Char), plainText s → scalarSpan prev false (s ++ r) = s
  | [], prev, _ => by
    obtain ⟨r', rfl⟩ | ⟨c, r', rfl, hc⟩ := hr
    · rfl
    · simp [scalarSpan, hc, nul, isBreak]
  | c :: s, prev, h => by
    simp only [plainText, Bool.and_eq_true, Bool.not_eq_true', Bool.or_eq_false_iff, decide_eq_false_iff_not,
      Bool.and_eq_false_iff] at h
    obtain ⟨⟨⟨⟨⟨⟨⟨⟨⟨hnl, hbr⟩, hh⟩, hcm⟩, hlb⟩, hrb⟩, hlc⟩, hrc⟩, hcl⟩, hs⟩ := h
    have hsp : ¬(c = ':' ∧ (isBlank ((s ++ r).headD nul) ∨ (s ++ r).headD nul = nul)) := by
      rintro ⟨rfl, hb⟩
      obtain ⟨hne, hbl⟩ := hcl.resolve_left (by simp)
      cases s with
      | nil => cases hne
      | cons d s =>
        simp only [plainText, Bool.and_eq_true, Bool.not_eq_true', Bool.or_eq_false_iff, decide_eq_false_iff_not] at hs
        simp only [cons_append, headD_cons] at hb hbl
        rw [hbl] at hb
        exact hb.elim (by simp) hs.1.1.1.1.1.1.1.1.1
    rw [cons_append, scalarSpan]
    simp only [hnl, hbr, hh, hcm, hlb, hrb, hlc, hrc, hsp, or_self, false_and, Bool.false_eq_true,
      if_false, scalarSpan_plain hr (some c) hs]

def starters : List Char := [' ', '\t', '\n', '\r', '#', ':', '-', ',', '\x7b', '\x7d', '[', ']', '|', '>', '!', '&', '*',
  doubleQuote, singleQuote]

theorem readToken_ordinary (hc : c ∉ starters) (r : Text) (col : Nat) (S : List Nat) : (mid (c :: r) col S).readToken
      = if isNumberStart (c :: r) then (mid (c :: r) col S).readNumber else (mid (c :: r) col S).readScalar := by
  simp only [starters, mem_cons, not_mem_nil, or_false, not_or] at hc
  obtain ⟨h1, h2, h3, h4, h5, h6, h7, h8, h9, h10, h11, h12, h13, h14, h15, h16, h17, h18, h19⟩ := hc
  rw [readToken, skipSpaces_mid ⟨h1, h2⟩]
  simp only [mid, peek, headD_cons, isBreak, reduceCtorEq, if_false, *, or_self, decide_false, Bool.false_eq_true]
  rfl

theorem readScalar_mid (hr : Stops r) (hs : plainText s) (htr : Text.trimSpace s = s) (col : Nat) (S : List Nat) :
    (mid (s ++ r) col S).readScalar = (⟨(scalarOf s).1, (scalarOf s).2, col⟩, mid r (col + s.length) S) := by
  simp [readScalar, mid, scalarSpan_plain hr none hs, htr]

theorem numberTail_newline (r : Text) : ∀ (dots : Nat) (u : Text),
    numberTail dots (u ++ '\n' :: r) = numberTail dots (u ++ ['\n'])
  | _, [] => rfl
  | dots, c :: u => by
    have hnil : (u ++ '\n' :: r = []) ↔ (u ++ ['\n'] = []) := by simp
    rw [cons_append, cons_append, numberTail, numberTail]
    simp [hnil, numberTail_newline r _ u]

theorem dropWhile_newline (r : Text) : ∀ u : Text, (u ++ '\n' :: r).dropWhile isDigit = u.dropWhile isDigit ++ '\n' :: r
  | [] => rfl
  | c :: u => by
    rw [cons_append, dropWhile_cons, dropWhile_cons, dropWhile_newline r u]
    split <;> rfl

theorem takeWhile_newline (r : Text) : ∀ u : Text, (u ++ '\n' :: r).takeWhile isDigit = u.takeWhile isDigit
  | [] => rfl
  | c :: u => by
    rw [cons_append, takeWhile_cons, takeWhile_cons, takeWhile_newline r u]

theorem isNumberStart_newline (s r : Text) : isNumberStart (s ++ '\n' :: r) = startsNumber s := by
  unfold startsNumber
  match s with
  | [] => rfl
  | [c] =>
    simp only [cons_append, nil_append, isNumberStart]
    rfl
  | c :: d :: u =>
    simp only [cons_append, isNumberStart]
    rw [← cons_append, ← cons_append, dropWhile_newline, dropWhile_newline, numberTail_newline]

theorem sign_newline (s r : Text) : sign (s ++ '\n' :: r) = sign s := by
  cases s <;> rfl

theorem length_sign_le (s : Text) : (sign s).length ≤ s.length := by
  cases s with
  | nil => exact le_rfl
  | cons c s =>
    rw [sign]
    split
    · exact Nat.succ_le_succ (Nat.zero_le _)
    · exact Nat.zero_le _

theorem part_newline (mark : Char → Bool) (hmr : mark '\n' = false) (signed : Bool) (s r : Text) :
    part mark signed (s ++ '\n' :: r) = part mark signed s := by
  cases s with
  | nil => simp [part, hmr]
  | cons c s =>
    have hd : ∀ u : Text, u.length ≤ s.length →
        ((s ++ '\n' :: r).drop u.length).takeWhile isDigit = (s.drop u.length).takeWhile isDigit := by
      intro u hu
      rw [drop_append_of_le_length hu, takeWhile_newline]
    cases signed with
    | false => simp only [cons_append, part, Bool.false_eq_true, if_false, hd [] (Nat.zero_le _)]
    | true => simp only [cons_append, part, if_true, sign_newline, hd _ (length_sign_le s)]

theorem length_part_le (mark : Char → Bool) (signed : Bool) (s : Text) : (part mark signed s).length ≤ s.length := by
  cases s with
  | nil => exact le_rfl
  | cons c s =>
    rw [part]
    split
    · have htk : ∀ u : Text, ((s.drop u.length).takeWhile isDigit).length ≤ s.length - u.length := fun u =>
        (List.takeWhile_prefix _).length_le.trans (by rw [length_drop])
      cases signed with
      | false =>
        have := htk []
        simp only [Bool.false_eq_true, if_false, length_append, length_cons, length_nil] at this ⊢
        omega
      | true =>
        have hsg := length_sign_le s
        have := htk (sign s)
        simp only [if_true, cons_append, length_cons, length_append]
        omega
    · exact Nat.zero_le _

theorem numberSpan_newline (s r : Text) : numberSpan (s ++ '\n' :: r) = numberSpan s := by
  have hsg := length_sign_le s
  have htk : ((s.drop (sign s).length).takeWhile isDigit).length ≤ s.length - (sign s).length :=
    (List.takeWhile_prefix _).length_le.trans (by rw [length_drop])
  have hd : ∀ n ≤ s.length, (s ++ '\n' :: r).drop n = s.drop n ++ '\n' :: r := fun n hn =>
    drop_append_of_le_length hn
  simp only [numberSpan, sign_newline, hd _ hsg, takeWhile_newline]
  generalize hint : sign s ++ (s.drop (sign s).length).takeWhile isDigit = int
  have hle : int.length ≤ s.length := by
    rw [← hint, length_append]
    omega
  rw [hd _ hle, part_newline _ (by decide)]
  generalize hfr : part (fun c => decide (c = '.')) false (s.drop int.length) = frac
  have hle' : int.length + frac.length ≤ s.length := by
    have := length_part_le (fun c => decide (c = '.')) false (s.drop int.length)
    rw [hfr, length_drop] at this
    omega
  rw [hd _ hle', part_newline _ (by decide)]

theorem readNumber_mid (h : numberSpan s = s) (r : Text) (col : Nat) (S : List Nat) :
    (mid (s ++ '\n' :: r) col S).readNumber = (⟨.number, s, col⟩, mid ('\n' :: r) (col + s.length) S) := by
  simp [readNumber, mid, numberSpan_newline, h]

theorem starts_ordinary {u : Text} (htx : plainText (c :: u)) (hsp : Text.isSpace c = false)
    (hind : isIndicator c = false) : c ∉ starters := by
  have hall : starters.all (fun d => Text.isSpace d || isIndicator d || !plainText [d]) = true := by decide
  intro hmem
  have hc := all_eq_true.1 hall c hmem
  have hp : plainText [c] || c = ':' := by
    simp only [plainText, Bool.and_eq_true] at htx
    simp [plainText, htx.1.1]
  rw [hsp, hind] at hc
  obtain hp | hcl := Bool.or_eq_true_iff.1 hp
  · simp [hp] at hc
  · rw [of_decide_eq_true hcl] at hind
    cases hind

theorem readToken_plain (hs : IsPlain s) (r : Text) (col : Nat) (S : List Nat) :
    (mid (s ++ '\n' :: r) col S).readToken = ((Scalar.plain s).token col, mid ('\n' :: r) (col + s.length) S) := by
  obtain ⟨c, u, hcu, hsp, hsr⟩ := hs.start
  have hnx : (mid (s ++ '\n' :: r) col S).readToken = if startsNumber s then
      (mid (s ++ '\n' :: r) col S).readNumber else (mid (s ++ '\n' :: r) col S).readScalar := by
    have hnm := isNumberStart_newline s r
    obtain hind | ⟨rfl, hst⟩ := hsr
    · have hc : c ∉ starters := starts_ordinary (hcu ▸ hs.text) hsp hind
      rw [← hnm, hcu]
      exact readToken_ordinary hc _ _ _
    · rw [← hnm] at hst ⊢
      rw [if_pos hst, hcu, cons_append, readToken_minus, ← cons_append, ← hcu, if_pos hst]
  rw [hnx, Scalar.token]
  split
  next hnm => rw [readNumber_mid (hs.number hnm)]
  next hnm => rw [readScalar_mid (.inl ⟨r, rfl⟩) hs.text hs.trimmed, hs.itself]

theorem isWordChar_plain (h : isWordChar c) :
    c ∉ [nul, '\n', '\r', '#', ',', '[', ']', '\x7b', '\x7d', ':', ' ', '\t', '\x0b', '\x0c'] := by
  intro hmem
  simp only [mem_cons, not_mem_nil, or_false] at hmem
  obtain rfl | rfl | rfl | rfl | rfl | rfl | rfl | rfl | rfl | rfl | rfl | rfl | rfl | rfl := hmem <;> cases h

theorem plainText_word : ∀ {k : Text}, (∀ c ∈ k, isWordChar c) → plainText k
  | [], _ => rfl
  | c :: k, h => by
    have hc := isWordChar_plain (h c (by simp))
    simp only [mem_cons, not_mem_nil, or_false, not_or] at hc
    simp [plainText, isBreak, hc, plainText_word fun d hd => h d (mem_cons_of_mem _ hd)]

theorem trimSpace_word {k : Text} (h : ∀ c ∈ k, isWordChar c) : Text.trimSpace k = k := by
  have hsp : ∀ c ∈ k, Text.isSpace c = false := by
    intro c hc
    have hne := isWordChar_plain (h c hc)
    simp only [mem_cons, not_mem_nil, or_false, not_or] at hne
    simp [Text.isSpace, hne]
  exact Text.trimSpace_eq_self (fun c hc => hsp c (mem_of_head? hc))
    fun c hc => hsp c (mem_of_getLast? hc)

theorem isLetter_ordinary (h : isLetter c) : c ∉ starters ∧ isDigit c = false ∧ c ≠ '+' ∧ c ≠ '-' := by
  have hne : ∀ d, isLetter d = false → c ≠ d := by
    rintro d hd rfl
    rw [h] at hd
    cases hd
  refine ⟨fun hmem => ?_, ?_, hne _ (by decide), hne _ (by decide)⟩
  · have hall : starters.all (fun d => !isLetter d) = true := by decide
    have hc := all_eq_true.1 hall c hmem
    rw [h] at hc
    cases hc
  · simp only [isLetter, Bool.decide_or, Bool.or_eq_true, decide_eq_true_eq] at h
    simp only [isDigit, decide_eq_false_iff_not]
    rintro ⟨-, hle⟩
    obtain ⟨hlo, -⟩ | ⟨hlo, -⟩ := h
    · exact absurd (Char.le_trans hlo hle) (by decide)
    · exact absurd (Char.le_trans hlo hle) (by decide)

theorem readToken_key {k : Text} (hk : IsKey k) (hc : isBlank c) (r : Text) (col : Nat) (S : List Nat) :
    (mid (k ++ ':' :: c :: r) col S).readToken = (⟨.string, k, col⟩, mid (':' :: c :: r) (col + k.length) S) := by
  obtain ⟨d, u, rfl, hd⟩ := hk.start
  obtain ⟨hor, hdg, hp, hmn⟩ := isLetter_ordinary hd
  have hnm : isNumberStart (d :: u ++ ':' :: c :: r) = false := by
    simp [isNumberStart, hdg, hp, hmn]
  rw [cons_append, readToken_ordinary hor, ← cons_append, hnm, if_neg (by simp),
    readScalar_mid (.inr ⟨c, r, rfl, hc⟩) (plainText_word hk.word) (trimSpace_word hk.word), hk.string]

/-! ### Quoted scalars -/

theorem quoted_char {q : Char} (hnl : c ≠ nul) (hq : c ≠ q) (hec : ¬(c = '\\' ∧ q = doubleQuote)) (room : Nat)
    (u : Text) : quoted q (room + 1) (c :: u) = (quoted q room u).map fun p => (c :: p.1, p.2) := by
  simp only [quoted, if_neg hnl, if_neg hq, if_neg hec]

theorem quoted_escape (e : Char) (room : Nat) (u : Text) :
    quoted doubleQuote (room + 1) ('\\' :: e :: u) = (quoted doubleQuote room u).map fun p => (unescape e :: p.1, p.2) := by
  have hnl : ('\\' : Char) ≠ nul := by decide
  have hq : ('\\' : Char) ≠ doubleQuote := by decide
  simp only [quoted, if_neg hnl, if_neg hq, and_self, if_true]

theorem quoted_double : ∀ {s : Text} {room : Nat}, nul ∉ s → s.length ≤ room →
    quoted doubleQuote room (s.flatMap escape ++ doubleQuote :: r) = some (s, r)
  | [], room, _, _ => by cases room <;> rfl
  | c :: s, 0, _, hrm => absurd hrm (by simp)
  | c :: s, room + 1, hnl, hrm => by
    have ih := quoted_double (fun h => hnl (mem_cons_of_mem _ h)) (Nat.le_of_succ_le_succ hrm)
    have hec : ∀ e, unescape e = c →
        quoted doubleQuote (room + 1) ('\\' :: e :: (s.flatMap escape ++ doubleQuote :: r)) = some (c :: s, r) := by
      intro e he
      rw [quoted_escape, ih, Option.map_some, he]
    rw [flatMap_cons, escape]
    split_ifs with hsl hn ht hr
    · exact hec c (by obtain rfl | rfl := hsl <;> rfl)
    · exact hec 'n' (by rw [hn]; rfl)
    · exact hec 't' (by rw [ht]; rfl)
    · exact hec 'r' (by rw [hr]; rfl)
    · have hc : c ≠ nul := fun h => hnl (by simp [h])
      rw [not_or] at hsl
      rw [singleton_append, cons_append, quoted_char hc hsl.1 (fun h => hsl.2 h.1), ih, Option.map_some]

theorem quoted_single : ∀ {s : Text} {room : Nat}, nul ∉ s → singleQuote ∉ s → s.length ≤ room →
    quoted singleQuote room (s ++ singleQuote :: r) = some (s, r)
  | [], room, _, _, _ => by cases room <;> rfl
  | c :: s, 0, _, _, hrm => absurd hrm (by simp)
  | c :: s, room + 1, hnl, hq, hrm => by
    have ih := quoted_single (fun h => hnl (mem_cons_of_mem _ h)) (fun h => hq (mem_cons_of_mem _ h))
        (Nat.le_of_succ_le_succ hrm)
    have hc : c ≠ nul ∧ c ≠ singleQuote := ⟨fun h => hnl (by simp [h]), fun h => hq (by simp [h])⟩
    have hne : ¬(c = '\\' ∧ singleQuote = doubleQuote) := by simp [singleQuote, doubleQuote]
    rw [cons_append, quoted_char hc.1 hc.2 hne, ih, Option.map_some]

theorem readToken_quoted {q : Char} (hq : q = doubleQuote ∨ q = singleQuote) {u v : Text}
    (h : quoted q maxQuotedStringSize u = some (v, r)) (col : Nat) (S : List Nat) :
    ∃ col', (mid (q :: u) col S).readToken = (⟨.string, v, col + 1⟩, mid r col' S) := by
  have hsk : (mid (q :: u) col S).skipSpaces = mid (q :: u) col S := by
    obtain rfl | rfl := hq <;> exact skipSpaces_mid (by decide)
  have hrd : (mid (q :: u) col S).readToken = (mid (q :: u) col S).readQuotedString := by
    rw [readToken, hsk]
    obtain rfl | rfl := hq <;> rfl
  have hnx : (mid (q :: u) col S).next = mid u (col + 1) S := by
    obtain rfl | rfl := hq <;> rfl
  have hu : quoted (mid (q :: u) col S).peek maxQuotedStringSize (mid u (col + 1) S).rest = some (v, r) := h
  rw [hrd, readQuotedString, hnx]
  simp only [hu]
  exact ⟨_, rfl⟩

theorem readToken_scalar {s : Scalar} (hs : s.Valid) (r : Text) (col : Nat) (S : List Nat) :
    ∃ col', (mid (s.text ++ '\n' :: r) col S).readToken = (s.token col, mid ('\n' :: r) col' S) := by
  cases s with
  | plain s => exact ⟨_, readToken_plain hs r col S⟩
  | double s =>
    have := readToken_quoted (.inl rfl) (quoted_double (r := '\n' :: r) hs.1 hs.2) col S
    simpa [Scalar.text, Scalar.token] using this
  | single s =>
    have := readToken_quoted (.inr rfl) (quoted_single (r := '\n' :: r) hs.1 hs.2.1 hs.2.2) col S
    simpa [Scalar.text, Scalar.token] using this

end Inside

/-- Keys are words and scalars stand for themselves. -/
def Line.Valid (l : Line) : Prop :=
  (match l.lead with
    | .key k | .itemKey k => IsKey k
    | .item => True) ∧ ∀ s ∈ l.value, s.Valid

section Lines

variable {r : Text} {S : List Nat} {st : Stream}

theorem yields_newline (h : (atStart r S).Yields st) (col : Nat) :
    (mid ('\n' :: r) col S).Yields ((newline, S.length) :: st) :=
  yields_mid (by simp) (readToken_newline r col S) (by decide) rfl h

theorem yields_value {value : Option Scalar} (hvl : ∀ s ∈ value, s.Valid) (h : (atStart r S).Yields st) (col : Nat) :
    (mid ((value.elim [] fun s => ' ' :: s.text) ++ '\n' :: r) col S).Yields
      (((value.map (Scalar.token (col + 1))).toList ++ [newline]).map (·, S.length) ++ st) := by
  cases value with
  | none => exact yields_newline h col
  | some s =>
    obtain ⟨col', hrd⟩ := readToken_scalar (hvl s rfl) r (col + 1) S
    have hty := (s.token_scalar (col + 1)).1
    refine yields_mid (by simp) (by rw [← hrd]; exact readToken_space _ _ _) ?_ rfl (yields_newline h col')
    rintro hcm
    rw [hcm] at hty
    simp at hty

theorem yields_key {k : Text} (hk : IsKey k) {c : Char} (hc : isBlank c) {u : Text} {col : Nat}
    (h : (mid (c :: u) (col + k.length + 1) S).Yields st) :
    (mid (k ++ ':' :: c :: u) col S).Yields ((keyTokens k col).map (·, S.length) ++ st) :=
  yields_mid (by simp) (readToken_key hk hc u col S) (by simp) rfl
    (yields_mid (by simp) (readToken_colon _ _ _) (by simp) rfl h)

theorem valueText_cons (l : Line) (r : Text) : ∃ c u, l.valueText ++ '\n' :: r = c :: u ∧ isBlank c := by
  obtain ⟨_, _, value⟩ := l
  cases value with
  | none | some => exact ⟨_, _, rfl, by decide⟩

theorem yields_space {s : Text} {col : Nat} (hs : s ≠ []) (h : (mid s (col + 1) S).Yields st) :
    (mid (' ' :: s) col S).Yields st := by
  refine yields_congr ?_ h
  rw [nextToken_mid (by simp), nextToken_mid hs, readToken_space]

theorem yields_line {l : Line} (hl : l.Valid) (h : (atStart r S).Yields st) :
    (mid (l.body ++ '\n' :: r) (l.indent + 1) S).Yields (l.tokens.map (·, S.length) ++ st) := by
  obtain ⟨c, u, hu, hc⟩ := valueText_cons l r
  obtain ⟨i, lead, value⟩ := l
  have hvl := fun col => yields_value hl.2 h col
  rw [Line.tokens, map_append, append_assoc]
  cases lead with
  | key k =>
    have htx : Line.body ⟨i, .key k, value⟩ ++ '\n' :: r = k ++ ':' :: c :: u := by
      rw [Line.body, Lead.text, append_assoc, hu, append_assoc]
      rfl
    have hcl : i + (Lead.key k).text.length + 2 = i + 1 + k.length + 1 + 1 := by
      rw [Lead.text, length_append, length_singleton]
      omega
    rw [htx]
    refine yields_key hl.1 hc ?_
    rw [← hu]
    simp only [hcl]
    exact hvl _
  | item =>
    have htx : Line.body ⟨i, .item, value⟩ ++ '\n' :: r = '-' :: c :: u := by
      rw [Line.body, Lead.text, append_assoc, hu]
      rfl
    rw [htx]
    refine yields_mid (by simp) (readToken_dash hc _ _ _) (by simp [dash]) rfl ?_
    rw [← hu]
    exact hvl _
  | itemKey k =>
    have htx : Line.body ⟨i, .itemKey k, value⟩ ++ '\n' :: r = '-' :: ' ' :: (k ++ ':' :: c :: u) := by
      rw [Line.body, Lead.text, append_assoc, hu]
      simp
    have hcl : i + (Lead.itemKey k).text.length + 2 = i + 1 + 2 + k.length + 1 + 1 := by
      simp only [Lead.text, cons_append, length_cons, length_append, length_nil]
      omega
    rw [htx]
    refine yields_mid (by simp) (readToken_dash (by decide) _ _ _) (by simp [dash]) rfl ?_
    refine yields_space (by simp) (yields_key hl.1 hc ?_)
    rw [← hu]
    simp only [hcl]
    exact hvl _

/-! ## The start of a line -/

theorem body_cons {l : Line} (hl : l.Valid) (r : Text) :
    ∃ c u, l.body ++ '\n' :: r = c :: u ∧ c ≠ ' ' ∧ isBreak c = false ∧ c ≠ '#' ∧ c ≠ nul := by
  obtain ⟨i, lead, value⟩ := l
  cases lead with
  | key k =>
    obtain ⟨c, u, rfl, hc⟩ := hl.1.start
    have hne : ∀ d, isLetter d = false → c ≠ d := by
      rintro d hd rfl
      rw [hc] at hd
      cases hd
    refine ⟨c, _, rfl, hne _ (by decide), ?_, hne _ (by decide), hne _ (by decide)⟩
    simp [isBreak, hne '\n' (by decide), hne '\r' (by decide)]
  | item | itemKey => exact ⟨_, _, rfl, by decide, by decide, by decide, by decide⟩

theorem checkIndent_start {c : Char} (hsp : c ≠ ' ') (hb : isBreak c = false) (hh : c ≠ '#') (hnl : c ≠ nul)
    (i : Nat) (u : Text) (S : List Nat) : (atStart (List.replicate i ' ' ++ c :: u) S).checkIndent
      = if S.headD 0 < i then (some ⟨.indent, [], i + 1⟩, mid (c :: u) (i + 1) (i :: S)) else if i < S.headD 0 then
          if (popTo i S).headD 0 ≠ i then
            (some ((mid (c :: u) (i + 1) S).emit .error []), mid (c :: u) (i + 1) (popTo i S))
          else (some ⟨.dedent, [], i + 1⟩, { mid (c :: u) (i + 1) (popTo i S) with
            pendingTokens := replicate (S.length - (popTo i S).length - 1) ⟨.dedent, [], i + 1⟩ })
        else (none, mid (c :: u) (i + 1) S) := by
  have htk : (replicate i ' ' ++ c :: u).takeWhile (· = ' ') = replicate i ' ' := by
    induction i with
    | zero => simp [hsp]
    | succ i ih => simp [replicate_succ, ih]
  have hd : (replicate i ' ' ++ c :: u).dropWhile (· = ' ') = c :: u := by
    induction i with
    | zero => simp [hsp]
    | succ i ih => simp [replicate_succ, hsp]
  have hcl : 1 + i = i + 1 := Nat.add_comm _ _
  simp only [checkIndent, atStart, skipWhile, htk, hd, length_replicate, peek, headD_cons, hb, hh,
    hnl, or_self, Bool.false_eq_true, if_false, hcl]
  rfl

theorem yields_pending {t : Tokenizer} (hp : t.pendingTokens = []) (d : Token) (hd : d.type ≠ .comment)
    (h : t.Yields st) : ∀ m, { t with pendingTokens := replicate m d }.Yields
      (replicate m (d, t.currentIndent) ++ st)
  | 0 => by
    have : { t with pendingTokens := replicate 0 d } = t := by
      cases t
      cases hp
      rfl
    rw [this]
    exact h
  | m + 1 => ⟨rfl, hd, rfl, yields_pending hp d hd h m⟩

/-- Each line is deeper than the level before it or on an open level. -/
def Nests : List Nat → List Line → Prop
  | _, [] => True
  | S, l :: R =>
    if S.headD 0 < l.indent then Nests (l.indent :: S) R
    else (popTo l.indent S).headD 0 = l.indent ∧ Nests (popTo l.indent S) R

theorem nextToken_start {s : Text} (hs : s ≠ []) : (atStart s S).nextToken
    = match (atStart s S).checkIndent with
      | (some tok, t) => (tok, t)
      | (none, t) => t.readToken :=
  (if_neg hs).trans rfl

theorem yields_eof (hS : S ≠ []) : (atStart [] S).Yields (stream S []) := by
  have hen : ∀ x, (atStart [] [x]).Yields [(⟨.eof, [], 1⟩, 1)] := fun x => ⟨rfl, by simp, rfl, trivial⟩
  match S with
  | [x] => exact hen x
  | x :: y :: S =>
    obtain ⟨z, hz⟩ : ∃ z, (x :: y :: S).drop ((x :: y :: S).length - 1) = [z] :=
      length_eq_one_iff.1 (by rw [length_drop]; simp)
    have hnx : (atStart [] (x :: y :: S)).nextToken = (dedent [], { atStart [] [z] with
        pendingTokens := replicate S.length (dedent []) }) := by
      rw [← hz]
      simp only [nextToken, atStart, emitEOF, dedents]
      rfl
    refine ⟨by rw [hnx], by simp [dedent], by rw [hnx]; rfl, ?_⟩
    rw [hnx]
    exact yields_pending rfl _ (by simp [dedent]) (hen z) S.length

theorem popTo_ne_nil {i : Nat} : ∀ {S : List Nat}, S ≠ [] → popTo i S ≠ []
  | [_], _ => by simp [popTo]
  | x :: y :: S, _ => by
    rw [popTo]
    split
    · exact popTo_ne_nil (by simp)
    · simp

theorem popTo_lt {i : Nat} (h : i < S.headD 0) (htp : (popTo i S).headD 0 = i) : (popTo i S).length < S.length := by
  match S with
  | [] => cases h
  | [x] =>
    simp only [popTo, headD_cons] at h htp
    omega
  | x :: y :: S =>
    rw [popTo, if_pos (show i < x from h)]
    exact Nat.lt_succ_of_le (length_popTo_le i (y :: S))

theorem yields_lines : ∀ {lines : List Line} {S : List Nat}, S ≠ [] → (∀ l ∈ lines, l.Valid) → Nests S lines →
    (atStart (textOf lines) S).Yields (stream S lines)
  | [], S, hS, _, _ => yields_eof hS
  | l :: R, S, hS, hvl, hns => by
    have hl := hvl l (by simp)
    have hrs : ∀ {S'}, S' ≠ [] → Nests S' R → (atStart (textOf R) S').Yields (stream S' R) := fun hS' hN =>
      yields_lines hS' (fun l' hl' => hvl l' (mem_cons_of_mem _ hl')) hN
    obtain ⟨c, u, hu, hsp, hbr, hh, hnl⟩ := body_cons hl (textOf R)
    have htx : textOf (l :: R) = replicate l.indent ' ' ++ c :: u := by
      rw [textOf, flatMap_cons, Line.text, append_assoc, append_assoc, ← hu]
      rfl
    have hln : ∀ {S'}, S' ≠ [] → Nests S' R →
        (mid (c :: u) (l.indent + 1) S').Yields (l.tokens.map (·, S'.length) ++ stream S' R) := fun hS' hN =>
      hu ▸ yields_line hl (hrs hS' hN)
    have hnx := nextToken_start (s := textOf (l :: R)) (S := S) (by rw [htx]; simp)
    rw [htx, checkIndent_start hsp hbr hh hnl] at hnx
    rw [htx]
    unfold Nests at hns
    unfold stream
    split at hns
    next hd =>
      rw [if_pos hd] at hnx ⊢
      refine ⟨by rw [hnx], by simp, by rw [hnx]; rfl, ?_⟩
      rw [hnx]
      exact hln (by simp) hns
    next hd =>
      rw [if_neg hd] at hnx ⊢
      obtain ⟨htp, hns⟩ := hns
      have hb := hln (popTo_ne_nil hS) hns
      rw [settle]
      by_cases hls : l.indent < S.headD 0
      · rw [if_pos hls, if_neg (not_not.2 htp)] at hnx
        obtain ⟨k, hk⟩ : ∃ k, S.length - (popTo l.indent S).length = k + 1 :=
          ⟨S.length - (popTo l.indent S).length - 1, by have := popTo_lt hls htp; omega⟩
        rw [hk, Nat.add_sub_cancel] at hnx
        rw [hk]
        refine ⟨by rw [hnx]; rfl, by simp [dedent], by rw [hnx]; rfl, ?_⟩
        rw [hnx]
        exact yields_pending rfl _ (by simp) hb k
      · rw [if_neg hls] at hnx
        obtain ⟨x, S', rfl⟩ := exists_cons_of_ne_nil hS
        obtain rfl : x = l.indent := le_antisymm (not_lt.1 hls) (not_lt.1 hd)
        rw [popTo_self] at hb ⊢
        rw [Nat.sub_self]
        refine yields_congr ?_ hb
        rw [hnx, nextToken_mid (by simp)]

end Lines

end NothingDNS.Config
