import NothingDNS.Config.Stream
/-!
# The parser in front of a stream

`Feeds p s` says that the parser's current token and the tokens to come are `s`, whether or not the next one is
already in its look-ahead.
-/

namespace NothingDNS.Config

theorem nextSignificant_eq {t : Tokenizer} (h : t.nextToken.1.type ≠ .comment) (n : Nat) :
    t.nextSignificant n = t.nextToken := by
  cases n with
  | zero => rfl
  | succ n => rw [Tokenizer.nextSignificant, if_neg h]

/-- The tokens behind the current one, with the look-ahead. -/
def Parser.Ahead (p : Parser) (level : Nat) : Stream → Prop
  | [] => True
  | x :: s =>
    match p.peekToken with
    | none => p.tokenizer.currentIndent = level ∧ p.tokenizer.Yields (x :: s)
    | some tok => tok = x.1 ∧ p.tokenizer.currentIndent = x.2 ∧ p.tokenizer.Yields s

def Parser.Feeds (p : Parser) : Stream → Prop
  | [] => False
  | x :: s => p.current = x.1 ∧ p.Ahead x.2 s

section

variable {p : Parser} {x y : Token × Nat} {s : Stream}

theorem Parser.Feeds.current (h : p.Feeds (x :: s)) : p.current = x.1 := h.1

theorem Parser.Feeds.advance (h : p.Feeds (x :: y :: s)) :
    p.advance.Feeds (y :: s) ∧ p.advance.tokenizer.currentIndent = y.2 := by
  obtain ⟨-, h⟩ := h
  unfold Parser.Ahead at h
  unfold Parser.advance
  cases hp : p.peekToken with
  | none =>
    rw [hp] at h
    obtain ⟨-, htk, hc, hl, hs⟩ := h
    rw [nextSignificant_eq (htk ▸ hc)]
    refine ⟨⟨htk, ?_⟩, hl⟩
    cases s with
    | nil => trivial
    | cons z s => exact ⟨hl, hs⟩
  | some tok =>
    rw [hp] at h
    obtain ⟨htk, hl, hs⟩ := h
    refine ⟨⟨htk, ?_⟩, hl⟩
    cases s with
    | nil => trivial
    | cons z s => exact ⟨hl, hs⟩

theorem Parser.Feeds.level (h : p.Feeds (x :: y :: s)) (hxy : x.2 = y.2) : p.tokenizer.currentIndent = x.2 := by
  obtain ⟨-, h⟩ := h
  unfold Parser.Ahead at h
  cases hp : p.peekToken with
  | none => rw [hp] at h; exact h.1
  | some tok => rw [hp] at h; exact h.2.1.trans hxy.symm

theorem Parser.Feeds.peek (h : p.Feeds (x :: y :: s)) :
    p.peek.1 = y.1 ∧ p.peek.2.Feeds (x :: y :: s) ∧ p.peek.2.peekToken = some y.1 := by
  obtain ⟨hcr, h⟩ := h
  unfold Parser.Ahead at h
  unfold Parser.peek
  cases hp : p.peekToken with
  | none =>
    rw [hp] at h
    obtain ⟨-, htk, hc, hl, hs⟩ := h
    rw [nextSignificant_eq (htk ▸ hc)]
    exact ⟨htk, ⟨hcr, htk, hl, hs⟩, congrArg some htk⟩
  | some tok =>
    rw [hp] at h
    refine ⟨h.1, ⟨hcr, ?_⟩, by rw [hp, h.1]⟩
    unfold Parser.Ahead
    rw [hp]
    exact h

theorem Parser.Feeds.take (h : p.Feeds (x :: y :: s)) (hp : p.peekToken = some y.1) : (p.take y.1).Feeds (y :: s) := by
  have had : p.advance = p.take y.1 := by
    unfold Parser.advance
    rw [hp]
    rfl
  rw [← had]
  exact h.advance.1

variable {types : List TokenType}

theorem skip_stop (h : p.Feeds (x :: s)) (hx : x.1.type ∉ types) (n : Nat) : p.skip (n + 1) types = .ok p := by
  rw [Parser.skip, h.current, if_neg hx]

theorem skip_step (h : p.Feeds (x :: s)) (hx : x.1.type ∈ types) (n : Nat) :
    p.skip (n + 1) types = p.advance.skip n types := by
  rw [Parser.skip, h.current, if_pos hx]

theorem skip_one (h : p.Feeds (x :: y :: s)) (hx : x.1.type ∈ types)
    (hy : y.1.type ∉ types) (n : Nat) : p.skip (n + 2) types = .ok p.advance := by
  rw [skip_step h hx]
  exact skip_stop h.advance.1 hy n

end

/-! ## Behind a block -/

def headToken : List Line → Token
  | [] => ⟨.eof, [], 1⟩
  | l :: _ => match l.lead with
    | .key k => ⟨.string, k, l.indent + 1⟩
    | .item | .itemKey _ => dash (l.indent + 1)

def headDepth (S : List Nat) : List Line → Nat
  | [] => 1
  | _ :: _ => S.length

theorem first_cons (S : List Nat) (R : List Line) : ∃ s, first S R = (headToken R, headDepth S R) :: s := by
  match R with
  | [] => exact ⟨_, rfl⟩
  | ⟨_, .key _, _⟩ :: _ => exact ⟨_, rfl⟩
  | ⟨_, .item, _⟩ :: _ => exact ⟨_, rfl⟩
  | ⟨_, .itemKey _, _⟩ :: _ => exact ⟨_, rfl⟩

theorem headToken_type (R : List Line) :
    (headToken R).type = .eof ∨ (headToken R).type = .string ∨ (headToken R).type = .dash := by
  match R with
  | [] => exact .inl rfl
  | ⟨_, .key _, _⟩ :: _ => exact .inr (.inl rfl)
  | ⟨_, .item, _⟩ :: _ => exact .inr (.inr rfl)
  | ⟨_, .itemKey _, _⟩ :: _ => exact .inr (.inr rfl)

theorem headToken_col (l : Line) (R : List Line) : (headToken (l :: R)).col = l.indent + 1 := by
  obtain ⟨_, lead, _⟩ := l
  cases lead <;> rfl

theorem headToken_ne_dedent (R : List Line) : (headToken R).type ≠ .dedent := by
  obtain h | h | h := headToken_type R <;> rw [h] <;> decide

theorem rest_cons_type (S : List Nat) (R : List Line) (m : Nat) :
    ∃ x s, rest S R m = x :: s ∧ x.1.type ∉ [TokenType.newline, .indent] ∧ (S ≠ [] → x.2 = depthAt S R) := by
  cases m with
  | zero =>
    obtain ⟨s, hs⟩ := first_cons (settle S R) R
    refine ⟨_, s, hs, ?_, fun hS => ?_⟩
    · obtain h | h | h := headToken_type R <;> rw [h] <;> decide
    · cases R with
      | nil =>
        have := List.length_pos_iff.2 hS
        rw [headDepth, depthAt, settle, List.length_drop]
        omega
      | cons l R => rfl
  | succ m => exact ⟨_, _, rfl, by simp [dedent], fun _ => rfl⟩

variable {S : List Nat} {R : List Line} {m : Nat}

theorem Parser.Feeds.advance_rest {p : Parser} {i : Nat} (h : p.Feeds (rest (i :: S) R (m + 1))) :
    p.advance.Feeds (rest (i :: S) R m) ∧ p.advance.tokenizer.currentIndent = depthAt (i :: S) R := by
  obtain ⟨x, s, hx, -, hdp⟩ := rest_cons_type (i :: S) R m
  have hd : p.Feeds ((dedent R, depthAt (i :: S) R) :: rest (i :: S) R m) := h
  rw [hx] at hd ⊢
  have had := hd.advance
  rw [hdp (by simp)] at had
  exact had

/-- Behind a value: what is left of it in front of `rest`, up to the end of its line. -/
def Parser.Behind (p : Parser) (S : List Nat) (R : List Line) (m : Nat) : Prop :=
  p.Feeds (rest S R m) ∨ ∃ d, p.Feeds ((newline, d) :: rest S R m)

theorem skip_newlines {p : Parser} (h : p.Behind S R m) (types : List TokenType)
    (hnl : .newline ∈ types) (hsb : types ⊆ [.newline, .indent]) (n : Nat) :
    ∃ p', p.skip (n + 2) types = .ok p' ∧ p'.Feeds (rest S R m) := by
  obtain ⟨x, s, hrs, hty, -⟩ := rest_cons_type S R m
  have hx : x.1.type ∉ types := fun hmem => hty (hsb hmem)
  obtain h | ⟨d, h⟩ := h
  · exact ⟨p, skip_stop (hrs ▸ h) hx (n + 1), h⟩
  · rw [hrs] at h
    refine ⟨p.advance, skip_one h hnl hx n, ?_⟩
    rw [hrs]
    exact h.advance.1

end NothingDNS.Config
