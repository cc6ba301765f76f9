import NothingDNS.Config.Document
/-!
# The tokens of lines

Lines become tokens by a stack alone: `stream S lines` is what the tokenizer gives
from the start of a line on, each token with the depth of the stack behind it. All
DEDENT tokens before a line carry the depth of that line, since the tokenizer pops
all levels before the first of them.

`rest S lines m` is the same with `m` DEDENT tokens, for a parser that has read
some of them already.
-/

namespace NothingDNS.Config

open List

/-- Tokens, each with the depth of the stack after it is read. -/
abbrev Stream := List (Token × Nat)

def Tokenizer.Yields (t : Tokenizer) : Stream → Prop
  | [] => True
  | x :: s => t.nextToken.1 = x.1 ∧ x.1.type ≠ .comment ∧ t.nextToken.2.currentIndent = x.2 ∧ t.nextToken.2.Yields s

def Scalar.token (col : Nat) : Scalar → Token
  | .plain s => if startsNumber s then ⟨.number, s, col⟩ else ⟨(Tokenizer.scalarOf s).1, s, col⟩
  | .double s | .single s => ⟨.string, s, col + 1⟩

theorem Scalar.token_scalar (s : Scalar) (col : Nat) :
    (s.token col).type ∈ [TokenType.string, .number, .bool, .null] ∧ (s.token col).value = s.value := by
  cases s with
  | plain s =>
    rw [Scalar.token]
    split
    · exact ⟨by simp, rfl⟩
    · refine ⟨?_, rfl⟩
      simp only [Tokenizer.scalarOf]
      split
      · simp
      · split
        · simp
        · split <;> simp
  | double | single => exact ⟨by simp [Scalar.token], rfl⟩

def keyTokens (k : Text) (col : Nat) : List Token := [⟨.string, k, col⟩, ⟨.colon, [':'], col + k.length⟩]

def dash (col : Nat) : Token := ⟨.dash, ['-'], col⟩

def Lead.tokens (col : Nat) : Lead → List Token
  | .key k => keyTokens k col
  | .item => [dash col]
  | .itemKey k => dash col :: keyTokens k (col + 2)

def newline : Token := ⟨.newline, ['\n'], 0⟩

def Line.tokens (l : Line) : List Token :=
  l.lead.tokens (l.indent + 1)
    ++ ((l.value.map (Scalar.token (l.indent + l.lead.text.length + 2))).toList ++ [newline])

def startCol : List Line → Nat
  | [] => 1
  | l :: _ => l.indent + 1

/-- The stack once the levels the next line closes are popped. -/
def settle (S : List Nat) : List Line → List Nat
  | [] => S.drop (S.length - 1)
  | l :: _ => Tokenizer.popTo l.indent S

def dedent (R : List Line) : Token := ⟨.dedent, [], startCol R⟩

def stream : List Nat → List Line → Stream
  | S, [] => List.replicate (S.length - 1) (dedent [], 1) ++ [(⟨.eof, [], 1⟩, 1)]
  | S, l :: R =>
    if S.headD 0 < l.indent then
      (⟨.indent, [], l.indent + 1⟩, S.length + 1)
        :: (l.tokens.map (·, S.length + 1) ++ stream (l.indent :: S) R)
    else
      List.replicate (S.length - (settle S (l :: R)).length) (dedent (l :: R), (settle S (l :: R)).length)
        ++ (l.tokens.map (·, (settle S (l :: R)).length) ++ stream (settle S (l :: R)) R)

def first (S : List Nat) : List Line → Stream
  | [] => [(⟨.eof, [], 1⟩, 1)]
  | l :: R => l.tokens.map (·, S.length) ++ stream S R

def depthAt (S : List Nat) (R : List Line) : Nat := (settle S R).length

def pops (S : List Nat) (R : List Line) : Nat := S.length - depthAt S R

def rest (S : List Nat) (R : List Line) (m : Nat) : Stream :=
  List.replicate m (dedent R, depthAt S R) ++ first (settle S R) R

/-- The next line, if any, is not deeper than `i`. -/
def AtMost (i : Nat) (R : List Line) : Prop := ∀ l ∈ R.head?, l.indent ≤ i

def Below (i : Nat) (R : List Line) : Prop := ∀ l ∈ R.head?, l.indent < i

theorem Below.atMost {i : Nat} {R : List Line} (h : Below i R) : AtMost i R := fun l hl => (h l hl).le

theorem stream_deeper {S : List Nat} {l : Line} {R : List Line} (h : S.headD 0 < l.indent) :
    stream S (l :: R) = (⟨.indent, [], l.indent + 1⟩, S.length + 1) :: first (l.indent :: S) (l :: R) := by
  rw [stream, if_pos h, first, length_cons]

theorem stream_rest {i : Nat} {S : List Nat} {R : List Line} (h : AtMost i R) :
    stream (i :: S) R = rest (i :: S) R (pops (i :: S) R) := by
  cases R with
  | nil =>
    have hd : ((i :: S).drop ((i :: S).length - 1)).length = 1 := by
      rw [length_drop, length_cons]
      omega
    rw [stream, rest, pops, depthAt, settle, hd, first]
  | cons l R =>
    have hle : ¬(i :: S).headD 0 < l.indent := not_lt.2 (h l rfl)
    rw [stream, if_neg hle, rest, pops, depthAt, first]

section Settle

variable {i : Nat} {S : List Nat} {R : List Line}

theorem settle_cons (h : Below i R) (hS : S ≠ []) : settle (i :: S) R = settle S R := by
  cases R with obtain ⟨x, S, rfl⟩ := exists_cons_of_ne_nil hS
  | nil =>
    simp [settle]
  | cons l R =>
    rw [settle, settle, Tokenizer.popTo, if_pos (h l rfl)]

theorem popTo_self (i : Nat) (S : List Nat) : Tokenizer.popTo i (i :: S) = i :: S := by
  cases S with
  | nil => rfl
  | cons x S => rw [Tokenizer.popTo, if_neg (lt_irrefl i)]

theorem rest_cons (h : Below i R) (hS : S ≠ []) (m : Nat) : rest (i :: S) R m = rest S R m := by
  rw [rest, rest, depthAt, depthAt, settle_cons h hS]

theorem length_popTo_le (i : Nat) : ∀ S : List Nat, (Tokenizer.popTo i S).length ≤ S.length
  | [] => le_rfl
  | [_] => le_rfl
  | x :: y :: S => by
    rw [Tokenizer.popTo]
    split
    · exact (length_popTo_le i (y :: S)).trans (Nat.le_succ _)
    · exact le_rfl

theorem depthAt_le (S : List Nat) (R : List Line) : depthAt S R ≤ S.length := by
  cases R with
  | nil => simp [depthAt, settle]
  | cons l R => exact length_popTo_le _ _

theorem pops_cons (h : Below i R) (hS : S ≠ []) : pops (i :: S) R = pops S R + 1 := by
  have hle := depthAt_le S R
  rw [pops, pops, depthAt, settle_cons h hS, length_cons]
  rw [depthAt] at hle ⊢
  omega

theorem depthAt_lt (h : Below i R) (hS : S ≠ []) : depthAt (i :: S) R < S.length + 1 := by
  have hle := depthAt_le S R
  rw [depthAt, settle_cons h hS]
  rw [depthAt] at hle
  omega

end Settle

section Same

variable {i : Nat} {S : List Nat} {l : Line} {R : List Line}

theorem rest_same (h : l.indent = i) : rest (i :: S) (l :: R) 0 = first (i :: S) (l :: R) := by
  rw [rest, settle, h, popTo_self]
  rfl

theorem depthAt_same (h : l.indent = i) : depthAt (i :: S) (l :: R) = S.length + 1 := by
  rw [depthAt, settle, h, popTo_self, length_cons]

theorem pops_same (h : l.indent = i) : pops (i :: S) (l :: R) = 0 := by
  rw [pops, depthAt_same h, length_cons, Nat.sub_self]

end Same

end NothingDNS.Config
