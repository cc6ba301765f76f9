import NothingDNS.Config.Parser
/-!
# Block-style documents

A tree of mappings, sequences and scalars, none of them empty, and the text that says it, each nested block two
spaces deeper than its parent; a mapping that is an item starts on the line of its dash.

`Clear` describes the trees the parser reads as they are meant. Three shapes are left out:

* an item whose first value is a mapping, which the parser refuses;
* an item whose first value is a sequence and that has more pairs, which the tokenizer refuses;
* a mapping that ends in a sequence and is the last value of another mapping with more to come further out:
  the sequence drops the DEDENT tokens of both, and what follows goes into the wrong mapping.
-/

namespace NothingDNS.Config

inductive Scalar
  | plain (s : Text)
  | double (s : Text)
  | single (s : Text)
  deriving DecidableEq, Repr

mutual

inductive Tree
  | scalar (s : Scalar)
  | mapping (pairs : Pairs)
  | sequence (items : Items)

inductive Pairs
  | one (key : Text) (value : Tree)
  | cons (key : Text) (value : Tree) (rest : Pairs)

inductive Items
  | one (item : Tree)
  | cons (item : Tree) (rest : Items)

end

def Scalar.value : Scalar → Text
  | .plain s | .double s | .single s => s

mutual

def Tree.node : Tree → Node
  | .scalar s => .scalar s.value
  | .mapping ps => .mapping ps.nodes
  | .sequence is => .sequence is.nodes

def Pairs.nodes : Pairs → List Node
  | .one k v => [.scalar k, v.node]
  | .cons k v rest => .scalar k :: v.node :: rest.nodes

def Items.nodes : Items → List Node
  | .one t => [t.node]
  | .cons t rest => t.node :: rest.nodes

end

def Pairs.node (ps : Pairs) : Node := .mapping ps.nodes

mutual

def Tree.depth : Tree → Nat
  | .scalar _ => 0
  | .mapping ps => ps.depth + 1
  | .sequence is => is.depth + 1

def Pairs.depth : Pairs → Nat
  | .one _ v => v.depth
  | .cons _ v rest => max v.depth rest.depth

def Items.depth : Items → Nat
  | .one t => t.depth
  | .cons t rest => max t.depth rest.depth

end

def escape (c : Char) : Text :=
  if c = doubleQuote ∨ c = '\\' then ['\\', c]
  else if c = '\n' then ['\\', 'n']
  else if c = '\t' then ['\\', 't']
  else if c = '\r' then ['\\', 'r']
  else [c]

def Scalar.text : Scalar → Text
  | .plain s => s
  | .double s => doubleQuote :: s.flatMap escape ++ [doubleQuote]
  | .single s => singleQuote :: s ++ [singleQuote]

inductive Lead
  | key (k : Text)
  | item
  | itemKey (k : Text)
  deriving DecidableEq, Repr

def Lead.text : Lead → Text
  | .key k => k ++ [':']
  | .item => ['-']
  | .itemKey k => '-' :: ' ' :: k ++ [':']

structure Line where
  indent : Nat
  lead : Lead
  value : Option Scalar
  deriving DecidableEq, Repr

def Line.valueText (l : Line) : Text := l.value.elim [] fun s => ' ' :: s.text

def Line.body (l : Line) : Text := l.lead.text ++ l.valueText

def Line.text (l : Line) : Text := List.replicate l.indent ' ' ++ (l.body ++ ['\n'])

/-- The value that stands on the line of its key or dash. -/
def Tree.inline : Tree → Option Scalar
  | .scalar s => some s
  | _ => none

mutual

def Tree.lines (i : Nat) : Tree → List Line
  | .scalar _ => []
  | .mapping ps => ps.lines i
  | .sequence is => is.lines i

def Pairs.lines (i : Nat) : Pairs → List Line
  | .one k v => ⟨i, .key k, v.inline⟩ :: v.lines (i + 2)
  | .cons k v rest => ⟨i, .key k, v.inline⟩ :: (v.lines (i + 2) ++ rest.lines i)

def Items.lines (i : Nat) : Items → List Line
  | .one t => t.itemLines i
  | .cons t rest => t.itemLines i ++ rest.lines i

def Tree.itemLines (i : Nat) : Tree → List Line
  | .scalar s => [⟨i, .item, some s⟩]
  | .mapping ps => ps.itemLines i
  | .sequence is => ⟨i, .item, none⟩ :: is.lines (i + 2)

def Pairs.itemLines (i : Nat) : Pairs → List Line
  | .one k v => ⟨i, .itemKey k, v.inline⟩ :: v.lines (i + 4)
  | .cons k v rest => ⟨i, .itemKey k, v.inline⟩ :: (v.lines (i + 4) ++ rest.lines (i + 2))

end

def textOf (lines : List Line) : Text := lines.flatMap Line.text

def Pairs.text (ps : Pairs) : Text := textOf (ps.lines 0)

/-! ## Keys and scalars -/

def isLetter (c : Char) : Bool := 'a' ≤ c ∧ c ≤ 'z' ∨ 'A' ≤ c ∧ c ≤ 'Z'

def isWordChar (c : Char) : Bool := isLetter c ∨ isDigit c ∨ c = '_' ∨ c = '-' ∨ c = '.'

/-- A plain word that is none of `true`, `no`, `null` and the like. -/
structure IsKey (k : Text) : Prop where
  start : ∃ c r, k = c :: r ∧ isLetter c
  word : ∀ c ∈ k, isWordChar c
  string : Tokenizer.scalarOf k = (.string, k)

theorem IsKey.of_check {k : Text}
    (h : (k.head?.any isLetter && k.all isWordChar && decide (Tokenizer.scalarOf k = (.string, k))) = true) :
    IsKey k := by
  simp only [Bool.and_eq_true, List.all_eq_true, decide_eq_true_eq] at h
  obtain ⟨⟨hst, hw⟩, hsr⟩ := h
  cases k with
  | nil => cases hst
  | cons c r => exact ⟨⟨c, r, rfl, hst⟩, hw, hsr⟩

/-- No line break, comment or flow character, and no colon at the end or before a blank. -/
def plainText : Text → Bool
  | [] => true
  | c :: r =>
    !(c = nul || isBreak c || c = '#' || c = ',' || c = '[' || c = ']' || c = '\x7b' || c = '\x7d')
      && !(c = ':' && (r.isEmpty || isBlank (r.headD nul))) && plainText r

/-- What gives a scalar another meaning when it comes first. -/
def isIndicator (c : Char) : Bool :=
  c = ':' ∨ c = '-' ∨ c = '|' ∨ c = '>' ∨ c = '!' ∨ c = '&' ∨ c = '*' ∨ c = doubleQuote ∨ c = singleQuote

/-- At the end of a line it is taken for a number. -/
def startsNumber (s : Text) : Bool := Tokenizer.isNumberStart (s ++ ['\n'])

/-- A scalar without quotes that stands for itself: not `yes` or `null`, and a number as a
whole if it starts like one (which `2024-01-01` is not). -/
structure IsPlain (s : Text) : Prop where
  /-- `strings.TrimSpace` also takes spaces beyond ASCII. -/
  ascii : s.Ascii
  text : plainText s
  start : ∃ c r, s = c :: r ∧ Text.isSpace c = false ∧ (isIndicator c = false ∨ c = '-' ∧ startsNumber s)
  trimmed : Text.trimSpace s = s
  itself : (Tokenizer.scalarOf s).2 = s
  number : startsNumber s → Tokenizer.numberSpan s = s

theorem IsPlain.of_check {c : Char} {r : Text}
    (h : (decide (Text.Ascii (c :: r)) && plainText (c :: r) && (!Text.isSpace c && (!isIndicator c || c = '-' && startsNumber (c :: r)))
      && decide (Text.trimSpace (c :: r) = c :: r) && decide ((Tokenizer.scalarOf (c :: r)).2 = c :: r)
      && (!startsNumber (c :: r) || decide (Tokenizer.numberSpan (c :: r) = c :: r))) = true) : IsPlain (c :: r) := by
  simp only [Bool.and_eq_true, Bool.or_eq_true, Bool.not_eq_true', decide_eq_true_eq] at h
  obtain ⟨⟨⟨⟨⟨hac, htx⟩, hsr⟩, htr⟩, his⟩, hnm⟩ := h
  refine ⟨hac, htx, ⟨c, r, rfl, hsr⟩, htr, his, fun hst => hnm.resolve_left ?_⟩
  rw [hst]
  simp

def Scalar.Valid : Scalar → Prop
  | .plain s => IsPlain s
  | .double s => nul ∉ s ∧ s.length ≤ maxQuotedStringSize
  | .single s => nul ∉ s ∧ singleQuote ∉ s ∧ s.length ≤ maxQuotedStringSize

def Pairs.keys : Pairs → List Text
  | .one k _ => [k]
  | .cons k _ rest => k :: rest.keys

mutual

/-- Keys are plain words, distinct in each mapping. -/
def Tree.Valid : Tree → Prop
  | .scalar s => s.Valid
  | .mapping ps => ps.Valid
  | .sequence is => is.Valid

def Pairs.Valid : Pairs → Prop
  | .one k v => IsKey k ∧ v.Valid
  | .cons k v rest => IsKey k ∧ k ∉ rest.keys ∧ v.Valid ∧ rest.Valid

def Items.Valid : Items → Prop
  | .one t => t.Valid
  | .cons t rest => t.Valid ∧ rest.Valid

end

/-! ## What is read as it is meant -/

def Tree.isMapping : Tree → Bool
  | .mapping _ => true
  | _ => false

def Tree.isScalar : Tree → Bool
  | .scalar _ => true
  | _ => false

def Pairs.endsInSequence : Pairs → Bool
  | .one _ (.sequence _) => true
  | .one _ _ => false
  | .cons _ _ rest => rest.endsInSequence

def Tree.endsInSequence : Tree → Bool
  | .mapping ps => ps.endsInSequence
  | _ => false

mutual

/-- `fin`: nothing follows in the document. -/
def Tree.Clear (fin : Bool) : Tree → Prop
  | .scalar _ => True
  | .mapping ps => ps.Clear fin fin
  | .sequence is => is.Clear fin

/-- `free`: the last value may be a mapping that ends in a sequence. -/
def Pairs.Clear (fin free : Bool) : Pairs → Prop
  | .one _ v => v.Clear fin ∧ (v.endsInSequence → free)
  | .cons _ v rest => v.Clear false ∧ rest.Clear fin free

def Items.Clear (fin : Bool) : Items → Prop
  | .one t => t.ClearItem fin fin
  | .cons t rest => t.ClearItem false true ∧ rest.Clear fin

def Tree.ClearItem (fin free : Bool) : Tree → Prop
  | .scalar _ => True
  | .mapping ps => ps.ClearItem fin free
  | .sequence is => is.Clear fin

def Pairs.ClearItem (fin free : Bool) : Pairs → Prop
  | .one _ v => v.isMapping = false ∧ v.Clear fin
  | .cons _ v rest => v.isScalar ∧ rest.Clear fin free

end

end NothingDNS.Config
