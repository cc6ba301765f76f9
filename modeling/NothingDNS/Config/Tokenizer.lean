import NothingDNS.Lib.DottedName
/-!
# Tokenizer of the configuration (`internal/config/tokenizer.go`)

The text is a list of characters, one an octet; the octet 0 also marks the end
of the text, as in the source. Indentation is a stack: a line that is deeper
pushes its indentation and gives one INDENT, a line that is less deep pops all
levels at once and gives one DEDENT for each.
-/

namespace NothingDNS.Config

inductive TokenType
  | eof | error | indent | dedent | newline | colon | dash | comma | lBrace | rBrace | lBracket | rBracket
  | string | number | bool | null | comment
  deriving DecidableEq, Repr

/-- Columns count from one. -/
structure Token where
  type : TokenType
  value : Text
  col : Nat
  deriving DecidableEq, Repr

structure Tokenizer where
  /-- The input from `pos` on. -/
  rest : Text
  col : Nat := 1
  /-- Deepest first. -/
  indentStack : List Nat := [0]
  atLineStart : Bool := true
  pendingTokens : List Token := []
  deriving DecidableEq, Repr

def nul : Char := '\x00'
def doubleQuote : Char := '\x22'
def singleQuote : Char := '\x27'

def maxQuotedStringSize : Nat := 1024 * 1024

/-- `unicode.IsDigit` on an octet. -/
def isDigit (c : Char) : Bool := '0' ≤ c ∧ c ≤ '9'

def isBreak (c : Char) : Bool := c = '\n' ∨ c = '\r'

def isBlank (c : Char) : Bool := c = ' ' ∨ c = '\t' ∨ isBreak c

namespace Tokenizer

def peek (t : Tokenizer) : Char := t.rest.headD nul

/-- From `tokenizer.go:151-164`. -/
def next (t : Tokenizer) : Tokenizer :=
  match t.rest with
  | [] => t
  | c :: r => { t with rest := r, col := if c = '\n' then 1 else t.col + 1 }

/-- The loops that read on while a character is of one kind; none of them reads a line break. -/
def skipWhile (t : Tokenizer) (p : Char → Bool) : Tokenizer :=
  { t with rest := t.rest.dropWhile p, col := t.col + (t.rest.takeWhile p).length }

def skipSpaces (t : Tokenizer) : Tokenizer := t.skipWhile fun c => c = ' ' ∨ c = '\t'

def emit (t : Tokenizer) (type : TokenType) (value : Text) : Token := ⟨type, value, t.col - value.length⟩

def emitChar (t : Tokenizer) (type : TokenType) : Token × Tokenizer :=
  (t.next.emit type [t.peek], t.next)

def currentIndent (t : Tokenizer) : Nat := t.indentStack.length

/-- One DEDENT at once, the others buffered. -/
def dedents (t : Tokenizer) (popped : Nat) (stack : List Nat) : Token × Tokenizer :=
  (t.emit .dedent [], { t with
    indentStack := stack
    pendingTokens := t.pendingTokens ++ List.replicate (popped - 1) (t.emit .dedent []) })

/-- From `tokenizer.go:189-200`. -/
def emitEOF (t : Tokenizer) : Token × Tokenizer :=
  if t.indentStack.length > 1 then
    t.dedents (t.indentStack.length - 1) (t.indentStack.drop (t.indentStack.length - 1))
  else (t.emit .eof [], t)

/-- From `tokenizer.go:203-213`. -/
def handleNewline (t : Tokenizer) : Token × Tokenizer :=
  let t := if t.peek = '\r' then t.next else t
  let t := if t.peek = '\n' then t.next else t
  (t.emit .newline ['\n'], { t with atLineStart := true })

/-- The stack without the levels deeper than `indent`; the last one stays. -/
def popTo (indent : Nat) : List Nat → List Nat
  | [] => []
  | [bottom] => [bottom]
  | top :: below :: stack => if indent < top then popTo indent (below :: stack) else top :: below :: stack

/-- `none` stands for the EOF token that tells `Next` to go on. -/
def checkIndent (t : Tokenizer) : Option Token × Tokenizer :=
  let indent := (t.rest.takeWhile (· = ' ')).length
  let t := { t.skipWhile (· = ' ') with atLineStart := false }
  if isBreak t.peek ∨ t.peek = '#' ∨ t.peek = nul then (none, t)
  else if t.indentStack.headD 0 < indent then
    (some (t.emit .indent []), { t with indentStack := indent :: t.indentStack })
  else if indent < t.indentStack.headD 0 then
    let stack := popTo indent t.indentStack
    if stack.headD 0 ≠ indent then (some (t.emit .error []), { t with indentStack := stack })
    else
      let (tok, t) := t.dedents (t.indentStack.length - stack.length) stack
      (some tok, t)
  else (none, t)

def readComment (t : Tokenizer) : Token × Tokenizer :=
  let body := t.next.rest.takeWhile fun c => !isBreak c && c ≠ nul
  (⟨.comment, Text.trimSpace body, t.col⟩, t.next.skipWhile fun c => !isBreak c && c ≠ nul)

def unescape (c : Char) : Char :=
  if c = 'n' then '\n' else if c = 't' then '\t' else if c = 'r' then '\r' else c

/-- The loop of `readQuotedString`: the value read and what follows the closing quote.
`room` is what the limit leaves; an escape at the very end of the input writes octet 0. -/
def quoted (quote : Char) : Nat → Text → Option (Text × Text)
  | _, [] => none
  | room, c :: r =>
    if c = nul then none
    else if c = quote then some ([], r)
    else match room with
      | 0 => none
      | room + 1 =>
        if c = '\\' ∧ quote = doubleQuote then
          match r with
          | [] => none
          | e :: r => (quoted quote room r).map fun p => (unescape e :: p.1, p.2)
        else (quoted quote room r).map fun p => (c :: p.1, p.2)

def colAfter (col : Nat) (s : Text) : Nat := s.foldl (fun col c => if c = '\n' then 1 else col + 1) col

/-- From `tokenizer.go:272-320`. -/
def readQuotedString (t : Tokenizer) : Token × Tokenizer :=
  let quote := t.peek
  let t := t.next
  match quoted quote maxQuotedStringSize t.rest with
  | some (value, r) =>
    (⟨.string, value, t.col⟩, { t with rest := r, col := colAfter t.col (t.rest.take (t.rest.length - r.length)) })
  | none => (t.emit .error [], t)

/-- The scan of `isNumberStart` behind the first digits. -/
def numberTail : Nat → Text → Bool
  | _, [] => true
  | dots, c :: r =>
    if isBlank c ∨ c = ',' ∨ c = ']' ∨ c = '\x7d' ∨ c = '#' ∨ c = nul then true
    else if c = ':' ∧ (r = [] ∨ isBlank (r.headD nul)) then true
    else if c = '.' then
      if 0 < dots then false
      else if r ≠ [] ∧ !isDigit (r.headD nul) then false
      else numberTail (dots + 1) r
    else if !isDigit c ∧ c ≠ 'e' ∧ c ≠ 'E' ∧ c ≠ '+' ∧ c ≠ '-' then false
    else numberTail dots r

/-- From `tokenizer.go:323-384`. -/
def isNumberStart : Text → Bool
  | [] => false
  | c :: r =>
    if c = '-' ∨ c = '+' then
      match r with
      | [] => false
      | d :: _ => isDigit d ∨ d = '.'
    else isDigit c && numberTail 0 (r.dropWhile isDigit)

def sign : Text → Text
  | c :: _ => if c = '-' ∨ c = '+' then [c] else []
  | [] => []

/-- A part of a number: `mark`, a sign if one may stand there, digits. -/
def part (mark : Char → Bool) (signed : Bool) : Text → Text
  | [] => []
  | c :: r =>
    if mark c then
      let s := if signed then sign r else []
      c :: s ++ (r.drop s.length).takeWhile isDigit
    else []

/-- What `readNumber` reads. -/
def numberSpan (s : Text) : Text :=
  let int := sign s ++ (s.drop (sign s).length).takeWhile isDigit
  let frac := part (· = '.') false (s.drop int.length)
  let exp := part (fun c => c = 'e' ∨ c = 'E') true (s.drop (int.length + frac.length))
  int ++ frac ++ exp

def readNumber (t : Tokenizer) : Token × Tokenizer :=
  let value := numberSpan t.rest
  (⟨.number, value, t.col⟩, { t with rest := t.rest.drop value.length, col := t.col + value.length })

/-- What `readScalar` reads: `prev` is the character before, `env` says that a `$` with a
brace is open. -/
def scalarSpan : Option Char → Bool → Text → Text
  | _, _, [] => []
  | prev, env, c :: r =>
    if c = nul ∨ isBreak c ∨ c = '#' then []
    else if env then c :: scalarSpan (some c) (c ≠ '\x7d') r
    else if c = '\x7b' ∧ prev = some '$' then c :: scalarSpan (some c) true r
    else if c = ',' ∨ c = '[' ∨ c = ']' ∨ c = '\x7b' ∨ c = '\x7d' then []
    else if c = ':' ∧ (isBlank (r.headD nul) ∨ r.headD nul = nul) then []
    else c :: scalarSpan (some c) false r

def scalarOf (value : Text) : TokenType × Text :=
  if value.lower ∈ ["true".toList, "yes".toList, "on".toList] then (.bool, "true".toList)
  else if value.lower ∈ ["false".toList, "no".toList, "off".toList] then (.bool, "false".toList)
  else if value.lower ∈ ["null".toList, "~".toList, []] then (.null, [])
  else (.string, value)

/-- From `tokenizer.go:425-474`. -/
def readScalar (t : Tokenizer) : Token × Tokenizer :=
  let span := scalarSpan none false t.rest
  let v := scalarOf (Text.trimSpace span)
  (⟨v.1, v.2, t.col⟩, { t with rest := t.rest.drop span.length, col := t.col + span.length })

/-- The part of `Next` behind the indentation. -/
def readToken (t : Tokenizer) : Token × Tokenizer :=
  let t := t.skipSpaces
  if t.rest = [] then t.emitEOF
  else
    let c := t.peek
    if isBreak c then t.handleNewline
    else if c = '#' then t.readComment
    else if c = ':' then t.emitChar .colon
    else if c = '-' then if isNumberStart t.rest then t.readNumber else t.emitChar .dash
    else if c = ',' then t.emitChar .comma
    else if c = '\x7b' then t.emitChar .lBrace
    else if c = '\x7d' then t.emitChar .rBrace
    else if c = '[' then t.emitChar .lBracket
    else if c = ']' then t.emitChar .rBracket
    -- block scalars, tags, anchors and aliases are refused
    else if c = '|' ∨ c = '>' ∨ c = '!' ∨ c = '&' ∨ c = '*' then (t.next.emit .error [], t.next)
    else if c = doubleQuote ∨ c = singleQuote then t.readQuotedString
    else if isNumberStart t.rest then t.readNumber
    else t.readScalar

/-- `Next`. -/
def nextToken (t : Tokenizer) : Token × Tokenizer :=
  match t.pendingTokens with
  | tok :: pending => (tok, { t with pendingTokens := pending })
  | [] =>
    if t.rest = [] then t.emitEOF
    else if t.atLineStart then
      match t.checkIndent with
      | (some tok, t) => (tok, t)
      | (none, t) => t.readToken
    else t.readToken

def nextSignificant : Nat → Tokenizer → Token × Tokenizer
  | 0, t => t.nextToken
  | n + 1, t => if t.nextToken.1.type = .comment then nextSignificant n t.nextToken.2 else t.nextToken

end Tokenizer

end NothingDNS.Config
