import NothingDNS.Config.Tokenizer
/-!
# Parser of the configuration (`internal/config/parser.go`)

A recursive-descent parser over the tokens, with one token of look-ahead. It
also reads the depth of the tokenizer's stack, and that is the depth behind the
last token read, not the depth of the token it looks at.

`p.depth` counts the open calls and is an argument here; the `indent` argument of the source is never read.
-/

namespace NothingDNS.Config

/-- The children of a mapping are key, value, key, value. -/
inductive Node
  | scalar (value : Text)
  | mapping (children : List Node)
  | sequence (children : List Node)
  deriving Repr

mutual

def Node.decEq : (a b : Node) → Decidable (a = b)
  | .scalar v, .scalar w => decidable_of_iff (v = w) (by rw [Node.scalar.injEq])
  | .mapping cs, .mapping ds =>
    match Node.decEqList cs ds with
    | .isTrue h => .isTrue (congrArg Node.mapping h)
    | .isFalse h => .isFalse fun he => h (Node.mapping.inj he)
  | .sequence cs, .sequence ds =>
    match Node.decEqList cs ds with
    | .isTrue h => .isTrue (congrArg Node.sequence h)
    | .isFalse h => .isFalse fun he => h (Node.sequence.inj he)
  | .scalar _, .mapping _ | .scalar _, .sequence _ | .mapping _, .scalar _ | .mapping _, .sequence _
  | .sequence _, .scalar _ | .sequence _, .mapping _ => .isFalse nofun

def Node.decEqList : (as bs : List Node) → Decidable (as = bs)
  | [], [] => .isTrue rfl
  | [], _ :: _ | _ :: _, [] => .isFalse nofun
  | a :: as, b :: bs =>
    match Node.decEq a b, Node.decEqList as bs with
    | .isTrue h, .isTrue hs => .isTrue (h ▸ hs ▸ rfl)
    | .isFalse h, _ => .isFalse fun he => h (List.cons.inj he).1
    | _, .isFalse hs => .isFalse fun he => hs (List.cons.inj he).2

end

instance : DecidableEq Node := Node.decEq

inductive ParseError
  | depth
  | unexpected (type : TokenType)
  | expectedKey (type : TokenType)
  | expectedColon (type : TokenType)
  | duplicateKey (key : Text)
  | unterminated
  | outOfFuel
  deriving DecidableEq, Repr

def maxYAMLDepth : Nat := 100

structure Parser where
  tokenizer : Tokenizer
  current : Token
  /-- `none` if `hasPeek` is false. -/
  peekToken : Option Token := none
  deriving Repr

abbrev Parsed := Except ParseError (Node × Parser)

namespace Parser

/-- From `parser.go:92-104`. -/
def advance (p : Parser) : Parser :=
  match p.peekToken with
  | some tok => { p with current := tok, peekToken := none }
  | none =>
    let r := p.tokenizer.nextSignificant p.tokenizer.rest.length
    { tokenizer := r.2, current := r.1 }

/-- From `parser.go:107-118`. -/
def peek (p : Parser) : Token × Parser :=
  match p.peekToken with
  | some tok => (tok, p)
  | none =>
    let r := p.tokenizer.nextSignificant p.tokenizer.rest.length
    (r.1, { p with tokenizer := r.2, peekToken := some r.1 })

def take (p : Parser) (tok : Token) : Parser := { p with current := tok, peekToken := none }

def new (input : Text) : Parser := advance { tokenizer := { rest := input }, current := ⟨.eof, [], 0⟩ }

def skip : Nat → List TokenType → Parser → Except ParseError Parser
  | 0, _, _ => .error .outOfFuel
  | n + 1, types, p => if p.current.type ∈ types then skip n types p.advance else .ok p

def skipIndent (p : Parser) : Parser := if p.current.type = .indent then p.advance else p

def parseScalar (p : Parser) : Node × Parser := (.scalar p.current.value, p.advance)

/-- The loop behind an item: DEDENT tokens are dropped as long as another one or a dash of
the same sequence follows. -/
def absorbDedents : Nat → Nat → Parser → Except ParseError Parser
  | 0, _, _ => .error .outOfFuel
  | n + 1, col, p =>
    if p.current.type ≠ .dedent then .ok p
    else
      let (next, p) := p.peek
      if next.type = .dash ∧ next.col = col then .ok (p.take next)
      else if next.type = .dedent then absorbDedents n col (p.take next)
      else .ok p

mutual

/-- From `parser.go:130-151`. -/
def parseValue : Nat → Nat → Parser → Parsed
  | 0, _, _ => .error .outOfFuel
  | n + 1, depth, p =>
    if maxYAMLDepth < depth then .error .depth
    else match p.current.type with
      | .lBrace => parseFlowMapping n depth p
      | .lBracket => parseFlowSequence n depth p
      | .dash => parseBlockSequence n depth p
      | .string | .number | .bool | .null => .ok p.parseScalar
      | .indent => parseValue n depth p.advance
      | type => .error (.unexpected type)

/-- From `parser.go:166-309`. -/
def parseMapping : Nat → Nat → Parser → Parsed
  | 0, _, _ => .error .outOfFuel
  | n + 1, depth, p =>
    if maxYAMLDepth < depth then .error .depth
    else mappingLoop n (depth + 1) p.tokenizer.currentIndent [] [] p

def mappingLoop : Nat → Nat → Nat → List Text → List Node → Parser → Parsed
  | 0, _, _, _, _, _ => .error .outOfFuel
  | n + 1, depth, entry, seen, children, p => do
    let p ← skip n [.newline] p
    if p.current.type = .eof then .ok (.mapping children, p)
    else if p.current.type = .dedent then
      let p := p.advance
      if p.tokenizer.currentIndent < entry then .ok (.mapping children, p)
      else mappingLoop n depth entry seen children p
    else if p.current.type ≠ .string then
      if children ≠ [] then .ok (.mapping children, p) else .error (.expectedKey p.current.type)
    else
      let key := p.current.value
      let p := p.advance
      if p.current.type ≠ .colon then .error (.expectedColon p.current.type)
      else
        let p ← skip n [.indent] p.advance
        let (value, p) ← mappingValue n depth p
        if key ∈ seen then .error (.duplicateKey key)
        else
          let children := children ++ [.scalar key, value]
          let p ← skip n [.newline] p
          mappingNext n depth entry (key :: seen) children p

def mappingNext : Nat → Nat → Nat → List Text → List Node → Parser → Parsed
  | 0, _, _, _, _, _ => .error .outOfFuel
  | n + 1, depth, entry, seen, children, p =>
    if p.current.type = .dedent then
      let p := p.advance
      if p.tokenizer.currentIndent < entry then .ok (.mapping children, p)
      else mappingLoop n depth entry seen children p
    else mappingLoop n depth entry seen children p

def mappingValue : Nat → Nat → Parser → Parsed
  | 0, _, _ => .error .outOfFuel
  | n + 1, depth, p => match p.current.type with
    | .newline => do
      let p ← skip n [.newline] p.advance
      if p.current.type = .indent then
        let p := p.advance
        if p.current.type = .dash then parseBlockSequence n depth p
        else if p.current.type = .string then parseMapping n depth p
        else parseValue n depth p
      else if p.current.type = .dash then parseBlockSequence n depth p
      else .ok (.scalar [], p)
    | .indent => parseValue n depth p.advance
    | .lBrace => parseFlowMapping n depth p
    | .lBracket => parseFlowSequence n depth p
    | .dash => parseBlockSequence n depth p
    | .string | .number | .bool | .null =>
      let (value, p) := p.parseScalar
      .ok (value, if p.current.type = .dedent then p.advance else p)
    | .eof => .ok (.scalar [], p)
    | type => .error (.unexpected type)

/-- From `parser.go:312-704`. -/
def parseBlockSequence : Nat → Nat → Parser → Parsed
  | 0, _, _ => .error .outOfFuel
  | n + 1, depth, p =>
    if maxYAMLDepth < depth then .error .depth
    else sequenceLoop n (depth + 1) p.current.col [] p

def sequenceLoop : Nat → Nat → Nat → List Node → Parser → Parsed
  | 0, _, _, _, _ => .error .outOfFuel
  | n + 1, depth, col, items, p =>
    if p.current.type ≠ .dash then .ok (.sequence items, p)
    else do
      let p ← skip n [.indent] p.advance
      let (value, p) ← sequenceItem n depth p
      let p ← skip n [.newline] p
      let p ← absorbDedents n col p
      if p.current.type ≠ .dash then .ok (.sequence (items ++ [value]), p)
      else sequenceLoop n depth col (items ++ [value]) p

def sequenceItem : Nat → Nat → Parser → Parsed
  | 0, _, _ => .error .outOfFuel
  | n + 1, depth, p => match p.current.type with
    | .newline => do
      let p ← skip n [.newline] p.advance
      let p := p.skipIndent
      if p.current.type = .dash then parseBlockSequence n depth p
      else if p.current.type = .string then
        let (next, p) := p.peek
        if next.type = .colon then itemMapping n depth p.current (p.take next)
        else .ok (.scalar p.current.value, p.advance)
      else .ok (.scalar [], p)
    | .string =>
      let (next, p) := p.peek
      if next.type = .colon then itemMapping n depth p.current (p.take next) else .ok p.parseScalar
    | .number | .bool | .null => .ok p.peek.2.parseScalar
    | .lBrace => parseFlowMapping n depth p
    | .lBracket => parseFlowSequence n depth p
    | _ => .ok (.scalar [], p)

/-- A mapping as an item, from the colon behind its first key on. -/
def itemMapping : Nat → Nat → Token → Parser → Parsed
  | 0, _, _, _ => .error .outOfFuel
  | n + 1, depth, key, p => do
    let (value, p) ← itemFirstValue n depth p.advance
    itemLoop n depth key.col [key.value] [.scalar key.value, value] p

def itemFirstValue : Nat → Nat → Parser → Parsed
  | 0, _, _ => .error .outOfFuel
  | n + 1, depth, p => match p.current.type with
    | .newline => do
      let p ← skip n [.newline] p.advance
      let p := p.skipIndent
      if p.current.type = .dash then parseBlockSequence n depth p
      else if p.current.type = .string then
        let (next, p) := p.peek
        -- the colon becomes the current token, so the key before it is gone
        if next.type = .colon then parseMapping n depth (p.take next)
        else .ok (.scalar p.current.value, p.advance)
      else parseValue n depth p
    | _ => inlineValue n depth p

def itemLoop : Nat → Nat → Nat → List Text → List Node → Parser → Parsed
  | 0, _, _, _, _, _ => .error .outOfFuel
  | n + 1, depth, col, seen, children, p => do
    let p ← skip n [.newline, .indent] p
    if p.current.type = .eof then .ok (.mapping children, p)
    else if p.current.type = .dedent then
      let (next, p) := p.peek
      if next.type = .string ∧ col ≤ next.col then itemLoop n depth col seen children p.advance
      else .ok (.mapping children, p)
    else if p.current.type ≠ .string then .ok (.mapping children, p)
    else
      let key := p.current.value
      let p := p.advance
      if p.current.type ≠ .colon then .ok (.mapping children, p)
      else
        let (value, p) ← itemValue n depth p.advance
        if key ∈ seen then .error (.duplicateKey key)
        else itemLoop n depth col (key :: seen) (children ++ [.scalar key, value]) p

def itemValue : Nat → Nat → Parser → Parsed
  | 0, _, _ => .error .outOfFuel
  | n + 1, depth, p => match p.current.type with
    | .newline => do
      let p ← skip n [.newline] p.advance
      let p := p.skipIndent
      if p.current.type = .dash then parseBlockSequence n depth p
      else if p.current.type = .string then
        let (next, p) := p.peek
        if next.type = .colon then parseMapping n depth p else parseValue n depth p
      else parseValue n depth p
    | _ => inlineValue n depth p

def inlineValue : Nat → Nat → Parser → Parsed
  | 0, _, _ => .error .outOfFuel
  | n + 1, depth, p => match p.current.type with
    | .indent => parseValue n depth p.advance
    | .lBrace => parseFlowMapping n depth p
    | .lBracket => parseFlowSequence n depth p
    | .dash => parseBlockSequence n depth p
    | .string | .number | .bool | .null => .ok p.parseScalar
    | _ => .ok (.scalar [], p)

/-- From `parser.go:707-774`. -/
def parseFlowMapping : Nat → Nat → Parser → Parsed
  | 0, _, _ => .error .outOfFuel
  | n + 1, depth, p =>
    if maxYAMLDepth < depth then .error .depth else flowMappingLoop n (depth + 1) [] [] p.advance

def flowMappingLoop : Nat → Nat → List Text → List Node → Parser → Parsed
  | 0, _, _, _, _ => .error .outOfFuel
  | n + 1, depth, seen, children, p =>
    if p.current.type = .rBrace then .ok (.mapping children, p.advance)
    else if p.current.type = .eof then .error .unterminated
    else if p.current.type ≠ .string then .error (.expectedKey p.current.type)
    else
      let key := p.current.value
      let p := p.advance
      if p.current.type ≠ .colon then .error (.expectedColon p.current.type)
      else do
        let (value, p) ← flowValue n depth p.advance
        if key ∈ seen then .error (.duplicateKey key)
        else
          let p := if p.current.type = .comma then p.advance else p
          flowMappingLoop n depth (key :: seen) (children ++ [.scalar key, value]) p

/-- From `parser.go:786-832`. -/
def parseFlowSequence : Nat → Nat → Parser → Parsed
  | 0, _, _ => .error .outOfFuel
  | n + 1, depth, p =>
    if maxYAMLDepth < depth then .error .depth else flowSequenceLoop n (depth + 1) [] p.advance

def flowSequenceLoop : Nat → Nat → List Node → Parser → Parsed
  | 0, _, _, _ => .error .outOfFuel
  | n + 1, depth, items, p =>
    if p.current.type = .rBracket then .ok (.sequence items, p.advance)
    else if p.current.type = .eof then .error .unterminated
    else do
      let (value, p) ← flowValue n depth p
      let p := if p.current.type = .comma then p.advance else p
      flowSequenceLoop n depth (items ++ [value]) p

def flowValue : Nat → Nat → Parser → Parsed
  | 0, _, _ => .error .outOfFuel
  | n + 1, depth, p => match p.current.type with
    | .string | .number | .bool | .null => .ok p.parseScalar
    | .lBrace => parseFlowMapping n depth p
    | .lBracket => parseFlowSequence n depth p
    | type => .error (.unexpected type)

end

end Parser

/-- From `parser.go:59-89`. -/
def ParseMapping (fuel : Nat) (input : Text) : Except ParseError Node := do
  let p ← (Parser.new input).skip fuel [.newline]
  let (node, p) ← if p.current.type = .lBrace then p.parseFlowMapping fuel 0 else p.parseMapping fuel 0
  let p ← p.skip fuel [.newline]
  if p.current.type ≠ .eof then .error (.unexpected p.current.type) else .ok node

end NothingDNS.Config
