import PathQuery.Yaml.Directive
import PathQuery.Yaml.Scalar

namespace PathQuery.Yaml

/-! # YAML tokens

A YAML text is cut into tokens.  Where the structure shows in the indentation alone,
tokens without characters of their own mark the start and the end of a block.  The
part of YAML that is read has directives, block and flow collections, comments, and
plain and quoted scalars; anchors, tags and block scalars are refused.

A scalar or a flow collection turns out to be the key of a mapping only when the
colon after it is met.  Until then its place among the tokens is remembered, and the
key token goes in there.
-/

inductive Token where
  | directive (directive : Directive)
  | documentStart
  | documentEnd
  | sequenceStart
  | mappingStart
  | blockEnd
  | entry
  | key
  | value
  | openBracket
  | closeBracket
  | openBrace
  | closeBrace
  | comma
  | scalar (plain : Bool) (text : String)
  deriving DecidableEq

/-- A place where a key may have started. -/
structure PossibleKey where
  /-- How many tokens come before it. -/
  place : Nat
  offset : Nat
  line : Nat
  column : Nat
  /-- Nothing but a key can stand there. -/
  required : Bool

structure Scanner where
  cursor : Cursor
  /-- The tokens so far, the last one first. -/
  tokens : List Token
  /-- The column of the innermost block, `-1` outside of all. -/
  indent : Int
  /-- The columns of the blocks around it. -/
  outer : List Int
  /-- The key that may have started in the innermost collection. -/
  possibleKey : Option PossibleKey
  /-- The same for the flow collections around it, and last for the block. -/
  outerKeys : List (Option PossibleKey)
  /-- A key may start at the next token. -/
  keyAllowed : Bool

namespace Scanner

def inFlow (s : Scanner) : Bool := !s.outerKeys.isEmpty

def emit (token : Token) (s : Scanner) : Scanner := { s with tokens := token :: s.tokens }

/-- Put a token in after the first `place` ones. -/
def emitAt (place : Nat) (token : Token) (s : Scanner) : Scanner :=
  let later := s.tokens.length - place
  { s with tokens := s.tokens.take later ++ token :: s.tokens.drop later }

def skip (count : Nat) (s : Scanner) : Scanner := { s with cursor := s.cursor.skip count }

/-- Close the blocks to the right of a column. -/
def closeBlocks (column : Int) : Nat → Scanner → Scanner
  | 0, s => s
  | fuel + 1, s =>
    if s.indent ≤ column then s
    else
      let outer := s.outer.headD (-1)
      closeBlocks column fuel
        { s with tokens := .blockEnd :: s.tokens, indent := outer, outer := s.outer.tail }

def unroll (column : Int) (s : Scanner) : Scanner :=
  if s.inFlow then s else s.closeBlocks column (s.outer.length + 1)

/-- Open a block at a column unless one is open there. -/
def roll (column : Nat) (place : Nat) (token : Token) (s : Scanner) : Scanner :=
  if s.inFlow || (column : Int) ≤ s.indent then s
  else
    let s := s.emitAt place token
    { s with indent := column, outer := s.indent :: s.outer }

/-- Give up the key that may have started, unless it had to be one. -/
def dropKey (s : Scanner) : Option Scanner :=
  match s.possibleKey with
  | some key => if key.required then none else some { s with possibleKey := none }
  | none => some s

/-- Remember that a key may start here, if one may. -/
def saveKey (s : Scanner) : Option Scanner :=
  if s.keyAllowed then do
    let s ← s.dropKey
    let cursor := s.cursor
    let required := !s.inFlow && s.indent == (cursor.column : Int)
    return { s with
      possibleKey := some ⟨s.tokens.length, cursor.offset, cursor.line, cursor.column, required⟩ }
  else some s

/-- A key stands on one line and is not longer than 1024 bytes. -/
def isCurrent (s : Scanner) (key : PossibleKey) : Bool :=
  key.line == s.cursor.line && s.cursor.offset ≤ key.offset + 1024

/-- Skip blanks, comments and line breaks.  In a block, a key may start a line. -/
def skipToToken : Nat → Scanner → Scanner
  | 0, s => s
  | fuel + 1, s =>
    let tabs := s.inFlow || !s.keyAllowed
    let cursor := s.cursor.skipByteOrderMark.skipWhile fun c => c == ' ' || (c == '\t' && tabs)
    let cursor := cursor.skipComment
    match cursor.lineBreak? with
    | some (_, next) =>
      skipToToken fuel { s with cursor := next, keyAllowed := s.keyAllowed || !s.inFlow }
    | none => { s with cursor }

/-- A directive ends what stood before it. -/
def directive (s : Scanner) : Option Scanner := do
  let s ← (s.unroll (-1)).dropKey
  let (directive, next) ← Directive.read s.cursor
  return { s.emit (.directive directive) with cursor := next, keyAllowed := false }

def documentMark (token : Token) (s : Scanner) : Option Scanner := do
  let s ← (s.unroll (-1)).dropKey
  return { (s.emit token).skip 3 with keyAllowed := false }

def openFlow (token : Token) (s : Scanner) : Option Scanner := do
  let s ← s.saveKey
  return { (s.emit token).skip 1 with
    possibleKey := none
    outerKeys := s.possibleKey :: s.outerKeys
    keyAllowed := true }

def closeFlow (token : Token) (s : Scanner) : Option Scanner := do
  let s ← s.dropKey
  return { (s.emit token).skip 1 with
    possibleKey := s.outerKeys.headD s.possibleKey
    outerKeys := s.outerKeys.tail
    keyAllowed := false }

def comma (s : Scanner) : Option Scanner := do
  let s ← s.dropKey
  return { (s.emit .comma).skip 1 with keyAllowed := true }

def entry (s : Scanner) : Option Scanner := do
  if !s.inFlow && !s.keyAllowed then none
  let s := s.roll s.cursor.column s.tokens.length .sequenceStart
  let s ← s.dropKey
  return { (s.emit .entry).skip 1 with keyAllowed := true }

def explicitKey (s : Scanner) : Option Scanner := do
  if !s.inFlow && !s.keyAllowed then none
  let s := s.roll s.cursor.column s.tokens.length .mappingStart
  let s ← s.dropKey
  return { (s.emit .key).skip 1 with keyAllowed := !s.inFlow }

/-- A colon makes a key of what may have been one. -/
def value (s : Scanner) : Option Scanner :=
  let plainValue : Option Scanner :=
    if !s.inFlow && !s.keyAllowed then none
    else
      let s := s.roll s.cursor.column s.tokens.length .mappingStart
      some { (s.emit .value).skip 1 with keyAllowed := !s.inFlow }
  match s.possibleKey with
  | some key =>
    if s.isCurrent key then
      let s := s.emitAt key.place .key
      let s := s.roll key.column key.place .mappingStart
      some { (s.emit .value).skip 1 with possibleKey := none, keyAllowed := false }
    else if key.required then none
    else plainValue
  | none => plainValue

def scalar (plain : Bool) (scanned : ScannedScalar) (keyAllowed : Bool) (s : Scanner) :
    Scanner :=
  { s.emit (.scalar plain (String.ofList scanned.text)) with
    cursor := scanned.next, keyAllowed := keyAllowed }

def quoted (single : Bool) (s : Scanner) : Option Scanner := do
  let s ← s.saveKey
  let cursor := s.cursor.skip 1
  let scanned ← readQuoted single (cursor.rest.length + 1) [] cursor
  return s.scalar false scanned false

def plain (s : Scanner) : Option Scanner := do
  let s ← s.saveKey
  let cursor := s.cursor
  let scanned ←
    readPlain s.inFlow (s.indent + 1) (cursor.rest.length + 1) [] ⟨[], [], false⟩ cursor
  return s.scalar true scanned scanned.broken

/-- The characters that no plain scalar starts with, except where noted. -/
def indicators : String := "-?:,[]\x7b\x7d#&*!|>'\"%@`"

/-- A plain scalar may start here. -/
def startsPlain (inFlow : Bool) (c : Char) (rest : List Char) : Bool :=
  if c == '-' then !(rest.head?.any isSpaceOrTab)
  else if c == '?' || c == ':' then !inFlow && !endsWord rest
  else !isSpaceOrTab c && !indicators.toList.contains c

/-- Read the next token.  At the end of the text all blocks are closed. -/
def step (s : Scanner) : Option (Scanner × Bool) := do
  let s := s.skipToToken (s.cursor.rest.length + 1)
  let s := s.unroll s.cursor.column
  match s.cursor.rest with
  | [] =>
    let s ← (s.unroll (-1)).dropKey
    return (s, true)
  | c :: rest =>
    let next ←
      if s.cursor.column == 0 && c == '%' then s.directive
      else if s.cursor.atDocumentMark then
        s.documentMark (if c == '-' then .documentStart else .documentEnd)
      else if c == '[' then s.openFlow .openBracket
      else if c == '{' then s.openFlow .openBrace
      else if c == ']' then s.closeFlow .closeBracket
      else if c == '}' then s.closeFlow .closeBrace
      else if c == ',' then s.comma
      else if c == '-' && endsWord rest then s.entry
      else if c == '?' && (s.inFlow || endsWord rest) then s.explicitKey
      else if c == ':' && (s.inFlow || endsWord rest) then s.value
      else if c == '\'' then s.quoted true
      else if c == '"' then s.quoted false
      else if startsPlain s.inFlow c rest then s.plain
      else none
    return (next, false)

def run : Nat → Scanner → Option (List Token)
  | 0, _ => none
  | fuel + 1, s => do
    let (s, finished) ← s.step
    if finished then return s.tokens.reverse
    run fuel s

end Scanner

/-- The tokens of a text; none if it cannot be cut into tokens. -/
def Token.ofText? (text : String) : Option (List Token) :=
  let characters := text.toList
  if characters.all isAllowed then
    Scanner.run (characters.length + 2) {
      cursor := .ofText characters
      tokens := []
      indent := -1
      outer := []
      possibleKey := none
      outerKeys := []
      keyAllowed := true }
  else none

end PathQuery.Yaml
