import PathQuery.Text.Basic
import PathQuery.Yaml.Cursor

namespace PathQuery.Yaml

/-! # YAML scalars

A scalar may go on over several lines.  The line breaks between two pieces of it are
folded: a single one counts as a space, and of several the first is dropped.  A plain
scalar ends where the structure of the text does not allow it to go on; a quoted one
ends at its closing quote.
-/

/-- Blanks and line breaks between two pieces of a scalar: the blanks before the
    first break, and the breaks. -/
structure Gap where
  blanks : List Char
  breaks : List Char
  /-- A break was met, be it an escaped one, which is not among `breaks`. -/
  broken : Bool

/-- What a gap stands for.  A single line feed is folded to a space, and the first
    of several is dropped. -/
def Gap.text (gap : Gap) : List Char :=
  if gap.broken then
    match gap.breaks with
    | ['\n'] => [' ']
    | '\n' :: later => later
    | breaks => breaks
  else gap.blanks

/-- Read the gap at a place.  In the lines after the first, a tab left of `indent` is
    an error.  `skipped` says that a break was met already and does not count. -/
def readGap (indent : Int) : Nat → Gap → Cursor → Option (Gap × Cursor)
  | 0, _, _ => none
  | fuel + 1, gap, cursor =>
    match cursor.rest with
    | c :: _ =>
      if isSpaceOrTab c then
        if gap.broken then
          if c == '\t' && (cursor.column : Int) < indent then none
          else readGap indent fuel gap (cursor.skip 1)
        else readGap indent fuel { gap with blanks := gap.blanks ++ [c] } (cursor.skip 1)
      else
        match cursor.lineBreak? with
        | some (lineBreak, next) =>
          let gap := { gap with breaks := gap.breaks ++ [lineBreak], broken := true }
          readGap indent fuel gap next
        | none => some (gap, cursor)
    | [] => some (gap, cursor)

/-- The run of characters of a plain scalar at the front of a text.  In a flow
    collection the characters of its structure end the run, and a colon right before
    one of them is an error. -/
def plainRun (inFlow : Bool) : List Char → Option (List Char)
  | [] => some []
  | c :: rest =>
    let nextIn (indicators : String) : Bool := match rest with
      | next :: _ => indicators.toList.contains next
      | [] => false
    if endsWord (c :: rest) then some []
    else if inFlow && c == ':' && nextIn ",?[]\x7b\x7d" then none
    else if c == ':' && endsWord rest then some []
    else if inFlow && ",[]\x7b\x7d".toList.contains c then some []
    else (plainRun inFlow rest).map (c :: ·)

/-- A scalar's text, where it ends, and whether a line break comes right before. -/
structure ScannedScalar where
  text : List Char
  next : Cursor
  broken : Bool

/-- Read a plain scalar from the end of a gap on.  In a block it ends before a line
    that is not indented by `indent`. -/
def readPlain (inFlow : Bool) (indent : Int) :
    Nat → List Char → Gap → Cursor → Option ScannedScalar
  | 0, _, _, _ => none
  | fuel + 1, text, gap, cursor => do
    if cursor.atDocumentMark || cursor.rest.head? == some '#' then
      return ⟨text, cursor, gap.broken⟩
    let run ← plainRun inFlow cursor.rest
    if run.isEmpty then
      return ⟨text, cursor, gap.broken⟩
    let text := text ++ gap.text ++ run
    let after := cursor.skip run.length
    let (gap, next) ← readGap indent (after.rest.length + 1) ⟨[], [], false⟩ after
    if gap.blanks.isEmpty && !gap.broken then
      return ⟨text, next, false⟩
    if !inFlow && (next.column : Int) < indent then
      return ⟨text, next, gap.broken⟩
    readPlain inFlow indent fuel text gap next

/-- The character with a code of `count` hexadecimal digits at the front of a text. -/
def hexChar? (count : Nat) (text : List Char) : Option Char := do
  let digits ← (text.take count).mapM Text.hexValue?
  let code := digits.foldl (fun code digit => code * 16 + digit) 0
  if digits.length < count || (0xD800 ≤ code && code ≤ 0xDFFF) || 0x10FFFF < code then none
  else some (Char.ofNat code)

/-- The character after a backslash and how many characters name it. -/
def escape? : List Char → Option (Char × Nat)
  | '0' :: _ => some ('\x00', 1)
  | 'a' :: _ => some ('\x07', 1)
  | 'b' :: _ => some ('\x08', 1)
  | 't' :: _ => some ('\t', 1)
  | '\t' :: _ => some ('\t', 1)
  | 'n' :: _ => some ('\n', 1)
  | 'v' :: _ => some ('\x0b', 1)
  | 'f' :: _ => some ('\x0c', 1)
  | 'r' :: _ => some ('\r', 1)
  | 'e' :: _ => some ('\x1b', 1)
  | ' ' :: _ => some (' ', 1)
  | '"' :: _ => some ('"', 1)
  | '/' :: _ => some ('/', 1)
  | '\\' :: _ => some ('\\', 1)
  | 'N' :: _ => some ('\u0085', 1)
  | '_' :: _ => some ('\u00a0', 1)
  | 'L' :: _ => some ('\u2028', 1)
  | 'P' :: _ => some ('\u2029', 1)
  | 'x' :: rest => (hexChar? 2 rest).map fun c => (c, 3)
  | 'u' :: rest => (hexChar? 4 rest).map fun c => (c, 5)
  | 'U' :: rest => (hexChar? 8 rest).map fun c => (c, 9)
  | _ => none

inductive RunEnd where
  | quote
  | blank
  | escapedBreak

def readQuotedRun (single : Bool) :
    Nat → List Char → Cursor → Option (List Char × RunEnd × Cursor)
  | 0, _, _ => none
  | fuel + 1, text, cursor =>
    match cursor.rest with
    | [] => none
    | c :: rest =>
      if endsWord (c :: rest) then some (text.reverse, .blank, cursor)
      else if single then
        if c == '\'' then
          match rest with
          | '\'' :: _ => readQuotedRun single fuel ('\'' :: text) (cursor.skip 2)
          | _ => some (text.reverse, .quote, cursor.skip 1)
        else readQuotedRun single fuel (c :: text) (cursor.skip 1)
      else if c == '"' then some (text.reverse, .quote, cursor.skip 1)
      else if c == '\\' then
        match (cursor.skip 1).lineBreak? with
        | some (_, next) => some (text.reverse, .escapedBreak, next)
        | none =>
          match escape? rest with
          | some (c, count) => readQuotedRun single fuel (c :: text) (cursor.skip (count + 1))
          | none => none
      else readQuotedRun single fuel (c :: text) (cursor.skip 1)

def readQuoted (single : Bool) : Nat → List Char → Cursor → Option ScannedScalar
  | 0, _, _ => none
  | fuel + 1, text, cursor => do
    if cursor.atDocumentMark then none
    let (run, runEnd, next) ← readQuotedRun single (cursor.rest.length + 1) [] cursor
    let text := text ++ run
    match runEnd with
    | .quote => return ⟨text, next, false⟩
    | .blank =>
      let (gap, next) ← readGap (-1) (next.rest.length + 1) ⟨[], [], false⟩ next
      readQuoted single fuel (text ++ gap.text) next
    | .escapedBreak =>
      let (gap, next) ← readGap (-1) (next.rest.length + 1) ⟨[], [], true⟩ next
      readQuoted single fuel (text ++ gap.breaks) next

end PathQuery.Yaml
