namespace PathQuery.Yaml

/-! # Places in a YAML text

A text is read from left to right with the line and the column in mind, since the
structure of a text shows in its indentation.
-/

/-- The characters that a text may hold. -/
def isAllowed (c : Char) : Bool :=
  let code := c.toNat
  code == 0x9 || code == 0xA || code == 0xD || (0x20 ≤ code && code ≤ 0x7E) ||
    code == 0x85 || (0xA0 ≤ code && code ≤ 0xFFFD) || 0x10000 ≤ code

def isBreak (c : Char) : Bool :=
  c == '\n' || c == '\r' || c == '\u0085' || c == '\u2028' || c == '\u2029'

def isSpaceOrTab (c : Char) : Bool := c == ' ' || c == '\t'

/-- The text goes on with a space, a tab or a line break, or it ends. -/
def endsWord : List Char → Bool
  | [] => true
  | c :: _ => isSpaceOrTab c || isBreak c

def byteLength (text : List Char) : Nat :=
  text.foldl (fun length c => length + c.utf8Size) 0

structure Cursor where
  rest : List Char
  offset : Nat
  line : Nat
  /-- The number of characters before the place in its line. -/
  column : Nat

namespace Cursor

def ofText (text : List Char) : Cursor := ⟨text, 0, 0, 0⟩

/-- Go on by some characters of one line. -/
def skip (count : Nat) (cursor : Cursor) : Cursor :=
  { cursor with
    rest := cursor.rest.drop count
    offset := cursor.offset + byteLength (cursor.rest.take count)
    column := cursor.column + count }

def skipWhile (p : Char → Bool) (cursor : Cursor) : Cursor :=
  cursor.skip (cursor.rest.takeWhile p).length

/-- A line may open with a byte order mark.  It is passed over, but it takes a column. -/
def skipByteOrderMark (cursor : Cursor) : Cursor :=
  if cursor.column == 0 && cursor.rest.head? == some '\ufeff' then cursor.skip 1 else cursor

/-- A comment reaches to the end of its line. -/
def skipComment (cursor : Cursor) : Cursor :=
  if cursor.rest.head? == some '#' then cursor.skipWhile fun c => !isBreak c else cursor

/-- Read a line break.  The breaks of one line count as line feeds; the separators
    of lines and of paragraphs stand for themselves. -/
def lineBreak? (cursor : Cursor) : Option (Char × Cursor) :=
  let next (count : Nat) : Cursor :=
    { rest := cursor.rest.drop count
      offset := cursor.offset + byteLength (cursor.rest.take count)
      line := cursor.line + 1
      column := 0 }
  match cursor.rest with
  | '\r' :: '\n' :: _ => some ('\n', next 2)
  | c :: _ =>
    if c == '\u2028' || c == '\u2029' then some (c, next 1)
    else if isBreak c then some ('\n', next 1)
    else none
  | [] => none

/-- Pass over blanks, a comment and the line break after them, or to the end of the
    text; none if something else stands before it. -/
def lineEnd? (cursor : Cursor) : Option Cursor :=
  let cursor := (cursor.skipWhile isSpaceOrTab).skipComment
  match cursor.lineBreak? with
  | some (_, next) => some next
  | none => if cursor.rest.isEmpty then some cursor else none

/-- A line that opens with `---`, or with `...`, ends what stood before it. -/
def atDocumentMark (cursor : Cursor) : Bool :=
  cursor.column == 0 &&
    match cursor.rest with
    | '-' :: '-' :: '-' :: rest => endsWord rest
    | '.' :: '.' :: '.' :: rest => endsWord rest
    | _ => false

end Cursor

end PathQuery.Yaml
