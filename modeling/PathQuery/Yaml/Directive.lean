import PathQuery.Text.Basic
import PathQuery.Yaml.Cursor

namespace PathQuery.Yaml

/-! # YAML directives

Before a document there may be lines that open with a percent sign.  Such a line names
the version of YAML that the document is written in, or it names a handle for tags and
what the handle stands for.  Nothing else in a document depends on them.
-/

inductive Directive where
  | version (major minor : Nat)
  | tagHandle (handle : List Char)
  deriving DecidableEq

def isNameChar (c : Char) : Bool := c.isAlphanum || c == '_' || c == '-'

/-- The characters that stand for themselves where a handle says what it stands for. -/
def isUriChar (c : Char) : Bool := isNameChar c || ";/?:@&=+$.!~*'(),[]".toList.contains c

/-- How many bytes follow the first byte of a character in UTF-8. -/
def laterBytes? (byte : Nat) : Option Nat :=
  if byte < 0x80 then some 0
  else if 0xC0 ≤ byte && byte < 0xE0 then some 1
  else if 0xE0 ≤ byte && byte < 0xF0 then some 2
  else if 0xF0 ≤ byte && byte < 0xF8 then some 3
  else none

/-- The length of what a handle stands for at the front of a text.  Other characters are
    written as percent signs with the two digits of a byte; `later` bytes of the
    character before are still to come. -/
def uriLength? (later : Nat) : List Char → Option Nat
  | '%' :: first :: second :: rest => do
    let byte := (← Text.hexValue? first) * 16 + (← Text.hexValue? second)
    let later ← match later with
      | 0 => laterBytes? byte
      | later + 1 => if 0x80 ≤ byte && byte < 0xC0 then some later else none
    return (← uriLength? later rest) + 3
  | c :: rest =>
    if c == '%' || 0 < later then none
    else if isUriChar c then (uriLength? 0 rest).map (· + 1)
    else some 0
  | [] => if later = 0 then some 0 else none

namespace Directive

/-- Read a number of at most nine digits. -/
def readNumber (cursor : Cursor) : Option (Nat × Cursor) :=
  let digits := cursor.rest.takeWhile Char.isDigit
  if digits.isEmpty || 9 < digits.length then none
  else
    let number := digits.foldl (fun n digit => n * 10 + (digit.toNat - 48)) 0
    some (number, cursor.skip digits.length)

def readVersion (cursor : Cursor) : Option (Directive × Cursor) := do
  let (major, cursor) ← readNumber cursor
  if cursor.rest.head? != some '.' then none
  let (minor, cursor) ← readNumber (cursor.skip 1)
  return (version major minor, cursor)

/-- Read a handle and what it stands for.  A handle is a name between exclamation
    marks, or one such mark. -/
def readTagHandle (cursor : Cursor) : Option (Directive × Cursor) := do
  if cursor.rest.head? != some '!' then none
  let name := (cursor.rest.drop 1).takeWhile isNameChar
  let closed := (cursor.rest.drop (1 + name.length)).head? == some '!'
  if !closed && !name.isEmpty then none
  let length := 1 + name.length + (if closed then 1 else 0)
  let handle := cursor.rest.take length
  let cursor := cursor.skip length
  if !cursor.rest.head?.any isSpaceOrTab then none
  let cursor := cursor.skipWhile isSpaceOrTab
  let length ← uriLength? 0 cursor.rest
  let cursor := cursor.skip length
  if length == 0 || !endsWord cursor.rest then none
  return (tagHandle handle, cursor)

/-- Read a directive from its percent sign on, and the rest of its line. -/
def read (cursor : Cursor) : Option (Directive × Cursor) := do
  let cursor := cursor.skip 1
  let name := cursor.rest.takeWhile isNameChar
  let cursor := cursor.skip name.length
  if !endsWord cursor.rest then none
  let cursor := cursor.skipWhile isSpaceOrTab
  let (directive, cursor) ←
    if name == "YAML".toList then readVersion cursor
    else if name == "TAG".toList then readTagHandle cursor
    else none
  return (directive, ← cursor.lineEnd?)

/-- The versions that are understood are 1.1 and 1.2. -/
def isUnderstood : Directive → Bool
  | version major minor => major == 1 && (minor == 1 || minor == 2)
  | tagHandle _ => true

/-- Two directives settle the same thing. -/
def settlesSameAs : Directive → Directive → Bool
  | version .., version .. => true
  | tagHandle one, tagHandle other => one == other
  | _, _ => false

/-- A document is read if its directives are understood and nothing is settled twice. -/
def areAllowed : List Directive → Bool
  | [] => true
  | directive :: later =>
    directive.isUnderstood && !later.any directive.settlesSameAs && areAllowed later

end Directive

end PathQuery.Yaml
