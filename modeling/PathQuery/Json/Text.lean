import PathQuery.Json.Basic
import PathQuery.Decimal.Shortest
import PathQuery.Text.Basic

namespace PathQuery.Json

/-! # JSON text

The text of a value has no blanks, and an object's fields stand in their order.
In a string only quotes, backslashes and the characters below U+0020 are escaped.
-/

/-- Floats are positional from `0.00001` up to sixteen digits before the point. -/
def floatLayout : Decimal.Layout := ⟨-5, 15⟩

def Number.text : Number → String
  | integer value => toString value
  | float value => value.text floatLayout

def escapeChar (c : Char) : List Char :=
  if c = '"' then ['\\', '"']
  else if c = '\\' then ['\\', '\\']
  else if 0x20 ≤ c.toNat then [c]
  else if c = '\n' then ['\\', 'n']
  else if c = '\r' then ['\\', 'r']
  else if c = '\t' then ['\\', 't']
  else if c.toNat = 8 then ['\\', 'b']
  else if c.toNat = 12 then ['\\', 'f']
  else ['\\', 'u', '0', '0', Text.lowerHexDigit (c.toNat / 16), Text.lowerHexDigit (c.toNat % 16)]

def quote (text : String) : String :=
  "\"" ++ String.ofList (text.toList.flatMap escapeChar) ++ "\""

mutual

def text : Json → String
  | null => "null"
  | bool value => if value then "true" else "false"
  | number value => value.text
  | string value => quote value
  | array items => "[" ++ ",".intercalate (itemTexts items) ++ "]"
  | object fields => "\x7b" ++ ",".intercalate (fieldTexts fields) ++ "\x7d"

def itemTexts : List Json → List String
  | [] => []
  | item :: items => text item :: itemTexts items

def fieldTexts : List (String × Json) → List String
  | [] => []
  | (key, value) :: fields => (quote key ++ ":" ++ text value) :: fieldTexts fields

end

/-- The text that a value stands for in a filter or a template: a string is used as
    it is, any other value in its JSON text. -/
def plainText : Json → String
  | string value => value
  | value => value.text

end PathQuery.Json
