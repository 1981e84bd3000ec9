import PathQuery.Text.Basic

namespace PathQuery

/-! # Column types

Only the distinctions that matter to a path are kept: numbers compare as numbers,
and the JSON types have a `null` value of their own beside the absent one.
-/

inductive ColumnType where
  | text
  | int2
  | int4
  | int8
  | float4
  | float8
  | numeric
  | boolean
  | date
  | timestamp
  | timestamptz
  | json
  | jsonb
  | serial4
  | serial8
  | array (element : ColumnType)
  /-- A type without special treatment, under the name it was given. -/
  | other (name : String)
  deriving DecidableEq

namespace ColumnType

def name : ColumnType → String
  | text => "text"
  | int2 => "int2"
  | int4 => "int4"
  | int8 => "int8"
  | float4 => "float4"
  | float8 => "float8"
  | numeric => "numeric"
  | boolean => "boolean"
  | date => "date"
  | timestamp => "timestamp"
  | timestamptz => "timestamptz"
  | json => "json"
  | jsonb => "jsonb"
  | serial4 => "serial4"
  | serial8 => "serial8"
  | array element => element.name ++ "[]"
  | other name => name

def isNumeric : ColumnType → Bool
  | int2 | int4 | int8 | float4 | float8 | numeric | serial4 | serial8 => true
  | _ => false

/-- The type has a `null` value that is not the absent value. -/
def hasNullLiteral : ColumnType → Bool
  | json | jsonb => true
  | _ => false

def isOther : ColumnType → Bool
  | other _ => true
  | _ => false

/-- The names with a meaning, in lower case. -/
def byName : List (String × ColumnType) := [
  ("text", text), ("markdown", text), ("longtext", text),
  ("ermrest_curie", text), ("ermrest_uri", text),
  ("ermrest_rid", text), ("ermrest_rcb", text), ("ermrest_rmb", text),
  ("int2", int2), ("smallint", int2),
  ("int4", int4), ("integer", int4), ("int", int4),
  ("int8", int8), ("bigint", int8),
  ("float4", float4), ("real", float4),
  ("float8", float8), ("double precision", float8),
  ("numeric", numeric),
  ("boolean", boolean), ("bool", boolean),
  ("date", date),
  ("timestamp", timestamp),
  ("timestamptz", timestamptz), ("ermrest_rct", timestamptz), ("ermrest_rmt", timestamptz),
  ("json", json), ("jsonb", jsonb),
  ("serial4", serial4), ("serial", serial4),
  ("serial8", serial8), ("bigserial", serial8)]

/-- Lower case as far as it can lead to an ASCII letter: beside the ASCII capitals
    only the Kelvin sign does, to `k`. -/
def lower (c : Char) : Char := if c = '\u212a' then 'k' else c.toLower

/-- The text before a final `[]`. -/
def elementName? (text : List Char) : Option (List Char) :=
  match text.reverse with
  | ']' :: '[' :: rest => some rest.reverse
  | _ => none

/-- The type of a name without blanks around it that is no array's name. -/
def ofSimpleName (name : List Char) : ColumnType :=
  match byName.lookup (String.ofList (name.map lower)) with
  | some type => type
  | none => other (String.ofList name)

theorem length_elementName? {text element : List Char}
    (array : elementName? text = some element) : element.length < text.length := by
  unfold elementName? at array
  split at array
  · rename_i rest reversed
    have same := congrArg List.length reversed
    simp at same array
    simp [← array]
    omega
  · simp at array

/-- Read a type name.  Blanks around it and the case of letters do not count, and a
    final `[]` makes an array.  A blank name is refused; the error is the name at
    the level where it was found blank. -/
def ofChars (text : List Char) : Except (List Char) ColumnType :=
  if (Text.trim text).isEmpty then .error text
  else
    match _array : elementName? (Text.trim text) with
    | some element => (ofChars element).map array
    | none => .ok (ofSimpleName (Text.trim text))
termination_by text.length
decreasing_by
  have := length_elementName? _array
  have := Text.length_trim_le text
  omega

/-- A text that names no type. -/
structure NameError where
  input : String
  deriving DecidableEq

def NameError.message (error : NameError) : String :=
  "Invalid column type '" ++ error.input ++ "'"

def ofName (text : String) : Except NameError ColumnType :=
  match ofChars text.toList with
  | .ok type => .ok type
  | .error input => .error ⟨String.ofList input⟩

end ColumnType

end PathQuery
