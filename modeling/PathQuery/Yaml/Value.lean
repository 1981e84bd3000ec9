import PathQuery.Yaml.Node
import PathQuery.Json.Reader

namespace PathQuery.Yaml

/-! # YAML nodes as JSON values

A quoted scalar is a string.  A plain one is what it looks like: nothing, a boolean,
an integer, a float, or else a string.  The infinities and the undefined number have
no JSON form and become `null`.
-/

def isNull (text : String) : Bool := ["", "null", "Null", "NULL", "~"].contains text

def bool? (text : String) : Option Bool :=
  if ["true", "True", "TRUE"].contains text then some true
  else if ["false", "False", "FALSE"].contains text then some false
  else none

def digitOf? (radix : Nat) (c : Char) : Option Nat :=
  (Text.hexValue? c).bind fun digit => if digit < radix then some digit else none

/-- The number with some digits, at least one. -/
def natural? (radix : Nat) (digits : List Char) : Option Nat :=
  if digits.isEmpty then none
  else do
    let digits ← digits.mapM (digitOf? radix)
    return digits.foldl (fun n digit => n * radix + digit) 0

/-- Digits that open with a needless zero are a string. -/
def hasNeedlessZero (text : List Char) : Bool :=
  let digits := match text with
    | '+' :: rest => rest
    | '-' :: rest => rest
    | text => text
  match digits with
  | '0' :: c :: rest => (c :: rest).all Char.isDigit
  | _ => false

/-- The radix that a number announces, and its digits. -/
def radixOf : List Char → Nat × List Char
  | '0' :: 'x' :: rest => (16, rest)
  | '0' :: 'o' :: rest => (8, rest)
  | '0' :: 'b' :: rest => (2, rest)
  | digits => (10, digits)

/-- The integer that a plain scalar is, whatever its size. -/
def integer? (text : List Char) : Option Int :=
  if hasNeedlessZero text then none
  else
    let magnitude (text : List Char) : Option Nat :=
      let (radix, digits) := radixOf text
      natural? radix digits
    match text with
    | '-' :: rest => (magnitude rest).map fun n => -(n : Int)
    | '+' :: rest => (magnitude rest).map fun n => (n : Int)
    | rest => (magnitude rest).map fun n => (n : Int)

/-- The integer is one of `bits` bits, signed or unsigned. -/
def fits (bits : Nat) (n : Int) : Bool :=
  -(Decimal.twoTo (bits - 1) : Int) ≤ n && n < (Decimal.twoTo bits : Int)

def float? (text : List Char) : Option Decimal.Binary64 := do
  let (negative, text) := match text with
    | '-' :: rest => (true, rest)
    | '+' :: rest => (false, rest)
    | text => (false, text)
  let (whole, text) := Json.takeDigits text
  let (fraction, text) := match text with
    | '.' :: rest => Json.takeDigits rest
    | text => ([], text)
  let (exponent, text) ← Json.takeExponent? text
  if (whole.isEmpty && fraction.isEmpty) || !text.isEmpty then none
  else
    Decimal.Binary64.ofDecimal negative (Json.natOfDigits (whole ++ fraction))
      (exponent.getD 0 - fraction.length)

/-- The words for an infinity and for the undefined number. -/
def isUnbounded (text : String) : Bool :=
  [".inf", ".Inf", ".INF", "+.inf", "+.Inf", "+.INF", "-.inf", "-.Inf", "-.INF",
    ".nan", ".NaN", ".NAN"].contains text

/-- The value of a plain scalar.  Integers that fit 128 bits but not 64 are refused; a
    number with yet more digits is a float. -/
def plainValue? (text : String) : Option Json :=
  if isNull text then some .null
  else
    match bool? text with
    | some value => some (.bool value)
    | none =>
      let characters := text.toList
      let other : Json :=
        if hasNeedlessZero characters then .string text
        else if isUnbounded text then .null
        else
          match float? characters with
          | some value => .number (.float value)
          | none => .string text
      match integer? characters with
      | some n =>
        if fits 64 n then some (.number (.integer n))
        else if fits 128 n then none
        else some other
      | none => some other

def Node.text? : Node → Option String
  | .scalar _ text => some text
  | _ => none

mutual

/-- The JSON value of a node with at most `depth` levels of collections.  Keys are
    taken as they are written, and of two equal keys the later gives the value. -/
def Node.value? (depth : Nat) : Node → Option Json
  | .scalar plain text => if plain then plainValue? text else some (.string text)
  | .sequence items =>
    match depth with
    | 0 => none
    | inner + 1 => (values? inner items).map .array
  | .mapping entries =>
    match depth with
    | 0 => none
    | inner + 1 => (fields? inner entries).map fun fields => .object (Json.Fields.ofList fields)

def values? (depth : Nat) : List Node → Option (List Json)
  | [] => some []
  | item :: items => do
    let value ← item.value? depth
    let values ← values? depth items
    return value :: values

def fields? (depth : Nat) : List (Node × Node) → Option (List (String × Json))
  | [] => some []
  | (key, item) :: entries => do
    let key ← key.text?
    let value ← item.value? depth
    let fields ← fields? depth entries
    return (key, value) :: fields

end

end PathQuery.Yaml
