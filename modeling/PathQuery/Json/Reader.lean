import PathQuery.Json.Basic
import PathQuery.Text.Basic

namespace PathQuery.Json

/-! # Reading JSON text

A reader takes characters off the front of a text and returns what it read with
the rest.  Nesting is limited to `maxDepth` containers; the loops over items and
fields are bounded by the length of the text, since each item takes a character.

An integer literal that fits 64 bits, signed or unsigned, is an integer; any other
number, and a zero with a minus sign, is a binary64 number.
-/

def isSpace (c : Char) : Bool := c == ' ' || c == '\n' || c == '\t' || c == '\r'

def digitValue (c : Char) : Nat := c.toNat - '0'.toNat

/-- The largest integer of 64 bits. -/
def maxUnsigned : Nat := 0xFFFFFFFFFFFFFFFF

/-- The magnitude of the least signed integer of 64 bits. -/
def maxNegative : Nat := 0x8000000000000000

/-- Digits before the point, appended to a significand of at most 64 bits: the
    significand, and how many digits no longer fit. -/
def wholeDigits (significand : Nat) : List Char → Nat × Nat
  | [] => (significand, 0)
  | c :: rest =>
    let next := significand * 10 + digitValue c
    if next ≤ maxUnsigned then wholeDigits next rest else (significand, rest.length + 1)

/-- Digits after the point, appended likewise: the significand, and how many digits
    it took.  The first that does not fit ends it. -/
def fractionDigits (significand : Nat) : List Char → Nat × Nat
  | [] => (significand, 0)
  | c :: rest =>
    let next := significand * 10 + digitValue c
    if next ≤ maxUnsigned then
      let (final, taken) := fractionDigits next rest
      (final, taken + 1)
    else (significand, 0)

def natOfDigits (digits : List Char) : Nat :=
  digits.foldl (fun n c => n * 10 + digitValue c) 0

structure Literal where
  negative : Bool
  whole : List Char
  fraction : Option (List Char)
  exponent : Option Int

/-- The value of a literal; none if it is out of range. -/
def Literal.value (literal : Literal) : Option Number :=
  let n := natOfDigits literal.whole
  match literal.fraction, literal.exponent with
  | none, none =>
    if literal.negative then
      if n ≠ 0 ∧ n ≤ maxNegative then some (.integer (-n)) else scaled [] 0
    else if n ≤ maxUnsigned then some (.integer n) else scaled [] 0
  | fraction, exponent => scaled (fraction.getD []) (exponent.getD 0)
where
  scaled (fraction : List Char) (exponent : Int) : Option Number :=
    let (significand, dropped) := wholeDigits 0 literal.whole
    let (significand, taken) := fractionDigits significand fraction
    (Decimal.Binary64.ofScaled literal.negative significand
      (exponent + dropped - taken)).map .float

def takeDigits (text : List Char) : List Char × List Char := text.span Char.isDigit

def takeExponent : List Char → Option (Int × List Char)
  | '-' :: rest => digits true rest
  | '+' :: rest => digits false rest
  | rest => digits false rest
where
  digits (negative : Bool) (text : List Char) : Option (Int × List Char) :=
    let (digits, rest) := takeDigits text
    if digits.isEmpty then none
    else
      let n : Int := natOfDigits digits
      some (if negative then -n else n, rest)

/-- The digits after a point, if the text goes on with a point. -/
def takeFraction : List Char → Option (Option (List Char) × List Char)
  | '.' :: rest =>
    let (digits, rest) := takeDigits rest
    if digits.isEmpty then none else some (some digits, rest)
  | rest => some (none, rest)

def takeExponent? : List Char → Option (Option Int × List Char)
  | 'e' :: rest => (takeExponent rest).map fun (n, rest) => (some n, rest)
  | 'E' :: rest => (takeExponent rest).map fun (n, rest) => (some n, rest)
  | rest => some (none, rest)

/-- Read a number.  No literal but `0` itself opens with a zero before the point. -/
def readNumber (text : List Char) : Option (Number × List Char) := do
  let (negative, text) := match text with
    | '-' :: rest => (true, rest)
    | text => (false, text)
  let (whole, text) := takeDigits text
  if whole.isEmpty || (whole.length > 1 && whole.head? == some '0') then none
  else
    let (fraction, text) ← takeFraction text
    let (exponent, text) ← takeExponent? text
    let value ← Literal.value ⟨negative, whole, fraction, exponent⟩
    some (value, text)

def hexUnit (a b c d : Char) : Option Nat := do
  some ((((← Text.hexValue? a) * 16 + (← Text.hexValue? b)) * 16 + (← Text.hexValue? c)) * 16 + (← Text.hexValue? d))

def escapedChar : Char → Option Char
  | '"' => some '"'
  | '\\' => some '\\'
  | '/' => some '/'
  | 'b' => some (Char.ofNat 8)
  | 'f' => some (Char.ofNat 12)
  | 'n' => some '\n'
  | 'r' => some '\r'
  | 't' => some '\t'
  | _ => none

/-- Read a string after its opening quote.  Two escaped surrogates in a row make one
    character; a surrogate on its own is refused. -/
def readString : List Char → Option (List Char × List Char)
  | '"' :: rest => some ([], rest)
  | '\\' :: 'u' :: a :: b :: c :: d :: rest =>
    match hexUnit a b c d with
    | none => none
    | some unit =>
      if 0xD800 ≤ unit ∧ unit < 0xDC00 then
        match rest with
        | '\\' :: 'u' :: a :: b :: c :: d :: rest =>
          match hexUnit a b c d with
          | none => none
          | some low =>
            if 0xDC00 ≤ low ∧ low < 0xE000 then
              let code := 0x10000 + (unit - 0xD800) * 0x400 + (low - 0xDC00)
              (readString rest).map fun (text, rest) => (Char.ofNat code :: text, rest)
            else none
        | _ => none
      else if 0xDC00 ≤ unit ∧ unit < 0xE000 then none
      else (readString rest).map fun (text, rest) => (Char.ofNat unit :: text, rest)
  | '\\' :: c :: rest =>
    match escapedChar c with
    | none => none
    | some c => (readString rest).map fun (text, rest) => (c :: text, rest)
  | c :: rest =>
    if c.toNat < 0x20 then none
    else (readString rest).map fun (text, rest) => (c :: text, rest)
  | [] => none

/-- Read the items of an array, at least one, up to its closing bracket. -/
def readItems (value : List Char → Option (Json × List Char)) :
    Nat → List Char → Option (List Json × List Char)
  | 0, _ => none
  | fuel + 1, text => do
    let (item, text) ← value text
    match text.dropWhile isSpace with
    | ',' :: rest =>
      let (items, rest) ← readItems value fuel rest
      some (item :: items, rest)
    | ']' :: rest => some ([item], rest)
    | _ => none

/-- Read the fields of an object, at least one, up to its closing brace. -/
def readFields (value : List Char → Option (Json × List Char)) :
    Nat → List Char → Option (List (String × Json) × List Char)
  | 0, _ => none
  | fuel + 1, text =>
    match text.dropWhile isSpace with
    | '"' :: text => do
      let (key, text) ← readString text
      match text.dropWhile isSpace with
      | ':' :: text =>
        let (item, text) ← value text
        match text.dropWhile isSpace with
        | ',' :: rest =>
          let (fields, rest) ← readFields value fuel rest
          some ((String.ofList key, item) :: fields, rest)
        | '}' :: rest => some ([(String.ofList key, item)], rest)
        | _ => none
      | _ => none
    | _ => none

/-- Read a value with at most `depth` levels of arrays and objects. -/
def readValue (depth : Nat) (text : List Char) : Option (Json × List Char) :=
  match text.dropWhile isSpace with
  | 'n' :: 'u' :: 'l' :: 'l' :: rest => some (.null, rest)
  | 't' :: 'r' :: 'u' :: 'e' :: rest => some (.bool true, rest)
  | 'f' :: 'a' :: 'l' :: 's' :: 'e' :: rest => some (.bool false, rest)
  | '"' :: rest =>
    (readString rest).map fun (text, rest) => (.string (String.ofList text), rest)
  | '[' :: rest =>
    match depth with
    | 0 => none
    | inner + 1 =>
      match rest.dropWhile isSpace with
      | ']' :: rest => some (.array [], rest)
      | rest =>
        (readItems (fun text => readValue inner text) rest.length rest).map
          fun (items, rest) => (.array items, rest)
  | '{' :: rest =>
    match depth with
    | 0 => none
    | inner + 1 =>
      match rest.dropWhile isSpace with
      | '}' :: rest => some (.object [], rest)
      | rest =>
        (readFields (fun text => readValue inner text) rest.length rest).map
          fun (fields, rest) => (.object (Fields.ofList fields), rest)
  | text => (readNumber text).map fun (value, rest) => (.number value, rest)

/-- The most levels of arrays and objects that a text may have. -/
def maxDepth : Nat := 127

/-- The value that a text holds; none if it is not a JSON text. -/
def ofText? (text : String) : Option Json :=
  match readValue maxDepth text.toList with
  | some (value, rest) => if rest.all isSpace then some value else none
  | none => none

end PathQuery.Json
