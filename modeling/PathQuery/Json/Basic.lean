import PathQuery.Decimal.Binary64

namespace PathQuery

/-! # JSON values

An object keeps its fields in the order in which their keys first came up: setting
a key again changes the value where it stands, and a new key goes last.  Integers
and binary64 numbers are different values even where they are equal as numbers.
-/

namespace Json

/-- A number is an integer or a binary64 number, as it was written. -/
inductive Number where
  | integer (value : Int)
  | float (value : Decimal.Binary64)
  deriving DecidableEq

end Json

inductive Json where
  | null
  | bool (value : Bool)
  | number (value : Json.Number)
  | string (value : String)
  | array (items : List Json)
  | object (fields : List (String × Json))

namespace Json

/-- The fields of an object, in order. -/
abbrev Fields := List (String × Json)

namespace Fields

def contains (fields : Fields) (key : String) : Bool := (fields.lookup key).isSome

/-- Set a key: in place if it is there, else at the end. -/
def insert (key : String) (value : Json) : Fields → Fields
  | [] => [(key, value)]
  | field :: rest =>
    if field.1 = key then (key, value) :: rest else field :: insert key value rest

/-- The fields that result from setting the keys of a list one after the other. -/
def ofList (pairs : List (String × Json)) : Fields :=
  pairs.foldl (fun fields pair => fields.insert pair.1 pair.2) []

end Fields

def isNull : Json → Bool
  | null => true
  | _ => false

def string? : Json → Option String
  | string value => some value
  | _ => none

def array? : Json → Option (List Json)
  | array items => some items
  | _ => none

def object? : Json → Option Fields
  | object fields => some fields
  | _ => none

/-- The items of an array that has any. -/
def nonEmptyArray? : Json → Option (List Json)
  | array (item :: items) => some (item :: items)
  | _ => none

def isTrue : Json → Bool
  | bool value => value
  | _ => false

def isFalse : Json → Bool
  | bool value => !value
  | _ => false

def Number.sameValue : Number → Number → Bool
  | integer x, integer y => x == y
  | float x, float y => x.sameValue y
  | _, _ => false

mutual

/-- Equality of values: the order of the fields of an object does not count, nor
    does the sign of a zero. -/
def sameValue : Json → Json → Bool
  | null, null => true
  | bool x, bool y => x == y
  | number x, number y => x.sameValue y
  | string x, string y => x == y
  | array xs, array ys => sameItems xs ys
  | object xs, object ys => xs.length == ys.length && fieldsWithin xs ys
  | _, _ => false

def sameItems : List Json → List Json → Bool
  | [], [] => true
  | x :: xs, y :: ys => sameValue x y && sameItems xs ys
  | _, _ => false

/-- Every field of the first object is one of the second. -/
def fieldsWithin : List (String × Json) → List (String × Json) → Bool
  | [], _ => true
  | (key, x) :: xs, ys =>
    (match ys.lookup key with
      | some y => sameValue x y
      | none => false) && fieldsWithin xs ys

end

end Json

end PathQuery
