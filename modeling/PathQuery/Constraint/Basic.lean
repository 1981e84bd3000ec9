import PathQuery.Json.Text
import PathQuery.Search.Pattern
import PathQuery.Catalog.Directory

namespace PathQuery

/-! # Constraints

A facet constrains a column: to some choices, to some ranges, by some search terms,
or to having a value.  In a path the alternatives of a constraint stand side by side,
with `;` between them.  Where the server takes lists of values, several choices or
several tokens make one comparison with a list.
-/

/-- A range of values.  A bound that is absent does not bound it. -/
structure Range where
  min : Option Json
  max : Option Json
  minExclusive : Bool
  maxExclusive : Bool

inductive Constraint where
  | choices (values : List Json)
  | ranges (items : List Range)
  | search (terms : List Json)
  | notNull

namespace Constraint

inductive Fault where
  | notAList (value : Json)
  | notAScalar (value : Json)
  | notAnObject (value : Json)
  | cannotBe (key : String) (value : Json)
  | notATerm (value : Json)
  | noTokens
  | noBounds

def Fault.message : Fault → String
  | notAList value => "expected a non-empty array, got " ++ value.text
  | notAScalar value => value.text ++ " is not a scalar"
  | notAnObject value => value.text ++ " is not an object"
  | cannotBe key value => "`" ++ key ++ "` cannot be " ++ value.text
  | notATerm value => value.text ++ " is not a search term"
  | noTokens => "no search tokens"
  | noBounds => "no range has a min or max"

inductive Error where
  | invalidChoices (fault : Fault)
  | invalidRanges (fault : Fault)
  | invalidSearch (fault : Fault)

def Error.message : Error → String
  | invalidChoices fault => "Invalid choices: " ++ fault.message
  | invalidRanges fault => "Invalid ranges: " ++ fault.message
  | invalidSearch fault => "Invalid search: " ++ fault.message

def isScalar : Json → Bool
  | .array _ => false
  | .object _ => false
  | _ => true

def isTerm : Json → Bool
  | .string _ => true
  | .number _ => true
  | _ => false

/-- Read choices: scalars and nulls. -/
def readChoices (value : Json) : Except Error Constraint :=
  match value.nonEmptyArray? with
  | none => .error (.invalidChoices (.notAList value))
  | some values =>
    match values.find? fun value => !isScalar value with
    | some bad => .error (.invalidChoices (.notAScalar bad))
    | none => .ok (choices values)

/-- Read a bound: a number or a string.  A null is no bound. -/
def readLimit (fields : Json.Fields) (key : String) : Except Error (Option Json) :=
  match fields.lookup key with
  | none => .ok none
  | some .null => .ok none
  | some (.number value) => .ok (some (.number value))
  | some (.string value) => .ok (some (.string value))
  | some value => .error (.invalidRanges (.cannotBe key value))

def readFlag (fields : Json.Fields) (key : String) : Except Error Bool :=
  match fields.lookup key with
  | none => .ok false
  | some .null => .ok false
  | some (.bool value) => .ok value
  | some value => .error (.invalidRanges (.cannotBe key value))

def minKey : String := "min"

def maxKey : String := "max"

def minExclusiveKey : String := "min_exclusive"

def maxExclusiveKey : String := "max_exclusive"

def readRange : Json → Except Error Range
  | .object fields => do
    let min ← readLimit fields minKey
    let max ← readLimit fields maxKey
    let minExclusive ← readFlag fields minExclusiveKey
    let maxExclusive ← readFlag fields maxExclusiveKey
    return { min, max, minExclusive, maxExclusive }
  | value => .error (.invalidRanges (.notAnObject value))

def readEachRange : List Json → Except Error (List Range)
  | [] => .ok []
  | value :: values => do
    let range ← readRange value
    let later ← readEachRange values
    return range :: later

def readRanges (value : Json) : Except Error Constraint :=
  match value.nonEmptyArray? with
  | none => .error (.invalidRanges (.notAList value))
  | some values => ranges <$> readEachRange values

/-- Read search terms: strings and numbers. -/
def readSearch (value : Json) : Except Error Constraint :=
  match value.nonEmptyArray? with
  | none => .error (.invalidSearch (.notAList value))
  | some values =>
    match values.find? fun value => !isTerm value with
    | some bad => .error (.invalidSearch (.notATerm bad))
    | none => .ok (search values)

/-- The constraint admits rows without a value. -/
def hasNullChoice : Constraint → Bool
  | choices values => values.any Json.isNull
  | _ => false

def encodedText (value : Json) : String := Text.percentEncode value.plainText

/-- The encoded texts of the choices that are not null, each once, in the order in which
    they first come up. -/
def distinctTexts (values : List Json) : List String :=
  values.foldl (fun texts value =>
    if value.isNull || texts.contains (encodedText value) then texts
    else texts ++ [encodedText value]) []

def choicesClause (column : String) (values : List Json) (quantified : Bool) : String :=
  let texts := distinctTexts values
  let clauses :=
    if quantified && texts.length > 1 then
      [column ++ "=any(" ++ ",".intercalate texts ++ ")"]
    else texts.map fun text => column ++ "=" ++ text
  let nulls := if values.any Json.isNull then [column ++ "::null::"] else []
  ";".intercalate (clauses ++ nulls)

/-- The bounds of a range, none for a range that is not bounded. -/
def rangeClause? (column : String) (range : Range) : Option String :=
  let low := match range.min with
    | some min => [column ++ (if range.minExclusive then ">" else ">=") ++ encodedText min]
    | none => []
  let high := match range.max with
    | some max => [column ++ (if range.maxExclusive then "<" else "<=") ++ encodedText max]
    | none => []
  let bounds := low ++ high
  if bounds.isEmpty then none else some ("&".intercalate bounds)

def rangesClause (column : String) (items : List Range) : Except Error String :=
  let clauses := items.filterMap (rangeClause? column)
  if clauses.isEmpty then .error (.invalidRanges .noBounds) else .ok (";".intercalate clauses)

def searchClause (column : String) (terms : List Json) (quantified : Bool) :
    Except Error String :=
  let clauses := terms.filterMap fun term => Search.termClause term.plainText column quantified
  if clauses.isEmpty then .error (.invalidSearch .noTokens) else .ok (";".intercalate clauses)

/-- The clause that a column has a value; in a column of JSON a null is none. -/
def notNullClause (column : String) (type : ColumnType) : String :=
  "!(" ++ column ++ "::null::)" ++
    (if type.hasNullLiteral then "&!(" ++ column ++ "=null)" else "")

def clause (constraint : Constraint) (column : Column) (capabilities : Capabilities) :
    Except Error String :=
  let name := Text.percentEncode column.name
  match constraint with
  | choices values => .ok (choicesClause name values (capabilities column))
  | ranges items => rangesClause name items
  | search terms => searchClause name terms (capabilities column)
  | notNull => .ok (notNullClause name column.type)

def clauses (constraints : List Constraint) (column : Column) (capabilities : Capabilities) :
    Except Error String := do
  let clauses ← constraints.mapM fun constraint => constraint.clause column capabilities
  return ";".intercalate clauses

end Constraint

end PathQuery
