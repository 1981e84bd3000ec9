import PathQuery.Source.Spec
import PathQuery.Digest.Token

namespace PathQuery.Source

/-! # The identity of a source

A source is identified by a canonical text with a fixed order of attributes, in
which neither the order of a filter's children nor that of a hop's column pairs
counts, and, shorter, by the token of that text.
-/

/-- The first pair may stand before the second. -/
def pairPrecedes (left right : String × String) : Bool :=
  if left.1 = right.1 then decide (left.2 ≤ right.2) else decide (left.1 ≤ right.1)

def HopTarget.canonicalText : HopTarget → String
  | .constraint schema name => "[" ++ Json.quote schema ++ "," ++ Json.quote name ++ "]"
  | .columns remote localColumns remoteColumns =>
    let pairs := (localColumns.zip remoteColumns).mergeSort pairPrecedes
    let mapping := pairs.map fun pair => Json.quote pair.1 ++ ":" ++ Json.quote pair.2
    "\x7b\"remote_schema\":" ++ Json.quote remote.schema ++
      ",\"remote_table\":" ++ Json.quote remote.table ++
      ",\"local_to_remote_columns\":\x7b" ++ ",".intercalate mapping ++ "\x7d\x7d"

def Step.canonicalText : Step → String
  | sourcekey key => "\x7b\"sourcekey\":" ++ Json.quote key ++ "\x7d"
  | filter tree => "\x7b\"filter\":" ++ Json.quote tree.canonical.text ++ "\x7d"
  | hop step =>
    let naming := match step.aliasName with
      | some name => ",\"alias\":" ++ Json.quote name
      | none => ""
    "\x7b" ++ Json.quote step.direction.text ++ ":" ++ step.target.canonicalText ++ naming ++
      "\x7d"

def Spec.canonicalText (spec : Spec) : String :=
  "[" ++ ",".intercalate (spec.steps.map Step.canonicalText ++ [Json.quote spec.column]) ++ "]"

def Spec.token (spec : Spec) : String := Digest.token spec.canonicalText

/-- The key of the source within a declaration. -/
def sourceKey : String := "source"

/-- The canonical text of a declaration.  Beside the source only `entity` if it is
    false, `aggregate` and `self_link` if it is true change what is declared. -/
def declarationText (fields : Json.Fields) : Except SpecError String :=
  match fields.lookup sourceKey with
  | none => .error (.invalidShape .missingSource)
  | some value => do
    let spec ← Spec.ofJson value
    let entity := match fields.lookup "entity" with
      | some (.bool false) => ",\"entity\":false"
      | _ => ""
    let aggregate := match fields.lookup "aggregate" with
      | some (.string aggregate) => ",\"aggregate\":" ++ Json.quote aggregate
      | _ => ""
    let selfLink := match fields.lookup "self_link" with
      | some (.bool true) => ",\"self_link\":true"
      | _ => ""
    pure ("\x7b\"source\":" ++ spec.canonicalText ++ entity ++ aggregate ++ selfLink ++ "\x7d")

def declarationToken (fields : Json.Fields) : Except SpecError String :=
  Digest.token <$> declarationText fields

end PathQuery.Source
