import PathQuery.Facet.Error
import PathQuery.Source.Definitions

namespace PathQuery.Facet

/-! # Facet terms

A term names a column and constrains it.  The column is given by a source of the
term's own or by a sourcekey, in which case the term takes over the attributes of the
declaration: the source in any case, all others where it has none of its own.
-/

/-- Where the column of a term comes from. -/
inductive Origin where
  | searchBox
  | sourcekey (key : String)
  /-- The term's own source. -/
  | inline
  deriving DecidableEq

structure Term where
  origin : Origin
  /-- The attributes, with those it takes over. -/
  attributes : Json.Fields

def choicesKey : String := "choices"

def rangesKey : String := "ranges"

def searchKey : String := "search"

def notNullKey : String := "not_null"

namespace Term

def inheritField (attributes : Json.Fields) (field : String × Json) : Json.Fields :=
  if field.1 == Source.sourceKey || !Json.Fields.contains attributes field.1 then
    Json.Fields.insert field.1 field.2 attributes
  else attributes

def inherit (attributes declaration : Json.Fields) : Json.Fields :=
  declaration.foldl inheritField attributes

def readOrigin (attributes : Json.Fields) : Except Error Origin :=
  match attributes.lookup Source.sourcekeyKey with
  | none => .ok .inline
  | some (.string key) =>
    .ok (if key = Source.searchBoxKey then .searchBox else .sourcekey key)
  | some _ => .error (.ofKind .invalidSourcekey)

/-- Read a term.  A sourcekey has to be defined. -/
def ofJson (definitions : Source.Definitions) : Json → Except Error Term
  | .object attributes => do
    let origin ← readOrigin attributes
    match origin with
    | .sourcekey key =>
      match definitions.definition? key with
      | some definition => return ⟨origin, inherit attributes definition.declaration⟩
      | none => throw (.ofKind .invalidSourcekey)
    | _ => return ⟨origin, attributes⟩
  | _ => .error (.ofKind .invalidFacet)

def sourcekey? (term : Term) : Option String :=
  match term.origin with
  | .sourcekey key => some key
  | _ => none

def spec (term : Term) : Except Error Source.Spec :=
  match term.attributes.lookup Source.sourceKey with
  | none => .error (.ofKind .invalidSource)
  | some value => raise .ofSpec (Source.Spec.ofJson value)

def constraintUnder (term : Term) (key : String)
    (read : Json → Except Constraint.Error Constraint) : Except Error (List Constraint) :=
  match term.attributes.lookup key with
  | none => .ok []
  | some value => (fun constraint => [constraint]) <$> raise .ofConstraint (read value)

def search (term : Term) : Except Error (List Constraint) :=
  term.constraintUnder searchKey Constraint.readSearch

/-- The constraints of the term, of which it must have one. -/
def constraints (term : Term) : Except Error (List Constraint) := do
  let choices ← term.constraintUnder choicesKey Constraint.readChoices
  let ranges ← term.constraintUnder rangesKey Constraint.readRanges
  let search ← term.search
  let notNull := match term.attributes.lookup notNullKey with
    | some (.bool true) => [Constraint.notNull]
    | _ => []
  let constraints := choices ++ ranges ++ search ++ notNull
  if constraints.isEmpty then throw (.ofKind .missingConstraints)
  return constraints

end Term

end PathQuery.Facet
