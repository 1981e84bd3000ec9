import PathQuery.Facet.Compiler

namespace PathQuery

/-! # Reverse facets

A source leads from the rows of its root table to rows of its end table.  A reverse
facet selects, at the end table, the rows that a given root row leads to: there is a
term for each column of the shortest key of the root table, with the source read
backwards and the row's value as the choice.
-/

namespace Source.Resolved

/-- The steps from the end of a source to its root.  Named sources are written out,
    and every foreign key is given by its name. -/
def reversedSteps : Resolved → List Step
  | fromRoot route => legSteps route.legs
  | continuing _ start route => legSteps route.legs ++ start.reversedSteps
where
  legStep (leg : Leg) : Step :=
    match leg.move with
    | .filter tree _ => .filter tree
    | .hop hop => .hop {
        direction := hop.direction.flip
        target := .constraint hop.key.schema hop.key.name
        aliasName := none }
  legSteps (legs : List Leg) : List Step := legs.reverse.map legStep

end Source.Resolved

namespace Facet

/-- The term for one column of the key. -/
def reverseTerm? (steps : List Json) (row : Row) (column : String) : Option Json :=
  match row.lookup column with
  | none => none
  | some .null => none
  | some value => some (.object [
      (Source.sourceKey, .array (steps ++ [.string column])),
      (choicesKey, .array [value])])

/-- The facets that lead back to a row; none for a source without a path, for a root
    table without a key, and for a row that lacks a value of the key. -/
def reverse? (source : Source.Resolved) (directory : Directory) (row : Row) : Option Json :=
  if source.hasPath then do
    let key ← directory.shortestKey? source.root.tableName
    let steps := source.reversedSteps.map Source.Step.toJson
    let terms ← key.columns.mapM (reverseTerm? steps row)
    return .object [(facetsKey, .array terms)]
  else none

end Facet

end PathQuery
