import PathQuery.Choice.Batch
import PathQuery.Choice.Lookup

namespace PathQuery.Choice

/-! # Resolved choices

Each value of a list of choices gets the first row, among those that the look-ups
found, whose value in the column is that choice.
-/

/-- A choice and the row behind it, if there is one. -/
structure Resolved where
  value : Json
  row : Option Row

structure Outcome where
  /-- The filters of the look-ups that were started, in order. -/
  calls : List String
  /-- The most look-ups that were under way at once. -/
  mostUnderWay : Nat
  result : Except Failure (List Resolved)

/-- The row's value in a column is the choice. -/
def isRowOf (column : String) (value : Json) (row : Row) : Bool :=
  (row.lookup column).any fun rowValue => sameChoice rowValue value

/-- Find the row behind a choice.  A null has none. -/
def assign (column : String) (rows : List Row) (value : Json) : Resolved where
  value := value
  row := if value.isNull then none else rows.find? (isRowOf column value)

def resolve (lookup : String → Reply) (column : Column) (capabilities : Capabilities)
    (limits : Limits) (values : List Json) : Outcome :=
  let (run, failure?) :=
    Run.ofFilters (max 1 limits.concurrent) lookup (filters column capabilities limits values)
  { calls := run.calls
    mostUnderWay := run.mostUnderWay
    result := match failure? with
      | some failure => .error failure
      | none => .ok (values.map (assign column.name run.rows)) }

end PathQuery.Choice
