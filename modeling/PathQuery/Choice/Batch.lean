import PathQuery.Constraint.Basic

namespace PathQuery.Choice

/-! # Batches of choices

The rows behind some choices are looked up in batches.  A choice that comes up again,
be it as a value of another type with the same text, is looked up once, and nulls are
not looked up at all.
-/

/-- How many look-ups may be under way at once, and how many choices each is for.  A
    limit of zero counts as one. -/
structure Limits where
  concurrent : Nat
  batchSize : Nat

def Limits.default : Limits := ⟨4, 50⟩

/-- Two values are one choice if they are equal or have one text. -/
def sameChoice (left right : Json) : Bool :=
  left.sameValue right || left.plainText == right.plainText

def addChoice (choices : List Json) (value : Json) : List Json :=
  if value.isNull || choices.any fun choice => sameChoice choice value then choices
  else choices ++ [value]

/-- The choices to look up, in the order in which they first come up. -/
def distinct (values : List Json) : List Json := values.foldl addChoice []

/-- Cut choices into batches of `size`, the last of which may be smaller. -/
def batches (size : Nat) (choices : List Json) : List (List Json) :=
  match choices with
  | [] => []
  | choice :: later =>
    (choice :: later.take (size - 1)) :: batches size (later.drop (size - 1))
termination_by choices.length
decreasing_by
  simp only [List.length_drop, List.length_cons]
  omega

/-- The filters that look up some choices of a column, one for each batch. -/
def filters (column : Column) (capabilities : Capabilities) (limits : Limits)
    (values : List Json) : List String :=
  (batches limits.batchSize (distinct values)).map fun batch =>
    Constraint.choicesClause (Text.percentEncode column.name) batch (capabilities column)

end PathQuery.Choice
