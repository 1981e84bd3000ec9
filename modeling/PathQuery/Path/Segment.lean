import PathQuery.Catalog.Table

namespace PathQuery

/-! # Paths

A path is read from left to right.  It starts at a table, and each segment moves on
to another table, filters the rows reached so far, or goes back to a table that was
given an alias.
-/

/-- Which rows a join keeps that have no partner: none, those on the left, or those
    on the right. -/
inductive JoinKind where
  | inner
  | left
  | right
  deriving DecidableEq

def JoinKind.text : JoinKind → String
  | inner => ""
  | left => "left"
  | right => "right"

def encodedColumns (columns : List String) : String :=
  ",".intercalate (columns.map Text.percentEncode)

/-- A join along a foreign key as it stands in a path. -/
def ForeignKey.joinText (key : ForeignKey) (direction : Direction) (kind : JoinKind) :
    String :=
  kind.text ++ "(" ++ encodedColumns (key.fromColumns direction) ++ ")=(" ++
    (key.toTable direction).encoded ++ ":" ++ encodedColumns (key.toColumns direction) ++ ")"

inductive Segment where
  /-- The table a path starts at, where it is not the one at hand. -/
  | table (name : TableName)
  /-- A join, and the alias it gives to the table it reaches. -/
  | join (binding : Option String) (kind : JoinKind) (key : ForeignKey)
      (direction : Direction)
  | filter (clause : String)
  /-- Back to the table with an alias. -/
  | goTo (name : String)

def Segment.text : Segment → String
  | table name => name.encoded
  | join none kind key direction => key.joinText direction kind
  | join (some name) kind key direction => name ++ ":=" ++ key.joinText direction kind
  | filter clause => clause
  | goTo name => "$" ++ name

abbrev Path := List Segment

def Path.text (path : Path) : String := "/".intercalate (path.map Segment.text)

end PathQuery
