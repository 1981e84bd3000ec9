import PathQuery.Catalog.ColumnType
import PathQuery.Json.Basic
import PathQuery.Text.Basic

namespace PathQuery

/-! # Tables

A table has columns, unique keys and foreign keys, and it may declare named
sources and the columns that its search box looks at, both as JSON values.
-/

structure TableName where
  schema : String
  table : String
  deriving DecidableEq

namespace TableName

/-- The name as messages show it. -/
def text (name : TableName) : String := name.schema ++ ":" ++ name.table

/-- The name as it stands in a path. -/
def encoded (name : TableName) : String :=
  Text.percentEncode name.schema ++ ":" ++ Text.percentEncode name.table

end TableName

structure Column where
  name : String
  type : ColumnType
  nullable : Bool

/-- The name of the column that identifies a row. -/
def Column.rowIdName : String := "RID"

def Column.isRowId (column : Column) : Bool := column.name == rowIdName

structure Key where
  columns : List String

/-- Which way a foreign key is followed. -/
inductive Direction where
  /-- From the table of the foreign key to the table it references. -/
  | outbound
  /-- From the referenced table back to the table of the foreign key. -/
  | inbound
  deriving DecidableEq

namespace Direction

def text : Direction → String
  | outbound => "outbound"
  | inbound => "inbound"

def flip : Direction → Direction
  | outbound => inbound
  | inbound => outbound

end Direction

/-- A foreign key of `table`: the values of `columns`, one by one, are those of
    `referencedColumns` in a row of `referencedTable`. -/
structure ForeignKey where
  schema : String
  name : String
  table : TableName
  columns : List String
  referencedTable : TableName
  referencedColumns : List String

namespace ForeignKey

/-- The name as messages show it. -/
def text (key : ForeignKey) : String := key.schema ++ ":" ++ key.name

def pairs (key : ForeignKey) : List (String × String) :=
  key.columns.zip key.referencedColumns

def fromTable (key : ForeignKey) : Direction → TableName
  | .outbound => key.table
  | .inbound => key.referencedTable

def toTable (key : ForeignKey) : Direction → TableName
  | .outbound => key.referencedTable
  | .inbound => key.table

def fromColumns (key : ForeignKey) : Direction → List String
  | .outbound => key.columns
  | .inbound => key.referencedColumns

def toColumns (key : ForeignKey) : Direction → List String
  | .outbound => key.referencedColumns
  | .inbound => key.columns

/-- The foreign key maps just the given columns, in whatever order they are given. -/
def mapsColumns (key : ForeignKey) (columns referenced : List String) : Bool :=
  columns.length == key.columns.length && referenced.length == columns.length &&
    (columns.zip referenced).all fun pair => key.pairs.contains pair

end ForeignKey

structure Table where
  schema : String
  name : String
  columns : List Column
  keys : List Key
  foreignKeys : List ForeignKey
  /-- The declarations of named sources, by sourcekey. -/
  sourceDefinitions : Json.Fields
  /-- The sources that the search box looks at. -/
  searchColumns : List Json

namespace Table

def tableName (table : Table) : TableName := ⟨table.schema, table.name⟩

def column? (table : Table) (name : String) : Option Column :=
  table.columns.find? fun column => column.name == name

def foreignKey? (table : Table) (schema name : String) : Option ForeignKey :=
  table.foreignKeys.find? fun key => key.schema == schema && key.name == name

/-- Of two keys the shorter, of two of one length the first. -/
def shorterKey (best : Option Key) (key : Key) : Option Key :=
  match best with
  | none => some key
  | some best => if key.columns.length < best.columns.length then some key else some best

/-- The first of the keys with the fewest columns. -/
def shortestKey? (table : Table) : Option Key := table.keys.foldl shorterKey none

end Table

end PathQuery
