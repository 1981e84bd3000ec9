import PathQuery.Catalog.Table

namespace PathQuery

/-! # Catalogs

A catalog holds the tables of its schemas and says which forms of a query the
server takes.  It is linked before use: tables learn their schema, foreign keys
their table.  And it is checked: every foreign key must relate existing columns.

What resolves and compiles sources does not look at a catalog itself but asks a
directory, which may know fewer tables.
-/

/-- Which lists of values the server takes in one comparison: on any column, and on
    the column that identifies a row. -/
structure Features where
  valueLists : Bool
  rowIdLists : Bool

/-- Whether a comparison of a column may quantify over a list of values. -/
abbrev Capabilities := Column → Bool

def Features.capabilities (features : Features) : Capabilities := fun column =>
  if column.isRowId then features.rowIdLists else features.valueLists

structure Schema where
  name : String
  tables : List Table

structure Catalog where
  features : Features
  schemas : List Schema

/-- Look-ups of tables by name and of foreign keys by the name of the constraint. -/
structure Directory where
  table? : TableName → Option Table
  constraint? : String → String → Option ForeignKey

namespace Directory

/-- The first foreign key of `table` that references `referenced` through just the
    given columns. -/
def constraintByColumns? (directory : Directory) (table : TableName) (columns : List String)
    (referenced : TableName) (referencedColumns : List String) : Option ForeignKey :=
  (directory.table? table).bind fun table =>
    table.foreignKeys.find? fun key =>
      key.referencedTable = referenced && key.mapsColumns columns referencedColumns

def shortestKey? (directory : Directory) (table : TableName) : Option Key :=
  (directory.table? table).bind Table.shortestKey?

/-- The directory without some tables.  Their foreign keys can still be found by
    name. -/
def without (directory : Directory) (hidden : List TableName) : Directory where
  table? name := if hidden.contains name then none else directory.table? name
  constraint? := directory.constraint?

end Directory

namespace Catalog

def schema? (catalog : Catalog) (name : String) : Option Schema :=
  catalog.schemas.find? fun schema => schema.name == name

/-- The first table of the name in the first schema of the name. -/
def table? (catalog : Catalog) (name : TableName) : Option Table :=
  (catalog.schema? name.schema).bind fun schema =>
    schema.tables.find? fun table => table.name == name.table

def tables (catalog : Catalog) : List Table := catalog.schemas.flatMap Schema.tables

/-- The first foreign key of the name in any table. -/
def constraint? (catalog : Catalog) (schema name : String) : Option ForeignKey :=
  catalog.tables.findSome? fun table => table.foreignKey? schema name

def directory (catalog : Catalog) : Directory where
  table? := catalog.table?
  constraint? := catalog.constraint?

end Catalog

/-- Tell a foreign key its table.  A constraint without a schema is one of the
    table's schema. -/
def ForeignKey.link (owner : TableName) (key : ForeignKey) : ForeignKey :=
  { key with
    schema := if key.schema.isEmpty then owner.schema else key.schema
    table := owner }

def Table.link (schema : String) (table : Table) : Table :=
  { table with
    schema := schema
    foreignKeys := table.foreignKeys.map (ForeignKey.link ⟨schema, table.name⟩) }

def Schema.link (schema : Schema) : Schema :=
  { schema with tables := schema.tables.map (Table.link schema.name) }

def Catalog.link (catalog : Catalog) : Catalog :=
  { catalog with schemas := catalog.schemas.map Schema.link }

inductive ForeignKey.Fault where
  | unevenColumns
  | unknownColumn (column : String) (table : TableName)
  | unknownTable (table : TableName)
  | unknownReferencedColumn (column : String) (table : TableName)
  deriving DecidableEq

def ForeignKey.Fault.message : ForeignKey.Fault → String
  | unevenColumns => "must map the same non-zero number of columns on both sides"
  | unknownColumn column table => "uses unknown column '" ++ column ++ "' of " ++ table.text
  | unknownTable table => "references unknown table " ++ table.text
  | unknownReferencedColumn column table =>
    "references unknown column '" ++ column ++ "' of " ++ table.text

def Table.missingColumn? (table : Table) (columns : List String) : Option String :=
  columns.find? fun column => (table.column? column).isNone

def Catalog.fault? (catalog : Catalog) (table : Table) (key : ForeignKey) :
    Option ForeignKey.Fault :=
  if key.columns.isEmpty || key.columns.length ≠ key.referencedColumns.length then
    some .unevenColumns
  else
    match table.missingColumn? key.columns with
    | some column => some (.unknownColumn column table.tableName)
    | none =>
      match catalog.table? key.referencedTable with
      | none => some (.unknownTable key.referencedTable)
      | some referenced =>
        (referenced.missingColumn? key.referencedColumns).map fun column =>
          .unknownReferencedColumn column referenced.tableName

/-- A foreign key that does not relate existing columns. -/
structure CatalogError where
  key : String
  fault : ForeignKey.Fault
  deriving DecidableEq

def CatalogError.message (error : CatalogError) : String :=
  "Invalid catalog: Foreign key '" ++ error.key ++ "' " ++ error.fault.message

def Catalog.error? (catalog : Catalog) : Option CatalogError :=
  catalog.tables.findSome? fun table =>
    table.foreignKeys.findSome? fun key =>
      (catalog.fault? table key).map fun fault => ⟨key.text, fault⟩

def Catalog.finalize (catalog : Catalog) : Except CatalogError Catalog :=
  match catalog.link.error? with
  | some error => .error error
  | none => .ok catalog.link

end PathQuery
