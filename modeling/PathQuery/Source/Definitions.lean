import PathQuery.Source.Resolution

namespace PathQuery.Source

/-! # Named sources

A table declares sources under names, their sourcekeys, and the columns that its
search box looks at.  They are resolved in the order of their declaration, so a
source can continue only one that is declared before it.  A declaration that cannot
be resolved is left out.
-/

structure Definition where
  sourcekey : String
  /-- The declaration, with attributes that do not concern the path. -/
  declaration : Json.Fields
  source : Resolved
  token : String
  /-- The sourcekey, that of the source it continues, and so on. -/
  dependencies : List String

/-- The named sources and the search columns of a table. -/
structure Definitions where
  table : Table
  entries : List Definition
  searchColumns : List Resolved

namespace Definitions

def definition? (definitions : Definitions) (key : String) : Option Definition :=
  definitions.entries.find? fun definition => definition.sourcekey == key

def get? (definitions : Definitions) (key : String) : Option Resolved :=
  (definitions.definition? key).map Definition.source

def sourcekeys (definitions : Definitions) : List String :=
  definitions.entries.map Definition.sourcekey

/-- What a sourcekey depends on, itself first; nothing if it is not defined. -/
def dependencies (definitions : Definitions) (key : String) : List String :=
  match definitions.definition? key with
  | some definition => definition.dependencies
  | none => []

def sourcekeysFor (definitions : Definitions) (token : String) : List String :=
  (definitions.entries.filter fun definition => definition.token == token).map
    Definition.sourcekey

def resolve (definitions : Definitions) (directory : Directory) (engine : Template.Engine)
    (row : Row) (spec : Spec) : Except ResolveError Resolved :=
  spec.resolve { directory, root := definitions.table, named := definitions.get?, engine, row }

/-- The definition that a declaration makes.  The search box is no named source. -/
def define? (definitions : Definitions) (directory : Directory) (engine : Template.Engine)
    (row : Row) (key : String) (value : Json) : Option Definition := do
  if key == searchBoxKey then none
  let declaration ← value.object?
  let spec ← (Spec.ofJson (← declaration.lookup sourceKey)).toOption
  let source ← (definitions.resolve directory engine row spec).toOption
  let inherited := match spec.sourcekey? with
    | some start => definitions.dependencies start
    | none => []
  return {
    sourcekey := key
    declaration, source
    token := spec.token
    dependencies := key :: inherited }

def declare (directory : Directory) (engine : Template.Engine) (row : Row)
    (definitions : Definitions) (field : String × Json) : Definitions :=
  match definitions.define? directory engine row field.1 field.2 with
  | some definition => { definitions with entries := definitions.entries ++ [definition] }
  | none => definitions

/-- The source of a search column, which may stand in a declaration. -/
def searchSource? : Json → Option Json
  | .object fields => fields.lookup sourceKey
  | value => some value

def searchColumn? (definitions : Definitions) (directory : Directory)
    (engine : Template.Engine) (row : Row) (value : Json) : Option Resolved := do
  let spec ← (Spec.ofJson (← searchSource? value)).toOption
  (definitions.resolve directory engine row spec).toOption

/-- The named sources of a table, with their filters expanded against a row. -/
def build (directory : Directory) (table : Table) (engine : Template.Engine) (row : Row) :
    Definitions :=
  let start : Definitions := { table, entries := [], searchColumns := [] }
  let definitions := table.sourceDefinitions.foldl (declare directory engine row) start
  { definitions with
    searchColumns := table.searchColumns.filterMap
      (definitions.searchColumn? directory engine row) }

end Definitions

end PathQuery.Source
