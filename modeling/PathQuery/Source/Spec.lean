import PathQuery.Filter.Canonical

namespace PathQuery

/-! # Source specifications

A source names a column: a column of the table at hand, or one at the end of a path
from it.  The steps of a path follow foreign keys, filter the rows reached so far,
or continue a path that was given a name, its sourcekey.  A source is declared as a
column name or as an array of steps that ends in a column name.
-/

namespace Source

/-- How a hop names the foreign key it follows. -/
inductive HopTarget where
  | constraint (schema name : String)
  /-- By the columns it relates: those of the table at hand to those of `remote`. -/
  | columns (remote : TableName) (localColumns remoteColumns : List String)
  deriving DecidableEq

structure HopStep where
  direction : Direction
  target : HopTarget
  aliasName : Option String
  deriving DecidableEq

inductive Step where
  | hop (step : HopStep)
  | filter (tree : Filter.Tree)
  | sourcekey (key : String)
  deriving DecidableEq

inductive Fault where
  | emptyPath
  | endsInNoColumn (value : Json)
  | notASource (value : Json)
  | stepNotAnObject (value : Json)
  | sourcekeyNotText
  | notOneKindOfStep (value : Json)
  | aliasNotText (value : Json)
  | notAConstraintName (value : Json)
  | notAForeignKey (value : Json)
  | missingAttribute (key : String)
  | mappingNotAnObject
  | mappingToNoColumn
  | notAColumnList (key : String)
  | unevenColumns
  | missingSource

def Fault.message : Fault → String
  | .emptyPath => "source path is empty"
  | .endsInNoColumn value => "source path must end in a column name, got " ++ value.text
  | .notASource value => "source must be a column name or an array, got " ++ value.text
  | .stepNotAnObject value => "path step must be an object, got " ++ value.text
  | .sourcekeyNotText => "`sourcekey` must be a string"
  | .notOneKindOfStep value =>
    "path step must have exactly one of `inbound`, `outbound`, `sourcekey` or a filter: " ++
      value.text
  | .aliasNotText value => "`alias` must be a string, got " ++ value.text
  | .notAConstraintName value =>
    "constraint name must be a [schema, name] pair, got " ++ value.text
  | .notAForeignKey value => "invalid foreign key reference " ++ value.text
  | .missingAttribute key => "`" ++ key ++ "` is required"
  | .mappingNotAnObject => "`local_to_remote_columns` must be an object"
  | .mappingToNoColumn => "`local_to_remote_columns` values must be column names"
  | .notAColumnList key => "`" ++ key ++ "` must be an array of column names"
  | .unevenColumns =>
    "column mapping must pair the same non-zero number of local and remote columns"
  | .missingSource => "missing `source`"

inductive SpecError where
  | invalidShape (fault : Fault)
  | filter (error : Filter.Error)

def SpecError.message : SpecError → String
  | .invalidShape fault => "Invalid source: " ++ fault.message
  | .filter error => error.message

/-- A source: the steps of its path and the column at the end. -/
structure Spec where
  steps : List Step
  column : String
  deriving DecidableEq

def sourcekeyKey : String := "sourcekey"

def aliasKey : String := "alias"

def remoteSchemaKey : String := "remote_schema"

def remoteTableKey : String := "remote_table"

def columnMappingKey : String := "local_to_remote_columns"

def localColumnsKey : String := "local_columns"

def remoteColumnsKey : String := "remote_columns"

/-- The sourcekey that stands for the search box of a table. -/
def searchBoxKey : String := "search-box"

def readText (fields : Json.Fields) (key : String) : Except SpecError String :=
  match fields.lookup key with
  | some (.string text) => .ok text
  | _ => .error (.invalidShape (.missingAttribute key))

/-- The pairs of a column mapping that is given as an object. -/
def readMapping : Json.Fields → Except SpecError (List (String × String))
  | [] => .ok []
  | (column, .string remote) :: rest => do
    let pairs ← readMapping rest
    pure ((column, remote) :: pairs)
  | _ => .error (.invalidShape .mappingToNoColumn)

def readStrings (key : String) : List Json → Except SpecError (List String)
  | [] => .ok []
  | .string text :: rest => do
    let texts ← readStrings key rest
    pure (text :: texts)
  | _ => .error (.invalidShape (.notAColumnList key))

def readColumnList (fields : Json.Fields) (key : String) : Except SpecError (List String) :=
  match fields.lookup key with
  | some (.array items) => readStrings key items
  | _ => .error (.invalidShape (.notAColumnList key))

/-- The columns of both sides, from a mapping or from two lists. -/
def readColumns (fields : Json.Fields) : Except SpecError (List String × List String) :=
  match fields.lookup columnMappingKey with
  | some (.object mapping) => do
    let pairs ← readMapping mapping
    pure pairs.unzip
  | some _ => .error (.invalidShape .mappingNotAnObject)
  | none => do
    let localColumns ← readColumnList fields localColumnsKey
    let remoteColumns ← readColumnList fields remoteColumnsKey
    pure (localColumns, remoteColumns)

/-- Read a foreign key that is named by its columns.  The two sides must pair up. -/
def readColumnTarget (fields : Json.Fields) : Except SpecError HopTarget := do
  let schema ← readText fields remoteSchemaKey
  let table ← readText fields remoteTableKey
  let (localColumns, remoteColumns) ← readColumns fields
  if localColumns.isEmpty || localColumns.length ≠ remoteColumns.length then
    throw (.invalidShape .unevenColumns)
  pure (.columns ⟨schema, table⟩ localColumns remoteColumns)

def readTarget : Json → Except SpecError HopTarget
  | .array [.string schema, .string name] => .ok (.constraint schema name)
  | .array items => .error (.invalidShape (.notAConstraintName (.array items)))
  | .object fields => readColumnTarget fields
  | value => .error (.invalidShape (.notAForeignKey value))

def readAlias (fields : Json.Fields) : Except SpecError (Option String) :=
  match fields.lookup aliasKey with
  | none => .ok none
  | some (.string name) => .ok (some name)
  | some value => .error (.invalidShape (.aliasNotText value))

def readHop (fields : Json.Fields) (direction : Direction) (target : Json) :
    Except SpecError Step := do
  let aliasName ← readAlias fields
  let target ← readTarget target
  pure (.hop { direction, target, aliasName })

/-- Read a step.  A sourcekey comes before a filter, and a filter before a hop. -/
def Step.ofJson (value : Json) : Except SpecError Step :=
  match value with
  | .object fields =>
    match fields.lookup sourcekeyKey with
    | some (.string key) => .ok (.sourcekey key)
    | some _ => .error (.invalidShape .sourcekeyNotText)
    | none =>
      if Filter.isDeclaredBy fields then
        match Filter.Tree.ofJson value with
        | .ok tree => .ok (.filter tree)
        | .error error => .error (.filter error)
      else
        match fields.lookup Direction.outbound.text, fields.lookup Direction.inbound.text with
        | some target, none => readHop fields .outbound target
        | none, some target => readHop fields .inbound target
        | _, _ => .error (.invalidShape (.notOneKindOfStep value))
  | value => .error (.invalidShape (.stepNotAnObject value))

def readSteps : List Json → Except SpecError (List Step)
  | [] => .ok []
  | item :: items => do
    let step ← Step.ofJson item
    let steps ← readSteps items
    pure (step :: steps)

def HopTarget.toJson : HopTarget → Json
  | .constraint schema name => .array [.string schema, .string name]
  | .columns remote localColumns remoteColumns =>
    let pairs := (localColumns.zip remoteColumns).map fun pair => (pair.1, Json.string pair.2)
    .object [
      (remoteSchemaKey, .string remote.schema),
      (remoteTableKey, .string remote.table),
      (columnMappingKey, .object (Json.Fields.ofList pairs))]

def HopStep.toJson (hop : HopStep) : Json :=
  let target := [(hop.direction.text, hop.target.toJson)]
  match hop.aliasName with
  | some name => .object ((aliasKey, .string name) :: target)
  | none => .object target

def Step.toJson : Step → Json
  | hop step => step.toJson
  | filter tree => tree.toJson
  | sourcekey key => .object [(sourcekeyKey, .string key)]

namespace Spec

/-- Read a source.  The last item of a path is looked at before its steps. -/
def ofJson (value : Json) : Except SpecError Spec :=
  match value with
  | .string column => .ok ⟨[], column⟩
  | .array items =>
    match items.getLast? with
    | none => .error (.invalidShape .emptyPath)
    | some (.string column) => do
      let steps ← readSteps items.dropLast
      pure ⟨steps, column⟩
    | some last => .error (.invalidShape (.endsInNoColumn last))
  | value => .error (.invalidShape (.notASource value))

/-- Write a source, a plain column as its name. -/
def toJson (spec : Spec) : Json :=
  if spec.steps.isEmpty then .string spec.column
  else .array (spec.steps.map Step.toJson ++ [.string spec.column])

def hasSteps (spec : Spec) : Bool := !spec.steps.isEmpty

def sourcekey? (spec : Spec) : Option String :=
  match spec.steps with
  | .sourcekey key :: _ => some key
  | _ => none

end Spec

end Source

end PathQuery
