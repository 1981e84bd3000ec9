import PathQuery.Source.Resolved
import PathQuery.Catalog.Directory
import PathQuery.Filter.Expansion

namespace PathQuery.Source

/-! # Resolution

A source is resolved by walking its steps from left to right, with the table at hand
in mind: filters are expanded and written out for that table, and hops move on to the
table at the other end of their foreign key.  A sourcekey is replaced by the source it
names.  The walk stops at the first step that does not make sense.
-/

inductive ResolveError where
  | spec (error : SpecError)
  | filter (error : Filter.Error)
  | unknownConstraint (schema name : String)
  | noMatchingConstraint (table remote : TableName)
  | directionMismatch (constraint : String) (direction : Direction) (table : TableName)
  | unknownTable (table : TableName)
  | undefinedSourcekey (key : String)
  | notAPath (key : String)
  | misplacedSourcekey (key : String)
  | invalidColumn (column : String) (table : TableName)

def ResolveError.message : ResolveError → String
  | spec error => error.message
  | filter error => error.message
  | unknownConstraint schema name => "Constraint '" ++ schema ++ ":" ++ name ++ "' not found"
  | noMatchingConstraint table remote =>
    "No foreign key maps the given columns between " ++ table.text ++ " and " ++ remote.text
  | directionMismatch constraint direction table =>
    "Constraint '" ++ constraint ++ "' cannot be followed " ++ direction.text ++ " from " ++
      table.text
  | unknownTable table => "Table " ++ table.text ++ " not found"
  | undefinedSourcekey key => "Sourcekey '" ++ key ++ "' is not defined"
  | notAPath key => "Sourcekey '" ++ key ++ "' does not describe a foreign key path"
  | misplacedSourcekey key =>
    "Sourcekey '" ++ key ++ "' may only be used as the first step of a path"
  | invalidColumn column table =>
    "Column '" ++ column ++ "' not found in table " ++ table.text

/-- What a source is resolved against. -/
structure Context where
  directory : Directory
  root : Table
  /-- The sources that a path may continue. -/
  named : String → Option Resolved
  engine : Template.Engine
  row : Row

/-- The foreign key that a hop from `table` names, and whether it was found by its
    columns.  A foreign key found by name has to start at the table. -/
def HopStep.foreignKey (step : HopStep) (table : TableName) (directory : Directory) :
    Except ResolveError (ForeignKey × Bool) :=
  match step.target with
  | .constraint schema name =>
    match directory.constraint? schema name with
    | none => .error (.unknownConstraint schema name)
    | some key =>
      if key.fromTable step.direction = table then .ok (key, false)
      else .error (.directionMismatch (schema ++ ":" ++ name) step.direction table)
  | .columns remote localColumns remoteColumns =>
    let key? := match step.direction with
      | .outbound => directory.constraintByColumns? table localColumns remote remoteColumns
      | .inbound => directory.constraintByColumns? remote remoteColumns table localColumns
    match key? with
    | none => .error (.noMatchingConstraint table remote)
    | some key => .ok (key, true)

/-- The columns of a foreign key cannot lack a value in its own table.  The columns it
    references are taken to be there for every value. -/
def Hop.leavesNotNull (hop : Hop) (table : Table) : Bool :=
  hop.key.columns.all fun name => (table.column? name).any fun column => !column.nullable

/-- What is known after a filter.  A filter may drop rows. -/
def Facts.afterFilter (isFirst : Bool) (facts : Facts) : Facts :=
  { facts with
    hasRootFilter := facts.hasRootFilter || isFirst
    hasFilterInBetween := facts.hasFilterInBetween || facts.hopCount > 0
    allOutboundNotNull := false }

def Facts.afterHop (hop : Hop) (table : Table) (facts : Facts) : Facts :=
  { facts with
    hopCount := facts.hopCount + 1
    hasInbound := facts.hasInbound || hop.isInbound
    allOutboundNotNull :=
      facts.allOutboundNotNull && !hop.isInbound && hop.leavesNotNull table
    firstHop := facts.firstHop <|> some hop
    lastHop := some hop }

/-- A path on the way: the legs so far, last one first, the table at hand and what is
    known. -/
structure Walk where
  atStart : Bool
  legs : List Leg
  table : Table
  facts : Facts

namespace Walk

def extend (move : Move) (facts : Facts) (table : Table) (walk : Walk) : Walk where
  atStart := false
  legs := ⟨move, walk.table, facts.hopCount, facts.allOutboundNotNull⟩ :: walk.legs
  table := table
  facts := facts

def filter (context : Context) (tree : Filter.Tree) (walk : Walk) :
    Except Filter.Error Walk := do
  let tree ← tree.expand context.engine context.row
  let clause ← tree.clause walk.table
  return walk.extend (.filter tree clause) (walk.facts.afterFilter walk.atStart) walk.table

def hop (context : Context) (step : HopStep) (walk : Walk) : Except ResolveError Walk := do
  let (key, byColumns) ← step.foreignKey walk.table.tableName context.directory
  let hop : Hop := { key, direction := step.direction, aliasName := step.aliasName, byColumns }
  match context.directory.table? hop.toTable with
  | none => throw (.unknownTable hop.toTable)
  | some table => return walk.extend (.hop hop) (walk.facts.afterHop hop walk.table) table

def step (context : Context) (walk : Walk) : Step → Except ResolveError Walk
  | .sourcekey key => .error (.misplacedSourcekey key)
  | .filter tree =>
    match walk.filter context tree with
    | .ok walk => .ok walk
    | .error error => .error (.filter error)
  | .hop step => walk.hop context step

def steps (context : Context) (walk : Walk) : List Step → Except ResolveError Walk
  | [] => .ok walk
  | next :: later => do
    let walk ← walk.step context next
    walk.steps context later

/-- The route of a walk that has come to its end. -/
def route (context : Context) (spec : Spec) (walk : Walk) : Except ResolveError Route :=
  match walk.table.column? spec.column with
  | none => .error (.invalidColumn spec.column walk.table.tableName)
  | some column => .ok {
      spec, column
      root := context.root
      legs := walk.legs.reverse
      table := walk.table
      facts := { walk.facts with
        allOutboundNotNull := walk.facts.allOutboundNotNull && walk.facts.hopCount > 0 } }

end Walk

/-- The source that a path may continue under a sourcekey. -/
def Context.start (context : Context) (key : String) : Except ResolveError Resolved :=
  match context.named key with
  | none => .error (.undefinedSourcekey key)
  | some source => if source.hasPath then .ok source else .error (.notAPath key)

def Spec.resolve (context : Context) (spec : Spec) : Except ResolveError Resolved :=
  match spec.steps with
  | .sourcekey key :: steps => do
    let start ← context.start key
    let walk := { atStart := false, legs := [], table := start.table, facts := start.facts }
    let walk ← Walk.steps context walk steps
    let route ← walk.route context spec
    return .continuing key start route
  | steps => do
    let walk := { atStart := true, legs := [], table := context.root, facts := .start }
    let walk ← Walk.steps context walk steps
    let route ← walk.route context spec
    return .fromRoot route

end PathQuery.Source
