import PathQuery.Source.Definitions
import PathQuery.Proofs.Filter.Reordering
import PathQuery.Proofs.Source.Grounded

namespace PathQuery

/-! # What declarations do not change

A source is resolved against the columns and the foreign keys of tables.  What sources a
table declares matters only through those that can be continued.  So a context in which
the tables declare nothing gives the same sources, up to the declarations in their tables.
-/

/-- The table without the sources that it declares. -/
def Table.bare (table : Table) : Table := { table with sourceDefinitions := [] }

def Directory.bare (directory : Directory) : Directory where
  table? name := (directory.table? name).map Table.bare
  constraint? := directory.constraint?

theorem Directory.table?_bare (directory : Directory) (name : TableName) :
    directory.bare.table? name = (directory.table? name).map Table.bare := rfl

theorem Directory.constraintByColumns?_bare (directory : Directory) (table : TableName)
    (columns : List String) (referenced : TableName) (referencedColumns : List String) :
    directory.bare.constraintByColumns? table columns referenced referencedColumns =
      directory.constraintByColumns? table columns referenced referencedColumns := by
  rw [constraintByColumns?, constraintByColumns?, table?_bare]
  cases directory.table? table <;> rfl

def Schema.bare (schema : Schema) : Schema := { schema with tables := schema.tables.map Table.bare }

def Catalog.bare (catalog : Catalog) : Catalog :=
  { catalog with schemas := catalog.schemas.map Schema.bare }

theorem Catalog.directory_bare (catalog : Catalog) :
    catalog.bare.directory = catalog.directory.bare := by
  have tables : ∀ name, catalog.bare.table? name = (catalog.table? name).map Table.bare := by
    intro name
    have schema : catalog.bare.schema? name.schema =
        (catalog.schema? name.schema).map Schema.bare := List.find?_map ..
    rw [table?, table?, schema]
    cases catalog.schema? name.schema with
    | none => rfl
    | some schema => exact List.find?_map ..
  have constraints : ∀ schema name, catalog.bare.constraint? schema name =
      catalog.constraint? schema name := by
    intro schema name
    have all : catalog.bare.tables = catalog.tables.map Table.bare := by
      simp [Catalog.tables, Catalog.bare, List.map_flatMap, List.flatMap_map, Schema.bare]
    rw [constraint?, constraint?, all, List.findSome?_map]
    rfl
  rw [directory, directory, Directory.bare, funext tables,
    funext fun schema => funext (constraints schema)]

/-- A filter is written with the columns of the table. -/
theorem Filter.Tree.clause_bare (table : Table) (tree : Filter.Tree) :
    tree.clause table.bare = tree.clause table := by
  induction tree using Filter.Tree.induction with
  | leaf comparison => rfl
  | node junction children negate ih =>
      have each : Filter.Tree.clauses table.bare children = Filter.Tree.clauses table children := by
        induction children with
        | nil => rfl
        | cons child children later =>
            rw [clauses, clauses, ih child List.mem_cons_self,
              later fun other member => ih other (List.mem_cons_of_mem child member)]
      rw [clause, clause, each]

namespace Source

def Leg.bare (leg : Leg) : Leg := { leg with table := leg.table.bare }

def Route.bare (route : Route) : Route :=
  { route with
    root := route.root.bare
    legs := route.legs.map Leg.bare
    table := route.table.bare }

namespace Resolved

/-- The source, with tables that declare nothing. -/
def bare : Resolved → Resolved
  | fromRoot route => fromRoot route.bare
  | continuing sourcekey start route => continuing sourcekey start.bare route.bare

theorem route_bare (source : Resolved) : source.bare.route = source.route.bare := by
  cases source <;> rfl

theorem table_bare (source : Resolved) : source.bare.table = source.table.bare :=
  congrArg Route.table source.route_bare

theorem facts_bare (source : Resolved) : source.bare.facts = source.facts := by
  cases source <;> rfl

theorem spec_bare (source : Resolved) : source.bare.spec = source.spec := by
  cases source <;> rfl

end Resolved

def Context.bare (context : Context) : Context where
  directory := context.directory.bare
  root := context.root.bare
  named key := (context.named key).map Resolved.bare
  engine := context.engine
  row := context.row

theorem HopStep.foreignKey_bare (step : HopStep) (table : TableName) (directory : Directory) :
    step.foreignKey table directory.bare = step.foreignKey table directory := by
  simp only [foreignKey, Directory.constraintByColumns?_bare]
  rfl

def Walk.bare (walk : Walk) : Walk :=
  { walk with legs := walk.legs.map Leg.bare, table := walk.table.bare }

namespace Walk

variable (context : Context)

theorem step_bare (walk : Walk) (step : Step) :
    walk.bare.step context.bare step = bare <$> walk.step context step := by
  cases step with
  | sourcekey key => rfl
  | filter tree =>
      simp only [Walk.step, Walk.filter, Walk.bare, Context.bare]
      cases tree.expand context.engine context.row with
      | error error => rfl
      | ok expanded =>
          simp only [ok_bind, expanded.clause_bare]
          cases expanded.clause walk.table with
          | error error => rfl
          | ok clause => rfl
  | hop step =>
      have found : step.foreignKey walk.bare.table.tableName context.bare.directory =
          step.foreignKey walk.table.tableName context.directory := step.foreignKey_bare _ _
      simp only [Walk.step, Walk.hop, found]
      cases step.foreignKey walk.table.tableName context.directory with
      | error error => rfl
      | ok key =>
          simp only [ok_bind, Context.bare, Directory.table?_bare]
          split <;> rename_i arrives
          · rw [Option.map_eq_none_iff] at arrives
            rw [arrives]
            rfl
          · obtain ⟨table, reached, rfl⟩ := Option.map_eq_some_iff.mp arrives
            rw [reached]
            rfl

theorem steps_bare (walk : Walk) (later : List Step) :
    walk.bare.steps context.bare later = bare <$> walk.steps context later := by
  induction later generalizing walk with
  | nil => rfl
  | cons next later ih =>
      simp only [Walk.steps, step_bare]
      cases walk.step context next with
      | error error => rfl
      | ok reached => exact ih reached

theorem route_bare (spec : Spec) (walk : Walk) :
    walk.bare.route context.bare spec = Route.bare <$> walk.route context spec := by
  have column : walk.bare.table.column? spec.column = walk.table.column? spec.column := rfl
  simp only [Walk.route, column]
  cases walk.table.column? spec.column with
  | none => rfl
  | some column =>
      simp only [except_map_ok, Except.ok.injEq]
      simp [Route.bare, Walk.bare, Context.bare]

end Walk

theorem Context.start_bare (context : Context) (key : String) :
    context.bare.start key = Resolved.bare <$> context.start key := by
  simp only [Context.start, Context.bare]
  cases context.named key with
  | none => rfl
  | some source =>
      have path : source.bare.hasPath = source.hasPath := by
        rw [Resolved.hasPath, source.facts_bare, Resolved.hasPath]
      simp only [Option.map_some, path]
      split <;> rfl

theorem Spec.resolve_bare_plain (context : Context) {spec : Spec}
    (plain : spec.sourcekey? = none) :
    spec.resolve context.bare = Resolved.bare <$> spec.resolve context := by
  have walks : (Walk.start context.bare.root).steps context.bare spec.steps =
      Walk.bare <$> (Walk.start context.root).steps context spec.steps :=
    Walk.steps_bare context (Walk.start context.root) spec.steps
  rw [resolve_plain context.bare plain, resolve_plain context plain, walks]
  cases (Walk.start context.root).steps context spec.steps with
  | error error => rfl
  | ok walk =>
      simp only [except_map_ok, ok_bind, Walk.route_bare]
      cases walk.route context spec <;> rfl

/-- Where no table declares a source, what is resolved is the same but for that. -/
theorem Spec.resolve_bare (context : Context) (spec : Spec) :
    spec.resolve context.bare = Resolved.bare <$> spec.resolve context := by
  obtain ⟨steps, column⟩ := spec
  match steps with
  | [] | .filter _ :: _ | .hop _ :: _ => exact resolve_bare_plain context rfl
  | .sourcekey key :: later =>
      rw [resolve_sourcekey, resolve_sourcekey, Context.start_bare]
      cases context.start key with
      | error error => rfl
      | ok start =>
          have after : Walk.after start.bare = (Walk.after start).bare := by
            simp [Walk.after, Walk.bare, start.table_bare, start.facts_bare]
          simp only [except_map_ok, ok_bind, after, Walk.steps_bare]
          cases (Walk.after start).steps context later with
          | error error => rfl
          | ok walk =>
              simp only [except_map_ok, ok_bind, Walk.route_bare]
              cases walk.route context ⟨.sourcekey key :: later, column⟩ <;> rfl

def Definition.bare (definition : Definition) : Definition :=
  { definition with source := definition.source.bare }

namespace Definitions

def bare (definitions : Definitions) : Definitions where
  table := definitions.table.bare
  entries := definitions.entries.map Definition.bare
  searchColumns := definitions.searchColumns.map Resolved.bare

theorem definition?_bare (definitions : Definitions) (key : String) :
    definitions.bare.definition? key = (definitions.definition? key).map Definition.bare :=
  List.find?_map ..

theorem get?_bare (definitions : Definitions) (key : String) :
    definitions.bare.get? key = (definitions.get? key).map Resolved.bare := by
  rw [get?, get?, definition?_bare, Option.map_map, Option.map_map]
  rfl

theorem dependencies_bare (definitions : Definitions) (key : String) :
    definitions.bare.dependencies key = definitions.dependencies key := by
  rw [dependencies, dependencies, definition?_bare]
  cases definitions.definition? key <;> rfl

theorem sourcekeys_bare (definitions : Definitions) :
    definitions.bare.sourcekeys = definitions.sourcekeys :=
  List.map_map ..

theorem resolve_bare (definitions : Definitions) (directory : Directory)
    (engine : Template.Engine) (row : Row) (spec : Spec) :
    definitions.bare.resolve directory.bare engine row spec =
      Resolved.bare <$> definitions.resolve directory engine row spec := by
  rw [resolve, resolve, ← Spec.resolve_bare, funext definitions.get?_bare]
  rfl

theorem define?_bare (definitions : Definitions) (directory : Directory)
    (engine : Template.Engine) (row : Row) (key : String) (value : Json) :
    definitions.bare.define? directory.bare engine row key value =
      (definitions.define? directory engine row key value).map Definition.bare := by
  simp only [define?, resolve_bare, dependencies_bare]
  split
  · rfl
  · cases value.object? with
    | none => rfl
    | some declaration =>
        simp only [Option.bind_eq_bind, Option.bind_some]
        cases declaration.lookup sourceKey with
        | none => rfl
        | some item =>
            simp only [Option.bind_some]
            cases (Spec.ofJson item).toOption with
            | none => rfl
            | some spec =>
                simp only [Option.bind_some]
                cases definitions.resolve directory engine row spec <;> rfl

theorem declare_bare (definitions : Definitions) (directory : Directory)
    (engine : Template.Engine) (row : Row) (field : String × Json) :
    declare directory.bare engine row definitions.bare field =
      (declare directory engine row definitions field).bare := by
  rw [declare, declare, define?_bare]
  cases definitions.define? directory engine row field.1 field.2 with
  | none => rfl
  | some definition => simp [bare]

theorem foldl_declare_bare (fields : Json.Fields) (definitions : Definitions)
    (directory : Directory) (engine : Template.Engine) (row : Row) :
    fields.foldl (declare directory.bare engine row) definitions.bare =
      (fields.foldl (declare directory engine row) definitions).bare := by
  induction fields generalizing definitions with
  | nil => rfl
  | cons field fields ih => rw [List.foldl_cons, List.foldl_cons, declare_bare, ih]

end Definitions

end Source

end PathQuery
