import PathQuery.Proofs.Catalog.Linked
import PathQuery.Proofs.Source.Declarations
import PathQuery.Proofs.Source.Inlining

namespace PathQuery.Source

/-! # The tables along a source

Each leg of a source starts at the table that the one before it leads to.  A leg that
filters was written for its table, and a hop follows a foreign key of the catalog between
its two tables.  The legs of a source start at the end of the source that it continues,
or else at the root table.
-/

variable {catalog : Catalog} {root : Table} {named : String → Option Resolved}

/-- Legs from one table to another. -/
inductive Leads (catalog : Catalog) : Table → List Leg → Table → Prop
  | nil {table : Table} : Leads catalog table [] table
  | filter {table last : Table} {tree : Filter.Tree} {clause : String} {hopCount : Nat}
      {notNull : Bool} {later : List Leg} (written : tree.clause table = .ok clause)
      (rest : Leads catalog table later last) :
      Leads catalog table (⟨.filter tree clause, table, hopCount, notNull⟩ :: later) last
  | hop {table next last : Table} {hop : Hop} {hopCount : Nat} {notNull : Bool}
      {later : List Leg} (known : catalog.HasKey hop.key)
      (starts : hop.key.fromTable hop.direction = table.tableName)
      (reaches : catalog.table? hop.toTable = some next) (rest : Leads catalog next later last) :
      Leads catalog table (⟨.hop hop, table, hopCount, notNull⟩ :: later) last

theorem Leads.append {first middle last : Table} {left right : List Leg}
    (before : Leads catalog first left middle) (after : Leads catalog middle right last) :
    Leads catalog first (left ++ right) last := by
  induction before with
  | nil => exact after
  | filter written _ ih => exact .filter written (ih after)
  | hop known starts reaches _ ih => exact .hop known starts reaches (ih after)

theorem Leads.stays {first last : Table} {legs : List Leg} (leads : Leads catalog first legs last)
    (noHop : legs.any Leg.isHop = false) : last = first := by
  induction leads with
  | nil => rfl
  | filter _ _ ih => exact ih (by simpa [Leg.isHop] using noHop)
  | hop _ _ _ _ _ => simp [Leg.isHop] at noHop

theorem Leads.table?_tableName {first last : Table} {legs : List Leg}
    (leads : Leads catalog first legs last) (linked : catalog.Linked)
    (found : catalog.table? first.tableName = some first) :
    catalog.table? last.tableName = some last := by
  induction leads with
  | nil => exact found
  | filter _ _ ih => exact ih found
  | hop _ _ reaches _ ih => exact ih (linked.table?_tableName reaches)

theorem HopStep.foreignKey_starts (linked : catalog.Linked) {step : HopStep}
    {table : TableName} {key : ForeignKey} {byColumns : Bool}
    (found : step.foreignKey table catalog.directory = .ok (key, byColumns)) :
    catalog.HasKey key ∧ key.fromTable step.direction = table := by
  obtain ⟨_, _, -, -, known, starts⟩ | ⟨_, _, _, -, -, outbound, matching⟩ |
    ⟨_, _, _, -, -, inbound, matching⟩ := HopStep.foreignKey_cases found
  · exact ⟨Catalog.hasKey_of_constraint? known, starts⟩
  · obtain ⟨known, owner, -⟩ := linked.of_constraintByColumns? matching
    exact ⟨known, outbound ▸ owner⟩
  · obtain ⟨known, -, referenced⟩ := linked.of_constraintByColumns? matching
    exact ⟨known, inbound ▸ referenced⟩

theorem Walk.steps_leads (linked : catalog.Linked) {context : Context}
    (directory : context.directory = catalog.directory) {walk last : Walk} {later : List Step}
    (fresh : walk.legs = []) (walked : walk.steps context later = .ok last) :
    Leads catalog walk.table last.legs.reverse last.table := by
  refine Walk.steps_preserve
    (motive := fun reached => Leads catalog walk.table reached.legs.reverse reached.table)
    ?_ (by rw [fresh]; exact .nil) walked
  intro reached step next leads stepped
  rcases Walk.step_cases stepped with ⟨tree, expanded, clause, -, -, written, rfl⟩ |
    ⟨hopStep, hop, table, -, found, direction, -, reaches, rfl⟩
  · simp only [Walk.extend, List.reverse_cons]
    exact leads.append (.filter written .nil)
  · rw [directory] at found reaches
    obtain ⟨known, starts⟩ := HopStep.foreignKey_starts linked found
    simp only [Walk.extend, List.reverse_cons]
    exact leads.append (.hop known (direction ▸ starts) reaches .nil)

/-- A source of `root` in the catalog, with the named sources that it continues. -/
inductive Traced (catalog : Catalog) (root : Table) (named : String → Option Resolved) :
    Resolved → Prop
  | fromRoot {route : Route} (leads : Leads catalog root route.legs route.table)
      (column : route.column ∈ route.table.columns)
      (path : (Resolved.fromRoot route).hasPath = route.legs.any Leg.isHop) :
      Traced catalog root named (.fromRoot route)
  | continuing {key : String} {start : Resolved} {route : Route}
      (found : named key = some start) (traced : Traced catalog root named start)
      (startPath : start.hasPath = true)
      (leads : Leads catalog start.table route.legs route.table)
      (column : route.column ∈ route.table.columns)
      (path : (Resolved.continuing key start route).hasPath = true) :
      Traced catalog root named (.continuing key start route)

/-- Contexts of a table in the catalog. -/
def OfTable (catalog : Catalog) (root : Table) (named : String → Option Resolved)
    (context : Context) : Prop :=
  context.directory = catalog.directory ∧ context.root = root ∧ context.named = named

theorem Grounded.traced (linked : catalog.Linked) {source : Resolved}
    (grounded : Grounded (OfTable catalog root named) source) :
    Traced catalog root named source := by
  induction grounded with
  | @fromRoot context spec walk route admitted plain walked ended =>
      have counted := (Grounded.fromRoot admitted plain walked ended).hasPath_eq
      obtain ⟨directory, rfl, rfl⟩ := admitted
      have leads := Walk.steps_leads linked directory rfl walked
      obtain ⟨column, found, rfl⟩ := Walk.route_eq_ok ended
      exact .fromRoot leads (List.mem_of_find?_eq_some found) counted
  | @continuing context key column start later walk route admitted found path grounded walked
      ended ih =>
      have counted :=
        (Grounded.continuing admitted found path grounded walked ended).hasPath_eq
      obtain ⟨directory, rfl, rfl⟩ := admitted
      have leads := Walk.steps_leads linked directory rfl walked
      obtain ⟨column, isColumn, rfl⟩ := Walk.route_eq_ok ended
      refine .continuing found ih path leads (List.mem_of_find?_eq_some isColumn) ?_
      rw [counted, Resolved.fullLegs, List.any_append, ← grounded.hasPath_eq, path, Bool.true_or]

namespace Traced

variable {source : Resolved}

theorem column_mem (traced : Traced catalog root named source) :
    source.column ∈ source.table.columns := by
  cases traced with
  | fromRoot leads column path => exact column
  | continuing found traced startPath leads column path => exact column

theorem leads (traced : Traced catalog root named source) :
    Leads catalog root source.fullLegs source.table := by
  induction traced with
  | fromRoot leads column path => exact leads
  | continuing found traced startPath leads column path ih => exact ih.append leads

theorem hasPath_eq (traced : Traced catalog root named source) :
    source.hasPath = source.fullLegs.any Leg.isHop := by
  induction traced with
  | fromRoot leads column path => exact path
  | continuing found traced startPath leads column path ih =>
      rw [path, Resolved.fullLegs, List.any_append, ← ih, startPath, Bool.true_or]

theorem table_eq_root (traced : Traced catalog root named source)
    (pathless : source.hasPath = false) : source.table = root :=
  traced.leads.stays (traced.hasPath_eq ▸ pathless)

theorem startsMove (traced : Traced catalog root named source) :
    source.StartsMove := by
  induction traced with
  | fromRoot leads column path => trivial
  | continuing found traced startPath leads column path ih =>
      exact ⟨traced.hasPath_eq ▸ startPath, ih⟩

theorem table?_tableName (traced : Traced catalog root named source) (linked : catalog.Linked)
    (found : catalog.table? root.tableName = some root) :
    catalog.table? source.table.tableName = some source.table :=
  traced.leads.table?_tableName linked found

end Traced

theorem Definitions.build_traced (linked : catalog.Linked) {table : Table}
    {engine : Template.Engine} {row : Row} {key : String} {source : Resolved}
    (found : (build catalog.directory table engine row).get? key = some source) :
    Traced catalog table (build catalog.directory table engine row).get? source :=
  Grounded.traced linked (build_within found)

theorem Definitions.resolve_traced (linked : catalog.Linked) {table : Table}
    {engine engine' : Template.Engine} {row row' : Row} {spec : Spec} {source : Resolved}
    (resolved : (build catalog.directory table engine row).resolve catalog.directory engine' row'
      spec = .ok source) :
    Traced catalog table (build catalog.directory table engine row).get? source :=
  Grounded.traced linked (resolve_within resolved)

end PathQuery.Source
