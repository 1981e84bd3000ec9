import Mathlib.Data.List.Nodup
import PathQuery.Proofs.Catalog.Linked

namespace PathQuery

/-! # Directories that know names

In a directory tables and foreign keys go by their own names: what is found under a name
has that name, and the foreign keys of a table, which say that they are declared in it,
are found under theirs.  A linked catalog is such a directory if no two foreign keys share
a name.
-/

structure Directory.Named (directory : Directory) : Prop where
  table : ∀ {name table}, directory.table? name = some table → table.tableName = name
  constraint : ∀ {schema name key}, directory.constraint? schema name = some key →
    key.schema = schema ∧ key.name = name
  owner : ∀ {name table}, directory.table? name = some table →
    ∀ key ∈ table.foreignKeys, key.table = table.tableName
  declared : ∀ {name table}, directory.table? name = some table →
    ∀ key ∈ table.foreignKeys, directory.constraint? key.schema key.name = some key

namespace Directory.Named

variable {directory : Directory} {name : TableName} {table : Table} {key : ForeignKey}

theorem table?_tableName (named : directory.Named) (found : directory.table? name = some table) :
    directory.table? table.tableName = some table := by
  rw [named.table found, found]

theorem of_constraint? (named : directory.Named) {schema constraint : String}
    (found : directory.constraint? schema constraint = some key) :
    directory.constraint? key.schema key.name = some key := by
  obtain ⟨rfl, rfl⟩ := named.constraint found
  exact found

/-- A foreign key that is found by its columns is found by its name as well. -/
theorem of_constraintByColumns? (named : directory.Named) {referenced : TableName}
    {columns referencedColumns : List String}
    (found : directory.constraintByColumns? name columns referenced referencedColumns =
      some key) :
    directory.constraint? key.schema key.name = some key ∧ key.table = name ∧
      key.referencedTable = referenced := by
  obtain ⟨table, isTable, isKey⟩ := Option.bind_eq_some_iff.mp found
  have inTable := List.mem_of_find?_eq_some isKey
  have related := List.find?_some isKey
  simp only [Bool.and_eq_true, decide_eq_true_eq] at related
  exact ⟨named.declared isTable key inTable,
    (named.owner isTable key inTable).trans (named.table isTable), related.1⟩

end Directory.Named

namespace Catalog

variable {catalog : Catalog}

/-- No two foreign keys of the catalog share the name of a constraint. -/
def DistinctConstraints (catalog : Catalog) : Prop :=
  ((catalog.tables.flatMap Table.foreignKeys).map fun key => (key.schema, key.name)).Nodup

instance (catalog : Catalog) : Decidable catalog.DistinctConstraints :=
  inferInstanceAs (Decidable (List.Nodup _))

theorem constraint?_eq (catalog : Catalog) (schema name : String) :
    catalog.constraint? schema name = (catalog.tables.flatMap Table.foreignKeys).find?
      fun key => key.schema == schema && key.name == name :=
  List.find?_flatMap.symm

theorem Linked.named (linked : catalog.Linked) (distinct : catalog.DistinctConstraints) :
    catalog.directory.Named where
  table := linked.tableName
  constraint := by
    intro schema name key found
    change catalog.constraint? schema name = some key at found
    rw [constraint?_eq] at found
    simpa using List.find?_some found
  owner := by
    intro name table found key inTable
    exact linked.owner table (mem_tables_of_table? found) key inTable
  declared := by
    intro name table found key inTable
    change catalog.constraint? key.schema key.name = some key
    rw [constraint?_eq]
    have among : key ∈ catalog.tables.flatMap Table.foreignKeys :=
      List.mem_flatMap.mpr ⟨table, mem_tables_of_table? found, inTable⟩
    cases first : (catalog.tables.flatMap Table.foreignKeys).find?
        fun other => other.schema == key.schema && other.name == key.name with
    | none => simpa using List.find?_eq_none.mp first key among
    | some other =>
        have alike : other.schema = key.schema ∧ other.name = key.name := by
          simpa using List.find?_some first
        rw [List.inj_on_of_nodup_map distinct (List.mem_of_find?_eq_some first) among
          (Prod.ext alike.1 alike.2)]

end Catalog

end PathQuery
