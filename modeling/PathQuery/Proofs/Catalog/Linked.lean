import PathQuery.Catalog.Declaration

namespace PathQuery

/-! # Linked catalogs

In a catalog that was read, tables and foreign keys know where they belong: a table that
is found under a name has that name, a foreign key has the name of the table that it is
declared in, and a foreign key that is found by the name of its constraint is one of a
table's.
-/

namespace Catalog

variable {catalog : Catalog} {name : TableName} {table : Table} {key : ForeignKey}

theorem mem_tables_of_table? (found : catalog.table? name = some table) :
    table ∈ catalog.tables := by
  obtain ⟨schema, inCatalog, inSchema⟩ := Option.bind_eq_some_iff.mp found
  exact List.mem_flatMap.mpr
    ⟨schema, List.mem_of_find?_eq_some inCatalog, List.mem_of_find?_eq_some inSchema⟩

/-- Every table knows its schema, and its foreign keys know it. -/
structure Linked (catalog : Catalog) : Prop where
  schema : ∀ schema ∈ catalog.schemas, ∀ table ∈ schema.tables, table.schema = schema.name
  owner : ∀ table ∈ catalog.tables, ∀ key ∈ table.foreignKeys, key.table = table.tableName

theorem link_linked (catalog : Catalog) : catalog.link.Linked where
  schema := by
    intro schema inCatalog table inSchema
    obtain ⟨schema, -, rfl⟩ := List.mem_map.mp inCatalog
    obtain ⟨table, -, rfl⟩ := List.mem_map.mp inSchema
    rfl
  owner := by
    intro table inCatalog key inTable
    obtain ⟨schema, inCatalog, inSchema⟩ := List.mem_flatMap.mp inCatalog
    obtain ⟨schema, -, rfl⟩ := List.mem_map.mp inCatalog
    obtain ⟨table, -, rfl⟩ := List.mem_map.mp inSchema
    obtain ⟨key, -, rfl⟩ := List.mem_map.mp inTable
    rfl

/-- A catalog that was read is one that was linked and found without fault. -/
theorem ofText_eq_ok {text : String} (accepted : Catalog.ofText text = .ok catalog) :
    ∃ declared : Catalog, declared.link.error? = none ∧ catalog = declared.link := by
  unfold Catalog.ofText at accepted
  split at accepted
  · contradiction
  · rename_i declared _
    unfold finalize at accepted
    split at accepted
    · rename_i finalized
      split at finalized
      · contradiction
      · rename_i faultless
        cases finalized
        cases accepted
        exact ⟨declared, faultless, rfl⟩
    · contradiction

theorem ofText_linked {text : String} (accepted : Catalog.ofText text = .ok catalog) :
    catalog.Linked := by
  obtain ⟨declared, -, rfl⟩ := ofText_eq_ok accepted
  exact declared.link_linked

theorem Linked.tableName (linked : catalog.Linked) (found : catalog.table? name = some table) :
    table.tableName = name := by
  obtain ⟨schema, inCatalog, inSchema⟩ := Option.bind_eq_some_iff.mp found
  have schemaName : schema.name = name.schema := by simpa using List.find?_some inCatalog
  have tableName : table.name = name.table := by simpa using List.find?_some inSchema
  have known := linked.schema schema (List.mem_of_find?_eq_some inCatalog) table
    (List.mem_of_find?_eq_some inSchema)
  rw [Table.tableName, known, schemaName, tableName]

theorem Linked.table?_tableName (linked : catalog.Linked)
    (found : catalog.table? name = some table) :
    catalog.table? table.tableName = some table := by
  rw [linked.tableName found, found]

/-- The foreign key belongs to some table of the catalog. -/
def HasKey (catalog : Catalog) (key : ForeignKey) : Prop :=
  ∃ table ∈ catalog.tables, key ∈ table.foreignKeys

theorem hasKey_of_constraint? {schema constraint : String}
    (found : catalog.constraint? schema constraint = some key) : catalog.HasKey key := by
  obtain ⟨table, inCatalog, inTable⟩ := List.exists_of_findSome?_eq_some found
  exact ⟨table, inCatalog, List.mem_of_find?_eq_some inTable⟩

/-- A foreign key that is found by its columns relates the tables it was looked for
    between. -/
theorem Linked.of_constraintByColumns? (linked : catalog.Linked) {referenced : TableName}
    {columns referencedColumns : List String}
    (found : catalog.directory.constraintByColumns? name columns referenced referencedColumns =
      some key) :
    catalog.HasKey key ∧ key.table = name ∧ key.referencedTable = referenced := by
  obtain ⟨table, isTable, isKey⟩ := Option.bind_eq_some_iff.mp found
  have inCatalog := mem_tables_of_table? isTable
  have inTable := List.mem_of_find?_eq_some isKey
  have related := List.find?_some isKey
  simp only [Bool.and_eq_true, decide_eq_true_eq] at related
  refine ⟨⟨table, inCatalog, inTable⟩, ?_, related.1⟩
  rw [linked.owner table inCatalog key inTable, linked.tableName isTable]

end Catalog

end PathQuery
