import Mathlib.Data.List.Nodup
import PathQuery.Proofs.Catalog.Linked

namespace PathQuery

/-! # Sound catalogs

In a catalog that was read every foreign key relates columns that are there: its own are
columns of the table that declares it, and those it references are columns of the table
that is found under the name it gives.  The table that declares it is not looked up by its
name, under which an earlier table may be found, or none.  So it is left open whether a
foreign key shows, which it does as soon as names are distinct.
-/

/-- All the columns are columns of the table. -/
def Table.HasColumns (table : Table) (columns : List String) : Prop :=
  ∀ name ∈ columns, (table.column? name).isSome = true

theorem Table.missingColumn?_eq_none {table : Table} {columns : List String}
    (nothing : table.missingColumn? columns = none) : table.HasColumns columns := by
  intro name member
  simpa [← Option.isSome_iff_ne_none] using List.find?_eq_none.mp nothing name member

namespace Catalog

variable {catalog : Catalog} {table : Table} {key : ForeignKey}

structure Sound (catalog : Catalog) : Prop where
  own : ∀ table ∈ catalog.tables, ∀ key ∈ table.foreignKeys, table.HasColumns key.columns
  referenced : ∀ key, catalog.HasKey key → ∃ table,
    catalog.table? key.referencedTable = some table ∧ table.HasColumns key.referencedColumns

/-- A foreign key without fault relates columns that are there. -/
theorem fault?_eq_none (faultless : catalog.fault? table key = none) :
    table.HasColumns key.columns ∧ ∃ referenced,
      catalog.table? key.referencedTable = some referenced ∧
      referenced.HasColumns key.referencedColumns := by
  unfold fault? at faultless
  split at faultless
  · contradiction
  · split at faultless
    · contradiction
    · rename_i own
      split at faultless
      · contradiction
      · rename_i referenced found
        exact ⟨Table.missingColumn?_eq_none own, referenced, found,
          Table.missingColumn?_eq_none (Option.map_eq_none_iff.mp faultless)⟩

theorem sound_of_error?_eq_none (faultless : catalog.error? = none) : catalog.Sound := by
  have each : ∀ table ∈ catalog.tables, ∀ key ∈ table.foreignKeys,
      catalog.fault? table key = none := by
    intro table inCatalog key inTable
    have none := List.findSome?_eq_none_iff.mp faultless table inCatalog
    exact Option.map_eq_none_iff.mp (List.findSome?_eq_none_iff.mp none key inTable)
  constructor
  · intro table inCatalog key inTable
    exact (fault?_eq_none (each table inCatalog key inTable)).1
  · rintro key ⟨table, inCatalog, inTable⟩
    exact (fault?_eq_none (each table inCatalog key inTable)).2

theorem ofText_sound {text : String} (accepted : Catalog.ofText text = .ok catalog) :
    catalog.Sound := by
  obtain ⟨declared, faultless, rfl⟩ := ofText_eq_ok accepted
  exact sound_of_error?_eq_none faultless

/-- The table of the foreign key is the one that is found under its name. -/
def Shows (catalog : Catalog) (key : ForeignKey) : Prop :=
  ∃ table, catalog.table? key.table = some table ∧ key ∈ table.foreignKeys

theorem Sound.own_of_shows (sound : catalog.Sound) (shows : catalog.Shows key)
    (found : catalog.table? key.table = some table) : table.HasColumns key.columns := by
  obtain ⟨owner, isOwner, inOwner⟩ := shows
  obtain rfl : owner = table := Option.some.inj (isOwner.symm.trans found)
  exact sound.own owner (mem_tables_of_table? found) key inOwner

theorem Sound.referenced_of_table? (sound : catalog.Sound) (known : catalog.HasKey key)
    (found : catalog.table? key.referencedTable = some table) :
    table.HasColumns key.referencedColumns := by
  obtain ⟨referenced, isReferenced, columns⟩ := sound.referenced key known
  obtain rfl : referenced = table := Option.some.inj (isReferenced.symm.trans found)
  exact columns

/-- The columns that a foreign key is followed from are those of the table that is found there. -/
theorem Sound.fromColumns (sound : catalog.Sound) (known : catalog.HasKey key)
    {direction : Direction} (found : catalog.table? (key.fromTable direction) = some table)
    (sure : direction = .inbound ∨ catalog.Shows key) :
    table.HasColumns (key.fromColumns direction) := by
  cases direction with
  | inbound => exact sound.referenced_of_table? known found
  | outbound =>
      obtain inbound | shows := sure
      · contradiction
      · exact sound.own_of_shows shows found

theorem Sound.toColumns (sound : catalog.Sound) (known : catalog.HasKey key)
    {direction : Direction} (found : catalog.table? (key.toTable direction) = some table)
    (sure : direction = .outbound ∨ catalog.Shows key) :
    table.HasColumns (key.toColumns direction) := by
  cases direction with
  | outbound => exact sound.referenced_of_table? known found
  | inbound =>
      obtain outbound | shows := sure
      · contradiction
      · exact sound.own_of_shows shows found

/-- A foreign key that is found by its columns is looked for in the table of its name. -/
theorem Linked.shows_of_constraintByColumns? (linked : catalog.Linked) {name referenced : TableName}
    {columns referencedColumns : List String}
    (found : catalog.directory.constraintByColumns? name columns referenced referencedColumns =
      some key) : catalog.Shows key := by
  obtain ⟨-, rfl, -⟩ := linked.of_constraintByColumns? found
  obtain ⟨table, isTable, isKey⟩ := Option.bind_eq_some_iff.mp found
  exact ⟨table, isTable, List.mem_of_find?_eq_some isKey⟩

/-- No two schemas share a name, and no two tables of one schema. -/
structure DistinctNames (catalog : Catalog) : Prop where
  schemas : (catalog.schemas.map Schema.name).Nodup
  tables : ∀ schema ∈ catalog.schemas, (schema.tables.map Table.name).Nodup

theorem find?_of_nodup {items : List α} {name : α → String} (distinct : (items.map name).Nodup)
    {item : α} (member : item ∈ items) :
    (items.find? fun other => name other == name item) = some item := by
  cases found : items.find? fun other => name other == name item with
  | none => simpa using List.find?_eq_none.mp found item member
  | some other =>
      have alike : name other = name item := by simpa using List.find?_some found
      rw [List.inj_on_of_nodup_map distinct (List.mem_of_find?_eq_some found) member alike]

theorem Linked.shows_of_distinct (linked : catalog.Linked) (distinct : catalog.DistinctNames)
    (known : catalog.HasKey key) : catalog.Shows key := by
  obtain ⟨table, inCatalog, inTable⟩ := known
  have owner := linked.owner table inCatalog key inTable
  obtain ⟨schema, isSchema, inSchema⟩ := List.mem_flatMap.mp inCatalog
  refine ⟨table, ?_, inTable⟩
  rw [owner, Table.tableName, linked.schema schema isSchema table inSchema, table?, schema?,
    find?_of_nodup distinct.schemas isSchema, Option.bind_some]
  exact find?_of_nodup (distinct.tables schema isSchema) inSchema

end Catalog

end PathQuery
