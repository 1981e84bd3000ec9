import PathQuery.Proofs.Catalog.Sound

namespace PathQuery

/-! # Loading a catalog

A catalog is loaded just if each of its foreign keys relates columns that are there, and what is
refused is refused for the first foreign key that does not, by the first check that it fails.
Tables learn their schema and foreign keys their table, and nothing else is changed.
-/

/-- A foreign key with the table and the schema that declare it. -/
structure DeclaredKey where
  schema : Schema
  table : Table
  key : ForeignKey

/-- The foreign keys of a catalog, in the order in which they are declared. -/
def Catalog.declaredKeys (catalog : Catalog) : List DeclaredKey :=
  catalog.schemas.flatMap fun schema => schema.tables.flatMap fun table =>
    table.foreignKeys.map fun key => ⟨schema, table, key⟩

/-- The column is the first of the columns that the table does not have. -/
def Table.FirstMissing (table : Table) (columns : List String) (column : String) : Prop :=
  ∃ before after, columns = before ++ column :: after ∧ table.HasColumns before ∧
    table.column? column = none

namespace DeclaredKey

variable (catalog : Catalog) (declared : DeclaredKey)

def tableName : TableName := ⟨declared.schema.name, declared.table.name⟩

/-- The schema of the constraint is that of the table, unless it is given. -/
def schemaName : String :=
  if declared.key.schema = "" then declared.schema.name else declared.key.schema

def name : String := declared.schemaName ++ ":" ++ declared.key.name

/-- The foreign key has columns, and as many as it references. -/
def IsEven : Prop :=
  declared.key.columns ≠ [] ∧
    declared.key.columns.length = declared.key.referencedColumns.length

/-- The foreign key relates columns that are there. -/
structure IsSound : Prop where
  even : declared.IsEven
  own : declared.table.HasColumns declared.key.columns
  referenced : ∃ referenced, catalog.table? declared.key.referencedTable = some referenced ∧
    referenced.HasColumns declared.key.referencedColumns

/-- The first check that the foreign key fails finds this fault. -/
inductive FirstFault : ForeignKey.Fault → Prop
  | unevenColumns (uneven : ¬declared.IsEven) : FirstFault .unevenColumns
  | unknownColumn {column : String} (even : declared.IsEven)
      (missing : declared.table.FirstMissing declared.key.columns column) :
      FirstFault (.unknownColumn column declared.tableName)
  | unknownTable (even : declared.IsEven)
      (own : declared.table.HasColumns declared.key.columns)
      (missing : catalog.table? declared.key.referencedTable = none) :
      FirstFault (.unknownTable declared.key.referencedTable)
  | unknownReferencedColumn {referenced : Table} {column : String} (even : declared.IsEven)
      (own : declared.table.HasColumns declared.key.columns)
      (found : catalog.table? declared.key.referencedTable = some referenced)
      (missing : referenced.FirstMissing declared.key.referencedColumns column) :
      FirstFault (.unknownReferencedColumn column declared.key.referencedTable)

end DeclaredKey

/-- The error is that of the first foreign key that is not sound. -/
def Catalog.Refuses (catalog : Catalog) (error : CatalogError) : Prop :=
  ∃ before declared after fault, catalog.declaredKeys = before ++ declared :: after ∧
    (∀ earlier ∈ before, earlier.IsSound catalog) ∧ declared.FirstFault catalog fault ∧
    error = ⟨declared.name, fault⟩

structure DeclaredKey.Filled (declared : DeclaredKey) (key : ForeignKey) : Prop where
  schema : key.schema = declared.schemaName
  table : key.table = declared.tableName
  name : key.name = declared.key.name
  columns : key.columns = declared.key.columns
  referencedTable : key.referencedTable = declared.key.referencedTable
  referencedColumns : key.referencedColumns = declared.key.referencedColumns

structure Table.Filled (owner : Schema) (declared table : Table) : Prop where
  schema : table.schema = owner.name
  name : table.name = declared.name
  columns : table.columns = declared.columns
  keys : table.keys = declared.keys
  foreignKeys : List.Forall₂ (fun key => DeclaredKey.Filled ⟨owner, declared, key⟩)
    declared.foreignKeys table.foreignKeys
  sourceDefinitions : table.sourceDefinitions = declared.sourceDefinitions
  searchColumns : table.searchColumns = declared.searchColumns

structure Schema.Filled (declared schema : Schema) : Prop where
  name : schema.name = declared.name
  tables : List.Forall₂ (Table.Filled declared) declared.tables schema.tables

structure Catalog.Filled (declared catalog : Catalog) : Prop where
  features : catalog.features = declared.features
  schemas : List.Forall₂ Schema.Filled declared.schemas catalog.schemas

theorem forall₂_map {related : α → β → Prop} {f : α → β} (items : List α)
    (each : ∀ item, related item (f item)) : List.Forall₂ related items (items.map f) := by
  rw [List.forall₂_map_right_iff, List.forall₂_same]
  exact fun item _ => each item

theorem DeclaredKey.filled_link (declared : DeclaredKey) :
    declared.Filled (declared.key.link declared.tableName) where
  schema := by
    simp only [ForeignKey.link, schemaName, tableName, String.isEmpty_iff]
  table := rfl
  name := rfl
  columns := rfl
  referencedTable := rfl
  referencedColumns := rfl

theorem Table.filled_link (schema : Schema) (table : Table) :
    table.Filled schema (table.link schema.name) where
  schema := rfl
  name := rfl
  columns := rfl
  keys := rfl
  foreignKeys := forall₂_map _ fun key => DeclaredKey.filled_link ⟨schema, table, key⟩
  sourceDefinitions := rfl
  searchColumns := rfl

theorem Catalog.filled_link (catalog : Catalog) : catalog.Filled catalog.link where
  features := rfl
  schemas := forall₂_map _ fun schema => ⟨rfl, forall₂_map _ (Table.filled_link schema)⟩

theorem Table.missingColumn?_of_hasColumns {table : Table} {columns : List String}
    (present : table.HasColumns columns) : table.missingColumn? columns = none := by
  rw [missingColumn?, List.find?_eq_none]
  intro name member
  rw [Option.isNone_iff_eq_none, ← ne_eq, ← Option.isSome_iff_ne_none]
  exact present name member

theorem Table.missingColumn?_eq_some_iff {table : Table} {columns : List String} {column : String} :
    table.missingColumn? columns = some column ↔ table.FirstMissing columns column := by
  rw [missingColumn?, List.find?_eq_some_iff_append, FirstMissing]
  constructor
  · intro found
    obtain ⟨missing, before, after, same, present⟩ := found
    refine ⟨before, after, same, fun name member => ?_, Option.isNone_iff_eq_none.mp missing⟩
    simpa using present name member
  · intro first
    obtain ⟨before, after, same, present, missing⟩ := first
    refine ⟨Option.isNone_iff_eq_none.mpr missing, before, after, same, fun name member => ?_⟩
    simpa using present name member

namespace Catalog

variable {catalog : Catalog}

theorem schema?_link (catalog : Catalog) (name : String) :
    catalog.link.schema? name = (catalog.schema? name).map Schema.link :=
  List.find?_map ..

/-- Linking does not change which table is found under a name. -/
theorem table?_link (catalog : Catalog) (name : TableName) :
    catalog.link.table? name = (catalog.table? name).map (Table.link name.schema) := by
  rw [table?, table?, schema?_link]
  cases found : catalog.schema? name.schema with
  | none => rfl
  | some schema =>
      have named : schema.name = name.schema := by simpa using List.find?_some found
      rw [Option.map_some, Option.bind_some, Option.bind_some, Schema.link, named]
      exact List.find?_map ..

theorem name_of_table? {name : TableName} {table : Table} (found : catalog.table? name = some table) :
    table.name = name.table := by
  obtain ⟨schema, -, inSchema⟩ := Option.bind_eq_some_iff.mp found
  simpa using List.find?_some inSchema

end Catalog

namespace DeclaredKey

variable {catalog : Catalog} {declared : DeclaredKey}

/-- The fault that is found in the foreign key once the catalog is linked. -/
def fault? (catalog : Catalog) (declared : DeclaredKey) : Option ForeignKey.Fault :=
  catalog.link.fault? (declared.table.link declared.schema.name)
    (declared.key.link declared.tableName)

theorem fault?_uneven (uneven : ¬declared.IsEven) :
    declared.fault? catalog = some .unevenColumns := by
  refine if_pos ?_
  rw [IsEven, not_and_or, not_not] at uneven
  simpa [ForeignKey.link] using uneven

/-- The checks after the first one, on what was declared. -/
theorem fault?_even (even : declared.IsEven) : declared.fault? catalog =
    match declared.table.missingColumn? declared.key.columns with
    | some column => some (.unknownColumn column declared.tableName)
    | none =>
      match catalog.table? declared.key.referencedTable with
      | none => some (.unknownTable declared.key.referencedTable)
      | some referenced =>
        (referenced.missingColumn? declared.key.referencedColumns).map fun column =>
          .unknownReferencedColumn column declared.key.referencedTable := by
  have passes : ¬((declared.key.link declared.tableName).columns.isEmpty ||
      (declared.key.link declared.tableName).columns.length ≠
        (declared.key.link declared.tableName).referencedColumns.length) = true := by
    simpa [ForeignKey.link, IsEven] using even
  rw [fault?, Catalog.fault?, if_neg passes]
  change (match declared.table.missingColumn? declared.key.columns with
    | some column => some (ForeignKey.Fault.unknownColumn column declared.tableName)
    | none => match catalog.link.table? declared.key.referencedTable with
      | none => some (.unknownTable declared.key.referencedTable)
      | some referenced =>
        (referenced.missingColumn? declared.key.referencedColumns).map fun column =>
          .unknownReferencedColumn column referenced.tableName) = _
  rw [Catalog.table?_link]
  cases found : catalog.table? declared.key.referencedTable with
  | none => rfl
  | some referenced =>
      have known : (referenced.link declared.key.referencedTable.schema).tableName =
          declared.key.referencedTable := by
        rw [Table.tableName, Table.link, Catalog.name_of_table? found]
      rw [Option.map_some]
      dsimp only
      rw [known]
      rfl

theorem fault?_of_isSound (sound : declared.IsSound catalog) : declared.fault? catalog = none := by
  obtain ⟨referenced, found, present⟩ := sound.referenced
  rw [fault?_even sound.even, Table.missingColumn?_of_hasColumns sound.own, found]
  exact Option.map_eq_none_iff.mpr (Table.missingColumn?_of_hasColumns present)

theorem fault?_of_firstFault {fault : ForeignKey.Fault}
    (first : declared.FirstFault catalog fault) : declared.fault? catalog = some fault := by
  cases first with
  | unevenColumns uneven => exact fault?_uneven uneven
  | unknownColumn even missing =>
      rw [fault?_even even, Table.missingColumn?_eq_some_iff.mpr missing]
  | unknownTable even own missing =>
      rw [fault?_even even, Table.missingColumn?_of_hasColumns own, missing]
  | unknownReferencedColumn even own found missing =>
      rw [fault?_even even, Table.missingColumn?_of_hasColumns own, found]
      exact Option.map_eq_some_iff.mpr ⟨_, Table.missingColumn?_eq_some_iff.mpr missing, rfl⟩

/-- A foreign key passes all checks or fails one of them first. -/
theorem isSound_or_firstFault (catalog : Catalog) (declared : DeclaredKey) :
    declared.IsSound catalog ∨ ∃ fault, declared.FirstFault catalog fault := by
  by_cases even : declared.IsEven
  swap
  · exact .inr ⟨_, .unevenColumns even⟩
  cases inOwn : declared.table.missingColumn? declared.key.columns with
  | some column => exact .inr ⟨_, .unknownColumn even (Table.missingColumn?_eq_some_iff.mp inOwn)⟩
  | none =>
      have own := Table.missingColumn?_eq_none inOwn
      cases found : catalog.table? declared.key.referencedTable with
      | none => exact .inr ⟨_, .unknownTable even own found⟩
      | some referenced =>
          cases inReferenced : referenced.missingColumn? declared.key.referencedColumns with
          | none =>
              exact .inl ⟨even, own, referenced, found, Table.missingColumn?_eq_none inReferenced⟩
          | some column =>
              exact .inr ⟨_, .unknownReferencedColumn even own found
                (Table.missingColumn?_eq_some_iff.mp inReferenced)⟩

theorem fault?_eq_none_iff : declared.fault? catalog = none ↔ declared.IsSound catalog := by
  refine ⟨fun passes => ?_, fault?_of_isSound⟩
  obtain sound | ⟨fault, first⟩ := isSound_or_firstFault catalog declared
  · exact sound
  · rw [fault?_of_firstFault first] at passes
    contradiction

theorem fault?_eq_some_iff {fault : ForeignKey.Fault} :
    declared.fault? catalog = some fault ↔ declared.FirstFault catalog fault := by
  refine ⟨fun fails => ?_, fault?_of_firstFault⟩
  obtain sound | ⟨other, first⟩ := isSound_or_firstFault catalog declared
  · rw [fault?_of_isSound sound] at fails
    contradiction
  · rw [fault?_of_firstFault first] at fails
    cases fails
    exact first

/-- Once it is linked, the foreign key goes by the name that is declared for it. -/
theorem text_link (declared : DeclaredKey) :
    (declared.key.link declared.tableName).text = declared.name := by
  rw [ForeignKey.text, declared.filled_link.schema, declared.filled_link.name, name]

end DeclaredKey

theorem findSome?_flatMap (items : List α) (parts : α → List β) (found : β → Option γ) :
    (items.flatMap parts).findSome? found = items.findSome? fun item => (parts item).findSome? found := by
  induction items with
  | nil => rfl
  | cons item items ih =>
      rw [List.flatMap_cons, List.findSome?_append, ih, List.findSome?_cons]
      cases (parts item).findSome? found <;> rfl

namespace Catalog

variable {catalog : Catalog}

/-- The error of the linked catalog is that of the first declared foreign key with a fault. -/
theorem error?_link (catalog : Catalog) : catalog.link.error? =
    catalog.declaredKeys.findSome? fun declared =>
      (declared.fault? catalog).map fun fault => ⟨declared.name, fault⟩ := by
  rw [error?, tables, declaredKeys, findSome?_flatMap, findSome?_flatMap]
  simp only [findSome?_flatMap, ← DeclaredKey.text_link]
  rw [link, List.findSome?_map]
  congr 1
  funext schema
  rw [Function.comp_apply, Schema.link, List.findSome?_map]
  congr 1
  funext table
  rw [Function.comp_apply, Table.link, List.findSome?_map, List.findSome?_map]
  rfl

theorem finalize_eq_error_iff {error : CatalogError} :
    catalog.finalize = .error error ↔ catalog.Refuses error := by
  have first : catalog.finalize = .error error ↔ catalog.link.error? = some error := by
    rw [finalize]
    cases catalog.link.error? <;> simp
  rw [first, error?_link, List.findSome?_eq_some_iff]
  simp only [Option.map_eq_some_iff, Option.map_eq_none_iff, DeclaredKey.fault?_eq_none_iff,
    DeclaredKey.fault?_eq_some_iff]
  constructor
  · intro found
    obtain ⟨before, declared, after, split, ⟨fault, isFirst, rfl⟩, sound⟩ := found
    exact ⟨before, declared, after, fault, split, sound, isFirst, rfl⟩
  · intro refused
    obtain ⟨before, declared, after, fault, split, sound, isFirst, rfl⟩ := refused
    exact ⟨before, declared, after, split, ⟨fault, isFirst, rfl⟩, sound⟩

theorem finalize_eq_ok_iff {loaded : Catalog} : catalog.finalize = .ok loaded ↔
    (∀ declared ∈ catalog.declaredKeys, declared.IsSound catalog) ∧ loaded = catalog.link := by
  have faultless : catalog.finalize = .ok loaded ↔
      catalog.link.error? = none ∧ loaded = catalog.link := by
    rw [finalize]
    cases catalog.link.error? <;> simp [eq_comm]
  rw [faultless, error?_link, List.findSome?_eq_none_iff]
  simp only [Option.map_eq_none_iff, DeclaredKey.fault?_eq_none_iff]

/-- A catalog is loaded just if all its foreign keys relate columns that are there, and otherwise
    it is refused for the first one that does not, with the first fault that is found in it.  What
    is loaded is what was declared, with the schemas and tables filled in.  And a text that
    declares a catalog is loaded as that catalog is. -/
theorem loaded_just_if_sound (catalog : Catalog) :
    ((∃ loaded, catalog.finalize = .ok loaded) ↔
      ∀ declared ∈ catalog.declaredKeys, declared.IsSound catalog) ∧
    (∀ error, catalog.finalize = .error error ↔ catalog.Refuses error) ∧
    (∀ loaded, catalog.finalize = .ok loaded → catalog.Filled loaded) ∧
    ∀ text, (Yaml.Node.ofText? text).bind Declaration.catalog? = some catalog →
      Catalog.ofText text = catalog.finalize.mapError .invalid := by
  refine ⟨?_, fun error => finalize_eq_error_iff, fun loaded done => ?_, fun text declares => ?_⟩
  · simp only [finalize_eq_ok_iff, exists_and_left, exists_eq, and_true]
  · rw [(finalize_eq_ok_iff.mp done).2]
    exact catalog.filled_link
  · rw [ofText, declares]
    dsimp only
    cases catalog.finalize with
    | ok loaded => rfl
    | error error => rfl

end Catalog

namespace Sample

/-- A table that references itself. -/
def selfReferencing : String :=
  "schemas: [\x7bname: s, tables: [\x7bname: m, columns: [\x7bname: o\x7d], " ++
    "foreign_keys: [\x7bname: k, columns: [o], " ++
    "references: \x7bschema: s, table: m, columns: [o]\x7d\x7d]\x7d]\x7d]"

/-- A table that references itself, then with a foreign key that has two faults, and then with
    one that has another fault. -/
def faultyCatalog : Catalog :=
  ⟨⟨false, false⟩, [⟨"s", [⟨"", "m", [⟨"o", .text, true⟩], [],
    [⟨"", "k", ⟨"", ""⟩, ["o"], ⟨"s", "m"⟩, ["o"]⟩,
      ⟨"t", "l", ⟨"", ""⟩, ["x"], ⟨"s", "n"⟩, ["o"]⟩,
      ⟨"", "e", ⟨"", ""⟩, [], ⟨"s", "m"⟩, []⟩], [], []⟩]⟩]⟩

theorem declares_of_isOk {text : String} (accepted : (Catalog.ofText text).isOk = true) :
    ∃ declared loaded, (Yaml.Node.ofText? text).bind Declaration.catalog? = some declared ∧
      declared.finalize = .ok loaded := by
  unfold Catalog.ofText at accepted
  split at accepted
  · contradiction
  · rename_i declared declares
    split at accepted
    · rename_i loaded done
      exact ⟨declared, loaded, declares, done⟩
    · contradiction

end Sample

/-- The table that references itself is loaded.  With the further foreign keys it is refused for
    the first of them, and there for the column that it does not have. -/
theorem loaded_just_if_sound_declared :
    (∃ declared loaded,
      (Yaml.Node.ofText? Sample.selfReferencing).bind Declaration.catalog? = some declared ∧
      Catalog.ofText Sample.selfReferencing = .ok loaded ∧ declared.Filled loaded) ∧
    Sample.faultyCatalog.Refuses ⟨"t:l", .unknownColumn "x" ⟨"s", "m"⟩⟩ := by
  constructor
  · have accepted : (Catalog.ofText Sample.selfReferencing).isOk = true := by decide +kernel
    obtain ⟨declared, loaded, declares, done⟩ := Sample.declares_of_isOk accepted
    obtain ⟨-, -, filled, same⟩ := Catalog.loaded_just_if_sound declared
    exact ⟨declared, loaded, declares, by rw [same _ declares, done]; rfl, filled loaded done⟩
  · have refused : Sample.faultyCatalog.link.error? =
        some ⟨"t:l", .unknownColumn "x" ⟨"s", "m"⟩⟩ := by decide +kernel
    exact ((Catalog.loaded_just_if_sound Sample.faultyCatalog).2.1 _).mp
      (by rw [Catalog.finalize, refused])

end PathQuery
