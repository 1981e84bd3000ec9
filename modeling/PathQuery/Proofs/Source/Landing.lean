import PathQuery.Proofs.Catalog.Sound
import PathQuery.Proofs.Path.Flattening
import PathQuery.Proofs.Source.Legs

namespace PathQuery.Source

/-! # Where hops land

A hop from a table that is found under its name goes to a table that is found as well, and
the columns that it joins are those of its two tables, unless it follows a foreign key whose
own table does not show under its name.  Only such a foreign key can lead to a table that is
not there, and only a hop that names it can follow it.
-/

variable {catalog : Catalog} {root : Table}

/-- Legs from one table to another along foreign keys of the catalog.  A hop joins columns of
    its two tables: it does so at the side that the foreign key references, and it does so at
    the side of the foreign key, too, if that shows. -/
inductive Lands (catalog : Catalog) : Table → List Leg → Table → Prop
  | nil {table : Table} : Lands catalog table [] table
  | filter {leg : Leg} {table last : Table} {later : List Leg} (isFilter : leg.isFilter = true)
      (stands : leg.table = table) (rest : Lands catalog table later last) :
      Lands catalog table (leg :: later) last
  | hop {leg : Leg} {hop : Hop} {table next last : Table} {later : List Leg}
      (isHop : leg.hop? = some hop) (starts : leg.table = table)
      (known : catalog.HasKey hop.key)
      (reaches : catalog.table? hop.toTable = some next)
      (shows : hop.byColumns = true → catalog.Shows hop.key)
      (leaving : hop.direction = .inbound ∨ catalog.Shows hop.key →
        table.HasColumns (hop.key.fromColumns hop.direction))
      (arriving : hop.direction = .outbound ∨ catalog.Shows hop.key →
        next.HasColumns (hop.key.toColumns hop.direction))
      (rest : Lands catalog next later last) :
      Lands catalog table (leg :: later) last

theorem Lands.append {first middle last : Table} {left right : List Leg}
    (before : Lands catalog first left middle) (after : Lands catalog middle right last) :
    Lands catalog first (left ++ right) last := by
  induction before with
  | nil => exact after
  | filter isFilter stands _ ih => exact .filter isFilter stands (ih after)
  | hop isHop starts known reaches shows leaving arriving _ ih =>
      exact .hop isHop starts known reaches shows leaving arriving (ih after)

/-- A foreign key that was found by its columns shows. -/
theorem HopStep.foreignKey_shows (linked : catalog.Linked) {step : HopStep} {table : TableName}
    {key : ForeignKey} (found : step.foreignKey table catalog.directory = .ok (key, true)) :
    catalog.Shows key := by
  obtain ⟨_, _, -, byName, -⟩ | ⟨_, _, _, -, -, -, matching⟩ | ⟨_, _, _, -, -, -, matching⟩ :=
    HopStep.foreignKey_cases found
  · contradiction
  · exact linked.shows_of_constraintByColumns? matching
  · exact linked.shows_of_constraintByColumns? matching

theorem Walk.step_lands (linked : catalog.Linked) (sound : catalog.Sound) {context : Context}
    (within : context.directory = catalog.directory) {walk next : Walk} {step : Step}
    (found : catalog.table? walk.table.tableName = some walk.table)
    (stepped : walk.step context step = .ok next) :
    catalog.table? next.table.tableName = some next.table ∧
      ∃ leg, next.legs = leg :: walk.legs ∧ Lands catalog walk.table [leg] next.table := by
  rcases Walk.step_cases stepped with ⟨tree, expanded, clause, -, -, -, rfl⟩ |
    ⟨hopStep, hop, table, -, isKey, direction, -, reaches, rfl⟩
  · exact ⟨found, _, rfl, .filter rfl rfl .nil⟩
  · rw [within] at isKey reaches
    change catalog.table? hop.toTable = some table at reaches
    obtain ⟨known, starts⟩ := HopStep.foreignKey_starts linked isKey
    have shows : hop.byColumns = true → catalog.Shows hop.key :=
      fun byColumns => HopStep.foreignKey_shows linked (byColumns ▸ isKey)
    rw [← direction] at starts
    rw [← starts] at found
    exact ⟨linked.table?_tableName reaches, _, rfl, .hop rfl rfl known reaches shows
      (sound.fromColumns known found) (sound.toColumns known reaches) .nil⟩

theorem Walk.steps_lands (linked : catalog.Linked) (sound : catalog.Sound) {context : Context}
    (within : context.directory = catalog.directory) {walk last : Walk} {later : List Step}
    (fresh : walk.legs = []) (found : catalog.table? walk.table.tableName = some walk.table)
    (walked : walk.steps context later = .ok last) :
    catalog.table? last.table.tableName = some last.table ∧
      Lands catalog walk.table last.legs.reverse last.table := by
  refine Walk.steps_preserve
    (motive := fun reached => catalog.table? reached.table.tableName = some reached.table ∧
      Lands catalog walk.table reached.legs.reverse reached.table)
    ?_ ⟨found, by rw [fresh]; exact .nil⟩ walked
  rintro reached step next ⟨found, lands⟩ stepped
  obtain ⟨found, leg, legs, landing⟩ := Walk.step_lands linked sound within found stepped
  rw [legs, List.reverse_cons]
  exact ⟨found, lands.append landing⟩

/-- Contexts of a table in the catalog, whatever they can continue. -/
def Inside (catalog : Catalog) (root : Table) (context : Context) : Prop :=
  context.directory = catalog.directory ∧ context.root = root

theorem Grounded.lands (linked : catalog.Linked) (sound : catalog.Sound)
    (found : catalog.table? root.tableName = some root) {source : Resolved}
    (grounded : Grounded (Inside catalog root) source) :
    catalog.table? source.table.tableName = some source.table ∧
      Lands catalog root source.fullLegs source.table := by
  induction grounded with
  | fromRoot admitted _ walked ended =>
      obtain ⟨within, rfl⟩ := admitted
      obtain ⟨column, -, rfl⟩ := Walk.route_eq_ok ended
      exact Walk.steps_lands linked sound within rfl found walked
  | continuing admitted _ _ _ walked ended ih =>
      obtain ⟨within, rfl⟩ := admitted
      obtain ⟨column, -, rfl⟩ := Walk.route_eq_ok ended
      obtain ⟨found, lands⟩ := Walk.steps_lands linked sound within rfl ih.1 walked
      exact ⟨found, ih.2.append lands⟩

/-- A hop that finds no table at its other end goes back along a foreign key whose own table is
    not found. -/
theorem Walk.step_unknownTable (linked : catalog.Linked) (sound : catalog.Sound)
    {context : Context} (within : context.directory = catalog.directory) {walk : Walk}
    {step : Step} {missing : TableName}
    (failed : walk.step context step = .error (.unknownTable missing)) :
    catalog.table? missing = none ∧ ∃ key, catalog.HasKey key ∧ key.table = missing := by
  obtain ⟨_, other⟩ | ⟨_, _, -, -, other⟩ | ⟨hopStep, -, failed⟩ |
    ⟨hopStep, key, byColumns, -, isKey, absent, same⟩ := Walk.step_error failed
  · contradiction
  · contradiction
  · obtain ⟨_, _, other⟩ | ⟨_, other⟩ | ⟨_, other⟩ := HopStep.foreignKey_error failed
    all_goals contradiction
  · cases same
    rw [within] at isKey absent
    obtain ⟨known, -⟩ := HopStep.foreignKey_starts linked isKey
    change catalog.table? (key.toTable hopStep.direction) = none at absent
    refine ⟨absent, key, known, ?_⟩
    cases direction : hopStep.direction with
    | inbound => rfl
    | outbound =>
        -- The table that a foreign key references was looked up when it was checked.
        obtain ⟨table, found, -⟩ := sound.referenced key known
        rw [direction, ForeignKey.toTable, found] at absent
        contradiction

/-- A source finds no table because one of its hops does not. -/
theorem Spec.resolve_unknownTable {context : Context} {spec : Spec} {missing : TableName}
    (failed : spec.resolve context = .error (.unknownTable missing)) :
    ∃ reached : Walk, ∃ step ∈ spec.steps,
      reached.step context step = .error (.unknownTable missing) := by
  obtain failed | ⟨_, other | other⟩ | ⟨_, other⟩ := Spec.resolve_error failed
  · exact failed
  all_goals contradiction

/-- In a catalog that was read a hop lands in a table that has the columns it joins, whatever is
    resolved, as long as the table of its foreign key is found under its name.  It always is if
    no schemas and no tables of a schema share a name, and so it is for a hop by columns. -/
theorem hops_land {text : String} (accepted : Catalog.ofText text = .ok catalog)
    {name : TableName} (found : catalog.table? name = some root) {context : Context}
    (inside : Inside catalog root context)
    (named : ∀ key start, context.named key = some start → Grounded (Inside catalog root) start)
    (spec : Spec) :
    (∀ missing, spec.resolve context = .error (.unknownTable missing) →
      ∃ key, catalog.HasKey key ∧ ¬catalog.Shows key ∧ key.table = missing) ∧
    (∀ source, spec.resolve context = .ok source →
      Lands catalog root source.fullLegs source.table) ∧
    (catalog.DistinctNames → ∀ key, catalog.HasKey key → catalog.Shows key) := by
  have linked := Catalog.ofText_linked accepted
  have sound := Catalog.ofText_sound accepted
  refine ⟨?_, ?_, fun distinct _ => linked.shows_of_distinct distinct⟩
  · intro missing failed
    obtain ⟨reached, step, -, failed⟩ := Spec.resolve_unknownTable failed
    obtain ⟨absent, key, known, rfl⟩ := Walk.step_unknownTable linked sound inside.1 failed
    refine ⟨key, known, ?_, rfl⟩
    rintro ⟨table, isTable, -⟩
    rw [absent] at isTable
    contradiction
  · intro source resolved
    have grounded := Grounded.of_resolve inside named resolved
    exact (grounded.lands linked sound (linked.table?_tableName found)).2

end PathQuery.Source

/-! Two schemas of one name.  Tables of the second one are not found, yet a foreign key that one
of them declares is found by its name and leads back there. -/

namespace PathQuery.Sample

def twinSchemas : String :=
  "schemas: [\x7bname: s, tables: [\x7bname: m, columns: [\x7bname: i\x7d]\x7d]\x7d, " ++
    "\x7bname: s, tables: [\x7bname: n, columns: [\x7bname: o\x7d], " ++
    "foreign_keys: [\x7bname: k, columns: [o], " ++
    "references: \x7bschema: s, table: m, columns: [i]\x7d\x7d]\x7d]\x7d]"

def contextOf (catalog : Catalog) (root : Table) : Source.Context :=
  (Source.Definitions.build catalog.directory root engine []).context catalog.directory engine []

def back : Source.Spec := ⟨[.hop ⟨.inbound, .constraint "s" "k", none⟩], "o"⟩

/-- The table that a hop goes to and that is not there. -/
def missing? : Except Source.ResolveError Source.Resolved → Option TableName
  | .error (.unknownTable missing) => some missing
  | _ => none

def missingBack (text : String) : Option TableName := do
  let catalog ← (Catalog.ofText text).toOption
  let root ← catalog.table? ⟨"s", "m"⟩
  missing? (back.resolve (contextOf catalog root))

theorem missing?_eq_some {outcome : Except Source.ResolveError Source.Resolved}
    {missing : TableName} (found : missing? outcome = some missing) :
    outcome = .error (.unknownTable missing) := by
  unfold missing? at found
  split at found
  · cases found
    rfl
  · contradiction

set_option maxRecDepth 100000 in
theorem twinSchemas_missing : ∃ catalog root, Catalog.ofText twinSchemas = .ok catalog ∧
    catalog.table? ⟨"s", "m"⟩ = some root ∧
    back.resolve (contextOf catalog root) = .error (.unknownTable ⟨"s", "n"⟩) := by
  have evaluated : missingBack twinSchemas = some ⟨"s", "n"⟩ := by
    decide +kernel
  simp only [missingBack, Option.bind_eq_bind, Option.bind_eq_some_iff,
    toOption_eq_some] at evaluated
  obtain ⟨catalog, accepted, root, found, missing⟩ := evaluated
  exact ⟨catalog, root, accepted, found, missing?_eq_some missing⟩

end PathQuery.Sample

namespace PathQuery.Source

theorem hops_land_twinSchemas : ∃ catalog root,
    Catalog.ofText Sample.twinSchemas = .ok catalog ∧ catalog.table? ⟨"s", "m"⟩ = some root ∧
    Inside catalog root (Sample.contextOf catalog root) ∧
    (∀ key start, (Sample.contextOf catalog root).named key = some start →
      Grounded (Inside catalog root) start) ∧
    ∀ spec : Spec,
      (∀ missing, spec.resolve (Sample.contextOf catalog root) = .error (.unknownTable missing) →
        ∃ key, catalog.HasKey key ∧ ¬catalog.Shows key ∧ key.table = missing) ∧
      (∀ source, spec.resolve (Sample.contextOf catalog root) = .ok source →
        Lands catalog root source.fullLegs source.table) ∧
      (catalog.DistinctNames → ∀ key, catalog.HasKey key → catalog.Shows key) := by
  obtain ⟨catalog, root, accepted, found, -⟩ := Sample.twinSchemas_missing
  have inside : Inside catalog root (Sample.contextOf catalog root) :=
    ⟨rfl, Definitions.build_table ..⟩
  have named : ∀ key start, (Sample.contextOf catalog root).named key = some start →
      Grounded (Inside catalog root) start := by
    intro key start defined
    refine (Definitions.build_grounded defined).mono ?_
    rintro _ rfl
    exact ⟨_, inside, fun _ _ same => same⟩
  exact ⟨catalog, root, accepted, found, inside, named, hops_land accepted found inside named⟩

/-- A catalog that was read can lead to a table that is not there. -/
theorem hop_without_table : ∃ text catalog name root spec missing,
    Catalog.ofText text = .ok catalog ∧ catalog.table? name = some root ∧
    Spec.resolve (Sample.contextOf catalog root) spec = .error (.unknownTable missing) := by
  obtain ⟨catalog, root, accepted, found, failed⟩ := Sample.twinSchemas_missing
  exact ⟨Sample.twinSchemas, catalog, _, root, Sample.back, _, accepted, found, failed⟩

end PathQuery.Source
