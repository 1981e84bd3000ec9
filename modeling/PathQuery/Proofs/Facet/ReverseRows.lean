import PathQuery.Facet.Reverse
import PathQuery.Proofs.Constraint.Clauses
import PathQuery.Proofs.Facet.Reuse
import PathQuery.Proofs.Path.Unfiltered

namespace PathQuery.Facet

/-! # Rows that a reverse facet selects

A reverse facet has a term for each column of the key of the root table, and each term joins
the way back on its own.  So a row at the end is selected if for each column of the key some
walk back leads to a row with the value of that column, be it another row for another column.
Only for a key of one column does that single out the row that the facet was made from.
-/

open Source

variable {compiler : Compiler} {root last : Table} {row : Row}
  {steps : List Json} {column : String} {value facet : Json}

def reverseTerm (steps : List Json) (column : String) (choice : Json) : Json.Fields :=
  [(sourceKey, .array (steps ++ [.string column])), (choicesKey, .array [choice])]

theorem reverseTerm?_eq_some (written : reverseTerm? steps row column = some value) :
    ∃ choice, row.lookup column = some choice ∧ choice.isNull = false ∧
      value = .object (reverseTerm steps column choice) := by
  unfold reverseTerm? at written
  split at written
  · contradiction
  · contradiction
  · rename_i choice notNull found
    cases written
    refine ⟨choice, found, ?_, rfl⟩
    cases choice with
    | null => contradiction
    | _ => rfl

theorem reverse?_eq_some {source : Resolved} {directory : Directory}
    (reversed : reverse? source directory row = some facet) :
    ∃ key terms, directory.shortestKey? source.root.tableName = some key ∧
      List.Forall₂
        (fun column value => reverseTerm? (source.reversedSteps.map Step.toJson) row column = some value)
        key.columns terms ∧
      facet = .object [(facetsKey, .array terms)] := by
  unfold reverse? at reversed
  split at reversed
  · simp only [Option.bind_eq_bind, Option.pure_def, Option.bind_eq_some_iff,
      Option.some.injEq] at reversed
    obtain ⟨key, isShortest, terms, converted, rfl⟩ := reversed
    exact ⟨key, terms, isShortest, mapM_eq_some converted, rfl⟩
  · contradiction

/-- The source that a term with named hops gets is what resolving them gives. -/
theorem Compiler.source_of_namedHops {engine : Template.Engine} {row : Row} {term : Term}
    {spec : Spec} {found : Resolved} {key : Option String}
    (built : compiler.definitions = .build compiler.directory last engine row)
    (distinct : (last.sourceDefinitions.map Prod.fst).Nodup)
    (noFast : compiler.options.fastSources = [])
    (identify : TokensIdentify compiler.definitions [.object term.attributes])
    (inline : term.origin = .inline) (noKey : term.attributes.lookup sourcekeyKey = none)
    (isSpec : term.spec = .ok spec) (named : ∀ step ∈ spec.steps, step.IsNamedHop)
    (gets : compiler.source term spec = .ok (found, key)) :
    key = none ∧ ∃ context : Context, context.directory = compiler.directory ∧
      context.root = last ∧ spec.resolve context = .ok found := by
  have noSourcekey : term.sourcekey? = none := by rw [Term.sourcekey?, inline]
  rcases Compiler.source_cases gets with ⟨⟨entry, listed, -⟩, -⟩ | ⟨shared, isKey, -, -⟩ |
    ⟨-, rfl, defined | resolved⟩
  · rw [noFast] at listed
    contradiction
  · rw [noSourcekey] at isKey
    contradiction
  · obtain ⟨item, isItem, read⟩ := Term.spec_eq_ok.mp isSpec
    rw [built] at defined
    obtain ⟨definition, member, rfl, token⟩ := Definitions.build_sourcekeysFor distinct defined
    have text := identify term.attributes item spec (List.mem_singleton.mpr rfl) noKey isItem read
      definition (built ▸ member) token
    obtain ⟨item', read'⟩ := Definitions.build_read member
    have same := (Spec.reordered_of_canonicalText read' read text).eq_of_namedHops named
    obtain ⟨name, -, isNamed⟩ := Option.bind_eq_some_iff.mp defined
    have resolved := (Definitions.build_grounded isNamed).resolve_spec
    rw [same] at resolved
    exact ⟨rfl, _, rfl, Definitions.build_table .., resolved⟩
  · rw [Definitions.resolve_eq] at resolved
    exact ⟨rfl, _, rfl, by rw [built]; exact Definitions.build_table .., resolved⟩

theorem constraints_reverseTerm {choice : Json} {constraints : List Constraint}
    (constrained : Term.constraints ⟨.inline, reverseTerm steps column choice⟩ = .ok constraints) :
    constraints = [.choices [choice]] ∧ Constraint.Declared (.choices [choice]) := by
  have read : Constraint.readChoices (.array [choice]) =
      if Constraint.isScalar choice then .ok (.choices [choice])
      else .error (.invalidChoices (.notAScalar choice)) := by
    cases scalar : Constraint.isScalar choice <;>
      simp [Constraint.readChoices, Json.nonEmptyArray?, scalar]
  obtain ⟨choices, isChoices, constrained⟩ := bind_eq_ok.mp constrained
  change (fun constraint => [constraint]) <$>
    raise .ofConstraint (Constraint.readChoices (.array [choice])) = _ at isChoices
  rw [read] at isChoices
  cases scalar : Constraint.isScalar choice with
  | false =>
      rw [scalar] at isChoices
      contradiction
  | true =>
      rw [scalar] at isChoices read
      cases isChoices
      cases constrained
      exact ⟨rfl, .choices read⟩

/-- A source without filters, and a compiler for the table that it ends at. -/
structure Reversible (directory : Directory) (root : Table) (source : Resolved)
    (compiler : Compiler) : Prop where
  named : directory.Named
  found : directory.table? root.tableName = some root
  passes : Passes directory root source.fullLegs source.table
  unfiltered : ∀ leg ∈ source.fullLegs, leg.isFilter = false
  sees : compiler.directory = directory
  built : ∃ engine row, compiler.definitions = .build directory source.table engine row
  distinct : (source.table.sourceDefinitions.map Prod.fst).Nodup
  noFast : compiler.options.fastSources = []

theorem Reversible.of_resolve {directory : Directory} (named : directory.Named) {root : Table}
    (found : directory.table? root.tableName = some root)
    {engine engine' : Template.Engine} {row row' : Row} {item : Json} {spec : Spec}
    (read : Spec.ofJson item = .ok spec) {source : Resolved}
    (resolved : (Definitions.build directory root engine row).resolve directory engine' row' spec =
      .ok source)
    (unfiltered : source.isFiltered = false) {compiler : Compiler}
    (sees : compiler.directory = directory) {endEngine : Template.Engine} {endRow : Row}
    (built : compiler.definitions = .build directory source.table endEngine endRow)
    (distinct : (source.table.sourceDefinitions.map Prod.fst).Nodup)
    (noFast : compiler.options.fastSources = []) : Reversible directory root source compiler where
  named := named
  found := found
  passes := by
    refine (Definitions.resolve_within resolved).passes named
      (fun _ _ => Definitions.build_declared) ?_
    rw [Spec.resolve_spec resolved]
    exact Spec.ofJson_declared read
  unfiltered := by
    rw [source.isFiltered_eq] at unfiltered
    simpa using unfiltered
  sees := sees
  built := ⟨endEngine, endRow, built⟩
  distinct := distinct
  noFast := noFast

/-- The part of a path that joins the way back and compares one column with the row's. -/
def ReverseBlock (hops : List (ForeignKey × Direction)) (name : String) (row : Row)
    (column : String) (path : Path) : Prop :=
  ∃ choice clause, row.lookup column = some choice ∧
    path = hopJoins hops ++ [.filter clause, .goTo name] ∧
    ∀ (interpretation : Interpretation) (place : Place),
      interpretation.accepts clause place = (place.row column == some choice.plainText)

variable {directory : Directory} {source : Resolved} {aliases next : Aliases}

theorem accepts_choice {choice : Json} {target : Column} {capabilities : Capabilities}
    {clause : String} (notNull : choice.isNull = false)
    (declared : Constraint.Declared (.choices [choice]))
    (written : Constraint.clauses [.choices [choice]] target capabilities = .ok clause)
    (interpretation : Interpretation) (place : Place) :
    interpretation.accepts clause place = (place.row target.name == some choice.plainText) := by
  have means := Constraint.clauses_means (List.cons_ne_nil _ _)
    (List.forall_mem_singleton.mpr declared) written
  obtain ⟨formula, isRead, same⟩ := means.read_eq
  rw [Interpretation.accepts, isRead, Option.any_some, same]
  simp [Constraint.holds, notNull, Constraint.compares, interpretation.equal]

theorem Reversible.fragment (setting : Reversible directory root source compiler)
    (written : reverseTerm? (source.reversedSteps.map Step.toJson) row column = some value)
    (identify : TokensIdentify compiler.definitions [value]) {fragment : Fragment}
    (compiled : compiler.fragment value aliases = .ok (fragment, next)) :
    next = aliases ∧ ∃ path, fragment = .inner path ∧
      ReverseBlock (hopsBack source.fullLegs) aliases.root row column path := by
  obtain ⟨choice, isChoice, notNull, rfl⟩ := reverseTerm?_eq_some written
  have noKey : (reverseTerm (source.reversedSteps.map Step.toJson) column choice).lookup
      sourcekeyKey = none := rfl
  obtain ⟨term, read, made⟩ := Compiler.fragment_cases compiled
  have isTerm : term = ⟨.inline, reverseTerm (source.reversedSteps.map Step.toJson) column choice⟩ := by
    obtain ⟨attributes, same, ⟨-, rfl⟩ | ⟨present, -⟩ | ⟨key, -, present, -⟩⟩ :=
      Term.ofJson_cases read
    · rw [Json.object.inj same]
    · rw [← Json.object.inj same, noKey] at present
      contradiction
    · rw [← Json.object.inj same, noKey] at present
      contradiction
  subst isTerm
  rcases made with ⟨isSearch, -⟩ | ⟨-, made⟩
  · contradiction
  obtain ⟨spec, found, key, constraints, clause, isSpec, gets, constrained, isClause, outcome⟩ :=
    Compiler.columnFragment_cases made
  have hops : ∀ step ∈ source.reversedSteps, step.IsNamedHop := by
    rw [source.reversedSteps_eq]
    exact legSteps_unfiltered setting.unfiltered
  obtain rfl : Spec.mk source.reversedSteps column = spec := by
    obtain ⟨item, isItem, isRead⟩ := Term.spec_eq_ok.mp isSpec
    obtain rfl := Option.some.inj isItem
    exact Except.ok.inj ((Spec.ofJson_steps (readSteps_namedHops hops) column).symm.trans isRead)
  obtain ⟨engine, row', built⟩ := setting.built
  rw [← setting.sees] at built
  obtain ⟨rfl, context, within, atEnd, resolved⟩ := Compiler.source_of_namedHops built
    setting.distinct setting.noFast identify rfl noKey isSpec hops gets
  rw [source.reversedSteps_eq] at resolved
  obtain ⟨isPath, isColumn⟩ := setting.passes.resolve_unfiltered setting.named setting.found
    setting.unfiltered (within.trans setting.sees) atEnd resolved aliases
  obtain ⟨rfl, declared⟩ := constraints_reverseTerm constrained
  rcases outcome with ⟨outer, -, -⟩ | ⟨-, rfl, rfl⟩
  · simp [Constraint.hasNullChoice, notNull] at outer
  · rw [isPath]
    refine ⟨rfl, _, rfl, choice, clause, isChoice, rfl, fun interpretation place => ?_⟩
    rw [accepts_choice notNull declared isClause, isColumn]

theorem Reversible.addTerms (setting : Reversible directory root source compiler)
    {columns : List String} {terms : List Json}
    (written : List.Forall₂ (fun column value =>
      reverseTerm? (source.reversedSteps.map Step.toJson) row column = some value) columns terms)
    (identify : TokensIdentify compiler.definitions terms) {progress reached : Compiler.Progress}
    {index : Nat} (added : compiler.addTerms progress index terms = .ok reached) :
    reached.aliases = progress.aliases ∧ reached.right = progress.right ∧
      ∃ paths, reached.inner = progress.inner ++ paths.flatten ∧
        List.Forall₂ (ReverseBlock (hopsBack source.fullLegs) progress.aliases.root row)
          columns paths := by
  induction written generalizing progress index with
  | nil =>
      cases added
      exact ⟨rfl, rfl, [], by simp, .nil⟩
  | @cons column value columns terms first _ ih =>
      obtain ⟨middle, isMiddle, added⟩ := bind_eq_ok.mp added
      obtain ⟨⟨fragment, aliases⟩, made, isMiddle⟩ := bind_eq_ok.mp (raise_eq_ok.mp isMiddle)
      have identifyFirst := identify.mono (by simp : [value] ⊆ value :: terms)
      have identifyLater := identify.mono (List.subset_cons_self value terms)
      obtain ⟨rfl, path, rfl, block⟩ := setting.fragment first identifyFirst made
      cases isMiddle
      obtain ⟨sameAliases, sameRight, paths, isInner, blocks⟩ := ih identifyLater added
      exact ⟨sameAliases, sameRight, path :: paths, by simp [isInner], .cons block blocks⟩

/-- The value of the column is that of the row, which has one. -/
def Agrees (row : Row) (column : String) (record : Record) : Prop :=
  ∃ value, row.lookup column = some value ∧ record column = some value.plainText

theorem selects_blocks {interpretation : Interpretation} {content : Content}
    {hops : List (ForeignKey × Direction)} {name : String} {columns : List String}
    {paths : List Path} (blocks : List.Forall₂ (ReverseBlock hops name row) columns paths)
    {place : Place} (known : place.aliases.lookup name = some place.row) :
    Path.Selects interpretation content paths.flatten place ↔
      ∀ column ∈ columns, ∃ last, Reaches content hops place.row last ∧ Agrees row column last := by
  induction blocks with
  | nil => simp [Path.Selects]
  | @cons column path columns paths block _ ih =>
      obtain ⟨choice, clause, isChoice, rfl, accepts⟩ := block
      have agrees : ∀ last : Record, interpretation.accepts clause ⟨last, place.aliases⟩ = true ↔
          Agrees row column last := by
        intro last
        simp [accepts, Agrees, isChoice]
      rw [List.flatten_cons, selects_roundTrip _ _ _ _ _ known, ih, List.forall_mem_cons]
      simp only [agrees]

/-- One walk back along the source leads to a row that agrees in all of the columns. -/
def LeadsTo (content : Content) (source : Resolved) (row : Row) (columns : List String)
    (record : Record) : Prop :=
  ∃ last, Reaches content (hopsBack source.fullLegs) record last ∧
    ∀ column ∈ columns, Agrees row column last

theorem Reversible.selects (setting : Reversible directory root source compiler)
    (isRoot : source.root = root) (reversed : reverse? source directory row = some facet)
    (identify : ∀ terms, conjuncts facet = .ok terms → TokensIdentify compiler.definitions terms)
    {compiled : Compiled} (compiles : compiler.compile facet = .ok compiled)
    (interpretation : Interpretation) (content : Content) (record : Record) :
    ∃ key, root.shortestKey? = some key ∧
      (compiled.path.Selects interpretation content
          ⟨record, [(compiled.aliases.root, record)]⟩ ↔
        ∀ column ∈ key.columns, LeadsTo content source row [column] record) := by
  obtain ⟨key, terms, isShortest, written, isFacet⟩ := reverse?_eq_some reversed
  obtain ⟨conjuncts, conjoined, compiles⟩ := bind_eq_ok.mp compiles
  obtain ⟨progress, added, compiles⟩ := bind_eq_ok.mp compiles
  cases compiles
  obtain rfl : terms = conjuncts := by
    rw [isFacet] at conjoined
    cases terms with
    | nil => contradiction
    | cons term terms => exact Except.ok.inj conjoined
  obtain ⟨sameAliases, sameRight, paths, isInner, blocks⟩ :=
    setting.addTerms written (identify terms conjoined) added
  refine ⟨key, ?_, ?_⟩
  · rw [isRoot, Directory.shortestKey?, setting.found, Option.bind_some] at isShortest
    exact isShortest
  · rw [sameAliases, sameRight, isInner]
    simp only [LeadsTo, List.forall_mem_singleton]
    exact selects_blocks blocks (by simp)

/-- A row at the end of an unfiltered source satisfies a compiled reverse facet just if, for
    each column of the shortest key of the root table, some walk back leads to a row with the
    value of that column.  So it does if one walk leads to a row with the whole key, and if
    the key has one column, only then. -/
theorem reverse_selects_by_column {directory : Directory} (named : directory.Named)
    {root : Table} (found : directory.table? root.tableName = some root)
    {engine engine' : Template.Engine} {row row' : Row} {item : Json} {spec : Spec}
    (read : Spec.ofJson item = .ok spec) {source : Resolved}
    (resolved : (Definitions.build directory root engine row).resolve directory engine' row' spec =
      .ok source)
    (unfiltered : source.isFiltered = false) {rootRow : Row} {facet : Json}
    (reversed : reverse? source directory rootRow = some facet) {compiler : Compiler}
    (sees : compiler.directory = directory) {endEngine : Template.Engine} {endRow : Row}
    (built : compiler.definitions = .build directory source.table endEngine endRow)
    (distinct : (source.table.sourceDefinitions.map Prod.fst).Nodup)
    (noFast : compiler.options.fastSources = [])
    (identify : ∀ terms, conjuncts facet = .ok terms → TokensIdentify compiler.definitions terms)
    {compiled : Compiled} (compiles : compiler.compile facet = .ok compiled)
    (interpretation : Interpretation) (content : Content) (record : Record) :
    ∃ key, root.shortestKey? = some key ∧
      (compiled.path.Selects interpretation content ⟨record, [(compiled.aliases.root, record)]⟩ ↔
        ∀ column ∈ key.columns, LeadsTo content source rootRow [column] record) ∧
      (LeadsTo content source rootRow key.columns record →
        compiled.path.Selects interpretation content ⟨record, [(compiled.aliases.root, record)]⟩) ∧
      (key.columns.length = 1 →
        (compiled.path.Selects interpretation content ⟨record, [(compiled.aliases.root, record)]⟩ ↔
          LeadsTo content source rootRow key.columns record)) := by
  have setting := Reversible.of_resolve named found read resolved unfiltered sees built distinct
    noFast
  have isRoot := (Definitions.resolve_within resolved).root_eq
  obtain ⟨key, isShortest, selects⟩ := setting.selects isRoot reversed identify compiles
    interpretation content record
  refine ⟨key, isShortest, selects, ?_, ?_⟩
  · rintro ⟨last, reaches, agrees⟩
    refine selects.mpr fun column member => ⟨last, reaches, ?_⟩
    exact List.forall_mem_singleton.mpr (agrees column member)
  · intro single
    obtain ⟨column, isColumn⟩ := List.length_eq_one_iff.mp single
    rw [selects, isColumn, List.forall_mem_singleton]

/-! A booking is known by its room and its day, and a guest may have several bookings. -/

namespace Sample

def guest : ForeignKey where
  schema := "s"
  name := "guest"
  table := ⟨"s", "booking"⟩
  columns := ["guest_id"]
  referencedTable := ⟨"s", "person"⟩
  referencedColumns := ["id"]

def booking : Table where
  schema := "s"
  name := "booking"
  columns := [⟨"room", .int4, false⟩, ⟨"day", .int4, false⟩, ⟨"guest_id", .int4, true⟩]
  keys := [⟨["room", "day"]⟩]
  foreignKeys := [guest]
  sourceDefinitions := []
  searchColumns := []

def hotel : Catalog := ⟨⟨false, false⟩, [⟨"s", [booking, PathQuery.Sample.person]⟩]⟩

theorem hotel_named : hotel.directory.Named := (Catalog.link_linked hotel).named (by decide)

/-- From a row along one foreign key, to the name of a person. -/
def personBy (key : String) : Json :=
  .array [.object [("outbound", .array [.string "s", .string key])], .string "name"]

def compilerFor (directory : Directory) (table : Table) : Compiler where
  directory := directory
  capabilities := fun _ => false
  definitions := .build directory table PathQuery.Sample.engine []
  engine := PathQuery.Sample.engine
  row := []
  options := .default

/-- A source, its reverse facet for a row, and the facet compiled at the end of the source. -/
def reversing (directory : Directory) (root : Table) (item : Json) (row : Row) :
    Option (Resolved × Json × Compiled) := do
  let spec ← (Spec.ofJson item).toOption
  let source ← ((Definitions.build directory root PathQuery.Sample.engine []).resolve directory
    PathQuery.Sample.engine [] spec).toOption
  let facet ← reverse? source directory row
  let compiled ← ((compilerFor directory source.table).compile facet).toOption
  return (source, facet, compiled)

theorem reversing_eq_some {directory : Directory} {root : Table} {item : Json} {row : Row}
    {source : Resolved} {facet : Json} {compiled : Compiled}
    (runs : reversing directory root item row = some (source, facet, compiled)) :
    ∃ spec, Spec.ofJson item = .ok spec ∧
      (Definitions.build directory root PathQuery.Sample.engine []).resolve directory
        PathQuery.Sample.engine [] spec = .ok source ∧
      reverse? source directory row = some facet ∧
      (compilerFor directory source.table).compile facet = .ok compiled := by
  simp only [reversing, Option.bind_eq_bind, Option.pure_def, Option.bind_eq_some_iff,
    toOption_eq_some, Option.some.injEq, Prod.mk.injEq] at runs
  obtain ⟨spec, read, _, resolved, _, reversed, _, compiles, rfl, rfl, rfl⟩ := runs
  exact ⟨spec, read, resolved, reversed, compiles⟩

theorem identify_person {directory : Directory} {table : Table}
    (isPerson : table = PathQuery.Sample.person) (terms : List Json) :
    TokensIdentify (compilerFor directory table).definitions terms := by
  subst isPerson
  intro attributes item spec _ _ _ _ definition member
  contradiction

/-- Comparisons by equality hold of equal values, and no others do. -/
def equality : Interpretation where
  truth place comparison :=
    match comparison with
    | ⟨.column none column, .equal, some value⟩ => place.row column == some value
    | _ => false
  equal _ _ _ := rfl

def recordOf (values : List (String × String)) : Record := fun column => values.lookup column

def contentOf (rows : List (TableName × List (String × String))) : Content := fun table record =>
  ∃ values, (table, values) ∈ rows ∧ record = recordOf values

def booked : Row := [("room", .number (.integer 1)), ("day", .number (.integer 2))]

/-- Room 1 on day 2 is booked by guest 3.  Guest 7 has booked room 1 for another day, and
    another room for day 2. -/
def hotelRows : List (TableName × List (String × String)) := [
  (⟨"s", "booking"⟩, [("room", "1"), ("day", "2"), ("guest_id", "3")]),
  (⟨"s", "booking"⟩, [("room", "1"), ("day", "9"), ("guest_id", "7")]),
  (⟨"s", "booking"⟩, [("room", "8"), ("day", "2"), ("guest_id", "7")]),
  (⟨"s", "person"⟩, [("id", "3")]),
  (⟨"s", "person"⟩, [("id", "7")])]

def bookings : Content := contentOf hotelRows

def stranger : Record := recordOf [("id", "7")]

end Sample

theorem reverse_selects_by_column_owner :
    PathQuery.Sample.catalog.directory.Named ∧ ∃ source facet compiled,
      Sample.reversing PathQuery.Sample.catalog.directory PathQuery.Sample.item
        (Sample.personBy "owner") [("id", .number (.integer 5))] = some (source, facet, compiled) ∧
      source.isFiltered = false ∧
      ∃ key, PathQuery.Sample.item.shortestKey? = some key ∧
        (compiled.path.Selects Sample.equality Sample.bookings
            ⟨Sample.stranger, [(compiled.aliases.root, Sample.stranger)]⟩ ↔
          ∀ column ∈ key.columns, LeadsTo Sample.bookings source [("id", .number (.integer 5))]
            [column] Sample.stranger) ∧
        (LeadsTo Sample.bookings source [("id", .number (.integer 5))] key.columns
            Sample.stranger →
          compiled.path.Selects Sample.equality Sample.bookings
            ⟨Sample.stranger, [(compiled.aliases.root, Sample.stranger)]⟩) ∧
        (key.columns.length = 1 →
          (compiled.path.Selects Sample.equality Sample.bookings
              ⟨Sample.stranger, [(compiled.aliases.root, Sample.stranger)]⟩ ↔
            LeadsTo Sample.bookings source [("id", .number (.integer 5))] key.columns
              Sample.stranger)) := by
  have facts : (Sample.reversing PathQuery.Sample.catalog.directory PathQuery.Sample.item
      (Sample.personBy "owner") [("id", .number (.integer 5))]).map
      (fun run => (run.1.isFiltered, run.1.table)) = some (false, PathQuery.Sample.person) := rfl
  obtain ⟨⟨source, facet, compiled⟩, runs, same⟩ := Option.map_eq_some_iff.mp facts
  obtain ⟨unfiltered, isPerson⟩ := Prod.mk.inj same
  obtain ⟨spec, read, resolved, reversed, compiles⟩ := Sample.reversing_eq_some runs
  have distinct : (source.table.sourceDefinitions.map Prod.fst).Nodup := by
    rw [isPerson]
    exact .nil
  exact ⟨PathQuery.Sample.catalog_named, source, facet, compiled, runs, unfiltered,
    reverse_selects_by_column PathQuery.Sample.catalog_named rfl read resolved unfiltered reversed
      rfl rfl distinct rfl (fun terms _ => Sample.identify_person isPerson terms) compiles
      Sample.equality Sample.bookings Sample.stranger⟩

theorem Sample.reaches_booking {values : List (String × String)}
    (listed : (⟨"s", "booking"⟩, values) ∈ hotelRows)
    (isStrangers : values.lookup "guest_id" = some "7") :
    Reaches bookings [(guest, .inbound)] stranger (recordOf values) :=
  ⟨_, ⟨values, listed, rfl⟩, List.forall_mem_singleton.mpr ⟨"7", rfl, isStrangers⟩, rfl⟩

/-- The reverse facet of a booking selects a guest who has not made it. -/
theorem reverse_selects_stranger : ∃ source facet compiled,
    Sample.reversing Sample.hotel.directory Sample.booking (Sample.personBy "guest")
      Sample.booked = some (source, facet, compiled) ∧
    source.isFiltered = false ∧ source.hasPath = true ∧
    Sample.booking.shortestKey? = some ⟨["room", "day"]⟩ ∧
    compiled.path.text =
      "(id)=(s:booking:guest_id)/room=1/$M/(id)=(s:booking:guest_id)/day=2/$M" ∧
    compiled.path.Selects Sample.equality Sample.bookings
      ⟨Sample.stranger, [(compiled.aliases.root, Sample.stranger)]⟩ ∧
    ¬ LeadsTo Sample.bookings source Sample.booked ["room", "day"] Sample.stranger := by
  have facts : (Sample.reversing Sample.hotel.directory Sample.booking (Sample.personBy "guest")
      Sample.booked).map (fun run => (run.1.isFiltered, run.1.hasPath, run.1.table,
        hopsBack run.1.fullLegs)) =
      some (false, true, PathQuery.Sample.person, [(Sample.guest, .inbound)]) := rfl
  have texts : (Sample.reversing Sample.hotel.directory Sample.booking (Sample.personBy "guest")
      Sample.booked).map (fun run => run.2.2.path.text) =
      some "(id)=(s:booking:guest_id)/room=1/$M/(id)=(s:booking:guest_id)/day=2/$M" := by
    decide +kernel
  obtain ⟨⟨source, facet, compiled⟩, runs, same⟩ := Option.map_eq_some_iff.mp facts
  obtain ⟨unfiltered, path, isPerson, hops⟩ := by simpa only [Prod.mk.injEq] using same
  rw [runs, Option.map_some, Option.some.injEq] at texts
  obtain ⟨spec, read, resolved, reversed, compiles⟩ := Sample.reversing_eq_some runs
  have setting : Reversible Sample.hotel.directory Sample.booking source
      (Sample.compilerFor Sample.hotel.directory source.table) :=
    .of_resolve Sample.hotel_named rfl read resolved unfiltered rfl rfl
      (by rw [isPerson]; exact .nil) rfl
  obtain ⟨key, isShortest, selects⟩ := setting.selects
    (Definitions.resolve_within resolved).root_eq reversed
    (fun terms _ => Sample.identify_person isPerson terms) compiles Sample.equality
    Sample.bookings Sample.stranger
  obtain rfl : Key.mk ["room", "day"] = key := Option.some.inj isShortest
  refine ⟨source, facet, compiled, runs, unfiltered, path, rfl, texts, selects.mpr ?_, ?_⟩
  · have room : LeadsTo Sample.bookings source Sample.booked ["room"] Sample.stranger := by
      rw [LeadsTo, hops]
      exact ⟨_, Sample.reaches_booking (List.mem_of_getElem?
        (rfl : Sample.hotelRows[1]? = some _)) rfl,
        List.forall_mem_singleton.mpr ⟨_, rfl, rfl⟩⟩
    have day : LeadsTo Sample.bookings source Sample.booked ["day"] Sample.stranger := by
      rw [LeadsTo, hops]
      exact ⟨_, Sample.reaches_booking (List.mem_of_getElem?
        (rfl : Sample.hotelRows[2]? = some _)) rfl,
        List.forall_mem_singleton.mpr ⟨_, rfl, rfl⟩⟩
    exact List.forall_mem_cons.mpr ⟨room, List.forall_mem_singleton.mpr day⟩
  · rintro ⟨last, reaches, agrees⟩
    rw [hops] at reaches
    obtain ⟨next, ⟨values, listed, rfl⟩, joins, rfl⟩ := reaches
    obtain ⟨value, isStrangers, isGuest⟩ := joins ("id", "guest_id") List.mem_cons_self
    obtain rfl := Option.some.inj isStrangers
    obtain ⟨room, isRoom, sameRoom⟩ := agrees "room" List.mem_cons_self
    obtain rfl := Option.some.inj isRoom
    obtain ⟨day, isDay, sameDay⟩ := agrees "day" (List.mem_cons_of_mem _ List.mem_cons_self)
    obtain rfl := Option.some.inj isDay
    have listed : values ∈ [[("room", "1"), ("day", "2"), ("guest_id", "3")],
        [("room", "1"), ("day", "9"), ("guest_id", "7")],
        [("room", "8"), ("day", "2"), ("guest_id", "7")]] := by
      simpa [Sample.hotelRows, Sample.guest, ForeignKey.toTable] using listed
    simp only [List.mem_cons, List.not_mem_nil, or_false] at listed
    -- One booking is another guest's, one for another day, and one of another room.
    rcases listed with rfl | rfl | rfl
    · exact absurd isGuest (by decide)
    · exact absurd sameDay (by decide)
    · exact absurd sameRoom (by decide)

end PathQuery.Facet
