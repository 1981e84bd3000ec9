import PathQuery.Facet.Reverse
import PathQuery.Proofs.Source.Inlining

namespace PathQuery

/-! # The path of a flattened source

A source that continues others is written as if all its legs were its own, backwards
always and forwards as long as no alias is wanted for what it continues.  With
`resolve_inlined` this makes a leading sourcekey transparent: the source with the steps
of the named source in its place fails alike, or it leads to the same end along the
same path.
-/

/-- No sourcekey has an alias, and none wants one. -/
def Aliases.Untouched (aliases : Aliases) : Prop :=
  aliases.bound = [] ∧ aliases.forced = [] ∧ aliases.reused = []

namespace Source

theorem legSegments_append (kind : JoinKind) (binding : Option String)
    (first later : List Leg) :
    legSegments kind binding (first ++ later) =
      legSegments kind (if later.any Leg.isHop then none else binding) first ++
        legSegments kind binding later := by
  induction first with
  | nil => rfl
  | cons leg first ih =>
      obtain ⟨move, table, hopCount, notNull⟩ := leg
      cases move with
      | filter tree clause =>
          simp only [List.cons_append, legSegments]
          rw [ih]
      | hop hop =>
          simp only [List.cons_append, legSegments]
          rw [ih, List.any_append]
          cases first.any Leg.isHop <;> cases later.any Leg.isHop <;> rfl

namespace Resolved

theorem reversedLegSegments_append (binding : Option String) (first later : List Leg) :
    reversedLegSegments binding (first ++ later) =
      reversedLegSegments (if first.any Leg.isHop then none else binding) later ++
        reversedLegSegments binding first := by
  induction first generalizing binding with
  | nil => simp [reversedLegSegments]
  | cons leg first ih =>
      obtain ⟨move, table, hopCount, notNull⟩ := leg
      cases move with
      | filter tree clause => simp [reversedLegSegments, ih, Leg.isHop]
      | hop hop => simp [reversedLegSegments, ih, Leg.isHop]

theorem reversedSteps_eq (source : Resolved) :
    source.reversedSteps = reversedSteps.legSteps source.fullLegs := by
  induction source with
  | fromRoot route => rfl
  | continuing key start route ih =>
      simp [reversedSteps, ih, reversedSteps.legSteps, fullLegs]

theorem isFiltered_eq (source : Resolved) :
    source.isFiltered = source.fullLegs.any Leg.isFilter := by
  induction source with
  | fromRoot route => rfl
  | continuing key start route ih =>
      simp [isFiltered, ih, fullLegs, Bool.or_comm]

end Resolved

theorem Resolved.StartsMove.reversedPath_eq {source : Resolved} (moves : source.StartsMove)
    (name : String) :
    source.reversedPath name =
      Resolved.reversedLegSegments (some name) source.fullLegs := by
  induction source with
  | fromRoot route => rfl
  | continuing key start route ih =>
      obtain ⟨path, startMoves⟩ := moves
      rw [Resolved.reversedPath, Resolved.fullLegs, Resolved.reversedLegSegments_append,
        ih startMoves, if_pos path]

/-- Without aliases a source is written as all its legs, the last hop of which binds
what it is given. -/
theorem Grounded.render_untouched {admits : Context → Prop} {source : Resolved}
    (grounded : Grounded admits source) (kind : JoinKind) {aliases : Aliases}
    (untouched : aliases.Untouched) (key hint : Option String) :
    (source.render kind key hint aliases).1 =
      ⟨legSegments kind hint source.fullLegs, if source.hasPath then hint else none⟩ := by
  obtain ⟨unbound, unforced, unused⟩ := untouched
  have absent : ∀ key : Option String, key.bind aliases.get? = none := by
    intro key
    cases key <;> simp [Aliases.get?, unbound]
  have chosen : ∀ (source : Resolved) (key : Option String) (hint : Option String),
      source.chooseAlias key hint aliases = (hint, aliases) := by
    intro source key hint
    cases key <;> simp [Resolved.chooseAlias, Aliases.needsAlias, Aliases.isForced,
      Aliases.isReused, Aliases.forced?, unforced, unused]
  have kept : ∀ (key : Option String) (rendered : RenderedPath) (aliases : Aliases),
      (Resolved.bindEnd key rendered aliases).1 = rendered := by
    intro key rendered aliases
    unfold Resolved.bindEnd
    split <;> rfl
  induction grounded generalizing key hint with
  | fromRoot admitted plain walked ended =>
      have whole := (Grounded.fromRoot admitted plain walked ended).hasPath_eq
      rw [Resolved.render]
      simp only [absent, chosen, kept, whole]
      rfl
  | @continuing _ sourcekey _ start _ _ route admitted named path started walked ended ih =>
      have whole := (Grounded.continuing admitted named path started walked ended).hasPath_eq
      have reaches := started.hasPath_eq ▸ path
      rw [Resolved.render]
      simp only [absent, chosen, kept, ih, whole]
      cases own : route.legs.any Leg.isHop <;>
        simp [Resolved.renderLegs, Resolved.endsAtStart, Resolved.isContinuing, Resolved.start?,
          Resolved.legs, Resolved.route, Resolved.fullLegs, legSegments_append, own, path, reaches]

/-- Two sources that lead to the same end along the same path. -/
structure Resolved.SamePath (source flat : Resolved) : Prop where
  table : source.table = flat.table
  column : source.column = flat.column
  /-- The number of hops, the first and the last one, and the flags. -/
  facts : source.facts = flat.facts
  isFiltered : source.isFiltered = flat.isFiltered
  reversedPath : ∀ name, source.reversedPath name = flat.reversedPath name
  reversedSteps : source.reversedSteps = flat.reversedSteps
  path : ∀ aliases : Aliases, aliases.Untouched →
    (source.path none aliases).1.path = (flat.path none aliases).1.path
  leftPath : ∀ (aliases : Aliases) (outAlias : String), aliases.Untouched →
    (fun rendered => rendered.1.path) <$> source.leftPath none outAlias aliases =
      (fun rendered => rendered.1.path) <$> flat.leftPath none outAlias aliases

/-- Two outcomes fail with the same error, or they lead to the same end along the same
path. -/
inductive SameOutcome : Except ResolveError Resolved → Except ResolveError Resolved → Prop
  | error {error : ResolveError} : SameOutcome (.error error) (.error error)
  | ok {source flat : Resolved} (same : source.SamePath flat) :
      SameOutcome (.ok source) (.ok flat)

/-- The legs from the root on decide how a source is written. -/
theorem Grounded.samePath {admits : Context → Prop} {source flat : Resolved}
    (left : Grounded admits source) (right : Grounded admits flat)
    (table : source.table = flat.table) (column : source.column = flat.column)
    (facts : source.facts = flat.facts) (legs : source.fullLegs = flat.fullLegs) :
    source.SamePath flat where
  table := table
  column := column
  facts := facts
  isFiltered := by rw [source.isFiltered_eq, flat.isFiltered_eq, legs]
  reversedPath name := by rw [left.startsMove.reversedPath_eq, right.startsMove.reversedPath_eq, legs]
  reversedSteps := by rw [source.reversedSteps_eq, flat.reversedSteps_eq, legs]
  path aliases untouched := by
    simp only [Resolved.path, left.render_untouched _ untouched,
      right.render_untouched _ untouched, legs]
  leftPath aliases outAlias untouched := by
    have outbound : source.isAllOutbound = flat.isAllOutbound := by
      simp only [Resolved.isAllOutbound, Resolved.hasPath, facts]
    simp only [Resolved.leftPath, outbound, column]
    split
    · simp only [except_map_ok, left.render_untouched _ untouched,
        right.render_untouched _ untouched, legs]
    · rfl

/-- A sourcekey at the start of a source is transparent: the source with the steps of the
named source in its place has the same outcome. -/
theorem leading_sourcekey_transparent {directory : Directory} {table : Table}
    {engine : Template.Engine} {row : Row} {key column : String} {start : Resolved}
    {later : List Step}
    (found : (Definitions.build directory table engine row).get? key = some start)
    (path : start.hasPath = true) :
    (∃ inlined, Inlines (Definitions.build directory table engine row).get?
      ⟨.sourcekey key :: later, column⟩ inlined) ∧
    ∀ inlined, Inlines (Definitions.build directory table engine row).get?
        ⟨.sourcekey key :: later, column⟩ inlined →
      inlined.sourcekey? = none ∧
      SameOutcome
        ((Definitions.build directory table engine row).resolve directory engine row
          ⟨.sourcekey key :: later, column⟩)
        ((Definitions.build directory table engine row).resolve directory engine row
          inlined) := by
  have grounded := Definitions.build_grounded found
  have inlines := grounded.inlines path found later column
  have flattened := grounded.resolve_inlined path found later column
  refine ⟨⟨_, inlines⟩, ?_⟩
  intro inlined inlines'
  obtain rfl := inlines.unique inlines'
  refine ⟨grounded.inlinedSteps_plain path later column, ?_⟩
  simp only [Definitions.resolve_eq, flattened]
  cases resolved : (Spec.mk (.sourcekey key :: later) column).resolve
      ((Definitions.build directory table engine row).context directory engine row) with
  | error error => exact .error
  | ok source =>
      rw [resolved, except_map_ok] at flattened
      exact .ok ((Definitions.resolve_grounded resolved).samePath
        (Definitions.resolve_grounded flattened) rfl rfl rfl rfl)

end Source

/-! Two tables, the first of which references the second and declares a source that
continues another one. -/

namespace Sample

def foreignKey : ForeignKey where
  schema := "s"
  name := "owner"
  table := ⟨"s", "item"⟩
  columns := ["owner_id"]
  referencedTable := ⟨"s", "person"⟩
  referencedColumns := ["id"]

def person : Table where
  schema := "s"
  name := "person"
  columns := [⟨"id", .int4, false⟩, ⟨"name", .text, true⟩]
  keys := [⟨["id"]⟩]
  foreignKeys := []
  sourceDefinitions := []
  searchColumns := []

def declares (steps : List Json) (column : String) : Json :=
  .object [("source", .array (steps ++ [.string column]))]

def item : Table where
  schema := "s"
  name := "item"
  columns := [⟨"id", .int4, false⟩, ⟨"owner_id", .int4, true⟩]
  keys := [⟨["id"]⟩]
  foreignKeys := [foreignKey]
  sourceDefinitions := [
    ("owner", declares [.object [("outbound", .array [.string "s", .string "owner"])]] "id"),
    ("named", declares [.object [("sourcekey", .string "owner")],
      .object [("filter", .string "name"), ("operand_pattern", .string "x")]] "name")]
  searchColumns := []

def catalog : Catalog := ⟨⟨false, false⟩, [⟨"s", [item, person]⟩]⟩

/-- Templates without placeholders. -/
def engine : Template.Engine := fun template _ => template

def definitions : Source.Definitions :=
  .build catalog.directory item engine []

end Sample

namespace Source

theorem leading_sourcekey_transparent_named : ∃ start,
    Sample.definitions.get? "named" = some start ∧ start.hasPath = true ∧
    (∃ inlined, Inlines Sample.definitions.get? ⟨[.sourcekey "named"], "id"⟩ inlined) ∧
    ∀ inlined, Inlines Sample.definitions.get? ⟨[.sourcekey "named"], "id"⟩ inlined →
      inlined.sourcekey? = none ∧
      SameOutcome
        (Sample.definitions.resolve Sample.catalog.directory Sample.engine []
          ⟨[.sourcekey "named"], "id"⟩)
        (Sample.definitions.resolve Sample.catalog.directory Sample.engine [] inlined) := by
  have reaches : (Sample.definitions.get? "named").map Resolved.hasPath = some true := by
    decide +kernel
  obtain ⟨start, found, path⟩ := Option.map_eq_some_iff.mp reaches
  exact ⟨start, found, path, leading_sourcekey_transparent found path⟩

end Source

end PathQuery
