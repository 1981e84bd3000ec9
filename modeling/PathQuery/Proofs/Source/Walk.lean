import PathQuery.Proofs.Outcome

namespace PathQuery.Source

/-! # Walks

A walk only ever adds legs.  What it makes of its later steps depends on the table at
hand and on what is known, but not on the legs that it has made, and not on the sources
that could be continued.
-/

/-- How a hop finds its foreign key: by name, if it starts at the table, or by the columns of
    the two tables, in the order that the direction gives them. -/
theorem HopStep.foreignKey_cases {step : HopStep} {table : TableName} {directory : Directory}
    {key : ForeignKey} {byColumns : Bool}
    (found : step.foreignKey table directory = .ok (key, byColumns)) :
    (∃ schema name, step.target = .constraint schema name ∧ byColumns = false ∧
      directory.constraint? schema name = some key ∧ key.fromTable step.direction = table) ∨
    (∃ remote localColumns remoteColumns, step.target = .columns remote localColumns remoteColumns ∧
      byColumns = true ∧ step.direction = .outbound ∧
      directory.constraintByColumns? table localColumns remote remoteColumns = some key) ∨
    (∃ remote localColumns remoteColumns, step.target = .columns remote localColumns remoteColumns ∧
      byColumns = true ∧ step.direction = .inbound ∧
      directory.constraintByColumns? remote remoteColumns table localColumns = some key) := by
  obtain ⟨direction, target, aliasName⟩ := step
  cases target with
  | constraint schema name =>
      simp only [HopStep.foreignKey] at found
      split at found
      · contradiction
      · rename_i known
        split at found
        · rename_i starts
          cases found
          exact .inl ⟨schema, name, rfl, rfl, known, starts⟩
        · contradiction
  | columns remote localColumns remoteColumns =>
      refine .inr ?_
      cases direction with
      | outbound =>
          simp only [HopStep.foreignKey] at found
          split at found
          · contradiction
          · rename_i matching
            cases found
            exact .inl ⟨remote, localColumns, remoteColumns, rfl, rfl, rfl, matching⟩
      | inbound =>
          simp only [HopStep.foreignKey] at found
          split at found
          · contradiction
          · rename_i matching
            cases found
            exact .inr ⟨remote, localColumns, remoteColumns, rfl, rfl, rfl, matching⟩

theorem HopStep.foreignKey_error {step : HopStep} {table : TableName} {directory : Directory}
    {error : ResolveError} (failed : step.foreignKey table directory = .error error) :
    (∃ schema name, error = .unknownConstraint schema name) ∨
    (∃ name, error = .directionMismatch name step.direction table) ∨
    (∃ remote, error = .noMatchingConstraint table remote) := by
  obtain ⟨direction, target, aliasName⟩ := step
  cases target with
  | constraint schema name =>
      simp only [foreignKey] at failed
      split at failed
      · cases failed
        exact .inl ⟨schema, name, rfl⟩
      · split at failed
        · contradiction
        · cases failed
          exact .inr (.inl ⟨_, rfl⟩)
  | columns remote localColumns remoteColumns =>
      simp only [foreignKey] at failed
      split at failed
      · cases failed
        exact .inr (.inr ⟨remote, rfl⟩)
      · contradiction

namespace Walk

def start (root : Table) : Walk where
  atStart := true
  legs := []
  table := root
  facts := .start

def after (source : Resolved) : Walk where
  atStart := false
  legs := []
  table := source.table
  facts := source.facts

/-- The walk with some legs before its own. -/
def under (legs : List Leg) (walk : Walk) : Walk := { walk with legs := walk.legs ++ legs }

/-- What one step of a walk can do: filter where it is, or follow a foreign key. -/
theorem step_cases {context : Context} {walk next : Walk} {step : Step}
    (stepped : walk.step context step = .ok next) :
    (∃ tree expanded clause, step = .filter tree ∧
      tree.expand context.engine context.row = .ok expanded ∧
      expanded.clause walk.table = .ok clause ∧
      next = walk.extend (.filter expanded clause)
        (walk.facts.afterFilter walk.atStart) walk.table) ∨
    (∃ hopStep hop table, step = .hop hopStep ∧
      hopStep.foreignKey walk.table.tableName context.directory =
        .ok (hop.key, hop.byColumns) ∧
      hop.direction = hopStep.direction ∧ hop.aliasName = hopStep.aliasName ∧
      context.directory.table? hop.toTable = some table ∧
      next = walk.extend (.hop hop) (walk.facts.afterHop hop walk.table) table) := by
  cases step with
  | sourcekey key => simp [Walk.step] at stepped
  | filter tree =>
      cases filtered : walk.filter context tree with
      | error error => simp [Walk.step, filtered] at stepped
      | ok reached =>
          simp only [Walk.step, filtered, Except.ok.injEq] at stepped
          subst next
          obtain ⟨expanded, expands, filtered⟩ := bind_eq_ok.mp filtered
          obtain ⟨clause, written, filtered⟩ := bind_eq_ok.mp filtered
          cases filtered
          exact .inl ⟨tree, expanded, clause, rfl, expands, written, rfl⟩
  | hop hopStep =>
      obtain ⟨⟨key, byColumns⟩, found, stepped⟩ := bind_eq_ok.mp stepped
      dsimp only at stepped
      split at stepped
      · contradiction
      · rename_i table arrives
        cases stepped
        exact .inr ⟨hopStep, ⟨key, hopStep.direction, hopStep.aliasName, byColumns⟩, table,
          rfl, found, rfl, rfl, arrives, rfl⟩

/-- What can be wrong with one step of a walk. -/
theorem step_error {context : Context} {walk : Walk} {step : Step} {error : ResolveError}
    (failed : walk.step context step = .error error) :
    (∃ key, error = .misplacedSourcekey key) ∨
    (∃ tree cause, step = .filter tree ∧ walk.filter context tree = .error cause ∧
      error = .filter cause) ∨
    (∃ hopStep, step = .hop hopStep ∧
      hopStep.foreignKey walk.table.tableName context.directory = .error error) ∨
    (∃ hopStep key byColumns, step = .hop hopStep ∧
      hopStep.foreignKey walk.table.tableName context.directory = .ok (key, byColumns) ∧
      context.directory.table? (key.toTable hopStep.direction) = none ∧
      error = .unknownTable (key.toTable hopStep.direction)) := by
  cases step with
  | sourcekey key =>
      cases failed
      exact .inl ⟨key, rfl⟩
  | filter tree =>
      simp only [Walk.step] at failed
      split at failed
      · contradiction
      · rename_i cause filtered
        cases failed
        exact .inr (.inl ⟨tree, cause, rfl, filtered, rfl⟩)
  | hop hopStep =>
      obtain failed | ⟨⟨key, byColumns⟩, found, failed⟩ := bind_eq_error failed
      · exact .inr (.inr (.inl ⟨hopStep, rfl, failed⟩))
      · dsimp only at failed
        split at failed
        · rename_i absent
          cases failed
          exact .inr (.inr (.inr ⟨hopStep, key, byColumns, rfl, found, absent, rfl⟩))
        · contradiction

theorem steps_preserve {context : Context} {motive : Walk → Prop}
    (kept : ∀ walk step next, motive walk → walk.step context step = .ok next → motive next)
    {walk last : Walk} {later : List Step} (holds : motive walk)
    (walked : walk.steps context later = .ok last) : motive last := by
  induction later generalizing walk with
  | nil =>
      cases walked
      exact holds
  | cons next later ih =>
      obtain ⟨reached, stepped, walked⟩ := bind_eq_ok.mp walked
      exact ih (kept walk next reached holds stepped) walked

/-- A walk fails at one of its steps. -/
theorem steps_error {context : Context} {walk : Walk} {later : List Step} {error : ResolveError}
    (failed : walk.steps context later = .error error) :
    ∃ reached : Walk, ∃ step ∈ later, reached.step context step = .error error := by
  induction later generalizing walk with
  | nil => contradiction
  | cons next later ih =>
      obtain failed | ⟨reached, -, failed⟩ := bind_eq_error failed
      · exact ⟨walk, next, List.mem_cons_self .., failed⟩
      · obtain ⟨reached, step, member, failed⟩ := ih failed
        exact ⟨reached, step, List.mem_cons_of_mem next member, failed⟩

theorem step_under (context : Context) (legs : List Leg) (walk : Walk) (step : Step) :
    (walk.under legs).step context step = under legs <$> walk.step context step := by
  cases step with
  | sourcekey key => rfl
  | filter tree =>
      simp only [Walk.step, Walk.filter, under]
      cases tree.expand context.engine context.row with
      | error error => rfl
      | ok expanded =>
          simp only [ok_bind]
          cases expanded.clause walk.table with
          | error error => rfl
          | ok clause => rfl
  | hop step =>
      simp only [Walk.step, Walk.hop, under]
      cases step.foreignKey walk.table.tableName context.directory with
      | error error => rfl
      | ok found =>
          simp only [ok_bind]
          split
          · rfl
          · rfl

theorem steps_under (context : Context) (legs : List Leg) (walk : Walk) (later : List Step) :
    (walk.under legs).steps context later = under legs <$> walk.steps context later := by
  induction later generalizing walk with
  | nil => rfl
  | cons next later ih =>
      simp only [Walk.steps, step_under]
      cases walk.step context next with
      | error error => rfl
      | ok reached => exact ih reached

theorem steps_append (context : Context) (walk : Walk) (first later : List Step) :
    walk.steps context (first ++ later) =
      walk.steps context first >>= fun reached => reached.steps context later := by
  induction first generalizing walk with
  | nil => rfl
  | cons next first ih =>
      simp only [List.cons_append, Walk.steps]
      cases walk.step context next with
      | error error => rfl
      | ok reached => exact ih reached

theorem step_named (context : Context) (named : String → Option Resolved) (walk : Walk)
    (step : Step) : walk.step { context with named } step = walk.step context step := by
  cases step <;> rfl

theorem steps_named (context : Context) (named : String → Option Resolved) (walk : Walk)
    (later : List Step) :
    walk.steps { context with named } later = walk.steps context later := by
  induction later generalizing walk with
  | nil => rfl
  | cons next later ih =>
      simp only [Walk.steps, step_named]
      cases walk.step context next with
      | error error => rfl
      | ok reached => exact ih reached

theorem steps_atStart {context : Context} {walk last : Walk} {later : List Step}
    (walked : walk.steps context later = .ok last) :
    last.atStart = (walk.atStart && later.isEmpty) := by
  cases later with
  | nil =>
      cases walked
      simp
  | cons next later =>
      obtain ⟨reached, stepped, walked⟩ := bind_eq_ok.mp walked
      have moved : last.atStart = false := by
        refine steps_preserve (motive := fun walk => walk.atStart = false) ?_ ?_ walked
        · intro walk step next _ stepped
          rcases step_cases stepped with ⟨_, _, _, -, -, -, rfl⟩ | ⟨_, _, _, -, -, -, -, -, rfl⟩ <;>
            rfl
        · rcases step_cases stepped with ⟨_, _, _, -, -, -, rfl⟩ | ⟨_, _, _, -, -, -, -, -, rfl⟩ <;>
            rfl
      simp [moved]

theorem steps_hopCount {context : Context} {walk last : Walk} {later : List Step}
    (fresh : walk.legs = []) (walked : walk.steps context later = .ok last) :
    last.facts.hopCount = walk.facts.hopCount + last.legs.countP Leg.isHop := by
  refine steps_preserve
    (motive := fun reached => reached.facts.hopCount =
      walk.facts.hopCount + reached.legs.countP Leg.isHop) ?_ (by simp [fresh]) walked
  intro reached step next counted stepped
  rcases step_cases stepped with ⟨_, _, _, -, -, -, rfl⟩ | ⟨_, _, _, -, -, -, -, -, rfl⟩
  · simpa [extend, Facts.afterFilter, Leg.isHop] using counted
  · simp only [extend, Facts.afterHop, counted, List.countP_cons, Leg.isHop, if_true]
    omega

theorem route_eq_ok {context : Context} {spec : Spec} {walk : Walk} {route : Route}
    (ended : walk.route context spec = .ok route) :
    ∃ column, walk.table.column? spec.column = some column ∧
      route = {
        spec, column
        root := context.root
        legs := walk.legs.reverse
        table := walk.table
        facts := { walk.facts with
          allOutboundNotNull := walk.facts.allOutboundNotNull && walk.facts.hopCount > 0 } } := by
  unfold Walk.route at ended
  split at ended
  · contradiction
  · rename_i column found
    cases ended
    exact ⟨column, found, rfl⟩

theorem route_error {context : Context} {spec : Spec} {walk : Walk} {error : ResolveError}
    (failed : walk.route context spec = .error error) :
    error = .invalidColumn spec.column walk.table.tableName := by
  unfold Walk.route at failed
  split at failed
  · exact (Except.error.inj failed).symm
  · contradiction

end Walk

end PathQuery.Source
