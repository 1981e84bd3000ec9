import Mathlib.Data.List.Zip
import PathQuery.Proofs.Filter.Meaning
import PathQuery.Proofs.Source.Grammar
import PathQuery.Proofs.Source.Grounded

namespace PathQuery.Source

/-! # Sources that differ in the order of their parts

Two sources that were read and have one canonical text are resolved alike: step by step
they follow the same foreign keys between the same tables, and their filters accept the
same rows.
-/

/-- The columns of the two sides pair up. -/
def HopTarget.Paired : HopTarget → Prop
  | .constraint .. => True
  | .columns _ localColumns remoteColumns => localColumns.length = remoteColumns.length

def Step.Paired : Step → Prop
  | .hop step => step.target.Paired
  | _ => True

theorem readTarget_paired {value : Json} {target : HopTarget}
    (read : readTarget value = .ok target) : target.Paired := by
  obtain ⟨schema, name, -, rfl⟩ | ⟨fields, -, read⟩ := readTarget_cases read
  · trivial
  · obtain ⟨schema, table, columns, -, -, -, -, even, rfl⟩ := readColumnTarget_eq_ok.mp read
    exact even

theorem Spec.ofJson_paired {value : Json} {spec : Spec} (read : Spec.ofJson value = .ok spec) :
    ∀ step ∈ spec.steps, step.Paired := by
  intro step member
  obtain ⟨item, isStep⟩ := Spec.ofJson_mem read step member
  obtain ⟨key, rfl⟩ | ⟨tree, -, rfl⟩ | ⟨hop, target, isTarget, rfl⟩ := Step.ofJson_cases isStep
  · trivial
  · trivial
  · exact readTarget_paired isTarget

theorem mapsColumns_perm (key : ForeignKey) {columns referenced columns' referenced' : List String}
    (even : columns.length = referenced.length) (even' : columns'.length = referenced'.length)
    (pairs : (columns.zip referenced).Perm (columns'.zip referenced')) :
    key.mapsColumns columns referenced = key.mapsColumns columns' referenced' := by
  have lengths : columns.length = columns'.length := by
    have length := pairs.length_eq
    rw [List.length_zip, List.length_zip] at length
    omega
  rw [ForeignKey.mapsColumns, ForeignKey.mapsColumns, pairs.all_eq, lengths, ← even, ← even',
    lengths]

/-- Column pairs name the same foreign key in any order. -/
theorem HopTarget.Reordered.foreignKey_eq {target target' : HopTarget}
    (reordered : target.Reordered target') (paired : target.Paired) (paired' : target'.Paired)
    (direction : Direction) (aliasName : Option String) (table : TableName)
    (directory : Directory) :
    (HopStep.mk direction target aliasName).foreignKey table directory =
      (HopStep.mk direction target' aliasName).foreignKey table directory := by
  cases reordered with
  | constraint schema name => rfl
  | @columns remote localColumns remoteColumns localColumns' remoteColumns' pairs =>
      have forward := fun key => mapsColumns_perm key paired paired' pairs
      have swapped : (remoteColumns.zip localColumns).Perm (remoteColumns'.zip localColumns') := by
        rw [← List.zip_swap, ← List.zip_swap localColumns']
        exact pairs.map Prod.swap
      have backward := fun key => mapsColumns_perm key paired.symm paired'.symm swapped
      cases direction with
      | outbound => simp only [HopStep.foreignKey, Directory.constraintByColumns?, forward]
      | inbound => simp only [HopStep.foreignKey, Directory.constraintByColumns?, backward]

/-- The same leg, but that the children of a filter's nodes may stand in other orders. -/
inductive Leg.Alike : Leg → Leg → Prop
  | hop (hop : Hop) (table : Table) (hopCount : Nat) (allOutboundNotNull : Bool) :
      Alike ⟨.hop hop, table, hopCount, allOutboundNotNull⟩
        ⟨.hop hop, table, hopCount, allOutboundNotNull⟩
  | filter {tree tree' : Filter.Tree} {clause clause' : String} (table : Table) (hopCount : Nat)
      (allOutboundNotNull : Bool) (trees : tree.Reordered true tree')
      (written : tree.clause table = .ok clause) (written' : tree'.clause table = .ok clause')
      (accepts : ∀ truth, tree.holds truth = tree'.holds truth) :
      Alike ⟨.filter tree clause, table, hopCount, allOutboundNotNull⟩
        ⟨.filter tree' clause', table, hopCount, allOutboundNotNull⟩

structure Route.Alike (left right : Route) : Prop where
  spec : left.spec.Reordered true right.spec
  root : left.root = right.root
  legs : List.Forall₂ Leg.Alike left.legs right.legs
  table : left.table = right.table
  column : left.column = right.column
  facts : left.facts = right.facts

/-- The same source up to the order of the children of filter nodes: it continues the same
    source under the same sourcekey, and goes the same way. -/
inductive Resolved.Alike : Resolved → Resolved → Prop
  | fromRoot {route route' : Route} (routes : route.Alike route') :
      Alike (.fromRoot route) (.fromRoot route')
  | continuing (key : String) (start : Resolved) {route route' : Route}
      (routes : route.Alike route') :
      Alike (.continuing key start route) (.continuing key start route')

structure Walk.Alike (left right : Walk) : Prop where
  atStart : left.atStart = right.atStart
  legs : List.Forall₂ Leg.Alike left.legs right.legs
  table : left.table = right.table
  facts : left.facts = right.facts

theorem Walk.Alike.refl_of_legs (walk : Walk) (none : walk.legs = []) : walk.Alike walk :=
  ⟨rfl, by rw [none]; exact .nil, rfl, rfl⟩

variable {context : Context}

/-- Reordered steps lead alike walks on to alike walks. -/
theorem Walk.Alike.step {walk walk' next : Walk} (alike : walk.Alike walk') {step step' : Step}
    (reordered : step.Reordered true step') (paired : step.Paired) (paired' : step'.Paired)
    (stepped : walk.step context step = .ok next) :
    ∃ next', walk'.step context step' = .ok next' ∧ next.Alike next' := by
  obtain ⟨atStart, legs, table, facts⟩ := walk
  obtain ⟨atStart', legs', table', facts'⟩ := walk'
  obtain ⟨rfl, legsAlike, rfl, rfl⟩ := alike
  rcases Walk.step_cases stepped with ⟨tree, expanded, clause, rfl, expands, written, rfl⟩ |
    ⟨hopStep, hop, reached, rfl, found, isDirection, isAlias, arrives, rfl⟩
  · cases reordered with
    | @filter _ tree' trees =>
        obtain ⟨expanded', expands', results⟩ := trees.expand expands
        obtain ⟨clause', written'⟩ := results.clause written
        refine ⟨Walk.extend (.filter expanded' clause') (facts.afterFilter atStart) table
          ⟨atStart, legs', table, facts⟩, ?_, rfl, .cons ?_ legsAlike, rfl, rfl⟩
        · simp only [Walk.step, Walk.filter, expands', ok_bind, written']
          rfl
        · exact .filter table _ _ results written written' fun truth => results.holds truth
  · cases reordered with
    | @hop direction aliasName target target' targets =>
        obtain ⟨key, _, _, byColumns⟩ := hop
        cases isDirection
        cases isAlias
        rw [targets.foreignKey_eq paired paired'] at found
        refine ⟨Walk.extend (.hop ⟨key, direction, aliasName, byColumns⟩)
          (facts.afterHop ⟨key, direction, aliasName, byColumns⟩ table) reached
          ⟨atStart, legs', table, facts⟩, ?_, rfl, .cons (.hop _ table _ _) legsAlike, rfl, rfl⟩
        simp only [Walk.step, Walk.hop, found, ok_bind, arrives]
        rfl

theorem Walk.Alike.steps {walk walk' last : Walk} (alike : walk.Alike walk')
    {steps steps' : List Step} (reordered : List.Forall₂ (Step.Reordered true) steps steps')
    (paired : ∀ step ∈ steps, step.Paired) (paired' : ∀ step ∈ steps', step.Paired)
    (walked : walk.steps context steps = .ok last) :
    ∃ last', walk'.steps context steps' = .ok last' ∧ last.Alike last' := by
  induction reordered generalizing walk walk' with
  | nil =>
      cases walked
      exact ⟨walk', rfl, alike⟩
  | cons first _ ih =>
      obtain ⟨pairedFirst, pairedLater⟩ := List.forall_mem_cons.mp paired
      obtain ⟨pairedFirst', pairedLater'⟩ := List.forall_mem_cons.mp paired'
      obtain ⟨next, stepped, walked⟩ := bind_eq_ok.mp walked
      obtain ⟨next', stepped', alike⟩ := alike.step first pairedFirst pairedFirst' stepped
      obtain ⟨last', walked', alike⟩ := ih alike pairedLater pairedLater' walked
      exact ⟨last', bind_eq_ok.mpr ⟨next', stepped', walked'⟩, alike⟩

theorem Walk.Alike.route {walk walk' : Walk} (alike : walk.Alike walk') {spec spec' : Spec}
    (reordered : spec.Reordered true spec') {route : Route}
    (ended : walk.route context spec = .ok route) :
    ∃ route', walk'.route context spec' = .ok route' ∧ route.Alike route' := by
  obtain ⟨column, found, rfl⟩ := Walk.route_eq_ok ended
  have found' : walk'.table.column? spec'.column = some column := by
    rw [← alike.table, ← reordered.column, found]
  have ended' : walk'.route context spec' = .ok {
      spec := spec', column
      root := context.root
      legs := walk'.legs.reverse
      table := walk'.table
      facts := { walk'.facts with
        allOutboundNotNull := walk'.facts.allOutboundNotNull && walk'.facts.hopCount > 0 } } := by
    rw [Walk.route, found']
  refine ⟨_, ended', reordered, rfl, List.rel_reverse alike.legs, alike.table, rfl, ?_⟩
  dsimp only
  rw [alike.facts]

theorem Spec.Reordered.sourcekey?_eq {spec spec' : Spec} (reordered : spec.Reordered true spec') :
    spec.sourcekey? = spec'.sourcekey? := by
  obtain ⟨steps, column⟩ := spec
  obtain ⟨steps', column'⟩ := spec'
  cases reordered.steps with
  | nil => rfl
  | cons first _ => cases first <;> rfl

/-- A reordered source is resolved if the source is, and alike. -/
theorem Spec.Reordered.resolve {spec spec' : Spec} (reordered : spec.Reordered true spec')
    (paired : ∀ step ∈ spec.steps, step.Paired) (paired' : ∀ step ∈ spec'.steps, step.Paired)
    {source : Resolved} (resolved : spec.resolve context = .ok source) :
    ∃ source', spec'.resolve context = .ok source' ∧ source.Alike source' := by
  obtain ⟨walk, route, plain, walked, ended, rfl⟩ |
    ⟨key, later, start, walk, route, same, named, path, walked, ended, rfl⟩ :=
    Spec.resolve_cases resolved
  · obtain ⟨walk', walked', alike⟩ := (Walk.Alike.refl_of_legs (Walk.start context.root) rfl).steps
      reordered.steps paired paired' walked
    obtain ⟨route', ended', routes⟩ := alike.route reordered ended
    refine ⟨.fromRoot route', ?_, .fromRoot routes⟩
    rw [Spec.resolve_plain context (reordered.sourcekey?_eq ▸ plain), walked', ok_bind, ended']
    rfl
  · obtain ⟨steps, column⟩ := spec
    obtain ⟨steps', column'⟩ := spec'
    cases same
    have steps := reordered.steps
    cases steps with
    | cons first others =>
        cases first
        obtain ⟨walk', walked', alike⟩ := (Walk.Alike.refl_of_legs (Walk.after start) rfl).steps
          others (List.forall_mem_cons.mp paired).2 (List.forall_mem_cons.mp paired').2 walked
        obtain ⟨route', ended', routes⟩ := alike.route reordered ended
        refine ⟨.continuing key start route', ?_, .continuing key start routes⟩
        rw [Spec.resolve_sourcekey, Context.start_eq_ok.mpr ⟨named, path⟩, ok_bind, walked',
          ok_bind, ended']
        rfl

/-- A source that is resolved again, with the same named sources, is the same. -/
theorem Grounded.resolve_spec {source : Resolved} (grounded : Grounded (· = context) source) :
    source.spec.resolve context = .ok source := by
  cases grounded with
  | @fromRoot admitted spec walk route same plain walked ended =>
      subst same
      obtain ⟨column, -, isRoute⟩ := Walk.route_eq_ok ended
      have isSpec : route.spec = spec := by rw [isRoute]
      change route.spec.resolve admitted = _
      rw [isSpec, Spec.resolve_plain admitted plain, walked, ok_bind, ended]
      rfl
  | @continuing admitted key column start later walk route same named path grounded walked ended =>
      subst same
      obtain ⟨_, -, isRoute⟩ := Walk.route_eq_ok ended
      have isSpec : route.spec = ⟨.sourcekey key :: later, column⟩ := by rw [isRoute]
      change route.spec.resolve admitted = _
      rw [isSpec, Spec.resolve_sourcekey, Context.start_eq_ok.mpr ⟨named, path⟩, ok_bind, walked,
        ok_bind, ended]
      rfl

theorem Spec.Reordered.canonicalText_eq {spec spec' : Spec} (reordered : spec.Reordered false spec') :
    spec.canonicalText = spec'.canonicalText := by
  have steps : spec.steps.map Step.canonicalJson = spec'.steps.map Step.canonicalJson := by
    rw [← List.forall₂_eq_eq_eq, List.forall₂_map_left_iff, List.forall₂_map_right_iff]
    exact reordered.steps.imp fun _ _ reordered => reordered.canonicalJson_eq
  rw [← Spec.canonicalJson_text, ← Spec.canonicalJson_text, Spec.canonicalJson, Spec.canonicalJson,
    steps, reordered.column]

/-- Sources that were read and have one canonical text are reordered. -/
theorem Spec.reordered_of_canonicalText {item item' : Json} {spec spec' : Spec}
    (read : Spec.ofJson item = .ok spec) (read' : Spec.ofJson item' = .ok spec')
    (same : spec.canonicalText = spec'.canonicalText) : spec.Reordered true spec' := by
  obtain ⟨steps, column⟩ := Spec.canonicalJson_of_text same
  rw [← List.forall₂_eq_eq_eq, List.forall₂_map_left_iff, List.forall₂_map_right_iff] at steps
  refine ⟨forall₂_imp_mem steps fun step member step' member' => ?_, column⟩
  exact Step.reordered_of_canonicalJson (Spec.ofJson_declared read step member)
    (Spec.ofJson_declared read' step' member')

end PathQuery.Source
