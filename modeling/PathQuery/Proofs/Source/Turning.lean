import PathQuery.Facet.Reverse
import PathQuery.Proofs.Catalog.Named
import PathQuery.Proofs.Filter.WrittenBack
import PathQuery.Proofs.Path.LegReading
import PathQuery.Proofs.Source.CanonicalIdentity
import PathQuery.Proofs.Source.Dependencies

namespace PathQuery.Source

/-! # Turning round

The reversed steps of a source can be walked from its end.  Every filter comes at the table
that it was written for, and every hop follows the same foreign key the other way, now by
name.  So the walk comes back to the root table, over the tables that the source went
through.
-/

variable {directory : Directory} {root first last : Table} {legs : List Leg}

/-- Legs from one table to another that filter by filled filters and follow foreign keys that
    the directory knows by name. -/
inductive Passes (directory : Directory) : Table → List Leg → Table → Prop
  | nil {table : Table} : Passes directory table [] table
  | filter {table last : Table} {tree : Filter.Tree} {clause : String} {hopCount : Nat}
      {notNull : Bool} {later : List Leg} (filled : tree.Filled)
      (written : tree.clause table = .ok clause) (rest : Passes directory table later last) :
      Passes directory table (⟨.filter tree clause, table, hopCount, notNull⟩ :: later) last
  | hop {table next last : Table} {hop : Hop} {hopCount : Nat} {notNull : Bool}
      {later : List Leg} (known : directory.constraint? hop.key.schema hop.key.name = some hop.key)
      (starts : hop.key.fromTable hop.direction = table.tableName)
      (reaches : directory.table? hop.toTable = some next)
      (rest : Passes directory next later last) :
      Passes directory table (⟨.hop hop, table, hopCount, notNull⟩ :: later) last

theorem Passes.append {middle : Table} {left right : List Leg}
    (before : Passes directory first left middle) (after : Passes directory middle right last) :
    Passes directory first (left ++ right) last := by
  induction before with
  | nil => exact after
  | filter filled written _ ih => exact .filter filled written (ih after)
  | hop known starts reaches _ ih => exact .hop known starts reaches (ih after)

theorem Passes.table?_tableName (passes : Passes directory first legs last)
    (named : directory.Named) (found : directory.table? first.tableName = some first) :
    directory.table? last.tableName = some last := by
  induction passes with
  | nil => exact found
  | filter _ _ _ ih => exact ih found
  | hop _ _ reaches _ ih => exact ih (named.table?_tableName reaches)

theorem HopStep.foreignKey_known (named : directory.Named) {step : HopStep}
    {table : TableName} {key : ForeignKey} {byColumns : Bool}
    (found : step.foreignKey table directory = .ok (key, byColumns)) :
    directory.constraint? key.schema key.name = some key ∧
      key.fromTable step.direction = table := by
  obtain ⟨_, _, -, -, known, starts⟩ | ⟨_, _, _, -, -, outbound, matching⟩ |
    ⟨_, _, _, -, -, inbound, matching⟩ := HopStep.foreignKey_cases found
  · exact ⟨named.of_constraint? known, starts⟩
  · obtain ⟨known, owner, -⟩ := named.of_constraintByColumns? matching
    exact ⟨known, outbound ▸ owner⟩
  · obtain ⟨known, -, referenced⟩ := named.of_constraintByColumns? matching
    exact ⟨known, inbound ▸ referenced⟩

theorem Walk.step_passes (named : directory.Named) {context : Context}
    (within : context.directory = directory) {walk next : Walk} {step : Step}
    (declared : step.Declared) (stepped : walk.step context step = .ok next) :
    ∃ leg, next.legs = leg :: walk.legs ∧ Passes directory walk.table [leg] next.table := by
  rcases Walk.step_cases stepped with ⟨tree, expanded, clause, rfl, expands, written, rfl⟩ |
    ⟨hopStep, hop, table, rfl, found, direction, -, reaches, rfl⟩
  · exact ⟨_, rfl, .filter (Filter.Tree.Declared.filled declared expands) written .nil⟩
  · rw [within] at found reaches
    obtain ⟨known, starts⟩ := HopStep.foreignKey_known named found
    exact ⟨_, rfl, .hop known (direction ▸ starts) reaches .nil⟩

theorem Walk.steps_passes (named : directory.Named) {context : Context}
    (within : context.directory = directory) {walk last : Walk} {later : List Step}
    (declared : ∀ step ∈ later, step.Declared) (walked : walk.steps context later = .ok last) :
    ∃ added, last.legs = added.reverse ++ walk.legs ∧
      Passes directory walk.table added last.table := by
  induction later generalizing walk with
  | nil =>
      cases walked
      exact ⟨[], rfl, .nil⟩
  | cons step later ih =>
      obtain ⟨isDeclared, declared⟩ := List.forall_mem_cons.mp declared
      obtain ⟨next, stepped, walked⟩ := bind_eq_ok.mp walked
      obtain ⟨leg, legs, passes⟩ := Walk.step_passes named within isDeclared stepped
      obtain ⟨added, laterLegs, laterPasses⟩ := ih declared walked
      exact ⟨leg :: added, by simp [laterLegs, legs], passes.append laterPasses⟩

variable {sources : String → Option Resolved} {source : Resolved}

theorem Grounded.root_eq (grounded : Grounded (Within directory root sources) source) :
    source.root = root := by
  cases grounded with
  | fromRoot admitted _ _ ended =>
      obtain ⟨_, -, rfl⟩ := Walk.route_eq_ok ended
      exact admitted.2.1
  | continuing admitted _ _ _ _ ended =>
      obtain ⟨_, -, rfl⟩ := Walk.route_eq_ok ended
      exact admitted.2.1

/-- A source whose filters, and those of all named sources, were declared. -/
theorem Grounded.passes (named : directory.Named)
    (allDeclared : ∀ key start, sources key = some start →
      ∀ step ∈ start.spec.steps, step.Declared)
    (grounded : Grounded (Within directory root sources) source)
    (declared : ∀ step ∈ source.spec.steps, step.Declared) :
    Passes directory root source.fullLegs source.table := by
  induction grounded with
  | @fromRoot context spec walk route admitted plain walked ended =>
      obtain ⟨within, rfl, -⟩ := admitted
      obtain ⟨_, -, rfl⟩ := Walk.route_eq_ok ended
      obtain ⟨added, legs, passes⟩ := Walk.steps_passes named within declared walked
      have all : walk.legs.reverse = added := by simp [legs, Walk.start]
      exact all ▸ passes
  | @continuing context key column start later walk route admitted found path grounded walked
      ended ih =>
      obtain ⟨within, rfl, rfl⟩ := admitted
      obtain ⟨_, -, rfl⟩ := Walk.route_eq_ok ended
      obtain ⟨added, legs, passes⟩ := Walk.steps_passes named within
        (fun step member => declared step (List.mem_cons_of_mem _ member)) walked
      have all : walk.legs.reverse = added := by simp [legs, Walk.after]
      exact (ih (allDeclared key start found)).append (all ▸ passes)

theorem Definitions.build_declared {engine : Template.Engine} {row : Row} {key : String}
    {start : Resolved} (found : (build directory root engine row).get? key = some start) :
    ∀ step ∈ start.spec.steps, step.Declared := by
  obtain ⟨definition, isDefined, rfl⟩ := get?_eq_some.mp found
  obtain ⟨item, read⟩ := build_read (definition?_sourcekey isDefined).1
  exact Spec.ofJson_declared read

def Leg.operands (leg : Leg) : List String :=
  match leg.move with
  | .filter tree _ => tree.operands
  | .hop _ => []

/-- The operands of the filters along a source. -/
def Resolved.operands (source : Resolved) : List String := source.fullLegs.flatMap Leg.operands

/-- The same leg on the way back: a filter of the same table, or a hop along the same foreign
    key the other way. -/
inductive Leg.Turned : Leg → Leg → Prop
  | filter (tree : Filter.Tree) (clause : String) (table : Table) (hopCount hopCount' : Nat)
      (notNull notNull' : Bool) :
      Turned ⟨.filter tree clause, table, hopCount, notNull⟩
        ⟨.filter tree clause, table, hopCount', notNull'⟩
  | hop (hop : Hop) {table next : Table} (reaches : hop.toTable = next.tableName)
      (hopCount hopCount' : Nat) (notNull notNull' : Bool) :
      Turned ⟨.hop hop, table, hopCount, notNull⟩
        ⟨.hop ⟨hop.key, hop.direction.flip, none, false⟩, next, hopCount', notNull'⟩

theorem readSteps_append {items items' : List Json} {steps steps' : List Step}
    (read : readSteps items = .ok steps) (read' : readSteps items' = .ok steps') :
    readSteps (items ++ items') = .ok (steps ++ steps') :=
  readSteps_eq_ok.mpr (List.rel_append (readSteps_eq_ok.mp read) (readSteps_eq_ok.mp read'))

theorem readSteps_singleton {item : Json} {step : Step} (read : Step.ofJson item = .ok step) :
    readSteps [item] = .ok [step] :=
  readSteps_eq_ok.mpr (.cons read .nil)

theorem Step.ofJson_constraint (direction : Direction) (schema name : String) :
    Step.ofJson (Step.hop ⟨direction, .constraint schema name, none⟩).toJson =
      .ok (.hop ⟨direction, .constraint schema name, none⟩) := by
  cases direction <;> rfl

theorem Step.ofJson_filter {tree template : Filter.Tree}
    (read : Filter.Tree.ofJson tree.toJson = .ok template) :
    Step.ofJson (Step.filter tree).toJson = .ok (.filter template) := by
  have isStep : ∃ fields, tree.toJson = .object fields ∧ fields.lookup sourcekeyKey = none ∧
      Filter.isDeclaredBy fields = true := by
    cases tree with
    | leaf leaf =>
        obtain ⟨column, operator, operand, negate⟩ := leaf
        refine ⟨_, rfl, ?_, rfl⟩
        cases operator <;> cases operand <;> cases negate <;> rfl
    | node junction children negate =>
        refine ⟨_, rfl, ?_, ?_⟩
        · cases junction <;> cases negate <;> rfl
        · cases junction <;> cases negate <;> rfl
  obtain ⟨fields, isObject, noSourcekey, isFilter⟩ := isStep
  rw [isObject] at read
  simp only [Step.toJson, isObject, Step.ofJson, noSourcekey, isFilter, read, if_true]

theorem HopStep.foreignKey_constraint {key : ForeignKey} {direction : Direction}
    {table : TableName} (known : directory.constraint? key.schema key.name = some key)
    (starts : key.fromTable direction = table) :
    HopStep.foreignKey ⟨direction, .constraint key.schema key.name, none⟩ table directory =
      .ok (key, false) := by
  simp only [HopStep.foreignKey, known, starts, if_true]

theorem Passes.back (passes : Passes directory first legs last) (named : directory.Named)
    (found : directory.table? first.tableName = some first) {context : Context}
    (within : context.directory = directory)
    (literal : ∀ text ∈ legs.flatMap Leg.operands, context.engine text context.row = text) :
    ∃ steps, readSteps ((Resolved.reversedSteps.legSteps legs).map Step.toJson) = .ok steps ∧
      ∀ walk : Walk, walk.table = last → ∃ reached added,
        walk.steps context steps = .ok reached ∧ reached.table = first ∧
          reached.legs = added ++ walk.legs ∧ List.Forall₂ Leg.Turned legs added := by
  induction passes with
  | nil =>
      refine ⟨[], rfl, ?_⟩
      intro walk atLast
      exact ⟨walk, [], rfl, atLast, rfl, .nil⟩
  | @filter table last tree clause hopCount notNull later filled written rest ih =>
      rw [List.flatMap_cons, List.forall_mem_append] at literal
      obtain ⟨steps, read, walks⟩ := ih found literal.2
      obtain ⟨template, isTemplate, expands⟩ := filled.readBack
      refine ⟨steps ++ [.filter template], ?_, ?_⟩
      · simp only [Resolved.reversedSteps.legSteps, List.reverse_cons, List.map_append]
        exact readSteps_append read (readSteps_singleton (Step.ofJson_filter isTemplate))
      · intro walk atLast
        obtain ⟨reached, added, walked, rfl, legs, turned⟩ := walks walk atLast
        have expanded := expands context.engine context.row literal.1
        refine ⟨reached.extend (.filter tree clause) (reached.facts.afterFilter reached.atStart)
          reached.table, _ :: added, ?_, rfl, congrArg (List.cons _) legs,
          .cons (.filter tree clause _ _ _ _ _) turned⟩
        rw [Walk.steps_append, walked, ok_bind, Walk.steps, Walk.step, Walk.filter, expanded,
          ok_bind, written]
        rfl
  | @hop table next last hop hopCount notNull later known starts reaches rest ih =>
      have atNext := named.table reaches
      obtain ⟨steps, read, walks⟩ :=
        ih (named.table?_tableName reaches) (by simpa [Leg.operands] using literal)
      have leaves : hop.key.fromTable hop.direction.flip = next.tableName := by
        rw [fromTable_flip, atNext, Hop.toTable]
      have arrives : directory.table? (hop.key.toTable hop.direction.flip) = some table := by
        rw [toTable_flip, starts, found]
      refine ⟨steps ++ [.hop ⟨hop.direction.flip, .constraint hop.key.schema hop.key.name, none⟩],
        ?_, ?_⟩
      · simp only [Resolved.reversedSteps.legSteps, List.reverse_cons, List.map_append]
        exact readSteps_append read (readSteps_singleton (Step.ofJson_constraint _ _ _))
      · intro walk atLast
        obtain ⟨reached, added, walked, rfl, legs, turned⟩ := walks walk atLast
        let turn : Hop := ⟨hop.key, hop.direction.flip, none, false⟩
        refine ⟨reached.extend (.hop turn) (reached.facts.afterHop turn reached.table) table,
          _ :: added, ?_, rfl, congrArg (List.cons _) legs, .cons (.hop hop atNext.symm _ _ _ _) turned⟩
        rw [Walk.steps_append, walked, ok_bind, Walk.steps, Walk.step, Walk.hop, within,
          HopStep.foreignKey_constraint known leaves, ok_bind]
        simp only [Hop.toTable, arrives]
        rfl

end PathQuery.Source
