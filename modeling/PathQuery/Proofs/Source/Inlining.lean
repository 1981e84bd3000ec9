import PathQuery.Proofs.Source.Declarations

namespace PathQuery.Source

/-! # Inlining

A source that starts with a sourcekey says the same as the one with the steps of the
named source in its place, over and over until no sourcekey leads.  Resolving both
gives the same: the walk goes on from the end of the named source just as it would
have come there by its steps.
-/

/-- Put the steps of the named source in the place of a leading sourcekey, until none
leads. -/
inductive Inlines (named : String → Option Resolved) : Spec → Spec → Prop
  | done {spec : Spec} (plain : spec.sourcekey? = none) : Inlines named spec spec
  | step {key column : String} {later : List Step} {start : Resolved} {inlined : Spec}
      (found : named key = some start)
      (rest : Inlines named ⟨start.spec.steps ++ later, column⟩ inlined) :
      Inlines named ⟨.sourcekey key :: later, column⟩ inlined

theorem Inlines.unique {named : String → Option Resolved} {spec first second : Spec}
    (left : Inlines named spec first) (right : Inlines named spec second) :
    first = second := by
  induction left with
  | done plain =>
      cases right with
      | done => rfl
      | step => simp [Spec.sourcekey?] at plain
  | step found _ ih =>
      cases right with
      | done plain => simp [Spec.sourcekey?] at plain
      | step found' rest =>
          rw [found] at found'
          cases found'
          exact ih rest

def Leg.hop? (leg : Leg) : Option Hop :=
  match leg.move with
  | .hop hop => some hop
  | .filter .. => none

namespace Resolved

/-- The steps of a source, with those of the sources it continues in the place of its
sourcekeys. -/
def inlinedSteps : Resolved → List Step
  | fromRoot route => route.spec.steps
  | continuing _ start route => start.inlinedSteps ++ route.spec.steps.tail

def fullLegs : Resolved → List Leg
  | fromRoot route => route.legs
  | continuing _ start route => start.fullLegs ++ route.legs

/-- The source with all its legs its own, under another spec. -/
def flatten (spec : Spec) (source : Resolved) : Resolved :=
  .fromRoot { source.route with spec, legs := source.fullLegs }

end Resolved

theorem Grounded.hopCount {admits : Context → Prop} {source : Resolved}
    (grounded : Grounded admits source) :
    source.facts.hopCount = source.fullLegs.countP Leg.isHop := by
  induction grounded with
  | fromRoot _ _ walked ended =>
      obtain ⟨_, -, rfl⟩ := Walk.route_eq_ok ended
      simpa [Resolved.facts, Resolved.route, Resolved.fullLegs, Walk.start, Facts.start] using
        Walk.steps_hopCount rfl walked
  | continuing _ _ _ _ walked ended ih =>
      obtain ⟨_, -, rfl⟩ := Walk.route_eq_ok ended
      simpa [Resolved.facts, Resolved.route, Resolved.fullLegs, Walk.after, ← ih] using
        Walk.steps_hopCount rfl walked

theorem Grounded.hasPath_eq {admits : Context → Prop} {source : Resolved}
    (grounded : Grounded admits source) : source.hasPath = source.fullLegs.any Leg.isHop := by
  rw [Bool.eq_iff_iff, Resolved.hasPath, grounded.hopCount]
  simp [List.countP_pos_iff]

/-- Every source that is continued leaves its root table. -/
def Resolved.StartsMove : Resolved → Prop
  | fromRoot _ => True
  | continuing _ start _ => start.fullLegs.any Leg.isHop = true ∧ start.StartsMove

theorem Grounded.startsMove {admits : Context → Prop} {source : Resolved}
    (grounded : Grounded admits source) : source.StartsMove := by
  induction grounded with
  | fromRoot => trivial
  | continuing _ _ path start _ _ ih => exact ⟨start.hasPath_eq ▸ path, ih⟩

/-- A path that leaves its root is where its inlined steps lead. -/
theorem Grounded.walk_inlinedSteps {context : Context} {source : Resolved}
    (grounded : Grounded (· = context) source) (path : source.hasPath = true) :
    (Walk.start context.root).steps context source.inlinedSteps =
      .ok ((Walk.after source).under source.fullLegs.reverse) := by
  induction grounded with
  | @fromRoot _ spec walk route admitted _ walked ended =>
      subst admitted
      obtain ⟨column, -, rfl⟩ := Walk.route_eq_ok ended
      have moved : spec.steps.isEmpty = false := by
        cases steps : spec.steps with
        | nil =>
            rw [steps] at walked
            cases walked
            simp [Resolved.hasPath, Resolved.facts, Resolved.route, Walk.start, Facts.start] at path
        | cons _ _ => rfl
      have begun := Walk.steps_atStart walked
      rw [moved, Bool.and_false] at begun
      have counted : 0 < walk.facts.hopCount := by
        simpa [Resolved.hasPath, Resolved.facts, Resolved.route] using path
      change (Walk.start _).steps _ spec.steps = _
      rw [walked]
      simp [Walk.under, Walk.after, Resolved.fullLegs, Resolved.table, Resolved.facts,
        Resolved.route, counted, ← begun]
  | @continuing _ key column start later walk route admitted _ startPath _ walked ended ih =>
      subst admitted
      obtain ⟨found, -, rfl⟩ := Walk.route_eq_ok ended
      have begun := Walk.steps_atStart walked
      have counted : 0 < walk.facts.hopCount := by
        simpa [Resolved.hasPath, Resolved.facts, Resolved.route] using path
      change (Walk.start _).steps _ (start.inlinedSteps ++ later) = _
      -- The steps never look at the legs behind them, so those of the start stay below.
      rw [Walk.steps_append, ih startPath, ok_bind, Walk.steps_under, walked]
      simp [Walk.under, Walk.after, Resolved.fullLegs, Resolved.table, Resolved.facts,
        Resolved.route, counted, begun]

theorem Grounded.inlinedSteps_plain {context : Context} {source : Resolved}
    (grounded : Grounded (· = context) source) (path : source.hasPath = true)
    (later : List Step) (column : String) :
    (Spec.mk (source.inlinedSteps ++ later) column).sourcekey? = none := by
  induction grounded generalizing later with
  | @fromRoot _ spec walk route admitted plain walked ended =>
      obtain ⟨_, -, rfl⟩ := Walk.route_eq_ok ended
      change (Spec.mk (spec.steps ++ later) column).sourcekey? = none
      cases steps : spec.steps with
      | nil =>
          rw [steps] at walked
          cases walked
          simp [Resolved.hasPath, Resolved.facts, Resolved.route, Walk.start, Facts.start] at path
      | cons step rest =>
          cases step with
          | sourcekey key => simp [Spec.sourcekey?, steps] at plain
          | filter tree => rfl
          | hop step => rfl
  | continuing _ _ startPath _ _ _ ih =>
      rw [Resolved.inlinedSteps, List.append_assoc]
      exact ih startPath _

theorem Grounded.inlines {context : Context} {start : Resolved}
    (grounded : Grounded (· = context) start) (path : start.hasPath = true) {key : String}
    (found : context.named key = some start) (later : List Step) (column : String) :
    Inlines context.named ⟨.sourcekey key :: later, column⟩
      ⟨start.inlinedSteps ++ later, column⟩ := by
  induction grounded generalizing key later with
  | @fromRoot _ spec walk route admitted plain walked ended =>
      have grounded : Grounded (· = context) (.fromRoot route) :=
        .fromRoot admitted plain walked ended
      exact .step found (.done (grounded.inlinedSteps_plain path later column))
  | @continuing _ _ _ start own walk route admitted named startPath _ _ ended ih =>
      obtain ⟨_, -, rfl⟩ := Walk.route_eq_ok ended
      subst admitted
      refine .step found ?_
      have rest := ih startPath named (own ++ later)
      rw [← List.append_assoc] at rest
      exact rest

/-- Resolving the inlined source gives the flattened outcome of the source itself. -/
theorem Grounded.resolve_inlined {context : Context} {start : Resolved}
    (grounded : Grounded (· = context) start) (path : start.hasPath = true) {key : String}
    (found : context.named key = some start) (later : List Step) (column : String) :
    (Spec.mk (start.inlinedSteps ++ later) column).resolve context =
      Resolved.flatten ⟨start.inlinedSteps ++ later, column⟩ <$>
        (Spec.mk (.sourcekey key :: later) column).resolve context := by
  rw [Spec.resolve_plain context (grounded.inlinedSteps_plain path later column),
    Spec.resolve_sourcekey, Context.start_eq_ok.mpr ⟨found, path⟩, ok_bind,
    Walk.steps_append, grounded.walk_inlinedSteps path, ok_bind, Walk.steps_under]
  cases walked : (Walk.after start).steps context later with
  | error error => rfl
  | ok walk =>
      simp only [except_map_ok, ok_bind, Walk.route, Walk.under]
      cases walk.table.column? column with
      | none => rfl
      | some found =>
          simp [Resolved.flatten, Resolved.route, Resolved.fullLegs]

end PathQuery.Source
