import PathQuery.Proofs.Path.Rendering
import PathQuery.Proofs.Path.Reversal
import PathQuery.Proofs.Path.Rows
import PathQuery.Proofs.Source.Equivalence

namespace PathQuery.Source

/-! # The way back without filters

The reversed steps of a source without filters follow foreign keys by their names and do
nothing else.  They are read as they were written, a canonical text leaves nothing of them
open, and what they are resolved to is written as the joins back.
-/

variable {directory : Directory} {root last : Table} {legs : List Leg}

/-- The hops of some legs from the last one to the first, each the other way. -/
def hopsBack (legs : List Leg) : List (ForeignKey × Direction) :=
  (legs.reverse.filterMap Leg.hop?).map fun hop => (hop.key, hop.direction.flip)

theorem hop?_of_unfiltered {leg : Leg} (unfiltered : leg.isFilter = false) :
    ∃ hop table hopCount notNull, leg = ⟨.hop hop, table, hopCount, notNull⟩ := by
  obtain ⟨move, table, hopCount, notNull⟩ := leg
  cases move with
  | filter tree clause => contradiction
  | hop hop => exact ⟨hop, table, hopCount, notNull, rfl⟩

theorem reversedLegSegments_unfiltered (unfiltered : ∀ leg ∈ legs, leg.isFilter = false) :
    Resolved.reversedLegSegments none legs = hopJoins (hopsBack legs) := by
  induction legs with
  | nil => rfl
  | cons leg later ih =>
      obtain ⟨first, others⟩ := List.forall_mem_cons.mp unfiltered
      obtain ⟨hop, table, hopCount, notNull, rfl⟩ := hop?_of_unfiltered first
      simp [Resolved.reversedLegSegments, ih others, hopJoins, hopsBack, Leg.hop?]

/-- A hop along a foreign key by its name. -/
def Step.IsNamedHop (step : Step) : Prop :=
  ∃ direction schema name, step = .hop ⟨direction, .constraint schema name, none⟩

theorem legSteps_unfiltered (unfiltered : ∀ leg ∈ legs, leg.isFilter = false) :
    ∀ step ∈ Resolved.reversedSteps.legSteps legs, step.IsNamedHop := by
  intro step member
  obtain ⟨leg, inLegs, rfl⟩ := List.mem_map.mp member
  obtain ⟨hop, table, hopCount, notNull, rfl⟩ :=
    hop?_of_unfiltered (unfiltered leg (List.mem_reverse.mp inLegs))
  exact ⟨_, _, _, rfl⟩

theorem readSteps_namedHops {steps : List Step} (named : ∀ step ∈ steps, step.IsNamedHop) :
    readSteps (steps.map Step.toJson) = .ok steps := by
  rw [readSteps_eq_ok, List.forall₂_map_left_iff, List.forall₂_same]
  intro step member
  obtain ⟨direction, schema, name, rfl⟩ := named step member
  exact Step.ofJson_constraint direction schema name

theorem eq_of_reordered_namedHops {steps steps' : List Step}
    (named : ∀ step ∈ steps, step.IsNamedHop)
    (reordered : List.Forall₂ (Step.Reordered true) steps' steps) : steps' = steps := by
  induction reordered with
  | nil => rfl
  | cons first _ ih =>
      obtain ⟨⟨direction, schema, name, rfl⟩, others⟩ := List.forall_mem_cons.mp named
      cases first with
      | hop direction aliasName targets =>
          cases targets
          rw [ih others]

theorem Spec.Reordered.eq_of_namedHops {spec spec' : Spec} (reordered : spec.Reordered true spec')
    (named : ∀ step ∈ spec'.steps, step.IsNamedHop) : spec = spec' := by
  obtain ⟨steps, column⟩ := spec
  obtain ⟨steps', column'⟩ := spec'
  obtain rfl : steps = steps' := eq_of_reordered_namedHops named reordered.steps
  obtain rfl : column = column' := reordered.column
  rfl

theorem Resolved.path_fromRoot (route : Route) (aliases : Aliases) :
    (Resolved.fromRoot route).path none aliases =
      (⟨legSegments .inner none route.legs, none⟩, aliases) := by
  have unbound : ((none : Option String).filter fun _ => (Resolved.fromRoot route).hasPath).bind
      aliases.get? = none := rfl
  rw [Resolved.path, Resolved.render_joined unbound]
  simp [chooseAlias, renderLead, bindEnd, renderLegs, Resolved.legs, Resolved.route]

/-- What the reversed steps of an unfiltered source are resolved to is written as the joins
    back. -/
theorem Passes.resolve_unfiltered (passes : Passes directory root legs last)
    (named : directory.Named) (found : directory.table? root.tableName = some root)
    (unfiltered : ∀ leg ∈ legs, leg.isFilter = false) {context : Context}
    (within : context.directory = directory) (atEnd : context.root = last) {column : String}
    {back : Resolved}
    (resolved : (Spec.mk (Resolved.reversedSteps.legSteps legs) column).resolve context =
      .ok back) (aliases : Aliases) :
    back.path none aliases = (⟨hopJoins (hopsBack legs), none⟩, aliases) ∧
      back.column.name = column := by
  have plain : ∀ text ∈ legs.flatMap Leg.operands, context.engine text context.row = text := by
    intro text member
    obtain ⟨leg, inLegs, inOperands⟩ := List.mem_flatMap.mp member
    obtain ⟨hop, table, hopCount, notNull, rfl⟩ := hop?_of_unfiltered (unfiltered leg inLegs)
    contradiction
  obtain ⟨steps, read, walks⟩ := passes.back named found within plain
  obtain rfl : Resolved.reversedSteps.legSteps legs = steps :=
    Except.ok.inj ((readSteps_namedHops (legSteps_unfiltered unfiltered)).symm.trans read)
  obtain ⟨reached, added, walked, -, isAdded, turned⟩ := walks (Walk.start context.root) atEnd
  rw [Spec.resolve_walked walked] at resolved
  cases ended : reached.route context ⟨Resolved.reversedSteps.legSteps legs, column⟩ with
  | error error => simp [ended] at resolved
  | ok route =>
      rw [ended, except_map_ok] at resolved
      cases resolved
      obtain ⟨isColumn, isFound, rfl⟩ := Walk.route_eq_ok ended
      have all : reached.legs = added := by simp [isAdded, Walk.start]
      refine ⟨?_, beq_iff_eq.mp (List.find?_some (p := fun entry : Column => entry.name == column)
        isFound)⟩
      rw [Resolved.path_fromRoot, all, legSegments_turned turned,
        reversedLegSegments_unfiltered unfiltered]

end PathQuery.Source
