import PathQuery.Path.OfSource
import PathQuery.Proofs.Path.Clauses
import PathQuery.Proofs.Source.Legs

namespace PathQuery.Source

/-! # Reading the legs of a source

The legs of a source can be read from the table that they start at, and backwards from the
table that they lead to.  What is bound at their end is known afterwards.
-/

open Reading

variable {catalog : Catalog} {first last : Table} {legs : List Leg}
  {known : List (String × Table)} {binding : Option String}

/-- What is known after some legs whose last hop binds `binding`. -/
def knownAfter (legs : List Leg) (binding : Option String) (last : Table)
    (known : List (String × Table)) : List (String × Table) :=
  if legs.any Leg.isHop then (binding.map fun name => (name, last)).toList ++ known else known

theorem knownAfter_none (legs : List Leg) (last : Table) (known : List (String × Table)) :
    knownAfter legs none last known = known := by
  unfold knownAfter
  split <;> rfl

theorem reads_join {scope : Scope} {key : ForeignKey} {direction : Direction} {next : Table}
    (kind : JoinKind) (belongs : catalog.HasKey key)
    (starts : key.fromTable direction = scope.table.tableName)
    (reaches : catalog.table? (key.toTable direction) = some next)
    (fresh : ∀ name, binding = some name → scope.aliases.lookup name = none ∧ IsWord name) :
    Reads catalog scope (Segment.join binding kind key direction).text
      ⟨next, (binding.map fun name => (name, next)).toList ++ scope.aliases⟩ := by
  have joins := join_joinText kind belongs starts reaches
  cases binding with
  | none => exact .join joins
  | some name =>
      obtain ⟨unknown, word⟩ := fresh name rfl
      exact .bind joins word unknown

theorem legSegments_noHop (kind : JoinKind) (binding : Option String)
    (noHop : legs.any Leg.isHop = false) :
    legSegments kind binding legs = legSegments kind none legs := by
  induction legs with
  | nil => rfl
  | cons leg later ih =>
      obtain ⟨move, table, hopCount, notNull⟩ := leg
      cases move with
      | filter tree clause =>
          simp only [legSegments]
          rw [ih (by simpa [Leg.isHop] using noHop)]
      | hop hop => simp [Leg.isHop] at noHop

theorem Leads.reads (leads : Leads catalog first legs last) (kind : JoinKind)
    (fresh : ∀ name, binding = some name → known.lookup name = none ∧ IsWord name) :
    ReadsAll catalog ⟨first, known⟩ ((legSegments kind binding legs).map Segment.text)
      ⟨last, knownAfter legs binding last known⟩ := by
  induction leads generalizing known binding with
  | nil => exact .nil
  | filter written _ ih => exact .cons (.filter (tree_clause written)) (ih fresh)
  | @hop table next last hop hopCount notNull later belongs starts reaches rest ih =>
      simp only [legSegments, List.map_cons]
      cases hops : later.any Leg.isHop with
      | true =>
          have after : knownAfter (⟨.hop hop, table, hopCount, notNull⟩ :: later) binding last
              known = knownAfter later binding last known := by
            simp [knownAfter, Leg.isHop, hops]
          rw [if_pos rfl, after]
          exact .cons (reads_join kind belongs starts reaches (by simp)) (ih fresh)
      | false =>
          have after : knownAfter (⟨.hop hop, table, hopCount, notNull⟩ :: later) binding last
              known = (binding.map fun name => (name, last)).toList ++ known := by
            simp [knownAfter, Leg.isHop]
          rw [if_neg Bool.false_ne_true, after, legSegments_noHop kind binding hops,
            rest.stays hops]
          refine .cons (reads_join kind belongs starts reaches fresh) ?_
          have read := @ih ((binding.map fun name => (name, next)).toList ++ known) none (by simp)
          rwa [knownAfter_none, rest.stays hops] at read

theorem fromTable_flip (key : ForeignKey) (direction : Direction) :
    key.fromTable direction.flip = key.toTable direction := by
  cases direction <;> rfl

theorem toTable_flip (key : ForeignKey) (direction : Direction) :
    key.toTable direction.flip = key.fromTable direction := by
  cases direction <;> rfl

theorem Leads.reads_reversed (leads : Leads catalog first legs last) (linked : catalog.Linked)
    (found : catalog.table? first.tableName = some first)
    (fresh : ∀ name, binding = some name → known.lookup name = none ∧ IsWord name) :
    ReadsAll catalog ⟨last, known⟩
      ((Resolved.reversedLegSegments binding legs).map Segment.text)
      ⟨first, knownAfter legs binding first known⟩ := by
  induction leads generalizing known binding with
  | nil => exact .nil
  | filter written _ ih =>
      simp only [Resolved.reversedLegSegments, List.map_append]
      exact (ih found fresh).append (.single (.filter (tree_clause written)))
  | @hop table next last hop hopCount notNull later belongs starts reaches rest ih =>
      have after : knownAfter (⟨.hop hop, table, hopCount, notNull⟩ :: later) binding table
          known = (binding.map fun name => (name, table)).toList ++ known := by
        simp [knownAfter, Leg.isHop]
      have leaves : hop.key.fromTable hop.direction.flip = next.tableName := by
        rw [fromTable_flip, linked.tableName reaches, Hop.toTable]
      have arrives : catalog.table? (hop.key.toTable hop.direction.flip) = some table := by
        rw [toTable_flip, starts, found]
      have back := @ih known none (linked.table?_tableName reaches) (by simp)
      rw [knownAfter_none] at back
      simp only [Resolved.reversedLegSegments, List.map_append]
      rw [after]
      refine back.append (.single ?_)
      cases binding with
      | none => exact @reads_join catalog none ⟨next, known⟩ _ _ _ .inner belongs leaves arrives fresh
      | some name =>
          exact @reads_join catalog (some name) ⟨next, known⟩ _ _ _ .right belongs leaves arrives
            fresh

end PathQuery.Source
