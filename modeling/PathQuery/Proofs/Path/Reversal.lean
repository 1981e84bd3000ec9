import PathQuery.Proofs.Path.Flattening
import PathQuery.Proofs.Source.Turning
import PathQuery.Proofs.Text.Separated

namespace PathQuery

/-! # There and back

A source with hops can be turned round in two ways: its path is written from its end to
its root, or its steps are reversed and resolved as a source of the end table.  Both give
one path, but for the alias and the right join that mark the root in the first.  Turned
round again, the steps are those of the source with every foreign key by its name.
-/

/-- A filter, or a join that gives no alias and keeps no row without a partner. -/
def Segment.Plain : Segment → Prop
  | .join binding kind _ _ => binding = none ∧ kind = .inner
  | .filter _ => True
  | .table _ => False
  | .goTo _ => False

/-- The paths differ in one join, which has an alias and keeps all rows on its right in the
    first path.  All else in them is plain. -/
def Path.MarkedOnce (name : String) (marked plain : Path) : Prop :=
  ∃ before after key direction,
    marked = before ++ .join (some name) .right key direction :: after ∧
    plain = before ++ .join none .inner key direction :: after ∧
    ∀ segment ∈ before ++ after, segment.Plain

theorem Path.text_around (before after : Path) :
    ∃ left right, ∀ segment : Segment,
      Path.text (before ++ segment :: after) = left ++ segment.text ++ right := by
  refine ⟨.ofList ((before.map fun segment => segment.text.toList).flatMap (· ++ ['/'])),
    .ofList ((after.map fun segment => segment.text.toList).flatMap ('/' :: ·)), ?_⟩
  intro segment
  apply String.toList_inj.mp
  simp only [Path.text, String.toList_intercalate, List.map_append, List.map_cons, List.map_map,
    String.toList_append, String.toList_ofList]
  exact Text.intercalate_around '/' _ _ _

theorem Path.MarkedOnce.text {name : String} {marked plain : Path}
    (once : Path.MarkedOnce name marked plain) :
    ∃ left right, marked.text = left ++ (name ++ ":=right") ++ right ∧
      plain.text = left ++ right := by
  obtain ⟨before, after, key, direction, rfl, rfl, -⟩ := once
  obtain ⟨left, right, around⟩ := Path.text_around before after
  refine ⟨left, key.joinText direction .inner ++ right, ?_, ?_⟩
  · rw [around]
    apply String.toList_inj.mp
    simp [Segment.text, ForeignKey.joinText, JoinKind.text]
  · rw [around, Segment.text, String.append_assoc]

namespace Source

variable {legs added : List Leg}

theorem reversedLegSegments_plain (legs : List Leg) :
    ∀ segment ∈ Resolved.reversedLegSegments none legs, segment.Plain := by
  induction legs with
  | nil => nofun
  | cons leg later ih =>
      obtain ⟨move, table, hopCount, notNull⟩ := leg
      cases move with
      | filter tree clause =>
          rw [Resolved.reversedLegSegments]
          exact List.forall_mem_append.mpr ⟨ih, List.forall_mem_singleton.mpr trivial⟩
      | hop hop =>
          rw [Resolved.reversedLegSegments]
          exact List.forall_mem_append.mpr ⟨ih, List.forall_mem_singleton.mpr ⟨rfl, rfl⟩⟩

theorem reversedLegSegments_marked (name : String) (moves : legs.any Leg.isHop = true) :
    Path.MarkedOnce name (Resolved.reversedLegSegments (some name) legs)
      (Resolved.reversedLegSegments none legs) := by
  induction legs with
  | nil => contradiction
  | cons leg later ih =>
      obtain ⟨move, table, hopCount, notNull⟩ := leg
      cases move with
      | filter tree clause =>
          obtain ⟨before, after, key, direction, marked, plain, others⟩ :=
            ih (by simpa [Leg.isHop] using moves)
          refine ⟨before, after ++ [.filter clause], key, direction, ?_, ?_, ?_⟩
          · simp [Resolved.reversedLegSegments, marked]
          · simp [Resolved.reversedLegSegments, plain]
          · rw [← List.append_assoc]
            exact List.forall_mem_append.mpr ⟨others, List.forall_mem_singleton.mpr trivial⟩
      | hop hop =>
          refine ⟨Resolved.reversedLegSegments none later, [], hop.key, hop.direction.flip, rfl,
            rfl, ?_⟩
          rw [List.append_nil]
          exact reversedLegSegments_plain later

/-- Legs that are turned are written forwards as the others are backwards. -/
theorem legSegments_turned (turned : List.Forall₂ Leg.Turned legs added) :
    legSegments .inner none added.reverse = Resolved.reversedLegSegments none legs := by
  induction turned with
  | nil => rfl
  | cons first _ ih =>
      rw [List.reverse_cons, legSegments_append, ite_self, ih]
      cases first with
      | filter tree clause table => rfl
      | hop hop reaches => simp [legSegments, Resolved.reversedLegSegments]

theorem countP_isHop_turned (turned : List.Forall₂ Leg.Turned legs added) :
    added.countP Leg.isHop = legs.countP Leg.isHop := by
  induction turned with
  | nil => rfl
  | cons first _ ih =>
      rw [List.countP_cons, List.countP_cons, ih]
      cases first <;> rfl

/-- The step of a leg with its foreign key by name. -/
def Leg.namedStep (leg : Leg) : Step :=
  match leg.move with
  | .filter tree _ => .filter tree
  | .hop hop => .hop ⟨hop.direction, .constraint hop.key.schema hop.key.name, none⟩

theorem flip_flip (direction : Direction) : direction.flip.flip = direction := by
  cases direction <;> rfl

theorem legSteps_turned (turned : List.Forall₂ Leg.Turned legs added) :
    Resolved.reversedSteps.legSteps added.reverse = legs.map Leg.namedStep := by
  rw [Resolved.reversedSteps.legSteps, List.reverse_reverse]
  induction turned with
  | nil => rfl
  | cons first _ ih =>
      rw [List.map_cons, List.map_cons, ih]
      cases first with
      | filter tree clause table => rfl
      | hop hop reaches => simp [Resolved.reversedSteps.legStep, Leg.namedStep, flip_flip]

/-- The second source leads from the end of the first one back to its root. -/
structure Resolved.UndoneBy (source back : Resolved) : Prop where
  table : back.table = source.root
  hopCount : back.facts.hopCount = source.facts.hopCount
  /-- The same foreign keys the other way and the same filters on the same tables, in
      opposite order. -/
  legs : List.Forall₂ Leg.Turned source.fullLegs back.fullLegs.reverse
  path : ∀ (name : String) (key : Option String) (aliases : Aliases), aliases.Untouched →
    Path.MarkedOnce name (source.reversedPath name) (back.path key aliases).1.path
  text : ∀ (name : String) (key : Option String) (aliases : Aliases), aliases.Untouched →
    ∃ left right, (source.reversedPath name).text = left ++ (name ++ ":=right") ++ right ∧
      (back.path key aliases).1.path.text = left ++ right
  steps : back.reversedSteps = source.fullLegs.map Leg.namedStep

theorem Grounded.undoneBy {admits admits' : Context → Prop} {source back : Resolved}
    (there : Grounded admits source) (andBack : Grounded admits' back)
    (table : back.table = source.root) (moves : source.hasPath = true)
    (turned : List.Forall₂ Leg.Turned source.fullLegs back.fullLegs.reverse) :
    source.UndoneBy back := by
  have path : ∀ (name : String) (key : Option String) (aliases : Aliases), aliases.Untouched →
      Path.MarkedOnce name (source.reversedPath name) (back.path key aliases).1.path := by
    intro name key aliases untouched
    have plain := legSegments_turned turned
    rw [List.reverse_reverse] at plain
    rw [Resolved.path, andBack.render_untouched _ untouched, plain,
      there.startsMove.reversedPath_eq]
    exact reversedLegSegments_marked name (there.hasPath_eq ▸ moves)
  refine ⟨table, ?_, turned, path, fun name key aliases untouched =>
    (path name key aliases untouched).text, ?_⟩
  · rw [there.hopCount, andBack.hopCount, ← countP_isHop_turned turned, List.countP_reverse]
  · have steps := legSteps_turned turned
    rwa [List.reverse_reverse, ← back.reversedSteps_eq] at steps

theorem Walk.steps_plain {context : Context} {walk last : Walk} {steps : List Step}
    (walked : walk.steps context steps = .ok last) (column : String) :
    (Spec.mk steps column).sourcekey? = none := by
  cases steps with
  | nil => rfl
  | cons step later =>
      cases step with
      | sourcekey key => contradiction
      | filter tree => rfl
      | hop step => rfl

/-- A source whose steps have been walked from the root is where the walk came to. -/
theorem Spec.resolve_walked {context : Context} {steps : List Step} {reached : Walk}
    (walked : (Walk.start context.root).steps context steps = .ok reached) (column : String) :
    (Spec.mk steps column).resolve context =
      Resolved.fromRoot <$> reached.route context ⟨steps, column⟩ := by
  rw [Spec.resolve_plain context (Walk.steps_plain walked column), walked, ok_bind]
  cases reached.route context ⟨steps, column⟩ <;> rfl

theorem Spec.ofJson_steps {items : List Json} {steps : List Step}
    (read : readSteps items = .ok steps) (column : String) :
    Spec.ofJson (.array (items ++ [.string column])) = .ok ⟨steps, column⟩ := by
  simp [Spec.ofJson, read]

/-- The reversed steps of a source, with a column of its root, are read and resolved on its
    end table to a source that undoes it. -/
theorem reversed_steps_lead_back {directory : Directory} (named : directory.Named)
    {root : Table} (found : directory.table? root.tableName = some root)
    {engine engine' : Template.Engine} {row row' : Row} {item : Json} {spec : Spec}
    (read : Spec.ofJson item = .ok spec) {source : Resolved}
    (resolved : (Definitions.build directory root engine row).resolve directory engine' row' spec =
      .ok source)
    (moves : 0 < source.facts.hopCount)
    (literal : ∀ text ∈ source.operands, Template.Literal text)
    {column : Column} (isColumn : column ∈ root.columns) (row'' : Row) :
    ∃ spec' back,
      Spec.ofJson (.array (source.reversedSteps.map Step.toJson ++ [.string column.name])) =
        .ok spec' ∧
      spec'.resolve {
        directory
        root := source.table
        named := fun _ => none
        engine := Template.braces
        row := row'' } = .ok back ∧
      source.UndoneBy back ∧ back.column.name = column.name := by
  have there := Definitions.resolve_within resolved
  have declared : ∀ step ∈ source.spec.steps, step.Declared := by
    rw [Spec.resolve_spec resolved]
    exact Spec.ofJson_declared read
  have passes := there.passes named (fun _ _ => Definitions.build_declared) declared
  let context : Context := {
    directory
    root := source.table
    named := fun _ => none
    engine := Template.braces
    row := row'' }
  obtain ⟨steps, isRead, walks⟩ := @Passes.back directory root source.table source.fullLegs passes
    named found context rfl fun text member => Template.braces_literal (literal text member) row''
  rw [← source.reversedSteps_eq] at isRead
  obtain ⟨reached, added, walked, atRoot, legs, turned⟩ := walks (Walk.start source.table) rfl
  obtain ⟨column', isFound⟩ : ∃ column', root.column? column.name = some column' :=
    Option.isSome_iff_exists.mp (List.find?_isSome.mpr ⟨column, isColumn, beq_self_eq_true _⟩)
  obtain ⟨route, ended⟩ : ∃ route, reached.route context ⟨steps, column.name⟩ = .ok route := by
    simp only [Walk.route, atRoot, isFound, Except.ok.injEq, exists_eq']
  have andBack : Grounded (· = context) (.fromRoot route) :=
    .fromRoot rfl (Walk.steps_plain walked column.name) walked ended
  have resolves : (Spec.mk steps column.name).resolve context = .ok (.fromRoot route) := by
    rw [Spec.resolve_walked walked, ended, except_map_ok]
  obtain ⟨last, isLast, rfl⟩ := Walk.route_eq_ok ended
  refine ⟨_, _, Spec.ofJson_steps isRead column.name, resolves, ?_, ?_⟩
  · refine there.undoneBy andBack (atRoot.trans there.root_eq.symm) ?_ ?_
    · simpa [Resolved.hasPath] using moves
    · simpa [Resolved.fullLegs, legs, Walk.start] using turned
  · have same := List.find?_some isLast
    exact beq_iff_eq.mp same

end Source

namespace Sample

/-- The other items of an owner of a given name: on from a named source, back to the table
    it started at by a foreign key that is given by its columns. -/
def coOwned : Json :=
  .array [
    .object [("sourcekey", .string "named")],
    .object [("inbound", .object [
      ("remote_schema", .string "s"), ("remote_table", .string "item"),
      ("local_columns", .array [.string "id"]),
      ("remote_columns", .array [.string "owner_id"])])],
    .object [("filter", .string "id"), ("operator", .string "::gt::"),
      ("operand_pattern", .string "5")],
    .string "id"]

theorem catalog_named : catalog.directory.Named :=
  (Catalog.link_linked catalog).named (by decide)

end Sample

namespace Source

theorem reversed_steps_lead_back_coOwned :
    Sample.catalog.directory.Named ∧
    Sample.catalog.directory.table? Sample.item.tableName = some Sample.item ∧
    ∃ spec source, Spec.ofJson Sample.coOwned = .ok spec ∧
      Sample.definitions.resolve Sample.catalog.directory Sample.engine [] spec = .ok source ∧
      0 < source.facts.hopCount ∧ (∀ text ∈ source.operands, Template.Literal text) ∧
      ⟨"id", .int4, false⟩ ∈ Sample.item.columns ∧
      ∃ spec' back,
        Spec.ofJson (.array (source.reversedSteps.map Step.toJson ++ [.string "id"])) =
          .ok spec' ∧
        spec'.resolve {
          directory := Sample.catalog.directory
          root := source.table
          named := fun _ => none
          engine := Template.braces
          row := [] } = .ok back ∧
        source.UndoneBy back ∧ back.column.name = "id" := by
  have resolves : ((Spec.ofJson Sample.coOwned).toOption.bind fun spec =>
      (Sample.definitions.resolve Sample.catalog.directory Sample.engine [] spec).toOption).map
        (fun source => (source.facts.hopCount, source.operands)) = some (2, ["x", "5"]) := by
    decide +kernel
  obtain ⟨source, found, facts⟩ := Option.map_eq_some_iff.mp resolves
  obtain ⟨spec, read, resolved⟩ := Option.bind_eq_some_iff.mp found
  obtain ⟨hops, operands⟩ := Prod.mk.inj facts
  rw [toOption_eq_some] at read resolved
  have moves : 0 < source.facts.hopCount := by
    rw [hops]
    decide
  have literal : ∀ text ∈ source.operands, Template.Literal text := by
    rw [operands]
    decide
  have isColumn : (⟨"id", .int4, false⟩ : Column) ∈ Sample.item.columns := List.mem_cons_self
  exact ⟨Sample.catalog_named, rfl, spec, source, read, resolved, moves, literal, isColumn,
    reversed_steps_lead_back Sample.catalog_named rfl read resolved moves literal isColumn []⟩

end Source

end PathQuery
