import PathQuery.Proofs.Facet.Cases
import PathQuery.Proofs.Path.Flattening
import PathQuery.Proofs.Path.SourceReading

namespace PathQuery.Facet

/-! # Reading the path of some facets

Each term makes a part that can be read from the root table back to it, with what the
parts before have bound; a part that comes first starts at its own table and only binds
the alias of the root table.  So the whole path can be read, whatever the terms are.
-/

open Reading Source

variable {catalog : Catalog} {root : Table} {named : String → Option Resolved}
  {aliases next : Aliases} {known after : List (String × Table)}

/-- A part of a path from the root table back to it. -/
structure ReadsInner (catalog : Catalog) (root : Table) (named : String → Option Resolved)
    (aliases : Aliases) (known : List (String × Table)) (path : Path) (next : Aliases)
    (after : List (String × Table)) : Prop where
  reads : ReadsAll catalog ⟨root, known⟩ (path.map Segment.text) ⟨root, after⟩
  aligned : Aligned named root [] next after
  grows : aliases.Grows next
  keeps : ∀ name table, known.lookup name = some table → after.lookup name = some table

/-- A part of a path that starts at another table and binds the alias of the root table. -/
def ReadsRight (catalog : Catalog) (root : Table) (rootAlias : String) (path : Path) : Prop :=
  ∃ start rest, path = .table start.tableName :: rest ∧
    catalog.table? start.tableName = some start ∧
    ReadsAll catalog ⟨start, []⟩ (rest.map Segment.text) ⟨root, [(rootAlias, root)]⟩

theorem reads_goToRoot (aligned : Aligned named root [] aliases known) (plain : aliases.Plain)
    (table : Table) :
    Reads catalog ⟨table, known⟩ (Segment.goTo aliases.root).text ⟨root, known⟩ :=
  .goTo (plain.words _ List.mem_cons_self) aligned.root

theorem anyTargetClause_reads {scope : Scope} {targets : List String} {term clause : String}
    (addressed : ∀ target ∈ targets, Target scope target)
    (written : anyTargetClause targets term = some clause) : Clause scope clause := by
  have encoded := @isEncoded_encodedPatterns term
  unfold anyTargetClause at written
  split at written
  · contradiction
  · cases written
    refine .joined (.inl rfl) fun clause listed => ?_
    obtain ⟨pattern, isPattern, rfl⟩ := List.mem_map.mp listed
    refine .grouped (.joined (.inr rfl) fun clause listed => ?_)
    obtain ⟨target, isTarget, rfl⟩ := List.mem_map.mp listed
    exact .comparison (addressed target isTarget) (by decide) (.value (encoded pattern isPattern))

theorem joinTermClauses_reads {scope : Scope} {clauses : List String} {clause : String}
    (each : ∀ clause ∈ clauses, Clause scope clause)
    (written : joinTermClauses clauses = some clause) : Clause scope clause := by
  unfold joinTermClauses at written
  split at written
  · contradiction
  · cases written
    exact each clause List.mem_cons_self
  · cases written
    refine .joined (.inr rfl) fun clause listed => ?_
    obtain ⟨inner, isInner, rfl⟩ := List.mem_map.mp listed
    exact .grouped (each inner isInner)

theorem ReadsInner.append {middle : Aliases} {between : List (String × Table)} {path path' : Path}
    (first : ReadsInner catalog root named aliases known path middle between)
    (second : ReadsInner catalog root named middle between path' next after) :
    ReadsInner catalog root named aliases known (path ++ path') next after where
  reads := by
    rw [List.map_append]
    exact first.reads.append second.reads
  aligned := second.aligned
  grows := first.grows.trans second.grows
  keeps name table isKnown := second.keeps name table (first.keeps name table isKnown)

/-- The join of a search column binds an alias that its name can be given with. -/
theorem searchJoin_reads (acyclic : Acyclic named) {source : Resolved}
    (traced : Traced catalog root named source) (hasPath : source.hasPath = true)
    (plain : aliases.Plain) (aligned : Aligned named root [] aliases known)
    {rendered : RenderedPath}
    (renders : source.render .left none (some aliases.mint.1) aliases.mint.2 = (rendered, next)) :
    ∃ after, ReadsInner catalog root named aliases known (rendered.path ++ [.goTo next.root]) next
        after ∧
      ∃ name, rendered.aliasName = some name ∧ IsWord name ∧ after.lookup name = some source.table := by
  have mintGrows := aliases.mint_grows
  have minted : Aligned named root [] aliases.mint.2 known :=
    aligned.grow mintGrows (fun _ => id) fun _ _ => rfl
  have promised : ∀ name, some aliases.mint.1 = some name →
      known.lookup name = none ∧ aliases.mint.2.Promised [] name := by
    intro name isHint
    obtain rfl := Option.some.inj isHint
    exact ⟨aligned.mint_fresh, .inl aliases.mint_fresh.2⟩
  obtain ⟨after, read⟩ := traced.renders acyclic .left none (some aliases.mint.1)
    (mintGrows.plain plain) minted nofun (fun _ _ => List.not_mem_nil) promised
  rw [renders] at read
  have grows := mintGrows.trans read.grows
  have back : Reads catalog ⟨source.table, after⟩ (Segment.goTo next.root).text ⟨root, after⟩ :=
    reads_goToRoot read.aligned (grows.plain plain) source.table
  obtain ⟨name, isName⟩ := Option.isSome_iff_exists.mp (read.hinted rfl hasPath)
  refine ⟨after, ⟨?_, read.aligned, grows, read.keeps⟩, name, isName, read.ends name isName⟩
  rw [List.map_append]
  exact read.reads.append (.single back)

/-- The joins of the search columns can be read, and so can their names afterwards. -/
theorem joinTargets_reads (acyclic : Acyclic named) {columns : List Resolved}
    (traced : ∀ column ∈ columns, Traced catalog root named column) (plain : aliases.Plain)
    (aligned : Aligned named root [] aliases known) {path : Path} {targets : List String}
    (joined : joinTargets columns aliases = .ok (path, targets, next)) :
    ∃ after, ReadsInner catalog root named aliases known path next after ∧
      ∀ target ∈ targets, Target ⟨root, after⟩ target := by
  induction columns generalizing aliases known path targets with
  | nil =>
      cases joined
      exact ⟨known, ⟨.nil, aligned, .refl _, fun _ _ => id⟩, nofun⟩
  | cons source columns ih =>
      obtain ⟨sourceTraced, othersTraced⟩ := List.forall_mem_cons.mp traced
      obtain ⟨pathless, names, joinedOthers, rfl⟩ |
        ⟨hasPath, rendered, reached, others, names, rendersTo, joinedOthers, rfl, rfl⟩ :=
        joinTargets_cons joined
      · obtain ⟨after, read, addressed⟩ := ih othersTraced plain aligned joinedOthers
        refine ⟨after, read, List.forall_mem_cons.mpr ⟨?_, addressed⟩⟩
        exact .column (sourceTraced.table_eq_root pathless ▸ sourceTraced.column_mem)
      · obtain ⟨between, first, name, isName, word, isKnown⟩ :=
          searchJoin_reads acyclic sourceTraced hasPath plain aligned rendersTo
        obtain ⟨after, read, addressed⟩ :=
          ih othersTraced (first.grows.plain plain) first.aligned joinedOthers
        rw [read.grows.root]
        refine ⟨after, first.append read, List.forall_mem_cons.mpr ⟨?_, addressed⟩⟩
        rw [isName]
        exact .aliased word (read.keeps name _ isKnown) sourceTraced.column_mem

theorem readsInner_clause (aligned : Aligned named root [] aliases known) (plain : aliases.Plain)
    {clause : String} (holds : Clause ⟨root, known⟩ clause) :
    ReadsInner catalog root named aliases known [.filter clause, .goTo aliases.root] aliases
      known where
  reads := .cons (.filter holds) (.single (reads_goToRoot aligned plain root))
  aligned := aligned
  grows := .refl aliases
  keeps _ _ := id

theorem searchPath_reads (acyclic : Acyclic named) {columns : List Resolved}
    (traced : ∀ column ∈ columns, Traced catalog root named column) (plain : aliases.Plain)
    (aligned : Aligned named root [] aliases known) {capabilities : Capabilities}
    {terms : List Json} {path : Path}
    (searched : searchPath columns capabilities terms aliases = .ok (path, next)) :
    path ≠ [] ∧ ∃ after, ReadsInner catalog root named aliases known path next after := by
  obtain ⟨-, rfl, rfl, -⟩ | ⟨column, clause, rfl, pathless, rfl, written, rfl⟩ |
    ⟨joins, targets, clause, -, joined, written, rfl⟩ := searchPath_cases searched
  · refine ⟨List.cons_ne_nil _ _, known, readsInner_clause aligned plain ?_⟩
    refine .joined (.inr rfl) fun clause listed => ?_
    obtain ⟨term, -, written⟩ := List.mem_filterMap.mp listed
    exact termClause .wholeRow written
  · have columnTraced := traced column List.mem_cons_self
    have onRoot : column.column ∈ root.columns :=
      columnTraced.table_eq_root pathless ▸ columnTraced.column_mem
    exact ⟨List.cons_ne_nil _ _, known,
      readsInner_clause aligned plain (constraint_clause onRoot written)⟩
  · obtain ⟨after, read, addressed⟩ := joinTargets_reads acyclic traced plain aligned joined
    refine ⟨by simp, after, ?_, read.aligned, read.grows, read.keeps⟩
    have holds : Clause ⟨root, after⟩ clause := by
      refine joinTermClauses_reads (fun clause listed => ?_) written
      obtain ⟨term, -, termWritten⟩ := List.mem_filterMap.mp listed
      exact anyTargetClause_reads addressed termWritten
    have back : Reads catalog ⟨root, after⟩ (Segment.goTo aliases.root).text ⟨root, after⟩ := by
      rw [← read.grows.root]
      exact reads_goToRoot read.aligned (read.grows.plain plain) root
    rw [List.map_append]
    exact read.reads.append (.cons (.filter holds) (.single back))

end PathQuery.Facet
