import PathQuery.Facet.Compiler
import PathQuery.Proofs.Outcome

namespace PathQuery.Facet

/-! # How facets compile

What a step of the compiler can do when it succeeds: where the source of a term comes
from, which fragment the term becomes, and what the search box joins.
-/

open Source

variable {compiler : Compiler} {aliases next : Aliases} {term : Term} {fragment : Fragment}

theorem raise_eq_ok {convert : ε → Error} {outcome : Except ε α} {value : α} :
    raise convert outcome = .ok value ↔ outcome = .ok value := by
  cases outcome with
  | ok found => simp [raise]
  | error error => simp [raise]

theorem Term.ofJson_cases {definitions : Definitions} {value : Json}
    (read : Term.ofJson definitions value = .ok term) :
    ∃ attributes, value = .object attributes ∧
      ((attributes.lookup sourcekeyKey = none ∧ term = ⟨.inline, attributes⟩) ∨
       (attributes.lookup sourcekeyKey = some (.string searchBoxKey) ∧
          term.origin = .searchBox) ∨
       ∃ key, key ≠ searchBoxKey ∧ attributes.lookup sourcekeyKey = some (.string key) ∧
          term.origin = .sourcekey key) := by
  cases value with
  | object attributes =>
      refine ⟨attributes, rfl, ?_⟩
      obtain ⟨origin, isOrigin, read⟩ := bind_eq_ok.mp read
      unfold readOrigin at isOrigin
      split at isOrigin
      · rename_i absent
        cases isOrigin
        cases read
        exact .inl ⟨absent, rfl⟩
      · rename_i key present
        cases isOrigin
        by_cases isSearch : key = searchBoxKey
        · subst isSearch
          simp only [if_true] at read
          cases read
          exact .inr (.inl ⟨present, rfl⟩)
        · simp only [if_neg isSearch] at read
          split at read
          · cases read
            exact .inr (.inr ⟨key, isSearch, present, rfl⟩)
          · contradiction
      · contradiction
  | _ => contradiction

theorem Term.spec_eq_ok {spec : Spec} :
    term.spec = .ok spec ↔
      ∃ item, term.attributes.lookup sourceKey = some item ∧ Spec.ofJson item = .ok spec := by
  unfold Term.spec
  cases term.attributes.lookup sourceKey with
  | none => simp
  | some item => simp [raise_eq_ok]

/-- A source is a fast one, that of a sourcekey, that of a definition with its token, or
    resolved. -/
theorem Compiler.source_cases {spec : Spec} {source : Resolved} {key : Option String}
    (found : compiler.source term spec = .ok (source, key)) :
    ((∃ entry ∈ compiler.options.fastSources, entry.2 = source) ∧ key = none) ∨
    (∃ shared, term.sourcekey? = some shared ∧ compiler.definitions.get? shared = some source ∧
      key = some shared) ∨
    (term.sourcekey? = none ∧ key = none ∧
      ((compiler.definitions.sourcekeysFor spec.token).head?.bind compiler.definitions.get? =
          some source ∨
        compiler.definitions.resolve compiler.directory compiler.engine compiler.row spec =
          .ok source)) := by
  unfold Compiler.source at found
  split at found
  · rename_i fast isFast
    cases found
    obtain ⟨before, after, listed, -⟩ := List.lookup_eq_some_iff.mp isFast
    refine .inl ⟨⟨(spec.token, source), ?_, rfl⟩, rfl⟩
    rw [listed]
    exact List.mem_append_right before List.mem_cons_self
  · refine .inr ?_
    cases isKey : term.sourcekey? with
    | some shared =>
        simp only [isKey] at found
        split at found
        · rename_i isNamed
          cases found
          exact .inl ⟨shared, rfl, isNamed, rfl⟩
        · contradiction
    | none =>
        simp only [isKey] at found
        refine .inr ⟨rfl, ?_⟩
        split at found
        · rename_i isShared
          cases found
          exact ⟨rfl, .inl isShared⟩
        · cases resolved : compiler.definitions.resolve compiler.directory compiler.engine
              compiler.row spec with
          | error error => simp [resolved, raise] at found
          | ok other =>
              simp only [resolved, raise, except_map_ok, Except.ok.injEq] at found
              cases found
              exact ⟨rfl, .inr rfl⟩

theorem Compiler.columnFragment_cases
    (compiled : compiler.columnFragment term aliases = .ok (fragment, next)) :
    ∃ spec source key constraints clause, term.spec = .ok spec ∧
      compiler.source term spec = .ok (source, key) ∧ term.constraints = .ok constraints ∧
      Constraint.clauses constraints source.column compiler.capabilities = .ok clause ∧
      (((source.hasPath && constraints.any Constraint.hasNullChoice) = true ∧ next = aliases ∧
          fragment = .right ([.table source.table.tableName, .filter clause] ++
            source.reversedPath aliases.root)) ∨
        ((source.hasPath && constraints.any Constraint.hasNullChoice) = false ∧
          next = (source.path key aliases).2 ∧
          fragment = .inner ((source.path key aliases).1.path ++
            [.filter clause, .goTo (source.path key aliases).2.root]))) := by
  obtain ⟨spec, isSpec, compiled⟩ := bind_eq_ok.mp compiled
  obtain ⟨⟨source, key⟩, found, compiled⟩ := bind_eq_ok.mp compiled
  obtain ⟨constraints, constrained, compiled⟩ := bind_eq_ok.mp compiled
  obtain ⟨clause, written, compiled⟩ := bind_eq_ok.mp compiled
  refine ⟨spec, source, key, constraints, clause, isSpec, found, constrained,
    raise_eq_ok.mp written, ?_⟩
  dsimp only at compiled
  split at compiled
  · rename_i outer
    cases compiled
    exact .inl ⟨outer, rfl, rfl⟩
  · rename_i inner
    cases compiled
    exact .inr ⟨Bool.eq_false_iff.mpr inner, rfl, rfl⟩

theorem Compiler.searchFragment_cases
    (compiled : compiler.searchFragment term aliases = .ok (fragment, next)) :
    ∃ words path, searchPath compiler.definitions.searchColumns compiler.capabilities words
      aliases = .ok (path, next) ∧ fragment = .inner path := by
  obtain ⟨constraints, -, compiled⟩ := bind_eq_ok.mp compiled
  dsimp only at compiled
  split at compiled
  · rename_i words _
    obtain ⟨⟨path, reached⟩, searched, compiled⟩ := bind_eq_ok.mp compiled
    cases compiled
    exact ⟨words, path, searched, rfl⟩
  · contradiction

theorem Compiler.fragment_cases {value : Json}
    (compiled : compiler.fragment value aliases = .ok (fragment, next)) :
    ∃ term, Term.ofJson compiler.definitions value = .ok term ∧
      ((term.origin = .searchBox ∧ compiler.searchFragment term aliases = .ok (fragment, next)) ∨
       (term.origin ≠ .searchBox ∧
          compiler.columnFragment term aliases = .ok (fragment, next))) := by
  obtain ⟨term, read, compiled⟩ := bind_eq_ok.mp compiled
  refine ⟨term, read, ?_⟩
  cases origin : term.origin with
  | searchBox => exact .inl ⟨rfl, by simpa [origin] using compiled⟩
  | sourcekey key => exact .inr ⟨nofun, by simpa [origin] using compiled⟩
  | inline => exact .inr ⟨nofun, by simpa [origin] using compiled⟩

theorem Compiler.Progress.add_cases {progress reached : Compiler.Progress}
    (added : progress.add next fragment = .ok reached) :
    (∃ path, fragment = .inner path ∧
      reached = ⟨next, progress.right, progress.inner ++ path⟩) ∨
    (∃ path, fragment = .right path ∧ progress.right = none ∧
      reached = ⟨next, some path, progress.inner⟩) := by
  cases fragment with
  | inner path =>
      cases added
      exact .inl ⟨path, rfl, rfl⟩
  | right path =>
      cases first : progress.right with
      | some other => simp [Compiler.Progress.add, first] at added
      | none =>
          simp only [Compiler.Progress.add, first, Except.ok.injEq] at added
          exact .inr ⟨path, rfl, rfl, added.symm⟩

theorem conjuncts_nonempty {facets : Json} {terms : List Json}
    (conjoined : conjuncts facets = .ok terms) : terms ≠ [] := by
  unfold conjuncts at conjoined
  split at conjoined
  · split at conjoined
    · cases conjoined
      exact List.cons_ne_nil _ _
    · contradiction
    · split at conjoined <;> contradiction
  · contradiction

theorem joinTargets_cons {column : Resolved} {columns : List Resolved} {path : Path}
    {targets : List String}
    (joined : joinTargets (column :: columns) aliases = .ok (path, targets, next)) :
    (column.hasPath = false ∧ ∃ names, joinTargets columns aliases = .ok (path, names, next) ∧
      targets = Text.percentEncode column.column.name :: names) ∨
    (column.hasPath = true ∧ ∃ rendered reached others names,
      column.render .left none (some aliases.mint.1) aliases.mint.2 = (rendered, reached) ∧
      joinTargets columns reached = .ok (others, names, next) ∧
      path = rendered.path ++ [.goTo next.root] ++ others ∧
      targets = (rendered.aliasName.getD aliases.mint.1 ++ ":" ++
        Text.percentEncode column.column.name) :: names) := by
  cases hasPath : column.hasPath with
  | false =>
      simp only [joinTargets, hasPath] at joined
      obtain ⟨⟨others, names, reached⟩, joinedOthers, joined⟩ := bind_eq_ok.mp joined
      cases joined
      exact .inl ⟨rfl, names, joinedOthers, rfl⟩
  | true =>
      simp only [joinTargets, hasPath, if_true] at joined
      obtain ⟨⟨rendered, reached⟩, left, joined⟩ := bind_eq_ok.mp joined
      obtain ⟨⟨others, names, last⟩, joinedOthers, joined⟩ := bind_eq_ok.mp joined
      cases joined
      rw [raise_eq_ok, Resolved.leftPath] at left
      split at left
      · exact .inr ⟨rfl, rendered, reached, others, names, Except.ok.inj left, joinedOthers, rfl, rfl⟩
      · contradiction

/-- A search looks in the whole row, in a column of the root table, or in columns that are
    joined before. -/
theorem searchPath_cases {columns : List Resolved} {capabilities : Capabilities}
    {words : List Json} {path : Path}
    (searched : searchPath columns capabilities words aliases = .ok (path, next)) :
    (columns = [] ∧ next = aliases ∧
      path = [.filter (";".intercalate (words.filterMap fun word =>
        Search.termClause word.plainText wholeRow (capabilities wholeRowColumn))),
        .goTo aliases.root] ∧
      (words.filterMap fun word =>
        Search.termClause word.plainText wholeRow (capabilities wholeRowColumn)) ≠ []) ∨
    (∃ column clause, columns = [column] ∧ column.hasPath = false ∧ next = aliases ∧
      (Constraint.search words).clause column.column capabilities = .ok clause ∧
      path = [.filter clause, .goTo aliases.root]) ∨
    (∃ joins targets clause, columns ≠ [] ∧
      joinTargets columns aliases = .ok (joins, targets, next) ∧
      joinTermClauses (words.filterMap fun word => anyTargetClause targets word.plainText) =
        some clause ∧
      path = joins ++ [.filter clause, .goTo aliases.root]) := by
  unfold searchPath at searched
  by_cases filtered : (columns.any fun column => !column.hasPath && column.isFiltered) = true
  · simp [filtered] at searched
  simp only [if_neg filtered] at searched
  cases columns with
  | nil =>
      simp only at searched
      split at searched
      · contradiction
      · rename_i given
        cases searched
        exact .inl ⟨rfl, rfl, rfl, List.isEmpty_iff.not.mp given⟩
  | cons first others =>
      refine .inr ?_
      simp only at searched
      split at searched
      · rename_i alone
        obtain ⟨clause, written, searched⟩ := bind_eq_ok.mp searched
        cases searched
        simp only [Bool.and_eq_true, Bool.not_eq_true', List.isEmpty_iff] at alone
        obtain ⟨rfl, pathless⟩ := alone
        exact .inl ⟨first, clause, rfl, pathless, rfl, raise_eq_ok.mp written, rfl⟩
      · obtain ⟨⟨joins, targets, reached⟩, joined, searched⟩ := bind_eq_ok.mp searched
        simp only at searched
        split at searched
        · contradiction
        · rename_i clause written
          cases searched
          exact .inr ⟨joins, targets, clause, List.cons_ne_nil _ _, joined, written, rfl⟩

end PathQuery.Facet
