import PathQuery.Proofs.Facet.Reading

namespace PathQuery.Facet

/-! # Compiled paths are well scoped

Whatever the facets are, the path that they compile to can be read from the root table
back to it, or from the table that it names first.  What is known of the terms so far
holds of no terms and stays with each term that is added.
-/

open Reading Source

variable {catalog : Catalog} {root : Table} {named : String → Option Resolved}
  {aliases next : Aliases} {known : List (String × Table)}

/-- All sources that a compiler goes by are traced from its root table. -/
structure Compiler.Rooted (compiler : Compiler) (catalog : Catalog) (root : Table) : Prop where
  linked : catalog.Linked
  found : catalog.table? root.tableName = some root
  acyclic : Acyclic compiler.definitions.get?
  defined : ∀ key source, compiler.definitions.get? key = some source →
    Traced catalog root compiler.definitions.get? source
  resolved : ∀ spec source,
    compiler.definitions.resolve compiler.directory compiler.engine compiler.row spec = .ok source →
    Traced catalog root compiler.definitions.get? source
  fast : ∀ entry ∈ compiler.options.fastSources,
    Traced catalog root compiler.definitions.get? entry.2
  search : ∀ column ∈ compiler.definitions.searchColumns,
    Traced catalog root compiler.definitions.get? column

variable {compiler : Compiler}

theorem Compiler.Rooted.source_traced (rooted : compiler.Rooted catalog root) {term : Term}
    {spec : Spec} {source : Resolved} {key : Option String}
    (found : compiler.source term spec = .ok (source, key)) :
    Traced catalog root compiler.definitions.get? source ∧
      ∀ shared, key = some shared → compiler.definitions.get? shared = some source := by
  obtain ⟨⟨entry, listed, rfl⟩, rfl⟩ | ⟨shared, -, isNamed, rfl⟩ | ⟨-, rfl, isShared | resolved⟩ :=
    Compiler.source_cases found
  · exact ⟨rooted.fast entry listed, nofun⟩
  · refine ⟨rooted.defined shared source isNamed, fun other same => ?_⟩
    rwa [← Option.some.inj same]
  · obtain ⟨other, -, isNamed⟩ := Option.bind_eq_some_iff.mp isShared
    exact ⟨rooted.defined other source isNamed, nofun⟩
  · exact ⟨rooted.resolved spec source resolved, nofun⟩

/-- A part of a path, with what the parts before it have bound. -/
def Fragment.Reads (catalog : Catalog) (root : Table) (named : String → Option Resolved)
    (aliases : Aliases) (known : List (String × Table)) (next : Aliases) : Fragment → Prop
  | .inner path =>
    path ≠ [] ∧ ∃ after, ReadsInner catalog root named aliases known path next after
  | .right path => next = aliases ∧ ReadsRight catalog root aliases.root path

theorem readsRight_of_traced (linked : catalog.Linked)
    (found : catalog.table? root.tableName = some root) {source : Resolved}
    (traced : Traced catalog root named source) (path : source.hasPath = true)
    {clause rootAlias : String} (word : IsWord rootAlias)
    (holds : Clause ⟨source.table, []⟩ clause) :
    ReadsRight catalog root rootAlias
      ([.table source.table.tableName, .filter clause] ++ source.reversedPath rootAlias) := by
  have back := @Leads.reads_reversed catalog _ _ _ [] (some rootAlias) traced.leads linked found
    (by
      intro name isAlias
      obtain rfl := Option.some.inj isAlias
      exact ⟨rfl, word⟩)
  have after : knownAfter source.fullLegs (some rootAlias) root [] = [(rootAlias, root)] := by
    simp [knownAfter, ← traced.hasPath_eq, path]
  rw [after, ← traced.startsMove.reversedPath_eq] at back
  exact ⟨source.table, .filter clause :: source.reversedPath rootAlias, rfl,
    traced.table?_tableName linked found, .cons (.filter holds) back⟩

theorem Compiler.Rooted.columnFragment_reads (rooted : compiler.Rooted catalog root)
    (plain : aliases.Plain)
    (aligned : Aligned compiler.definitions.get? root [] aliases known) {term : Term}
    {fragment : Fragment} (compiled : compiler.columnFragment term aliases = .ok (fragment, next)) :
    fragment.Reads catalog root compiler.definitions.get? aliases known next := by
  obtain ⟨spec, source, key, constraints, clause, -, found, -, written, cases⟩ :=
    Compiler.columnFragment_cases compiled
  obtain ⟨traced, shares⟩ := rooted.source_traced found
  have holds : ∀ known, Clause ⟨source.table, known⟩ clause := fun known =>
    constraint_clauses traced.column_mem written
  have word := plain.words _ List.mem_cons_self
  obtain ⟨nullable, rfl, rfl⟩ | ⟨-, rfl, rfl⟩ := cases
  · simp only [Bool.and_eq_true] at nullable
    exact ⟨rfl, readsRight_of_traced rooted.linked rooted.found traced nullable.1 word (holds [])⟩
  · obtain ⟨after, read⟩ := traced.renders rooted.acyclic .inner key none plain aligned
      (fun shared same => ⟨shares shared same, List.not_mem_nil⟩)
      (fun _ _ => List.not_mem_nil) nofun
    refine ⟨by simp, after, ?_, read.aligned, read.grows, read.keeps⟩
    have back : Reads catalog ⟨source.table, after⟩
        (Segment.goTo (source.path key aliases).2.root).text ⟨root, after⟩ :=
      reads_goToRoot read.aligned (read.grows.plain plain) source.table
    rw [List.map_append]
    exact read.reads.append (.cons (.filter (holds after)) (.single back))

theorem Compiler.Rooted.fragment_reads (rooted : compiler.Rooted catalog root)
    (plain : aliases.Plain)
    (aligned : Aligned compiler.definitions.get? root [] aliases known) {value : Json}
    {fragment : Fragment} (compiled : compiler.fragment value aliases = .ok (fragment, next)) :
    fragment.Reads catalog root compiler.definitions.get? aliases known next := by
  obtain ⟨term, -, ⟨-, compiled⟩ | ⟨-, compiled⟩⟩ := Compiler.fragment_cases compiled
  · obtain ⟨words, path, searched, rfl⟩ := Compiler.searchFragment_cases compiled
    exact searchPath_reads rooted.acyclic rooted.search plain aligned searched
  · exact rooted.columnFragment_reads plain aligned compiled

/-- What the terms so far have made can be read, the part that comes first on its own. -/
structure Compiler.Progress.Reads (catalog : Catalog) (root : Table) (named : String → Option Resolved)
    (start : Aliases) (progress : Compiler.Progress) (known : List (String × Table)) : Prop where
  inner : ReadsAll catalog ⟨root, [(start.root, root)]⟩ (progress.inner.map Segment.text)
    ⟨root, known⟩
  right : ∀ path, progress.right = some path → ReadsRight catalog root start.root path
  aligned : Aligned named root [] progress.aliases known
  grows : start.Grows progress.aliases

/-- Some term has made a part of the path. -/
def Compiler.Progress.IsStarted (progress : Compiler.Progress) : Prop :=
  progress.right.isSome = true ∨ progress.inner ≠ []

variable {start : Aliases} {progress reached : Compiler.Progress}

theorem Compiler.Progress.Reads.add (reads : progress.Reads catalog root named start known)
    {fragment : Fragment} (read : fragment.Reads catalog root named progress.aliases known next)
    (added : progress.add next fragment = .ok reached) :
    reached.IsStarted ∧ ∃ after, reached.Reads catalog root named start after := by
  obtain ⟨path, rfl, rfl⟩ | ⟨path, rfl, -, rfl⟩ := Compiler.Progress.add_cases added
  · obtain ⟨nonempty, after, read⟩ := read
    refine ⟨.inr (by simp [nonempty]), after, ?_, reads.right, read.aligned,
      reads.grows.trans read.grows⟩
    rw [List.map_append]
    exact reads.inner.append read.reads
  · obtain ⟨rfl, read⟩ := read
    refine ⟨.inl rfl, known, reads.inner, ?_, reads.aligned, reads.grows⟩
    intro other same
    obtain rfl := Option.some.inj same
    exact reads.grows.root ▸ read

theorem Compiler.Rooted.addTerm_reads (rooted : compiler.Rooted catalog root)
    (plain : start.Plain)
    (reads : progress.Reads catalog root compiler.definitions.get? start known) {value : Json}
    (added : compiler.addTerm progress value = .ok reached) :
    reached.IsStarted ∧
      ∃ after, reached.Reads catalog root compiler.definitions.get? start after := by
  obtain ⟨⟨fragment, next⟩, compiled, added⟩ := bind_eq_ok.mp added
  exact reads.add
    (rooted.fragment_reads (reads.grows.plain plain) reads.aligned compiled) added

theorem Compiler.Rooted.addTerms_reads (rooted : compiler.Rooted catalog root)
    (plain : start.Plain) {values : List Json} {index : Nat}
    (reads : progress.Reads catalog root compiler.definitions.get? start known)
    (started : progress.IsStarted ∨ values ≠ [])
    (added : compiler.addTerms progress index values = .ok reached) :
    reached.IsStarted ∧
      ∃ after, reached.Reads catalog root compiler.definitions.get? start after := by
  induction values generalizing progress index known with
  | nil =>
      cases added
      exact ⟨started.resolve_right (absurd rfl), known, reads⟩
  | cons value values ih =>
      obtain ⟨between, first, added⟩ := bind_eq_ok.mp added
      obtain ⟨isStarted, after, reads⟩ := rooted.addTerm_reads plain reads (raise_eq_ok.mp first)
      exact ih reads (.inl isStarted) added

theorem Compiler.Progress.Reads.readsPath (reads : progress.Reads catalog root named start known)
    (started : progress.IsStarted) :
    ReadsPath catalog root start.root progress.right.isSome
      (progress.right.getD [] ++ progress.inner).text := by
  cases right : progress.right with
  | none =>
      have nonempty : progress.inner ≠ [] := started.resolve_left (by simp [right])
      have split := pieces_text nonempty reads.inner.noSlash
      exact .fromRoot (split ▸ reads.inner)
  | some path =>
      obtain ⟨first, rest, rfl, found, read⟩ := reads.right path right
      have all := read.append reads.inner
      rw [← List.map_append] at all
      refine .fromEnd ?_ found all
      rw [Option.getD_some, pieces_text (by simp)]
      · rfl
      · intro piece listed
        simp only [List.cons_append, List.map_cons, List.mem_cons] at listed
        rcases listed with rfl | listed
        · exact noSlash_tableText first.tableName
        · exact all.noSlash piece listed

theorem Compiler.rooted_of_build (linked : catalog.Linked)
    (found : catalog.table? root.tableName = some root) {engine : Template.Engine} {row : Row}
    (directory : compiler.directory = catalog.directory)
    (built : compiler.definitions = Definitions.build catalog.directory root engine row)
    (fast : ∀ entry ∈ compiler.options.fastSources, ∃ engine row spec,
      compiler.definitions.resolve compiler.directory engine row spec = .ok entry.2) :
    compiler.Rooted catalog root where
  linked := linked
  found := found
  acyclic := by
    rw [built]
    exact (Definitions.build_chained catalog.directory root engine row).acyclic
  defined key source isNamed := by
    rw [built] at isNamed ⊢
    exact Definitions.build_traced linked isNamed
  resolved spec source resolved := by
    rw [built, directory] at resolved
    rw [built]
    exact Definitions.resolve_traced linked resolved
  fast entry listed := by
    obtain ⟨engine, row, spec, resolved⟩ := fast entry listed
    rw [built, directory] at resolved
    rw [built]
    exact Definitions.resolve_traced linked resolved
  search column listed := by
    rw [built] at listed ⊢
    obtain ⟨spec, resolved⟩ := Definitions.mem_searchColumns listed
    exact Definitions.resolve_traced linked resolved

/-- Every compiled path is well scoped: whatever the catalog, the table, the facets and the
    options are, its pieces can be read one after the other. -/
theorem compiled_path_well_scoped {text : String} (accepted : Catalog.ofText text = .ok catalog)
    {name : TableName} (found : catalog.table? name = some root) {engine : Template.Engine}
    {row : Row} (directory : compiler.directory = catalog.directory)
    (built : compiler.definitions = Definitions.build catalog.directory root engine row)
    (words : ∀ name ∈ compiler.options.rootAlias :: compiler.options.forcedAliases.map Prod.snd,
      IsWord name)
    (distinct :
      (compiler.options.rootAlias :: compiler.options.forcedAliases.map Prod.snd).Nodup)
    (fast : ∀ entry ∈ compiler.options.fastSources, ∃ engine row spec,
      compiler.definitions.resolve compiler.directory engine row spec = .ok entry.2)
    {facets : Json} {compiled : Compiled} (compiles : compiler.compile facets = .ok compiled) :
    ReadsPath catalog root compiler.options.rootAlias compiled.rightJoin compiled.path.text := by
  have linked := Catalog.ofText_linked accepted
  have rooted := Compiler.rooted_of_build linked (linked.table?_tableName found) directory built fast
  obtain ⟨terms, conjoined, compiles⟩ := bind_eq_ok.mp compiles
  obtain ⟨progress, added, compiles⟩ := bind_eq_ok.mp compiles
  cases compiles
  have plain : (compiler.initialAliases terms).Plain := ⟨words, distinct⟩
  have initial : Compiler.Progress.Reads catalog root compiler.definitions.get?
      (compiler.initialAliases terms) ⟨compiler.initialAliases terms, none, []⟩
      [(compiler.options.rootAlias, root)] :=
    ⟨.nil, nofun, .start _ root _ _ _, .refl _⟩
  obtain ⟨started, known, reads⟩ :=
    rooted.addTerms_reads plain initial (.inr (conjuncts_nonempty conjoined)) added
  exact reads.readsPath started

/-! Two tables and a foreign key on two columns, one of which has a blank in its name.  The
path keeps the rows without a partner for one term, joins a source under the forced alias for
another, and goes on from there, back along the foreign key, for the third one. -/

namespace Sample

def declaration : String :=
  "schemas: [\x7bname: s, tables: [\x7bname: m, columns: [\x7bname: o\x7d, \x7bname: p q\x7d], " ++
    "foreign_keys: [\x7bname: k, columns: [o, p q], " ++
    "references: \x7bschema: s, table: n, columns: [i, j]\x7d\x7d], source_definitions: \x7b" ++
    "a: \x7bsource: [\x7boutbound: [s, k]\x7d, i]\x7d, " ++
    "b: \x7bsource: [\x7bsourcekey: a\x7d, \x7binbound: [s, k]\x7d, o]\x7d\x7d\x7d, " ++
    "\x7bname: n, columns: [\x7bname: i\x7d, \x7bname: j\x7d]\x7d]\x7d]"

def forcing (catalog : Catalog) (root : Table) : Compiler where
  directory := catalog.directory
  capabilities := catalog.features.capabilities
  definitions := .build catalog.directory root (fun template _ => template) []
  engine := fun template _ => template
  row := []
  options := { Options.default with forcedAliases := [("a", "A")] }

def facets : Json :=
  .object [("and", .array [
    .object [("sourcekey", .string "a"), ("choices", .array [.string "x"])],
    .object [("sourcekey", .string "b"), ("choices", .array [.string "y"])],
    .object [("sourcekey", .string "a"), ("choices", .array [.null])]])]

def pathText : String :=
  "s:n/i::null::/M:=right(i,j)=(s:m:o,p%20q)/A:=(o,p%20q)=(s:n:i,j)/i=x/$M/" ++
    "$A/(i,j)=(s:m:o,p%20q)/o=y/$M"

def compiledText (text : String) (facets : Json) : Option String := do
  let catalog ← (Catalog.ofText text).toOption
  let root ← catalog.table? ⟨"s", "m"⟩
  let compiled ← ((forcing catalog root).compile facets).toOption
  return compiled.path.text

end Sample

set_option maxRecDepth 100000 in
theorem compiled_path_well_scoped_declared : ∃ catalog root compiled,
    Catalog.ofText Sample.declaration = .ok catalog ∧ catalog.table? ⟨"s", "m"⟩ = some root ∧
    (Sample.forcing catalog root).compile Sample.facets = .ok compiled ∧
    compiled.path.text = Sample.pathText ∧
    ReadsPath catalog root "M" compiled.rightJoin compiled.path.text := by
  have evaluated : Sample.compiledText Sample.declaration Sample.facets = some Sample.pathText := by
    decide +kernel
  simp only [Sample.compiledText, Option.bind_eq_bind, Option.pure_def, Option.bind_eq_some_iff,
    Option.some.injEq, toOption_eq_some] at evaluated
  obtain ⟨catalog, accepted, root, found, compiled, compiles, same⟩ := evaluated
  have words : ∀ name ∈ ["M", "A"], IsWord name := by
    intro name listed
    rcases listed with _ | ⟨_, _ | ⟨_, ⟨⟩⟩⟩ <;> exact ⟨by decide, List.all_eq_true.mp (by decide)⟩
  have distinct : ["M", "A"].Nodup := by decide
  have noFast : (Sample.forcing catalog root).options.fastSources = [] := rfl
  exact ⟨catalog, root, compiled, accepted, found, compiles, same,
    compiled_path_well_scoped accepted found rfl rfl words distinct (by simp [noFast]) compiles⟩

end PathQuery.Facet
