import PathQuery.Facet.SearchBox

namespace PathQuery.Facet

/-! # Compiling facets

Facets are a conjunction of terms.  Each term becomes a part of a path that starts and
ends at the root table, so the parts can be put one after the other.  A term that also
admits rows without a value at the end of a path cannot be a part like the others: it
is read from its end to the root table, keeps the rows without a partner, and has to
come first.  There can be only one of that kind.
-/

def facetsKey : String := "and"

def alternativesKey : String := "or"

/-- Sources that take the place of others, by the token of the one they stand in for. -/
abbrev FastSources := List (String × Source.Resolved)

namespace FastSources

/-- Let a source stand in for another one. -/
def insert (spec : Source.Spec) (fast : Source.Resolved) : FastSources → FastSources
  | [] => [(spec.token, fast)]
  | entry :: rest =>
    if entry.1 = spec.token then (entry.1, fast) :: rest else entry :: insert spec fast rest

def get? (sources : FastSources) (spec : Source.Spec) : Option Source.Resolved :=
  sources.lookup spec.token

end FastSources

structure Options where
  rootAlias : String
  /-- The aliases that some sourcekeys are to have. -/
  forcedAliases : List (String × String)
  fastSources : FastSources

def Options.default : Options where
  rootAlias := "M"
  forcedAliases := []
  fastSources := []

structure Compiler where
  directory : Directory
  capabilities : Capabilities
  definitions : Source.Definitions
  engine : Template.Engine
  row : Row
  options : Options

structure Compiled where
  path : Path
  /-- The path starts at another table than the root. -/
  rightJoin : Bool
  /-- The aliases after the path, for what is to be joined to it. -/
  aliases : Aliases

/-- The part of a path that a term makes. -/
inductive Fragment where
  | inner (path : Path)
  /-- It starts at another table and has to come first. -/
  | right (path : Path)

def conjuncts : Json → Except Error (List Json)
  | .object fields =>
    match fields.lookup facetsKey with
    | some (.array (term :: terms)) => .ok (term :: terms)
    | some _ => .error (.ofKind .invalidFacet)
    | none =>
      if Json.Fields.contains fields alternativesKey then
        .error (.ofKind .invalidBooleanOperator)
      else .error (.ofKind .invalidFacet)
  | _ => .error (.ofKind .invalidFacet)

/-- The sourcekeys that a term goes through.  Each search column is joined on its
    own, so each counts. -/
def usedKeys (definitions : Source.Definitions) : Json → List String
  | .object fields =>
    match fields.lookup Source.sourcekeyKey with
    | some (.string key) =>
      if key = Source.searchBoxKey then
        definitions.searchColumns.flatMap fun column =>
          (column.spec.sourcekey?.map definitions.dependencies).getD []
      else definitions.dependencies key
    | _ =>
      match (fields.lookup Source.sourceKey).map Source.Spec.ofJson with
      | some (.ok spec) => (spec.sourcekey?.map definitions.dependencies).getD []
      | _ => []
  | _ => []

/-- The sourcekeys that are gone through more than once. -/
def reusedKeys (definitions : Source.Definitions) (terms : List Json) : List String :=
  let used := terms.flatMap (usedKeys definitions)
  (used.filter fun key => used.count key > 1).eraseDups

namespace Compiler

/-- The source a term constrains, and the sourcekey it is shared under.  A source that
    is declared under a name, though the term does not use it, is not resolved again. -/
def source (compiler : Compiler) (term : Term) (spec : Source.Spec) :
    Except Error (Source.Resolved × Option String) :=
  match compiler.options.fastSources.get? spec with
  | some fast => .ok (fast, none)
  | none =>
    match term.sourcekey? with
    | some key =>
      match compiler.definitions.get? key with
      | some source => .ok (source, some key)
      | none => .error (.ofKind .invalidSourcekey)
    | none =>
      match (compiler.definitions.sourcekeysFor spec.token).head?.bind
          compiler.definitions.get? with
      | some source => .ok (source, none)
      | none =>
        (fun source => (source, none)) <$> raise .ofSource
          (compiler.definitions.resolve compiler.directory compiler.engine compiler.row spec)

def columnFragment (compiler : Compiler) (term : Term) (aliases : Aliases) :
    Except Error (Fragment × Aliases) := do
  let spec ← term.spec
  let (source, key) ← compiler.source term spec
  let constraints ← term.constraints
  let clause ← raise .ofConstraint
    (Constraint.clauses constraints source.column compiler.capabilities)
  if source.hasPath && constraints.any Constraint.hasNullChoice then
    let path : Path := [.table source.table.tableName, .filter clause]
    return (.right (path ++ source.reversedPath aliases.root), aliases)
  else
    let (rendered, aliases) := source.path key aliases
    return (.inner (rendered.path ++ [.filter clause, .goTo aliases.root]), aliases)

def searchFragment (compiler : Compiler) (term : Term) (aliases : Aliases) :
    Except Error (Fragment × Aliases) := do
  match ← term.search with
  | .search terms :: _ =>
    let (path, aliases) ← searchPath compiler.definitions.searchColumns
      compiler.capabilities terms aliases
    return (.inner path, aliases)
  | _ => throw (.ofKind .invalidSearch)

def fragment (compiler : Compiler) (value : Json) (aliases : Aliases) :
    Except Error (Fragment × Aliases) := do
  let term ← Term.ofJson compiler.definitions value
  match term.origin with
  | .searchBox => compiler.searchFragment term aliases
  | _ => compiler.columnFragment term aliases

/-- What the terms so far have made. -/
structure Progress where
  aliases : Aliases
  right : Option Path
  inner : Path

def Progress.add (progress : Progress) (aliases : Aliases) :
    Fragment → Except Error Progress
  | .inner path => .ok { progress with aliases, inner := progress.inner ++ path }
  | .right path =>
    match progress.right with
    | some _ => .error (.ofKind .duplicateRightJoin)
    | none => .ok { progress with aliases, right := some path }

def addTerm (compiler : Compiler) (progress : Progress) (value : Json) :
    Except Error Progress := do
  let (fragment, aliases) ← compiler.fragment value progress.aliases
  progress.add aliases fragment

/-- Compile terms one after the other, up to the first that fails. -/
def addTerms (compiler : Compiler) (progress : Progress) :
    Nat → List Json → Except Error Progress
  | _, [] => .ok progress
  | index, value :: values => do
    let progress ← raise (Error.atTerm index) (compiler.addTerm progress value)
    compiler.addTerms progress (index + 1) values

def initialAliases (compiler : Compiler) (terms : List Json) : Aliases :=
  Aliases.new compiler.options.rootAlias compiler.options.forcedAliases
    (reusedKeys compiler.definitions terms)

def compile (compiler : Compiler) (facets : Json) : Except Error Compiled := do
  let terms ← conjuncts facets
  let start : Progress := ⟨compiler.initialAliases terms, none, []⟩
  let progress ← compiler.addTerms start 0 terms
  return {
    path := progress.right.getD [] ++ progress.inner
    rightJoin := progress.right.isSome
    aliases := progress.aliases }

end Compiler

end PathQuery.Facet
