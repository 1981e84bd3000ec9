import PathQuery.Facet.Term

namespace PathQuery.Facet

/-! # The search box

The search box looks for the terms in the search columns of a table or, if it has
none, in the whole row.  Columns at the end of a path are joined so that rows without
a partner are kept, and addressed by the alias of the table at the end.  In the last
clause, for one of the search terms each token has to match some column.
-/

/-- The name of the whole row in a filter. -/
def wholeRow : String := "*"

/-- A row matches if each token of a term matches one of the targets. -/
def anyTargetClause (targets : List String) (term : String) : Option String :=
  match Search.encodedPatterns term with
  | [] => none
  | patterns =>
    some ("&".intercalate (patterns.map fun pattern =>
      "(" ++ ";".intercalate (targets.map fun target => target ++ "::ciregexp::" ++ pattern) ++
        ")"))

/-- The clauses of several terms are put in parentheses. -/
def joinTermClauses : List String → Option String
  | [] => none
  | [clause] => some clause
  | clauses => some (";".intercalate (clauses.map fun clause => "(" ++ clause ++ ")"))

/-- Join the search columns, each from the root table on.  The names of the columns as
    a filter on the root table has them. -/
def joinTargets : List Source.Resolved → Aliases →
    Except Error (Path × List String × Aliases)
  | [], aliases => .ok ([], [], aliases)
  | source :: sources, aliases => do
    let name := Text.percentEncode source.column.name
    if source.hasPath then
      let (hint, aliases) := aliases.mint
      let (rendered, aliases) ← raise .ofPath (source.leftPath none hint aliases)
      let target := rendered.aliasName.getD hint ++ ":" ++ name
      let (path, targets, aliases) ← joinTargets sources aliases
      return (rendered.path ++ [.goTo aliases.root] ++ path, target :: targets, aliases)
    else
      let (path, targets, aliases) ← joinTargets sources aliases
      return (path, name :: targets, aliases)

/-- The column that stands for the whole row. -/
def wholeRowColumn : Column := ⟨wholeRow, .text, true⟩

/-- The path of a search.  A column that is filtered on the root table itself is
    refused, since the filter would hold for the other columns too. -/
def searchPath (columns : List Source.Resolved) (capabilities : Capabilities)
    (terms : List Json) (aliases : Aliases) : Except Error (Path × Aliases) := do
  let root := Segment.goTo aliases.root
  if columns.any fun column => !column.hasPath && column.isFiltered then
    throw (.ofKind .invalidSearch)
  match columns with
  | [] =>
    let clauses := terms.filterMap fun term =>
      Search.termClause term.plainText wholeRow (capabilities wholeRowColumn)
    if clauses.isEmpty then throw (.ofKind .invalidSearch)
    return ([.filter (";".intercalate clauses), root], aliases)
  | first :: others =>
    if others.isEmpty && !first.hasPath then
      let clause ← raise .ofConstraint
        ((Constraint.search terms).clause first.column capabilities)
      return ([.filter clause, root], aliases)
    else
      let (path, targets, aliases) ← joinTargets (first :: others) aliases
      match joinTermClauses (terms.filterMap fun term =>
          anyTargetClause targets term.plainText) with
      | none => throw (.ofKind .invalidSearch)
      | some clause => return (path ++ [.filter clause, root], aliases)

end PathQuery.Facet
