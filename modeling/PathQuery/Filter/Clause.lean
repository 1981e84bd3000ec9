import PathQuery.Filter.Tree

namespace PathQuery.Filter

/-! # Filters in a path

In a path the children of a node stand in the order in which they were declared,
with `&` or `;` between them and in parentheses.  A node with one child that is not
negated is written as that child.
-/

def negated (clause : String) : String := "!(" ++ clause ++ ")"

def Leaf.clause (table : Table) (leaf : Leaf) : Except Error String :=
  match table.column? leaf.column with
  | none => .error (.unknownColumn leaf.column table.tableName)
  | some _ =>
    let comparison (value : String) : String :=
      let text := Text.percentEncode leaf.column ++ leaf.operator.text ++ value
      if leaf.negate then negated text else text
    match leaf.operand with
    | none => .ok (comparison "")
    | some (.expanded value) => .ok (comparison (Text.percentEncode value))
    | some (.template _) => .error (.unexpanded leaf.column)

def joinClauses (junction : Junction) (negate : Bool) (clauses : List String) : String :=
  let joined := junction.separator.intercalate clauses
  if negate then negated joined
  else if clauses.length = 1 then joined
  else "(" ++ joined ++ ")"

namespace Tree

mutual

/-- The filter as it stands in a path after `table`.  Its columns must be columns of
    the table, and its operands must be expanded. -/
def clause (table : Table) : Tree → Except Error String
  | leaf comparison => comparison.clause table
  | node junction children negate => do
    let clauses ← clauses table children
    pure (joinClauses junction negate clauses)

def clauses (table : Table) : List Tree → Except Error (List String)
  | [] => .ok []
  | tree :: trees => do
    let first ← clause table tree
    let rest ← clauses table trees
    pure (first :: rest)

end

end Tree

end PathQuery.Filter
