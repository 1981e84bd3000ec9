import PathQuery.Filter.Tree

namespace PathQuery.Filter

/-! # Expansion

Expanding a filter puts the values of a row into the templates of its operands.
An operand that comes out empty is an error, and an operand that is expanded
already stays as it is, so a second row changes nothing.
-/

def Operand.expand (engine : Template.Engine) (row : Row) (column : String) :
    Operand → Except Error Operand
  | expanded text => .ok (expanded text)
  | template text =>
    let value := engine text row
    if value.isEmpty then .error (.emptyOperand column) else .ok (expanded value)

def Leaf.expand (engine : Template.Engine) (row : Row) (leaf : Leaf) : Except Error Leaf :=
  match leaf.operand with
  | none => .ok leaf
  | some operand => do
    let operand ← operand.expand engine row leaf.column
    pure { leaf with operand := some operand }

def Leaf.isExpanded (leaf : Leaf) : Bool :=
  match leaf.operand with
  | some (.template _) => false
  | _ => true

namespace Tree

mutual

/-- Expand the operands of a tree from left to right, up to the first error. -/
def expand (engine : Template.Engine) (row : Row) : Tree → Except Error Tree
  | leaf comparison => do
    let comparison ← comparison.expand engine row
    pure (leaf comparison)
  | node junction children negate => do
    let children ← expandAll engine row children
    pure (node junction children negate)

def expandAll (engine : Template.Engine) (row : Row) : List Tree → Except Error (List Tree)
  | [] => .ok []
  | tree :: trees => do
    let tree ← expand engine row tree
    let trees ← expandAll engine row trees
    pure (tree :: trees)

end

mutual

def isExpanded : Tree → Bool
  | leaf comparison => comparison.isExpanded
  | node _ children _ => areExpanded children

def areExpanded : List Tree → Bool
  | [] => true
  | tree :: trees => isExpanded tree && areExpanded trees

end

end Tree

end PathQuery.Filter
