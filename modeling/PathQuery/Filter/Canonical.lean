import PathQuery.Filter.Clause

namespace PathQuery.Filter

/-! # Canonical order

The children of a node may be declared in any order.  Where a filter only serves to
name a source they are put in a canonical one: negated ones last, then comparisons
before `and` before `or`, then those with fewer children, then by their text.
Filters in a path keep the order of their declaration.
-/

/-- A comparison with its operand as it stands, expanded or not. -/
def Leaf.text (leaf : Leaf) : String :=
  let operand := match leaf.operand with
    | some operand => Text.percentEncode operand.text
    | none => ""
  let text := Text.percentEncode leaf.column ++ leaf.operator.text ++ operand
  if leaf.negate then negated text else text

namespace Tree

mutual

/-- The text of a tree as it stands, by which trees are compared and named.  Column
    and operand are encoded, so neither can be read as a part of the operator. -/
def text : Tree → String
  | leaf comparison => comparison.text
  | node junction children negate =>
    let text := "(" ++ junction.separator.intercalate (texts children) ++ ")"
    if negate then negated text else text

def texts : List Tree → List String
  | [] => []
  | tree :: trees => text tree :: texts trees

end

/-- Comparisons come before `and`, and `and` before `or`. -/
def rank : Tree → Nat
  | leaf _ => 0
  | node .all _ _ => 1
  | node .any _ _ => 2

def childCount : Tree → Nat
  | leaf _ => 0
  | node _ children _ => children.length

/-- The first tree may stand before the second. -/
def precedes (left right : Tree) : Bool :=
  if left.negate != right.negate then right.negate
  else if left.rank ≠ right.rank then left.rank < right.rank
  else if left.childCount ≠ right.childCount then left.childCount < right.childCount
  else decide (left.text ≤ right.text)

mutual

/-- The tree with the children of every node in canonical order. -/
def canonical : Tree → Tree
  | leaf comparison => leaf comparison
  | node junction children negate =>
    node junction ((canonicals children).mergeSort precedes) negate

def canonicals : List Tree → List Tree
  | [] => []
  | tree :: trees => canonical tree :: canonicals trees

end

end Tree

end PathQuery.Filter
