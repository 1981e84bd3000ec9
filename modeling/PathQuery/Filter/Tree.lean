import PathQuery.Filter.Template
import PathQuery.Catalog.Table

namespace PathQuery

/-! # Filter trees

A filter is a tree of comparisons, joined by `and` and `or`, each node of which may
be negated.  It is declared as a JSON object and can be written back as one.
-/

namespace Filter

inductive Operator where
  | equal
  | null
  | less
  | atMost
  | greater
  | atLeast
  | regexp
  | regexpAnyCase
  | textSearch
  deriving DecidableEq

namespace Operator

def text : Operator → String
  | equal => "="
  | null => "::null::"
  | less => "::lt::"
  | atMost => "::leq::"
  | greater => "::gt::"
  | atLeast => "::geq::"
  | regexp => "::regexp::"
  | regexpAnyCase => "::ciregexp::"
  | textSearch => "::ts::"

def all : List Operator :=
  [equal, null, less, atMost, greater, atLeast, regexp, regexpAnyCase, textSearch]

def ofText? (text : String) : Option Operator :=
  all.find? fun operator => operator.text == text

/-- Only the test for an absent value compares with nothing. -/
def takesOperand : Operator → Bool
  | null => false
  | _ => true

end Operator

/-- What a column is compared with: a template, or the text it was expanded to. -/
inductive Operand where
  | template (text : String)
  | expanded (text : String)
  deriving DecidableEq

def Operand.text : Operand → String
  | .template text => text
  | .expanded text => text

/-- A comparison.  The operand is absent for an operator that takes none. -/
structure Leaf where
  column : String
  operator : Operator
  operand : Option Operand
  negate : Bool
  deriving DecidableEq

inductive Junction where
  | all
  | any
  deriving DecidableEq

namespace Junction

def key : Junction → String
  | all => "and"
  | any => "or"

def separator : Junction → String
  | all => "&"
  | any => ";"

end Junction

inductive Tree where
  | leaf (comparison : Leaf)
  | node (junction : Junction) (children : List Tree) (negate : Bool)

inductive Fault where
  | notAnObject (value : Json)
  | negateNotBoolean (value : Json)
  | notOneKind
  | noChildren (junction : Junction)
  | noColumn
  | operandNotText (value : Json)

def Fault.message : Fault → String
  | .notAnObject value => "expected an object, got " ++ value.text
  | .negateNotBoolean value => "`negate` must be a boolean, got " ++ value.text
  | .notOneKind => "exactly one of `filter`, `and` or `or` is required"
  | .noChildren junction => "`" ++ junction.key ++ "` must be a non-empty array"
  | .noColumn => "`filter` must name a column"
  | .operandNotText value => "`operand_pattern` must be a string, got " ++ value.text

inductive Error where
  | invalidShape (fault : Fault)
  | invalidOperator (text : String)
  | unknownColumn (column : String) (table : TableName)
  | emptyOperand (column : String)
  | unexpanded (column : String)

def Error.message : Error → String
  | .invalidShape fault => "Invalid filter node: " ++ fault.message
  | .invalidOperator text => "Invalid filter operator '" ++ text ++ "'"
  | .unknownColumn column table =>
    "Filter column '" ++ column ++ "' not found in table " ++ table.text
  | .emptyOperand column => "Operand of the filter on '" ++ column ++ "' is empty"
  | .unexpanded column => "Operand of the filter on '" ++ column ++ "' has not been expanded"

def columnKey : String := "filter"

def operatorKey : String := "operator"

def operandKey : String := "operand_pattern"

def negateKey : String := "negate"

/-- The keys that make an object a filter. -/
def kindKeys : List String := [columnKey, Junction.all.key, Junction.any.key]

def isDeclaredBy (fields : Json.Fields) : Bool := kindKeys.any (Json.Fields.contains fields)

def readNegate (fields : Json.Fields) : Except Error Bool :=
  match fields.lookup negateKey with
  | none => .ok false
  | some (.bool value) => .ok value
  | some value => .error (.invalidShape (.negateNotBoolean value))

def readOperator (fields : Json.Fields) : Except Error Operator :=
  match fields.lookup operatorKey with
  | none => .ok .equal
  | some (.string text) =>
    match Operator.ofText? text with
    | some operator => .ok operator
    | none => .error (.invalidOperator text)
  | some value => .error (.invalidOperator value.text)

/-- The template of a comparison.  Numbers and booleans stand for their text, and
    nothing at all for the empty text. -/
def readOperand (fields : Json.Fields) : Except Error Operand :=
  match fields.lookup operandKey with
  | none => .ok (.template "")
  | some .null => .ok (.template "")
  | some (.string text) => .ok (.template text)
  | some (.number value) => .ok (.template value.text)
  | some (.bool value) => .ok (.template (Json.bool value).text)
  | some value => .error (.invalidShape (.operandNotText value))

def readLeaf (fields : Json.Fields) (negate : Bool) : Except Error Leaf := do
  match fields.lookup columnKey with
  | some (.string column) =>
    let operator ← readOperator fields
    let operand ← if operator.takesOperand then some <$> readOperand fields else pure none
    pure { column, operator, operand, negate }
  | _ => throw (.invalidShape .noColumn)

mutual

/-- Read a filter.  An object is either a comparison, under `filter`, or it joins
    its children, under `and` or `or`. -/
def Tree.ofJson : Json → Except Error Tree
  | .object fields => do
    let negate ← readNegate fields
    if (kindKeys.filter (Json.Fields.contains fields)).length ≠ 1 then
      throw (.invalidShape .notOneKind)
    match childrenUnder .all fields with
    | some children => pure (.node .all (← children) negate)
    | none =>
      match childrenUnder .any fields with
      | some children => pure (.node .any (← children) negate)
      | none => Tree.leaf <$> readLeaf fields negate
  | value => .error (.invalidShape (.notAnObject value))

/-- Read the children declared by the first field with the junction's key. -/
def childrenUnder (junction : Junction) :
    List (String × Json) → Option (Except Error (List Tree))
  | [] => none
  | (key, value) :: fields =>
    if key == junction.key then some (readChildren junction value)
    else childrenUnder junction fields

def readChildren (junction : Junction) : Json → Except Error (List Tree)
  | .array (item :: items) => readTrees (item :: items)
  | _ => .error (.invalidShape (.noChildren junction))

def readTrees : List Json → Except Error (List Tree)
  | [] => .ok []
  | item :: items => do
    let tree ← Tree.ofJson item
    let trees ← readTrees items
    pure (tree :: trees)

end

namespace Tree

def negate : Tree → Bool
  | leaf comparison => comparison.negate
  | node _ _ negate => negate

/-- The field that says that a node is negated; a node that is not does without. -/
def negateField (negate : Bool) : Json.Fields :=
  if negate then [(negateKey, .bool true)] else []

def leafFields (leaf : Leaf) : Json.Fields :=
  [(columnKey, .string leaf.column)] ++
    (if leaf.operator = .equal then [] else [(operatorKey, .string leaf.operator.text)]) ++
    (match leaf.operand with
      | some operand => [(operandKey, .string operand.text)]
      | none => []) ++
    negateField leaf.negate

mutual

/-- Write a filter as a JSON object.  An expanded operand is written as a template. -/
def toJson : Tree → Json
  | leaf comparison => .object (leafFields comparison)
  | node junction children negate =>
    .object ((junction.key, .array (toJsons children)) :: negateField negate)

def toJsons : List Tree → List Json
  | [] => []
  | tree :: trees => toJson tree :: toJsons trees

end

mutual

def decEq : (left right : Tree) → Decidable (left = right)
  | leaf left, leaf right =>
    if same : left = right then isTrue (same ▸ rfl) else isFalse (fun h => same (leaf.inj h))
  | node junction children negate, node junction' children' negate' =>
    match decEqList children children' with
    | isTrue sameChildren =>
      if same : junction = junction' ∧ negate = negate' then
        isTrue (by rw [same.1, same.2, sameChildren])
      else isFalse (fun h => same ⟨(node.inj h).1, (node.inj h).2.2⟩)
    | isFalse different => isFalse (fun h => different (node.inj h).2.1)
  | leaf _, node .. => isFalse nofun
  | node .., leaf _ => isFalse nofun

def decEqList : (left right : List Tree) → Decidable (left = right)
  | [], [] => isTrue rfl
  | tree :: trees, tree' :: trees' =>
    match decEq tree tree', decEqList trees trees' with
    | isTrue sameTree, isTrue sameTrees => isTrue (by rw [sameTree, sameTrees])
    | isFalse different, _ => isFalse (fun h => different (List.cons.inj h).1)
    | _, isFalse different => isFalse (fun h => different (List.cons.inj h).2)
  | [], _ :: _ => isFalse nofun
  | _ :: _, [] => isFalse nofun

end

instance : DecidableEq Tree := decEq

end Tree

end Filter

end PathQuery
