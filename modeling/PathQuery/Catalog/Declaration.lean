import PathQuery.Catalog.Directory
import PathQuery.Yaml.Value

namespace PathQuery

/-! # Catalog declarations

A catalog is declared by a YAML text.  A declaration reads as far as it has the
right form: the keys of a structure may come up only once, unknown keys are passed
over, a key that may be left out has a default, and a text may be any scalar.
-/

namespace Declaration

open Yaml (Node)

/-- Nothing at all stands for an empty collection. -/
def isNothing : Node → Bool
  | .scalar plain text => plain && text.isEmpty
  | _ => false

def items? : Node → Option (List Node)
  | .sequence items => some items
  | node => if isNothing node then some [] else none

def entries? : Node → Option (List (Node × Node))
  | .mapping entries => some entries
  | node => if isNothing node then some [] else none

/-- The fields of a structure, none of whose known keys comes up twice. -/
def fields? (known : List String) (node : Node) : Option (List (String × Node)) := do
  let entries ← entries? node
  let fields ← entries.mapM fun entry => entry.1.text?.map fun key => (key, entry.2)
  let once := known.all fun key => (fields.filter fun field => field.1 == key).length ≤ 1
  if once then return fields
  none

def text? (node : Node) : Option String := node.text?

/-- Only plain words are booleans. -/
def bool? : Node → Option Bool
  | .scalar true text => Yaml.bool? text
  | _ => none

def listOf (read : Node → Option α) (node : Node) : Option (List α) := do
  (← items? node).mapM read

def type? (node : Node) : Option ColumnType := do
  (ColumnType.ofName (← text? node)).toOption

def required (fields : List (String × Node)) (key : String) (read : Node → Option α) :
    Option α := do
  read (← fields.lookup key)

def optional (fields : List (String × Node)) (key : String) (default : α)
    (read : Node → Option α) : Option α :=
  match fields.lookup key with
  | none => some default
  | some node => read node

def column? (node : Node) : Option Column := do
  let fields ← fields? ["name", "type", "nullok"] node
  return {
    name := ← required fields "name" text?
    type := ← optional fields "type" .text type?
    nullable := ← optional fields "nullok" true bool? }

def key? (node : Node) : Option Key := do
  let fields ← fields? ["columns"] node
  return { columns := ← required fields "columns" (listOf text?) }

def reference? (node : Node) : Option (TableName × List String) := do
  let fields ← fields? ["schema", "table", "columns"] node
  let schema ← required fields "schema" text?
  let table ← required fields "table" text?
  let columns ← required fields "columns" (listOf text?)
  return (⟨schema, table⟩, columns)

/-- A foreign key, which does not know its table yet. -/
def foreignKey? (node : Node) : Option ForeignKey := do
  let fields ← fields? ["schema", "name", "columns", "references"] node
  let (referencedTable, referencedColumns) ← required fields "references" reference?
  return {
    schema := ← optional fields "schema" "" text?
    name := ← required fields "name" text?
    table := ⟨"", ""⟩
    columns := ← required fields "columns" (listOf text?)
    referencedTable
    referencedColumns }

/-- How many levels of collections a free value may have: a text may have 128, and
    six are around it. -/
def valueDepth : Nat := 122

def definitions? (node : Node) : Option Json.Fields := do
  let fields ← Yaml.fields? valueDepth (← entries? node)
  return Json.Fields.ofList fields

/-- A table, which does not know its schema yet. -/
def table? (node : Node) : Option Table := do
  let fields ← fields?
    ["name", "columns", "keys", "foreign_keys", "source_definitions", "search_columns"] node
  return {
    schema := ""
    name := ← required fields "name" text?
    columns := ← optional fields "columns" [] (listOf column?)
    keys := ← optional fields "keys" [] (listOf key?)
    foreignKeys := ← optional fields "foreign_keys" [] (listOf foreignKey?)
    sourceDefinitions := ← optional fields "source_definitions" [] definitions?
    searchColumns := ← optional fields "search_columns" [] (listOf (Node.value? valueDepth)) }

def schema? (node : Node) : Option Schema := do
  let fields ← fields? ["name", "tables"] node
  return {
    name := ← required fields "name" text?
    tables := ← optional fields "tables" [] (listOf table?) }

def features? (node : Node) : Option Features := do
  let fields ← fields? ["quantified_value_lists", "quantified_rid_lists"] node
  return {
    valueLists := ← optional fields "quantified_value_lists" false bool?
    rowIdLists := ← optional fields "quantified_rid_lists" false bool? }

def catalog? (node : Node) : Option Catalog := do
  let fields ← fields? ["features", "schemas"] node
  return {
    features := ← optional fields "features" ⟨false, false⟩ features?
    schemas := ← required fields "schemas" (listOf schema?) }

end Declaration

/-- Why a text declares no catalog. -/
inductive DeclarationError where
  /-- The text has not the form of a declaration. -/
  | form
  | invalid (error : CatalogError)
  deriving DecidableEq

/-- The catalog that a text declares, linked and checked. -/
def Catalog.ofText (text : String) : Except DeclarationError Catalog :=
  match (Yaml.Node.ofText? text).bind Declaration.catalog? with
  | none => .error .form
  | some catalog =>
    match catalog.finalize with
    | .ok catalog => .ok catalog
    | .error error => .error (.invalid error)

end PathQuery
