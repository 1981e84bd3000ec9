import PathQuery.Proofs.Filter.Grammar
import PathQuery.Proofs.Filter.WrittenBack
import PathQuery.Proofs.Json.Equality
import PathQuery.Proofs.Json.Unambiguous

namespace PathQuery.Filter

/-! # The written form of a filter

One filter can be declared in several ways: with or without the defaults, with a number or
a boolean for the text of an operand, and with other keys besides.  It is written in one
way only, and read back from that.  So the written form says which filter it is, as a value
whose fields may stand in any order, and as a text.
-/

open Json

namespace Tree

/-- The fields of the object that a filter is written as. -/
def fields : Tree → Json.Fields
  | leaf comparison => leafFields comparison
  | node junction children negate =>
    (junction.key, .array (toJsons children)) :: negateField negate

theorem toJson_eq (tree : Tree) : tree.toJson = .object tree.fields := by
  cases tree <;> rfl

/-- What a comparison is written with are texts and booleans. -/
theorem leafFields_atomic (leaf : Leaf) :
    ∀ field ∈ leafFields leaf, IsText field.2 ∨ IsBoolean field.2 := by
  obtain ⟨column, operator, operand, negate⟩ := leaf
  by_cases isEqual : operator = .equal <;> cases operand <;> cases negate <;>
    simp [leafFields, negateField, isEqual, IsText, IsBoolean]

theorem negateField_cases {negate : Bool} {field : String × Json}
    (member : field ∈ negateField negate) : field = (negateKey, .bool true) := by
  cases negate with
  | false => contradiction
  | true => exact List.mem_singleton.mp member

/-- No key is written twice. -/
theorem fields_distinct (tree : Tree) : (tree.fields.map Prod.fst).Nodup := by
  cases tree with
  | leaf comparison =>
      obtain ⟨column, operator, operand, negate⟩ := comparison
      by_cases isEqual : operator = .equal <;> cases operand <;> cases negate <;>
        simp [fields, leafFields, negateField, isEqual, columnKey, operatorKey, operandKey,
          negateKey]
  | node junction children negate =>
      cases junction <;> cases negate <;>
        simp [fields, negateField, Junction.key, negateKey]

theorem toJson_numberless (tree : Tree) : tree.toJson.Numberless := by
  induction tree using induction with
  | leaf comparison =>
      refine .object fun field member => ?_
      obtain ⟨text, isText⟩ | ⟨truth, isBoolean⟩ := leafFields_atomic comparison field member
      · exact isText ▸ .string text
      · exact isBoolean ▸ .bool truth
  | node junction children negate ih =>
      refine .object fun field member => ?_
      obtain rfl | member := List.mem_cons.mp member
      · refine .array fun item member => ?_
        rw [toJsons_eq] at member
        obtain ⟨child, inChildren, rfl⟩ := List.mem_map.mp member
        exact ih child inChildren
      · rw [negateField_cases member]
        exact .bool true

theorem sameItems_toJsons {children children' : List Tree} :
    sameItems (toJsons children) (toJsons children') = true ↔
      List.Forall₂ (fun child child' => sameValue child.toJson child'.toJson = true)
        children children' := by
  rw [sameItems_iff, toJsons_eq, toJsons_eq, List.forall₂_map_left_iff,
    List.forall₂_map_right_iff]

theorem sameValue_toJson_self (tree : Tree) : sameValue tree.toJson tree.toJson = true := by
  induction tree using induction with
  | leaf comparison =>
      refine sameValue_object_self (fields_distinct (.leaf comparison)) fun field member => ?_
      exact (sameValue_iff_eq (leafFields_atomic comparison field member)).mpr rfl
  | node junction children negate ih =>
      refine sameValue_object_self (fields_distinct (.node junction children negate))
        fun field member => ?_
      obtain rfl | member := List.mem_cons.mp member
      · rw [sameValue, sameItems_toJsons, List.forall₂_same]
        exact ih
      · rw [negateField_cases member]
        rfl

/-- Equal written forms have equal values under every key. -/
theorem fields_of_sameValue {left right : Tree}
    (same : sameValue left.toJson right.toJson = true) (key : String) :
    Option.Rel (fun value value' => sameValue value value' = true)
      (left.fields.lookup key) (right.fields.lookup key) := by
  rw [toJson_eq, toJson_eq] at same
  exact (sameValue_object_iff left.fields_distinct right.fields_distinct).mp same key

theorem lookup_column (tree : Tree) : tree.fields.lookup columnKey =
    match tree with
    | leaf comparison => some (.string comparison.column)
    | node .. => none := by
  cases tree with
  | leaf comparison => rfl
  | node junction children negate => cases junction <;> cases negate <;> rfl

section junctions

variable {junction junction' : Junction} {children children' : List Tree} {negate negate' : Bool}

theorem lookup_junction : (fields (.node junction children negate)).lookup junction'.key =
    if junction = junction' then some (.array (toJsons children)) else none := by
  cases junction <;> cases junction' <;> cases negate <;> rfl

theorem lookup_negate : (fields (.node junction children negate)).lookup negateKey =
    if negate then some (.bool true) else none := by
  cases junction <;> cases negate <;> rfl

theorem node_of_sameValue (same : sameValue (toJson (.node junction children negate))
      (toJson (.node junction' children' negate')) = true) :
    junction = junction' ∧ negate = negate' ∧
      List.Forall₂ (fun child child' => sameValue child.toJson child'.toJson = true)
        children children' := by
  have atJunction := fields_of_sameValue same junction.key
  have atNegate := fields_of_sameValue same negateKey
  rw [lookup_junction, lookup_junction, if_pos rfl] at atJunction
  rw [lookup_negate, lookup_negate] at atNegate
  have joined : junction = junction' := by
    by_contra other
    rw [if_neg (Ne.symm other)] at atJunction
    cases atJunction
  have negates : negate = negate' := by
    cases negate <;> cases negate' <;> simp at atNegate ⊢
  rw [if_pos joined.symm, Option.rel_some_some, sameValue, sameItems_toJsons] at atJunction
  exact ⟨joined, negates, atJunction⟩

end junctions

/-- A comparison is read back from the fields it is written with, in any order. -/
theorem leaf_of_sameValue {left right : Leaf} (declared : left.Declared)
    (declared' : right.Declared)
    (same : sameValue (toJson (.leaf left)) (toJson (.leaf right)) = true) : left = right := by
  have lookups := lookup_eq_of_sameValue (fields_distinct (.leaf left))
    (fields_distinct (.leaf right)) (leafFields_atomic left) same
  have read := ofJson_congr fun key _ => lookups key
  have read' := (ofJson_leaf declared).symm.trans (read.trans (ofJson_leaf declared'))
  exact Tree.leaf.inj (Except.ok.inj read')

theorem Declared.eq_of_sameValue {left : Tree} (declared : left.Declared) :
    ∀ {right : Tree}, right.Declared → sameValue left.toJson right.toJson = true →
      left = right := by
  induction declared with
  | leaf declared =>
      intro right declared' same
      cases declared' with
      | leaf declared' => rw [leaf_of_sameValue declared declared' same]
      | node _ _ =>
          -- Only a comparison is written with a column.
          have atColumn := fields_of_sameValue same columnKey
          rw [lookup_column, lookup_column] at atColumn
          cases atColumn
  | node _ _ ih =>
      intro right declared' same
      cases declared' with
      | leaf _ =>
          have atColumn := fields_of_sameValue same columnKey
          rw [lookup_column, lookup_column] at atColumn
          cases atColumn
      | node _ declared' =>
          obtain ⟨joined, negates, children⟩ := node_of_sameValue same
          have each := forall₂_imp_mem children fun child member child' member' =>
            ih child member (declared' child' member')
          rw [List.forall₂_eq_eq_eq] at each
          rw [joined, each, negates]

theorem Declared.sameValue_iff {left right : Tree} (declared : left.Declared)
    (declared' : right.Declared) :
    sameValue left.toJson right.toJson = true ↔ left = right := by
  constructor
  · exact declared.eq_of_sameValue declared'
  · rintro rfl
    exact left.sameValue_toJson_self

theorem Declared.toJson_inj {left right : Tree} (declared : left.Declared)
    (declared' : right.Declared) : left.toJson = right.toJson ↔ left = right := by
  constructor
  · intro same
    have read := declared.ofJson_toJson
    rw [same, declared'.ofJson_toJson] at read
    exact (Except.ok.inj read).symm
  · exact congrArg toJson

/-- A filter that was read is read back from what it is written as, however it was declared.
    So two values declare one filter just if what they are written as is the same value, or an
    equal one, or has the same text. -/
theorem written_form_identifies {value value' : Json} {tree tree' : Tree}
    (read : ofJson value = .ok tree) (read' : ofJson value' = .ok tree') :
    ofJson tree.toJson = .ok tree ∧
    (tree.toJson = tree'.toJson ↔ tree = tree') ∧
    (sameValue tree.toJson tree'.toJson = true ↔ tree = tree') ∧
    (tree.toJson.text = tree'.toJson.text ↔ tree = tree') := by
  have declared := ofJson_declared value read
  have declared' := ofJson_declared value' read'
  refine ⟨declared.ofJson_toJson, declared.toJson_inj declared',
    declared.sameValue_iff declared', ?_, ?_⟩
  · intro same
    exact (declared.toJson_inj declared').mp
      (tree.toJson_numberless.text_injective tree'.toJson_numberless same)
  · rintro rfl
    rfl

end Tree

namespace Sample

/-- Defaults left out, the number of an operand, the operand of an operator that takes none, and
    a key that counts for nothing. -/
def terse : Json := .object [("and", .array [
  .object [("filter", .string "a"), ("operand_pattern", .number (.integer 5)),
    ("note", .array [])],
  .object [("or", .array [
    .object [("filter", .string "b"), ("operator", .string "::null::"),
      ("operand_pattern", .string "x")],
    .object [("filter", .string "c")]]), ("negate", .bool true)]])]

/-- The same with the defaults, in another order. -/
def verbose : Json := .object [("negate", .bool false), ("and", .array [
  .object [("operand_pattern", .string "5"), ("operator", .string "="), ("filter", .string "a")],
  .object [("negate", .bool true), ("or", .array [
    .object [("operator", .string "::null::"), ("filter", .string "b")],
    .object [("filter", .string "c"), ("operand_pattern", .null), ("negate", .bool false)]])]])]

def either (template : String) : Tree := .node .all [
  .leaf ⟨"a", .equal, some (.template "5"), false⟩,
  .node .any [.leaf ⟨"b", .null, none, false⟩,
    .leaf ⟨"c", .equal, some (.template template), false⟩] true] false

/-- Two ways to declare one filter, and another filter that is written otherwise. -/
theorem written_form_identifies_notations :
    Tree.ofJson terse = .ok (either "") ∧ Tree.ofJson verbose = .ok (either "") ∧
    Tree.ofJson (either "true").toJson = .ok (either "true") ∧
    Tree.ofJson (either "").toJson = .ok (either "") ∧
    (either "").toJson ≠ (either "true").toJson ∧
    sameValue (either "").toJson (either "true").toJson = false ∧
    (either "").toJson.text ≠ (either "true").toJson.text := by
  have read : Tree.ofJson terse = .ok (either "") := toOption_eq_some.mp (by decide +kernel)
  have other : Tree.ofJson (either "true").toJson = .ok (either "true") :=
    toOption_eq_some.mp (by decide +kernel)
  have apart : either "" ≠ either "true" := by decide
  obtain ⟨back, values, equal, texts⟩ := Tree.written_form_identifies read other
  exact ⟨read, toOption_eq_some.mp (by decide +kernel), other, back, mt values.mp apart,
    Bool.eq_false_iff.mpr (mt equal.mp apart), mt texts.mp apart⟩

end Sample

end PathQuery.Filter
