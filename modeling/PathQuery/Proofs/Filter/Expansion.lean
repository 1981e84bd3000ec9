import PathQuery.Proofs.Filter.Rendered
import PathQuery.Proofs.Source.Grounded

namespace PathQuery

/-! # All of a filter or none of it

Expanding a filter and writing it out both go over its comparisons from left to right and
stop at the first one that is at fault.  What is expanded has the shape of what it was
expanded from and is not expanded again, so it never is at fault for an operand when it is
written out, and neither is a filter of a source.
-/

namespace Filter

/-- The first comparison of which this is so. -/
def IsFirst (atFault : Leaf → Bool) (leaves : List Leaf) (leaf : Leaf) : Prop :=
  ∃ before after, leaves = before ++ leaf :: after ∧ atFault leaf = true ∧
    ∀ earlier ∈ before, atFault earlier = false

/-- A pass over comparisons that makes a value of them, unless one of them is at fault: then
    it ends with the error of the first one that is. -/
def passOver (atFault : Leaf → Bool) (error : Leaf → Error) (leaves : List Leaf) (value : α) :
    Except Error α :=
  match leaves.find? atFault with
  | some leaf => .error (error leaf)
  | none => .ok value

section passes

variable {atFault : Leaf → Bool} {error : Leaf → Error} {leaves : List Leaf} {value : α}

theorem passOver_isOk : (∃ result, passOver atFault error leaves value = .ok result) ↔
    ∀ leaf ∈ leaves, atFault leaf = false := by
  unfold passOver
  cases first : leaves.find? atFault with
  | none =>
      refine iff_of_true ⟨value, rfl⟩ fun leaf member => ?_
      exact Bool.eq_false_iff.mpr (List.find?_eq_none.mp first leaf member)
  | some leaf =>
      refine iff_of_false (by simp) fun sound => ?_
      have faulty := sound leaf (List.mem_of_find?_eq_some first)
      rw [List.find?_some first] at faulty
      contradiction

theorem passOver_eq_ok {result : α} (passes : passOver atFault error leaves value = .ok result) :
    result = value := by
  unfold passOver at passes
  split at passes
  · contradiction
  · exact (Except.ok.inj passes).symm

theorem passOver_eq_error {cause : Error}
    (fails : passOver atFault error leaves value = .error cause) :
    ∃ leaf, IsFirst atFault leaves leaf ∧ cause = error leaf := by
  unfold passOver at fails
  split at fails
  · rename_i leaf first
    obtain ⟨faulty, before, after, parts, sound⟩ := List.find?_eq_some_iff_append.mp first
    refine ⟨leaf, ⟨before, after, parts, faulty, fun earlier member => ?_⟩,
      (Except.error.inj fails).symm⟩
    simpa using sound earlier member
  · contradiction

theorem passOver_map (f : α → β) :
    (passOver atFault error leaves value >>= fun result => pure (f result)) =
      passOver atFault error leaves (f value) := by
  unfold passOver
  split <;> rfl

/-- One pass after the other is a pass over the comparisons of both. -/
theorem passOver_append (later : List Leaf) (rest : List α) :
    (do let first ← passOver atFault error leaves value
        let others ← passOver atFault error later rest
        pure (first :: others)) = passOver atFault error (leaves ++ later) (value :: rest) := by
  unfold passOver
  rw [List.find?_append]
  cases leaves.find? atFault with
  | some leaf => rfl
  | none =>
      cases later.find? atFault with
      | some leaf => rfl
      | none => rfl

end passes

variable {engine : Template.Engine} {row : Row}

/-- The operand with the values of the row in its template. -/
def Operand.fill (engine : Template.Engine) (row : Row) : Operand → Operand
  | .template text => .expanded (engine text row)
  | .expanded text => .expanded text

def Leaf.fill (engine : Template.Engine) (row : Row) (leaf : Leaf) : Leaf :=
  { leaf with operand := leaf.operand.map (Operand.fill engine row) }

/-- Nothing is left of the template of the operand. -/
def Leaf.comesOutEmpty (engine : Template.Engine) (row : Row) (leaf : Leaf) : Bool :=
  match leaf.operand with
  | some (.template text) => (engine text row).isEmpty
  | _ => false

theorem Leaf.expand_eq (leaf : Leaf) : leaf.expand engine row =
    passOver (Leaf.comesOutEmpty engine row) (fun leaf => .emptyOperand leaf.column) [leaf]
      (leaf.fill engine row) := by
  obtain ⟨column, operator, operand, negate⟩ := leaf
  rcases operand with _ | ⟨text⟩ | text
  · rfl
  · simp only [Leaf.expand, Operand.expand, passOver, List.find?_cons, Leaf.comesOutEmpty]
    split
    · rename_i empty
      simp [empty]
    · rename_i present
      simp [present, Leaf.fill, Operand.fill]
  · rfl

theorem Leaf.isExpanded_fill (leaf : Leaf) : (leaf.fill engine row).isExpanded = true := by
  obtain ⟨column, operator, operand, negate⟩ := leaf
  rcases operand with _ | ⟨text⟩ | text <;> rfl

theorem Leaf.fill_of_isExpanded {leaf : Leaf} (expanded : leaf.isExpanded = true) :
    leaf.fill engine row = leaf := by
  obtain ⟨column, operator, operand, negate⟩ := leaf
  rcases operand with _ | ⟨text⟩ | text
  · rfl
  · contradiction
  · rfl

theorem Leaf.comesOutEmpty_of_isExpanded {leaf : Leaf} (expanded : leaf.isExpanded = true) :
    leaf.comesOutEmpty engine row = false := by
  obtain ⟨column, operator, operand, negate⟩ := leaf
  rcases operand with _ | ⟨text⟩ | text
  · rfl
  · contradiction
  · rfl

namespace Tree

mutual

/-- The tree with other comparisons in the places of its own. -/
def mapLeaves (f : Leaf → Leaf) : Tree → Tree
  | leaf comparison => leaf (f comparison)
  | node junction children negate => node junction (mapLeavesOf f children) negate

def mapLeavesOf (f : Leaf → Leaf) : List Tree → List Tree
  | [] => []
  | tree :: trees => mapLeaves f tree :: mapLeavesOf f trees

end

theorem mapLeavesOf_eq (f : Leaf → Leaf) (trees : List Tree) :
    mapLeavesOf f trees = trees.map (mapLeaves f) := by
  induction trees with
  | nil => rfl
  | cons tree trees ih => rw [mapLeavesOf, ih, List.map_cons]

theorem leaves_mapLeaves (f : Leaf → Leaf) (tree : Tree) :
    (tree.mapLeaves f).leaves = tree.leaves.map f := by
  induction tree using induction with
  | leaf comparison => rfl
  | node junction children negate ih =>
      rw [mapLeaves, leaves, leaves, mapLeavesOf_eq, leavesOf_eq, leavesOf_eq, List.flatMap_map,
        List.map_flatMap]
      exact List.flatMap_congr ih

theorem mapLeaves_eq_self {f : Leaf → Leaf} (tree : Tree) :
    (∀ leaf ∈ tree.leaves, f leaf = leaf) → tree.mapLeaves f = tree := by
  induction tree using induction with
  | leaf comparison =>
      intro same
      rw [mapLeaves, same comparison List.mem_cons_self]
  | node junction children negate ih =>
      intro same
      rw [leaves, leavesOf_eq] at same
      have kept : ∀ child ∈ children, child.mapLeaves f = child := fun child member =>
        ih child member fun leaf inChild =>
          same leaf (List.mem_flatMap.mpr ⟨child, member, inChild⟩)
      rw [mapLeaves, mapLeavesOf_eq, List.map_congr_left kept, List.map_id']

theorem isExpanded_iff (tree : Tree) :
    tree.isExpanded = true ↔ ∀ leaf ∈ tree.leaves, leaf.isExpanded = true := by
  induction tree using induction with
  | leaf comparison => rw [isExpanded, leaves, List.forall_mem_singleton]
  | node junction children negate ih =>
      rw [isExpanded, leaves]
      clear negate
      induction children with
      | nil => exact iff_of_true rfl (List.forall_mem_nil _)
      | cons child later ihLater =>
          obtain ⟨ihChild, ihRest⟩ := List.forall_mem_cons.mp ih
          rw [areExpanded, Bool.and_eq_true, ihChild, ihLater ihRest, leavesOf,
            List.forall_mem_append]

theorem expand_eq (tree : Tree) : tree.expand engine row =
    passOver (Leaf.comesOutEmpty engine row) (fun leaf => .emptyOperand leaf.column) tree.leaves
      (tree.mapLeaves (Leaf.fill engine row)) := by
  induction tree using induction with
  | leaf comparison =>
      rw [expand, Leaf.expand_eq]
      exact passOver_map leaf
  | node junction children negate ih =>
      have each : expandAll engine row children =
          passOver (Leaf.comesOutEmpty engine row) (fun leaf => .emptyOperand leaf.column)
            (leavesOf children) (mapLeavesOf (Leaf.fill engine row) children) := by
        clear negate
        induction children with
        | nil => rfl
        | cons child later ihLater =>
            obtain ⟨ihChild, ihRest⟩ := List.forall_mem_cons.mp ih
            rw [expandAll, ihChild, ihLater ihRest]
            exact passOver_append _ _
      rw [expand, each]
      exact passOver_map fun children => node junction children negate

theorem isExpanded_mapLeaves_fill (tree : Tree) :
    (tree.mapLeaves (Leaf.fill engine row)).isExpanded = true := by
  rw [isExpanded_iff, leaves_mapLeaves, List.forall_mem_map]
  exact fun leaf _ => leaf.isExpanded_fill

/-- What comes of expanding a tree has nothing left to expand. -/
theorem isExpanded_of_expand {tree expanded : Tree}
    (expands : tree.expand engine row = .ok expanded) : expanded.isExpanded = true := by
  rw [expand_eq] at expands
  rw [passOver_eq_ok expands]
  exact tree.isExpanded_mapLeaves_fill

/-- Nothing changes where nothing is left to expand. -/
theorem expand_of_isExpanded {tree : Tree} (expanded : tree.isExpanded = true) :
    tree.expand engine row = .ok tree := by
  rw [isExpanded_iff] at expanded
  rw [expand_eq]
  obtain ⟨result, passes⟩ : ∃ result, passOver (Leaf.comesOutEmpty engine row)
      (fun leaf => .emptyOperand leaf.column) tree.leaves
      (tree.mapLeaves (Leaf.fill engine row)) = .ok result :=
    passOver_isOk.mpr fun leaf member => Leaf.comesOutEmpty_of_isExpanded (expanded leaf member)
  rw [passes, passOver_eq_ok passes]
  exact congrArg Except.ok (tree.mapLeaves_eq_self fun leaf member =>
    Leaf.fill_of_isExpanded (expanded leaf member))

end Tree

/-- The comparison is one with a column that the table does not have. -/
def Leaf.isForeign (table : Table) (leaf : Leaf) : Bool := (table.column? leaf.column).isNone

theorem Leaf.clause_eq {table : Table} {leaf : Leaf} (expanded : leaf.isExpanded = true) :
    ∃ text, leaf.clause table =
      passOver (Leaf.isForeign table) (fun leaf => .unknownColumn leaf.column table.tableName)
        [leaf] text := by
  obtain ⟨column, operator, operand, negate⟩ := leaf
  cases found : table.column? column with
  | none => exact ⟨"", by simp [Leaf.clause, passOver, Leaf.isForeign, found]⟩
  | some _ =>
      rcases operand with _ | ⟨text⟩ | text
      · exact ⟨_, by simp [Leaf.clause, passOver, Leaf.isForeign, found]; rfl⟩
      · contradiction
      · exact ⟨_, by simp [Leaf.clause, passOver, Leaf.isForeign, found]; rfl⟩

theorem Tree.clause_eq (tree : Tree) (table : Table) : tree.isExpanded = true →
    ∃ text, tree.clause table =
      passOver (Leaf.isForeign table) (fun leaf => .unknownColumn leaf.column table.tableName)
        tree.leaves text := by
  induction tree using induction with
  | leaf comparison => exact Leaf.clause_eq
  | node junction children negate ih =>
      intro expanded
      have each : ∃ texts, clauses table children =
          passOver (Leaf.isForeign table) (fun leaf => .unknownColumn leaf.column table.tableName)
            (leavesOf children) texts := by
        rw [isExpanded] at expanded
        clear negate
        induction children with
        | nil => exact ⟨[], rfl⟩
        | cons child later ihLater =>
            obtain ⟨ihChild, ihRest⟩ := List.forall_mem_cons.mp ih
            rw [areExpanded, Bool.and_eq_true] at expanded
            obtain ⟨text, first⟩ := ihChild expanded.1
            obtain ⟨texts, others⟩ := ihLater ihRest expanded.2
            refine ⟨text :: texts, ?_⟩
            rw [clauses, first, others]
            exact passOver_append _ _
      obtain ⟨texts, each⟩ := each
      refine ⟨joinClauses junction negate texts, ?_⟩
      rw [clause, each]
      exact passOver_map (joinClauses junction negate)

theorem Leaf.Declared.comesOutEmpty_iff {leaf : Leaf} (declared : leaf.Declared) :
    leaf.comesOutEmpty engine row = false ↔
      ∀ template ∈ leaf.operand.map Operand.text, engine template row ≠ "" := by
  obtain ⟨template, operand⟩ := declared
  cases takes : leaf.operator.takesOperand with
  | false => simp [comesOutEmpty, operand, takes]
  | true => simp [comesOutEmpty, operand, takes, Operand.text]

theorem Leaf.Declared.operand_fill {leaf : Leaf} (declared : leaf.Declared) :
    (leaf.fill engine row).operand.map Operand.text =
      (leaf.operand.map Operand.text).map (engine · row) := by
  obtain ⟨template, operand⟩ := declared
  rw [fill, operand]
  cases leaf.operator.takesOperand <;> rfl

namespace Tree

theorem Declared.leaves {tree : Tree} (declared : tree.Declared) :
    ∀ leaf ∈ tree.leaves, leaf.Declared := by
  induction declared with
  | leaf declared => exact List.forall_mem_singleton.mpr declared
  | node _ _ ih =>
      intro leaf member
      rw [Tree.leaves, leavesOf_eq] at member
      obtain ⟨child, inChildren, member⟩ := List.mem_flatMap.mp member
      exact ih child inChildren leaf member

theorem operands_eq (tree : Tree) :
    tree.operands = tree.leaves.flatMap fun leaf => (leaf.operand.map Operand.text).toList := by
  induction tree using induction with
  | leaf comparison => rw [operands, leaves, List.flatMap_singleton]
  | node junction children negate ih =>
      rw [operands, leaves, operandsOf_eq, leavesOf_eq, List.flatMap_assoc]
      exact List.flatMap_congr ih

theorem Declared.operands_fill {tree : Tree} (declared : tree.Declared) :
    (tree.mapLeaves (Leaf.fill engine row)).operands = tree.operands.map (engine · row) := by
  rw [operands_eq, operands_eq, leaves_mapLeaves, List.flatMap_map, List.map_flatMap]
  refine List.flatMap_congr fun leaf member => ?_
  rw [(declared.leaves leaf member).operand_fill]
  cases leaf.operand.map Operand.text <;> rfl

/-- A filter is expanded with a row as a whole or not at all, and what comes of it is written
    out for the tables that have its columns. -/
structure ExpandsWhole (engine : Template.Engine) (row : Row) (tree : Tree) : Prop where
  succeeds : (∃ expanded, tree.expand engine row = .ok expanded) ↔
    ∀ template ∈ tree.operands, engine template row ≠ ""
  fails : ∀ error, tree.expand engine row = .error error →
    ∃ leaf, IsFirst (Leaf.comesOutEmpty engine row) tree.leaves leaf ∧
      error = .emptyOperand leaf.column
  keepsShape : ∀ expanded, tree.expand engine row = .ok expanded →
    expanded = tree.mapLeaves (Leaf.fill engine row) ∧
      expanded.operands = tree.operands.map (engine · row)
  settles : ∀ expanded, tree.expand engine row = .ok expanded →
    expanded.isExpanded = true ∧ ∀ other, expanded.expand engine other = .ok expanded
  isWritten : ∀ expanded, tree.expand engine row = .ok expanded → ∀ table,
    (∃ text, expanded.clause table = .ok text) ↔
      ∀ leaf ∈ expanded.leaves, (table.column? leaf.column).isSome = true
  notWritten : ∀ expanded, tree.expand engine row = .ok expanded → ∀ table error,
    expanded.clause table = .error error →
      ∃ leaf, IsFirst (Leaf.isForeign table) expanded.leaves leaf ∧
        error = .unknownColumn leaf.column table.tableName

theorem Declared.expandsWhole {tree : Tree} (declared : tree.Declared) :
    tree.ExpandsWhole engine row where
  succeeds := by
    rw [expand_eq, passOver_isOk, operands_eq]
    constructor
    · intro sound template member
      obtain ⟨leaf, inLeaves, member⟩ := List.mem_flatMap.mp member
      exact (declared.leaves leaf inLeaves).comesOutEmpty_iff.mp (sound leaf inLeaves) template
        (Option.mem_toList.mp member)
    · intro present leaf inLeaves
      refine (declared.leaves leaf inLeaves).comesOutEmpty_iff.mpr fun template member => ?_
      exact present template
        (List.mem_flatMap.mpr ⟨leaf, inLeaves, Option.mem_toList.mpr member⟩)
  fails error fails := by
    rw [expand_eq] at fails
    exact passOver_eq_error fails
  keepsShape expanded expands := by
    rw [expand_eq] at expands
    obtain rfl := passOver_eq_ok expands
    exact ⟨rfl, declared.operands_fill⟩
  settles expanded expands :=
    have settled := isExpanded_of_expand expands
    ⟨settled, fun _ => expand_of_isExpanded settled⟩
  isWritten expanded expands table := by
    obtain ⟨text, written⟩ := expanded.clause_eq table (isExpanded_of_expand expands)
    rw [written, passOver_isOk]
    simp only [Leaf.isForeign, Option.isNone_eq_false_iff]
  notWritten expanded expands table error fails := by
    obtain ⟨text, written⟩ := expanded.clause_eq table (isExpanded_of_expand expands)
    rw [written] at fails
    exact passOver_eq_error fails

end Tree

end Filter

namespace Source

/-- A filter of a source is expanded before it is written out. -/
theorem Walk.filter_expanded {context : Context} {tree : Filter.Tree} {walk : Walk}
    {column : String} : walk.filter context tree ≠ .error (.unexpanded column) := by
  intro failed
  obtain failed | ⟨expanded, expands, failed⟩ := bind_eq_error failed
  · rw [Filter.Tree.expand_eq] at failed
    obtain ⟨_, -, other⟩ := Filter.passOver_eq_error failed
    contradiction
  obtain failed | ⟨clause, -, failed⟩ := bind_eq_error failed
  · obtain ⟨text, written⟩ := expanded.clause_eq _ (Filter.Tree.isExpanded_of_expand expands)
    rw [written] at failed
    obtain ⟨_, -, other⟩ := Filter.passOver_eq_error failed
    contradiction
  · contradiction

theorem Spec.resolve_expanded (context : Context) (spec : Spec) (column : String) :
    spec.resolve context ≠ .error (.filter (.unexpanded column)) := by
  intro failed
  obtain ⟨reached, step, -, failed⟩ | ⟨_, other | other⟩ | ⟨_, other⟩ := Spec.resolve_error failed
  · obtain ⟨_, other⟩ | ⟨tree, cause, -, failed, same⟩ | ⟨hopStep, -, failed⟩ |
      ⟨_, _, _, -, -, -, other⟩ := Walk.step_error failed
    · contradiction
    · cases same
      exact Walk.filter_expanded failed
    · obtain ⟨_, _, other⟩ | ⟨_, other⟩ | ⟨_, other⟩ := HopStep.foreignKey_error failed
      all_goals contradiction
    · contradiction
  all_goals contradiction

end Source

namespace Filter

/-- A filter that was read is expanded with a row just if each of its templates comes to some
    text, and otherwise the first one that does not is the error.  What it is expanded to has its
    shape, is not expanded again, and is written out for a table just if its columns are there,
    and otherwise the first one that is not is the error.  So no source is refused for a filter
    that was not expanded. -/
theorem expansion_all_or_nothing {value : Json} {tree : Tree} (read : Tree.ofJson value = .ok tree)
    (row : Row) :
    tree.ExpandsWhole Template.braces row ∧
      ∀ (context : Source.Context) (spec : Source.Spec) (column : String),
        spec.resolve context ≠ .error (.filter (.unexpanded column)) :=
  ⟨(ofJson_declared value read).expandsWhole, Source.Spec.resolve_expanded⟩

namespace Sample

/-- With a value for its one placeholder the filter is expanded, and never again; without one the
    comparison that has it is the error. -/
theorem expansion_all_or_nothing_nested :
    Tree.ofJson nested = .ok nestedTemplate ∧
    nestedTemplate.ExpandsWhole Template.braces [("x", .string "(1)")] ∧
    nestedTemplate.ExpandsWhole Template.braces [] ∧
    nestedTemplate.expand Template.braces [("x", .string "(1)")] = .ok nestedTree ∧
    (∀ other, nestedTree.expand Template.braces other = .ok nestedTree) ∧
    nestedTemplate.expand Template.braces [] = .error (.emptyOperand "a;b") := by
  have read := toOption_eq_some.mp (rfl : (Tree.ofJson nested).toOption = some nestedTemplate)
  have expands := toOption_eq_some.mp (by decide +kernel :
    (nestedTemplate.expand Template.braces [("x", .string "(1)")]).toOption = some nestedTree)
  have empty : nestedTemplate.leaves.find? (Leaf.comesOutEmpty Template.braces []) =
      some ⟨"a;b", .equal, some (.template "\x7b\x7bx\x7d\x7d"), false⟩ := by
    decide +kernel
  have whole := (expansion_all_or_nothing read [("x", .string "(1)")]).1
  refine ⟨read, whole, (expansion_all_or_nothing read []).1, expands,
    (whole.settles _ expands).2, ?_⟩
  rw [Tree.expand_eq, passOver, empty]

end Sample

end Filter

end PathQuery
