import PathQuery.Proofs.Filter.Meaning
import PathQuery.Proofs.Filter.Unambiguous

namespace PathQuery

/-! # Filters written back

A filter is read back from the declaration it is written as.  An expanded one is written as
if the texts of its operands were templates, so this is how it is read back, and expanding
it again gives the same filter just where these templates come out as they are.  A text
without placeholders always does, and one without two opening braces in a row has none.
-/

namespace Template

/-- No placeholder can start in the text. -/
def Literal (text : String) : Prop := ¬ ['{', '{'] <:+: text.toList

instance (text : String) : Decidable (Literal text) := inferInstanceAs (Decidable (¬ _))

theorem opening?_eq_none {text : List Char} (closed : ¬ ['{', '{'] <+: text) :
    opening? text = none := by
  unfold opening?
  split
  · exact absurd (List.prefix_append ['{', '{'] _) closed
  · exact absurd (List.prefix_append ['{', '{'] _) closed
  · rfl

/-- A placeholder starts somewhere in the text. -/
def HasPlaceholder (text : String) : Prop :=
  ∃ rest, rest <:+ text.toList ∧ (placeholder? rest).isSome = true

theorem substitute_of_none (row : Row) {text : List Char}
    (none : ∀ rest, rest <:+ text → placeholder? rest = none) : substitute row text = text := by
  induction text with
  | nil => rw [substitute]
  | cons c rest ih =>
      have later : substitute row rest = rest :=
        ih fun suffix within => none suffix (within.trans (List.suffix_cons c rest))
      rw [substitute]
      split
      · rename_i found
        rw [none _ List.suffix_rfl] at found
        contradiction
      · rw [later]

theorem braces_of_not_hasPlaceholder {text : String} (plain : ¬HasPlaceholder text) (row : Row) :
    braces text row = text := by
  have none : ∀ rest, rest <:+ text.toList → placeholder? rest = none := by
    intro rest within
    exact Option.not_isSome_iff_eq_none.mp fun found => plain ⟨rest, within, found⟩
  rw [braces, substitute_of_none row none, String.ofList_toList]

/-- Nothing is put in from a row without columns. -/
theorem length_substitute_nil (text : List Char) : (substitute [] text).length ≤ text.length := by
  fun_induction substitute [] text with
  | case1 => exact Nat.le_refl 0
  | case2 c rest name after found ih =>
      have shorter := length_placeholder? found
      have nothing : value [] (String.ofList name) = "" := rfl
      rw [nothing, String.toList_empty, List.nil_append]
      omega
  | case3 c rest none ih => exact Nat.succ_le_succ ih

theorem length_substitute_nil_lt {text rest : List Char} (within : rest <:+ text)
    (found : (placeholder? rest).isSome = true) : (substitute [] text).length < text.length := by
  fun_induction substitute [] text with
  | case1 =>
      obtain rfl := List.suffix_nil.mp within
      contradiction
  | case2 c later name after opens ih =>
      have shorter := length_placeholder? opens
      have nothing : value [] (String.ofList name) = "" := rfl
      have bound := length_substitute_nil after
      rw [nothing, String.toList_empty, List.nil_append]
      omega
  | case3 c later none ih =>
      obtain rfl | within := List.suffix_cons_iff.mp within
      · rw [none] at found
        contradiction
      · exact Nat.succ_lt_succ (ih within)

/-- The texts that come out as they are, whatever the row is, are those without placeholders. -/
theorem braces_eq_self_iff (text : String) :
    (∀ row, braces text row = text) ↔ ¬HasPlaceholder text := by
  constructor
  · rintro same ⟨rest, within, found⟩
    have shorter := length_substitute_nil_lt within found
    have kept : substitute [] text.toList = text.toList := by
      rw [← String.toList_ofList (l := substitute [] text.toList)]
      exact congrArg String.toList (same [])
    rw [kept] at shorter
    exact Nat.lt_irrefl _ shorter
  · exact braces_of_not_hasPlaceholder

theorem Literal.not_hasPlaceholder {text : String} (literal : Literal text) :
    ¬HasPlaceholder text := by
  rintro ⟨rest, within, found⟩
  have closed : opening? rest = none :=
    opening?_eq_none fun opens => literal (opens.isInfix.trans within.isInfix)
  rw [placeholder?, closed] at found
  contradiction

theorem braces_literal {text : String} (literal : Literal text) (row : Row) :
    braces text row = text :=
  braces_of_not_hasPlaceholder literal.not_hasPlaceholder row

end Template

namespace Filter

/-- A comparison has an operand, expanded to some text, where its operator takes one. -/
def Leaf.Filled (leaf : Leaf) : Prop :=
  ∃ text, text ≠ "" ∧
    leaf.operand = if leaf.operator.takesOperand then some (.expanded text) else none

theorem Leaf.Declared.filled {engine : Template.Engine} {row : Row} {leaf result : Leaf}
    (declared : leaf.Declared) (expands : leaf.expand engine row = .ok result) :
    result.Filled := by
  obtain ⟨template, operand⟩ := declared
  rw [Leaf.expand, operand] at expands
  cases takes : leaf.operator.takesOperand with
  | false =>
      simp only [takes, Bool.false_eq_true, if_false] at expands
      cases expands
      exact ⟨"?", by decide, by rw [operand, takes, if_neg Bool.false_ne_true,
        if_neg Bool.false_ne_true]⟩
  | true =>
      simp only [takes, if_true, Operand.expand] at expands
      split at expands
      · contradiction
      · rename_i value
        cases expands
        refine ⟨engine template row, ?_, by rw [takes, if_pos rfl]⟩
        intro empty
        exact value (String.isEmpty_iff.mpr empty)

namespace Tree

mutual

/-- The texts of the operands. -/
def operands : Tree → List String
  | leaf comparison => (comparison.operand.map Operand.text).toList
  | node _ children _ => operandsOf children

def operandsOf : List Tree → List String
  | [] => []
  | tree :: trees => operands tree ++ operandsOf trees

end

/-- Every comparison of the tree is filled, and every node has a child. -/
inductive Filled : Tree → Prop
  | leaf {comparison : Leaf} (filled : comparison.Filled) : Filled (.leaf comparison)
  | node {junction : Junction} {children : List Tree} {negate : Bool}
      (nonempty : children ≠ []) (filled : ∀ child ∈ children, Filled child) :
      Filled (.node junction children negate)

theorem Declared.filled {engine : Template.Engine} {row : Row} {tree : Tree}
    (declared : tree.Declared) :
    ∀ {result : Tree}, tree.expand engine row = .ok result → result.Filled := by
  induction declared with
  | leaf declared =>
      intro result expands
      obtain ⟨comparison, expandsLeaf, expands⟩ := bind_eq_ok.mp expands
      cases expands
      exact .leaf (declared.filled expandsLeaf)
  | @node junction children negate nonempty _ ih =>
      intro result expands
      obtain ⟨results, expandsAll, expands⟩ := bind_eq_ok.mp expands
      cases expands
      have each := expandAll_eq_ok.mp expandsAll
      refine .node ?_ ?_
      · rintro rfl
        exact nonempty (List.forall₂_nil_right_iff.mp each)
      · intro child member
        obtain ⟨index, inside, rfl⟩ := List.getElem_of_mem member
        have among : index < children.length := each.length_eq ▸ inside
        exact ih _ (List.getElem_mem among) (each.get among inside)

theorem operandsOf_eq (trees : List Tree) : operandsOf trees = trees.flatMap operands := by
  induction trees with
  | nil => rfl
  | cons tree trees ih => rw [operandsOf, ih, List.flatMap_cons]

/-- A node is read back from its children. -/
theorem ofJson_node (junction : Junction) {children templates : List Tree} (negate : Bool)
    (nonempty : children ≠ []) (read : readTrees (toJsons children) = .ok templates) :
    ofJson (toJson (.node junction children negate)) = .ok (.node junction templates negate) := by
  obtain ⟨child, others, rfl⟩ := List.exists_cons_of_ne_nil nonempty
  have isRead : readChildren junction (.array (toJsons (child :: others))) = .ok templates := by
    rw [toJsons, readChildren, ← toJsons, read]
  have negates : ∀ items,
      readNegate ((junction.key, items) :: negateField negate) = .ok negate := by
    intro items
    cases junction <;> cases negate <;> rfl
  have kinds : ∀ items, (kindKeys.filter
      (Json.Fields.contains ((junction.key, items) :: negateField negate))).length = 1 := by
    intro items
    cases junction <;> cases negate <;> rfl
  rw [toJson, ofJson, negates, ok_bind]
  cases junction with
  | all => simp [kinds, childrenUnder, isRead]
  | any =>
      have noAll : ∀ items, childrenUnder .all ((Junction.any.key, items) :: negateField negate) =
          none := by
        intro items
        cases negate <;> rfl
      simp only [kinds, noAll]
      simp [childrenUnder, isRead]

theorem readTrees_toJsons {trees : List Tree}
    (each : ∀ tree ∈ trees, ofJson tree.toJson = .ok tree) :
    readTrees (toJsons trees) = .ok trees := by
  induction trees with
  | nil => rfl
  | cons tree trees ih =>
      obtain ⟨first, later⟩ := List.forall_mem_cons.mp each
      rw [toJsons, readTrees, first, ok_bind, ih later]
      rfl

theorem ofJson_leaf {leaf : Leaf} (declared : leaf.Declared) :
    ofJson (toJson (.leaf leaf)) = .ok (.leaf leaf) := by
  obtain ⟨column, operator, operand, negate⟩ := leaf
  obtain ⟨template, isOperand⟩ := declared
  obtain rfl : operand = if operator.takesOperand then some (.template template) else none :=
    isOperand
  cases operator <;> cases negate <;> rfl

/-- A declared filter is read from what it is written as. -/
theorem Declared.ofJson_toJson {tree : Tree} (declared : tree.Declared) :
    ofJson tree.toJson = .ok tree := by
  induction declared with
  | leaf declared => exact ofJson_leaf declared
  | @node junction children negate nonempty _ ih =>
      exact ofJson_node junction negate nonempty (readTrees_toJsons ih)

end Tree

/-- The comparison with the text of its operand as a template. -/
def Leaf.asTemplate (leaf : Leaf) : Leaf :=
  { leaf with operand := leaf.operand.map fun operand => .template operand.text }

theorem Leaf.Filled.declared {leaf : Leaf} (filled : leaf.Filled) : leaf.asTemplate.Declared := by
  obtain ⟨text, -, operand⟩ := filled
  refine ⟨text, ?_⟩
  rw [asTemplate, operand]
  cases leaf.operator.takesOperand <;> rfl

/-- A comparison comes back from its template if the text of its operand stays as it is. -/
theorem Leaf.Filled.expand_asTemplate {leaf : Leaf} (filled : leaf.Filled)
    (engine : Template.Engine) (row : Row) :
    leaf.asTemplate.expand engine row = .ok leaf ↔
      ∀ text ∈ leaf.operand.map Operand.text, engine text row = text := by
  obtain ⟨column, operator, operand, negate⟩ := leaf
  obtain ⟨text, nonempty, isOperand⟩ := filled
  obtain rfl : operand = if operator.takesOperand then some (.expanded text) else none := isOperand
  have present : text.isEmpty = false :=
    Bool.eq_false_iff.mpr fun empty => nonempty (String.isEmpty_iff.mp empty)
  cases takes : operator.takesOperand with
  | false => simp [asTemplate, expand]
  | true =>
      by_cases kept : engine text row = text
      · simp [asTemplate, expand, Operand.expand, Operand.text, kept, present]
      · by_cases empty : (engine text row).isEmpty = true
        · simp [asTemplate, expand, Operand.expand, Operand.text, kept, empty]
        · simp [asTemplate, expand, Operand.expand, Operand.text, kept, empty]

namespace Tree

mutual

/-- The tree with the texts of its operands as templates. -/
def asTemplate : Tree → Tree
  | leaf comparison => leaf comparison.asTemplate
  | node junction children negate => node junction (asTemplates children) negate

def asTemplates : List Tree → List Tree
  | [] => []
  | tree :: trees => asTemplate tree :: asTemplates trees

end

theorem asTemplates_eq (trees : List Tree) : asTemplates trees = trees.map asTemplate := by
  induction trees with
  | nil => rfl
  | cons tree trees ih => rw [asTemplates, ih, List.map_cons]

theorem toJsons_eq (trees : List Tree) : toJsons trees = trees.map toJson := by
  induction trees with
  | nil => rfl
  | cons tree trees ih => rw [toJsons, ih, List.map_cons]

/-- Written out, an operand does not show whether it was expanded. -/
theorem toJson_asTemplate (tree : Tree) : tree.asTemplate.toJson = tree.toJson := by
  induction tree using induction with
  | leaf comparison =>
      obtain ⟨column, operator, operand, negate⟩ := comparison
      cases operand <;> rfl
  | node junction children negate ih =>
      have same : toJsons (asTemplates children) = toJsons children := by
        rw [asTemplates_eq, toJsons_eq, toJsons_eq, List.map_map]
        exact List.map_congr_left ih
      rw [asTemplate, toJson, toJson, same]

theorem Filled.declared {tree : Tree} (filled : tree.Filled) : tree.asTemplate.Declared := by
  induction filled with
  | leaf filled => exact .leaf filled.declared
  | @node junction children negate nonempty _ ih =>
      rw [asTemplate, asTemplates_eq]
      refine .node (by simpa using nonempty) ?_
      intro template member
      obtain ⟨child, among, rfl⟩ := List.mem_map.mp member
      exact ih child among

theorem Filled.ofJson_toJson {tree : Tree} (filled : tree.Filled) :
    ofJson tree.toJson = .ok tree.asTemplate := by
  rw [← toJson_asTemplate]
  exact filled.declared.ofJson_toJson

/-- A tree comes back from its templates if the texts of its operands stay as they are. -/
theorem Filled.expand_asTemplate {tree : Tree} (filled : tree.Filled) (engine : Template.Engine)
    (row : Row) : tree.asTemplate.expand engine row = .ok tree ↔
      ∀ text ∈ tree.operands, engine text row = text := by
  induction filled with
  | @leaf comparison filled =>
      have whole : (Tree.leaf comparison.asTemplate).expand engine row = .ok (.leaf comparison) ↔
          comparison.asTemplate.expand engine row = .ok comparison := by
        rw [expand]
        cases comparison.asTemplate.expand engine row <;> simp
      rw [asTemplate, whole, filled.expand_asTemplate]
      simp [operands]
  | @node junction children negate _ _ ih =>
      have whole : (Tree.node junction (asTemplates children) negate).expand engine row =
          .ok (.node junction children negate) ↔
            expandAll engine row (asTemplates children) = .ok children := by
        rw [expand]
        cases expandAll engine row (asTemplates children) <;> simp
      rw [asTemplate, whole, expandAll_eq_ok, asTemplates_eq, List.forall₂_map_left_iff,
        List.forall₂_same, operands, operandsOf_eq]
      simp only [List.mem_flatMap]
      constructor
      · rintro each text ⟨child, among, member⟩
        exact (ih child among).mp (each child among) text member
      · intro same child among
        exact (ih child among).mpr fun text member => same text ⟨child, among, member⟩

/-- What is read from the declaration that a tree is written as is expanded to the tree,
    by an engine that leaves its operands as they are. -/
def ReadBack (tree template : Tree) : Prop :=
  ofJson tree.toJson = .ok template ∧
    ∀ (engine : Template.Engine) (row : Row),
      (∀ text ∈ tree.operands, engine text row = text) → template.expand engine row = .ok tree

theorem Filled.readBack {tree : Tree} (filled : tree.Filled) :
    ∃ template, tree.ReadBack template :=
  ⟨tree.asTemplate, filled.ofJson_toJson,
    fun engine row => (filled.expand_asTemplate engine row).mpr⟩

/-- An expanded filter is read back, and where it is expanded again, against any other row, it
    is the same if the row leaves the texts of its operands as they are.  So it survives for
    every row just if no operand has become a text with a placeholder. -/
theorem expanded_filter_reexpands {value : Json} {tree expanded : Tree} {row : Row}
    (read : ofJson value = .ok tree) (expands : tree.expand Template.braces row = .ok expanded) :
    ∃ template, ofJson expanded.toJson = .ok template ∧
      (∀ other, template.expand Template.braces other = .ok expanded ↔
        ∀ text ∈ expanded.operands, Template.braces text other = text) ∧
      ((∀ other, template.expand Template.braces other = .ok expanded) ↔
        ∀ text ∈ expanded.operands, ¬Template.HasPlaceholder text) := by
  have filled : expanded.Filled := (ofJson_declared value read).filled expands
  have again := filled.expand_asTemplate Template.braces
  refine ⟨expanded.asTemplate, filled.ofJson_toJson, again, ?_⟩
  constructor
  · intro same text member
    exact (Template.braces_eq_self_iff text).mp fun other =>
      (again other).mp (same other) text member
  · intro plain other
    exact (again other).mpr fun text member =>
      Template.braces_of_not_hasPlaceholder (plain text member) other

end Tree

/-! A value that looks like a template itself.  It is put in as it is, but written back it is
read as a template, for which the next row has no value. -/

namespace Sample

def named : Json :=
  .object [("filter", .string "name"), ("operand_pattern", .string "\x7b\x7bx\x7d\x7d")]

def namedTemplate : Tree :=
  .leaf ⟨"name", .equal, some (.template "\x7b\x7bx\x7d\x7d"), false⟩

def braced : Row := [("x", .string "\x7b\x7by\x7d\x7d")]

def bracedTree : Tree := .leaf ⟨"name", .equal, some (.expanded "\x7b\x7by\x7d\x7d"), false⟩

theorem named_expands : namedTemplate.expand Template.braces braced = .ok bracedTree :=
  toOption_eq_some.mp (by decide +kernel)

end Sample

namespace Tree

theorem expanded_filter_reexpands_braced :
    ofJson Sample.named = .ok Sample.namedTemplate ∧
    Sample.namedTemplate.expand Template.braces Sample.braced = .ok Sample.bracedTree ∧
    ∃ template, ofJson Sample.bracedTree.toJson = .ok template ∧
      (∀ other, template.expand Template.braces other = .ok Sample.bracedTree ↔
        ∀ text ∈ Sample.bracedTree.operands, Template.braces text other = text) ∧
      ((∀ other, template.expand Template.braces other = .ok Sample.bracedTree) ↔
        ∀ text ∈ Sample.bracedTree.operands, ¬Template.HasPlaceholder text) :=
  have read : ofJson Sample.named = .ok Sample.namedTemplate := rfl
  ⟨read, Sample.named_expands, expanded_filter_reexpands read Sample.named_expands⟩

theorem expanded_filter_lost :
    ofJson Sample.named = .ok Sample.namedTemplate ∧
    Sample.namedTemplate.expand Template.braces Sample.braced = .ok Sample.bracedTree ∧
    ∃ template, ofJson Sample.bracedTree.toJson = .ok template ∧
      template.expand Template.braces [] = .error (.emptyOperand "name") := by
  have nothing : Template.braces "\x7b\x7by\x7d\x7d" [] = "" := by decide +kernel
  refine ⟨rfl, Sample.named_expands, Sample.bracedTree.asTemplate, rfl, ?_⟩
  simp [Sample.bracedTree, asTemplate, Leaf.asTemplate, Operand.text, expand, Leaf.expand,
    Operand.expand, nothing]

end Tree

end Filter

end PathQuery
