import PathQuery.Filter.Clause
import PathQuery.Filter.Expansion
import PathQuery.Proofs.Outcome
import PathQuery.Proofs.Filter.Reordering

namespace PathQuery

/-! # What filters mean

A filter is a Boolean combination of comparisons, so which rows it accepts depends only on
which comparisons hold of a row.  Nothing is assumed of the comparisons themselves.
-/

/-- What a comparison looks at: the whole row, or a column of the table at hand or of the
table that an alias stands for. -/
inductive Subject where
  | wholeRow
  | column (owner : Option String) (name : String)
  deriving DecidableEq

/-- A comparison, with its operand as it was before it was encoded. -/
structure Comparison where
  subject : Subject
  operator : Filter.Operator
  operand : Option String
  deriving DecidableEq

/-- Which comparisons hold of a row. -/
abbrev Truth := Comparison → Bool

namespace Filter

def Junction.combine : Junction → List Bool → Bool
  | .all, parts => parts.all id
  | .any, parts => parts.any id

theorem Junction.combine_perm (junction : Junction) {left right : List Bool}
    (permuted : left.Perm right) : junction.combine left = junction.combine right := by
  cases junction with
  | all => exact permuted.all_eq
  | any => exact permuted.any_eq

def Leaf.holds (truth : Truth) (leaf : Leaf) : Bool :=
  leaf.negate ^^ truth ⟨.column none leaf.column, leaf.operator, leaf.operand.map Operand.text⟩

namespace Tree

mutual

/-- Whether a filter accepts a row. -/
def holds (truth : Truth) : Tree → Bool
  | leaf comparison => comparison.holds truth
  | node junction children negate => negate ^^ junction.combine (eachHolds truth children)

def eachHolds (truth : Truth) : List Tree → List Bool
  | [] => []
  | tree :: trees => holds truth tree :: eachHolds truth trees

end

theorem eachHolds_eq (truth : Truth) (trees : List Tree) :
    eachHolds truth trees = trees.map (holds truth) := by
  induction trees with
  | nil => rfl
  | cons tree trees ih => rw [eachHolds, ih, List.map_cons]

theorem expandAll_eq_ok {engine : Template.Engine} {row : Row} {trees expanded : List Tree} :
    expandAll engine row trees = .ok expanded ↔
      List.Forall₂ (fun tree result => tree.expand engine row = .ok result) trees expanded := by
  induction trees generalizing expanded with
  | nil =>
      rw [List.forall₂_nil_left_iff]
      exact ⟨fun same => (Except.ok.inj same).symm, fun same => by rw [same]; rfl⟩
  | cons tree trees ih =>
      rw [List.forall₂_cons_left_iff, expandAll]
      constructor
      · intro expands
        obtain ⟨first, firstExpands, expands⟩ := bind_eq_ok.mp expands
        obtain ⟨later, laterExpand, expands⟩ := bind_eq_ok.mp expands
        cases expands
        exact ⟨first, later, firstExpands, ih.mp laterExpand, rfl⟩
      · rintro ⟨first, later, firstExpands, laterExpand, rfl⟩
        rw [firstExpands, ok_bind, ih.mpr laterExpand]
        rfl

theorem clauses_eq_ok {table : Table} {trees : List Tree} {texts : List String} :
    clauses table trees = .ok texts ↔
      List.Forall₂ (fun tree text => tree.clause table = .ok text) trees texts := by
  induction trees generalizing texts with
  | nil =>
      rw [List.forall₂_nil_left_iff]
      exact ⟨fun same => (Except.ok.inj same).symm, fun same => by rw [same]; rfl⟩
  | cons tree trees ih =>
      rw [List.forall₂_cons_left_iff, clauses]
      constructor
      · intro written
        obtain ⟨first, firstWritten, written⟩ := bind_eq_ok.mp written
        obtain ⟨later, laterWritten, written⟩ := bind_eq_ok.mp written
        cases written
        exact ⟨first, later, firstWritten, ih.mp laterWritten, rfl⟩
      · rintro ⟨first, later, firstWritten, laterWritten, rfl⟩
        rw [firstWritten, ok_bind, ih.mpr laterWritten]
        rfl

/-- What each child of a node comes to, each child of a reordered node comes to as well. -/
theorem forall₂_carry {related : α → α → Prop} {becomes : α → β → Prop}
    {similar : β → β → Prop} {left moved right : List α} {results : List β}
    (permuted : left.Perm moved) (matched : List.Forall₂ related moved right)
    (given : List.Forall₂ becomes left results)
    (carry : ∀ x ∈ left, ∀ y, related x y → ∀ result, becomes x result →
      ∃ result', becomes y result' ∧ similar result result') :
    ∃ movedResults results', results.Perm movedResults ∧
      List.Forall₂ similar movedResults results' ∧ List.Forall₂ becomes right results' := by
  obtain ⟨movedResults, become, rearranged⟩ := List.perm_comp_forall₂ permuted.symm given
  have pointwise : ∀ x ∈ moved, ∀ y, related x y → ∀ result, becomes x result →
      ∃ result', becomes y result' ∧ similar result result' :=
    fun x member => carry x (permuted.mem_iff.mpr member)
  have carried : ∃ results', List.Forall₂ similar movedResults results' ∧
      List.Forall₂ becomes right results' := by
    clear given permuted rearranged carry
    induction matched generalizing movedResults with
    | nil =>
        cases become
        exact ⟨[], .nil, .nil⟩
    | @cons x y _ _ pair _ ih =>
        cases become with
        | @cons _ result _ _ first later =>
            obtain ⟨result', first', alike⟩ := pointwise x List.mem_cons_self y pair result first
            obtain ⟨results', others, later'⟩ := ih _ later
              fun x member => pointwise x (List.mem_cons_of_mem _ member)
            exact ⟨result' :: results', .cons alike others, .cons first' later'⟩
  obtain ⟨results', alike, become'⟩ := carried
  exact ⟨movedResults, results', rearranged.symm, alike, become'⟩

variable {loose : Bool} {left : Tree}

/-- A reordered filter can be expanded if the filter can, and is reordered still. -/
theorem Reordered.expand {engine : Template.Engine} {row : Row} :
    ∀ {right expanded : Tree}, Reordered loose left right →
      left.expand engine row = .ok expanded →
      ∃ expanded', right.expand engine row = .ok expanded' ∧
        Reordered loose expanded expanded' := by
  induction left using induction with
  | leaf comparison =>
      intro right expanded reordered expands
      cases reordered
      rw [Tree.expand] at expands
      obtain ⟨comparison', expandsLeaf, expands'⟩ := bind_eq_ok.mp expands
      cases expands'
      exact ⟨.leaf comparison', expands, .leaf comparison'⟩
  | node junction children negate ih =>
      intro right expanded reordered expands
      cases reordered with
      | @node _ junction' _ moved children' _ joined permuted matched =>
          rw [Tree.expand] at expands
          obtain ⟨results, expandsAll, expands⟩ := bind_eq_ok.mp expands
          cases expands
          have each := expandAll_eq_ok.mp expandsAll
          obtain ⟨movedResults, results', rearranged, alike, each'⟩ := forall₂_carry
            permuted matched each fun child member child' pair result expands =>
              ih child member pair expands
          refine ⟨.node junction' results' negate, ?_, .node negate ?_ rearranged alike⟩
          · rw [Tree.expand, expandAll_eq_ok.mpr each']
            rfl
          · rwa [← each.length_eq]

/-- A reordered filter can be written wherever the filter can. -/
theorem Reordered.clause {table : Table} :
    ∀ {right : Tree} {text : String}, Reordered loose left right →
      left.clause table = .ok text → ∃ text', right.clause table = .ok text' := by
  induction left using induction with
  | leaf comparison =>
      intro right text reordered written
      cases reordered
      exact ⟨text, written⟩
  | node junction children negate ih =>
      intro right text reordered written
      cases reordered with
      | @node _ junction' _ moved children' _ joined permuted matched =>
          rw [Tree.clause] at written
          obtain ⟨texts, writtenEach, written⟩ := bind_eq_ok.mp written
          have carry : ∀ child ∈ children, ∀ child', Reordered loose child child' →
              ∀ text, child.clause table = .ok text →
                ∃ text', child'.clause table = .ok text' ∧ True := by
            intro child member child' pair text written
            obtain ⟨text', written'⟩ := ih child member pair written
            exact ⟨text', written', trivial⟩
          obtain ⟨_, texts', -, -, each'⟩ :=
            forall₂_carry permuted matched (clauses_eq_ok.mp writtenEach) carry
          refine ⟨joinClauses junction' negate texts', ?_⟩
          rw [Tree.clause, clauses_eq_ok.mpr each']
          rfl

/-- A reordered filter accepts the same rows. -/
theorem Reordered.holds (truth : Truth) :
    ∀ {right : Tree}, Reordered loose left right → left.holds truth = right.holds truth := by
  induction left using induction with
  | leaf comparison =>
      intro right reordered
      cases reordered
      rfl
  | node junction children negate ih =>
      intro right reordered
      cases reordered with
      | @node _ junction' _ moved children' _ joined permuted matched =>
          have same : moved.map (Tree.holds truth) = children'.map (Tree.holds truth) := by
            rw [← List.forall₂_eq_eq_eq, List.forall₂_map_left_iff, List.forall₂_map_right_iff]
            exact forall₂_imp_mem matched fun child member child' _ pair =>
              ih child (permuted.mem_iff.mpr member) pair
          have results : (children.map (Tree.holds truth)).Perm (children'.map (Tree.holds truth)) :=
            same ▸ permuted.map _
          rw [Tree.holds, Tree.holds, eachHolds_eq, eachHolds_eq]
          rcases joined with rfl | ⟨-, single⟩
          · rw [junction.combine_perm results]
          · obtain ⟨child, rfl⟩ := List.length_eq_one_iff.mp single
            rw [← List.singleton_perm.mp results]
            cases junction <;> cases junction' <;> simp [Junction.combine]

end Tree

end Filter

end PathQuery
