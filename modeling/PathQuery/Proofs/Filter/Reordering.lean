import Mathlib.Data.List.Perm.Basic
import Mathlib.Data.Prod.Lex
import Mathlib.Order.Lattice
import Mathlib.Data.String.Basic
import PathQuery.Filter.Canonical

namespace PathQuery

/-! # Reordered filters

Trees that differ in the order of the children of their nodes have the same canonical
text.  What a canonical order compares is the same for both, from the leaves up, so trees
that tie in it may still stand in either order, but only with the same text.
-/

theorem forall₂_imp_mem {related implied : α → α → Prop} {left right : List α}
    (matched : List.Forall₂ related left right)
    (implies : ∀ x ∈ left, ∀ y ∈ right, related x y → implied x y) :
    List.Forall₂ implied left right := by
  rw [List.forall₂_iff_zip] at matched ⊢
  refine ⟨matched.1, fun {x y} paired => ?_⟩
  obtain ⟨inLeft, inRight⟩ := List.of_mem_zip paired
  exact implies x inLeft y inRight (matched.2 paired)

theorem forall₂_perm {related : α → α → Prop} {left moved right : List α}
    (matched : List.Forall₂ related left moved) (permuted : moved.Perm right) :
    ∃ other, left.Perm other ∧ List.Forall₂ related other right := by
  have composed : Relation.Comp (List.Forall₂ related) List.Perm left right :=
    ⟨moved, matched, permuted⟩
  rwa [List.forall₂_comp_perm_eq_perm_comp_forall₂] at composed

namespace Filter

namespace Tree

theorem texts_eq (trees : List Tree) : texts trees = trees.map text := by
  induction trees with
  | nil => rfl
  | cons tree trees ih => rw [texts, ih, List.map_cons]

theorem canonicals_eq (trees : List Tree) : canonicals trees = trees.map canonical := by
  induction trees with
  | nil => rfl
  | cons tree trees ih => rw [canonicals, ih, List.map_cons]

/-- Induction over a tree, with the property for every child of a node. -/
theorem induction {motive : Tree → Prop} (leaf : ∀ comparison, motive (.leaf comparison))
    (node : ∀ junction children negate, (∀ child ∈ children, motive child) →
      motive (.node junction children negate)) (tree : Tree) : motive tree :=
  @Tree.rec motive (fun children => ∀ child ∈ children, motive child) leaf node nofun
    (fun _ _ first later _ member => by
      obtain rfl | member := List.mem_cons.mp member
      · exact first
      · exact later _ member) tree

/-- The second tree is the first one with the children of its nodes in other orders.
    If `loose`, the junction of an only child does not count. -/
inductive Reordered (loose : Bool) : Tree → Tree → Prop
  | leaf (comparison : Leaf) : Reordered loose (.leaf comparison) (.leaf comparison)
  | node {junction junction' : Junction} {children moved children' : List Tree}
      (negate : Bool)
      (joined : junction = junction' ∨ (loose = true ∧ children.length = 1))
      (permuted : children.Perm moved)
      (matched : List.Forall₂ (Reordered loose) moved children') :
      Reordered loose (.node junction children negate) (.node junction' children' negate)

/-- What the canonical order compares. -/
def sortKey (tree : Tree) : Bool ×ₗ ℕ ×ₗ ℕ ×ₗ String :=
  toLex (tree.negate, toLex (tree.rank, toLex (tree.childCount, tree.text)))

theorem precedes_iff (left right : Tree) :
    precedes left right = true ↔ left.sortKey ≤ right.sortKey := by
  simp only [precedes, sortKey, Prod.Lex.toLex_le_toLex]
  by_cases negates : left.negate = right.negate
  · simp only [negates, bne_self_eq_false, Bool.false_eq_true, if_false, lt_self_iff_false,
      false_or, true_and]
    by_cases ranks : left.rank = right.rank
    · simp only [ranks, ne_eq, not_true_eq_false, if_false, lt_self_iff_false, false_or, true_and]
      by_cases counts : left.childCount = right.childCount
      · simp [counts]
      · simp [counts]
    · simp [ranks]
  · have opposite : (left.negate != right.negate) = true := bne_iff_ne.mpr negates
    rw [if_pos opposite]
    cases negated : left.negate <;> cases negated' : right.negate <;> simp_all

theorem precedes_pairwise (trees : List Tree) :
    (trees.mergeSort precedes).Pairwise fun left right => left.sortKey ≤ right.sortKey := by
  refine (List.pairwise_mergeSort ?_ ?_ trees).imp fun ordered => (precedes_iff _ _).mp ordered
  · intro first second third before after
    rw [precedes_iff] at before after ⊢
    exact before.trans after
  · intro left right
    rw [Bool.or_eq_true, precedes_iff, precedes_iff]
    exact le_total _ _

/-- Sorting leaves nothing of the order in what is compared. -/
theorem sortKeys_eq {left right : List Tree}
    (permuted : (left.map sortKey).Perm (right.map sortKey)) :
    (left.mergeSort precedes).map sortKey = (right.mergeSort precedes).map sortKey := by
  have sorted : ∀ trees : List Tree,
      ((trees.mergeSort precedes).map sortKey).Pairwise (· ≤ ·) :=
    fun trees => List.pairwise_map.mpr (precedes_pairwise trees)
  refine List.Perm.eq_of_pairwise (fun _ _ _ _ => le_antisymm) (sorted left) (sorted right) ?_
  exact ((List.mergeSort_perm left precedes).map sortKey).trans
    (permuted.trans ((List.mergeSort_perm right precedes).map sortKey).symm)

theorem text_eq_sortKey (tree : Tree) : tree.text = (ofLex (ofLex (ofLex tree.sortKey).2).2).2 :=
  rfl

theorem sortKey_node {junction : Junction} {left right : List Tree} (negate : Bool)
    (same : left.map sortKey = right.map sortKey) :
    (node junction left negate).sortKey = (node junction right negate).sortKey := by
  have texts : texts left = texts right := by
    have projected := congrArg (List.map fun key => (ofLex (ofLex (ofLex key).2).2).2) same
    simpa only [List.map_map, texts_eq, Function.comp_def, ← text_eq_sortKey] using projected
  have counts : left.length = right.length := by
    simpa using congrArg List.length same
  cases junction with
  | all => simp only [sortKey, Tree.negate, rank, childCount, text, texts, counts]
  | any => simp only [sortKey, Tree.negate, rank, childCount, text, texts, counts]

/-- The canonical forms of reordered trees tie in the canonical order. -/
theorem Reordered.sortKey_canonical {left : Tree} :
    ∀ {right : Tree}, Reordered false left right →
      left.canonical.sortKey = right.canonical.sortKey := by
  induction left using induction with
  | leaf comparison =>
      intro right reordered
      cases reordered
      rfl
  | node junction children negate ih =>
      intro right reordered
      cases reordered with
      | @node _ junction' _ moved children' _ joined permuted matched =>
          obtain rfl : junction = junction' := by simpa using joined
          have keys : moved.map (sortKey ∘ canonical) = children'.map (sortKey ∘ canonical) := by
            rw [← List.forall₂_eq_eq_eq, List.forall₂_map_left_iff, List.forall₂_map_right_iff]
            exact forall₂_imp_mem matched fun child member child' _ =>
              ih child (permuted.mem_iff.mpr member)
          refine sortKey_node negate (sortKeys_eq ?_)
          rw [canonicals_eq, canonicals_eq, List.map_map, List.map_map, ← keys]
          exact permuted.map _

theorem Reordered.text_canonical {left right : Tree} (reordered : Reordered false left right) :
    left.canonical.text = right.canonical.text := by
  rw [text_eq_sortKey, text_eq_sortKey, reordered.sortKey_canonical]

theorem Reordered.of_canonical {loose : Bool} {left : Tree} :
    ∀ {right : Tree}, Reordered loose left.canonical right.canonical →
      Reordered loose left right := by
  induction left using induction with
  | leaf comparison =>
      intro right reordered
      cases right with
      | leaf comparison' =>
          cases reordered
          exact .leaf comparison
      | node junction children negate => cases reordered
  | node junction children negate ih =>
      intro right reordered
      cases right with
      | leaf comparison => cases reordered
      | node junction' children' negate' =>
          rw [canonical, canonical, canonicals_eq, canonicals_eq] at reordered
          cases reordered with
          | node negate joined permuted matched =>
              rw [List.length_mergeSort, List.length_map] at joined
              obtain ⟨between, rearranged, matched⟩ :=
                forall₂_perm matched (List.mergeSort_perm (children'.map canonical) precedes)
              have canonicals : List.Forall₂ (fun child form => child.canonical = form)
                  children (children.map canonical) :=
                List.forall₂_map_right_iff.mpr (List.forall₂_same.mpr fun _ _ => rfl)
              obtain ⟨moved, permuted, forms⟩ := forall₂_perm canonicals
                ((List.mergeSort_perm _ precedes).symm.trans (permuted.trans rearranged))
              rw [← List.forall₂_map_left_iff, List.forall₂_eq_eq_eq] at forms
              rw [← forms, List.forall₂_map_left_iff, List.forall₂_map_right_iff] at matched
              exact .node negate joined permuted (forall₂_imp_mem matched
                fun child member child' _ => ih child (permuted.mem_iff.mpr member))

end Tree

end Filter

end PathQuery
