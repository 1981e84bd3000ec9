import Mathlib.Data.List.Nodup
import PathQuery.Proofs.Filter.Meaning

namespace PathQuery.Filter

/-! # The canonical form of a filter

The canonical form is a reordered filter in canonical order, and it is the filter itself
just where that is in canonical order already.  Templates need not sort as the values do
that are put in for them, so expanding leaves the canonical order.  But what comes of a
filter and of its canonical form is reordered still, and has one canonical text.
-/

namespace Tree

theorem Reordered.refl (loose : Bool) (tree : Tree) : Reordered loose tree tree := by
  induction tree using induction with
  | leaf comparison => exact .leaf comparison
  | node junction children negate ih =>
      exact .node negate (.inl rfl) (.refl children) (List.forall₂_same.mpr ih)

/-- Whether a tree is negated. -/
inductive Negation : Tree → Bool → Prop
  | leaf (comparison : Leaf) : Negation (.leaf comparison) comparison.negate
  | node (junction : Junction) (children : List Tree) (negate : Bool) :
      Negation (.node junction children negate) negate

theorem negation_iff {tree : Tree} {negate : Bool} :
    Negation tree negate ↔ tree.negate = negate := by
  constructor
  · intro negation
    cases negation <;> rfl
  · rintro rfl
    cases tree with
    | leaf comparison => exact .leaf comparison
    | node junction children negate => exact .node junction children negate

/-- The first of two children of a node may stand before the second: it is not negated and
    the second one is, or they are alike in this and it is a comparison before a node, an
    `and` before an `or`, the node with fewer children of two of one kind, or its text
    comes first. -/
inductive MayPrecede : Tree → Tree → Prop
  | plain {left right : Tree} (plain : Negation left false) (negated : Negation right true) :
      MayPrecede left right
  | comparison {comparison : Leaf} (junction : Junction) (children : List Tree) {negate : Bool}
      (alike : comparison.negate = negate) :
      MayPrecede (.leaf comparison) (.node junction children negate)
  | conjunction (children children' : List Tree) (negate : Bool) :
      MayPrecede (.node .all children negate) (.node .any children' negate)
  | fewer {children children' : List Tree} (junction : Junction) (negate : Bool)
      (fewer : children.length < children'.length) :
      MayPrecede (.node junction children negate) (.node junction children' negate)
  | leafText {left right : Leaf} (alike : left.negate = right.negate)
      (inOrder : left.text ≤ right.text) : MayPrecede (.leaf left) (.leaf right)
  | nodeText {children children' : List Tree} {junction : Junction} {negate : Bool}
      (asMany : children.length = children'.length)
      (inOrder : (node junction children negate).text ≤ (node junction children' negate).text) :
      MayPrecede (.node junction children negate) (.node junction children' negate)

/-- The children of every node are in order. -/
inductive Ordered : Tree → Prop
  | leaf (comparison : Leaf) : Ordered (.leaf comparison)
  | node {junction : Junction} {children : List Tree} (negate : Bool)
      (sorted : children.Pairwise MayPrecede) (ordered : ∀ child ∈ children, Ordered child) :
      Ordered (.node junction children negate)

theorem sortKey_le_iff (left right : Tree) : left.sortKey ≤ right.sortKey ↔
    left.negate < right.negate ∨ left.negate = right.negate ∧
      (left.rank < right.rank ∨ left.rank = right.rank ∧
        (left.childCount < right.childCount ∨ left.childCount = right.childCount ∧
          left.text ≤ right.text)) := by
  simp only [sortKey, Prod.Lex.toLex_le_toLex]

theorem MayPrecede.sortKey_le {left right : Tree} (ordered : MayPrecede left right) :
    left.sortKey ≤ right.sortKey := by
  rw [sortKey_le_iff]
  cases ordered with
  | plain plain negated =>
      rw [negation_iff.mp plain, negation_iff.mp negated]
      exact .inl (by decide)
  | comparison junction children alike => exact .inr ⟨alike, .inl (by cases junction <;> simp [rank])⟩
  | conjunction children children' negate => exact .inr ⟨rfl, .inl (by simp [rank])⟩
  | fewer junction negate fewer => exact .inr ⟨rfl, .inr ⟨by cases junction <;> rfl, .inl fewer⟩⟩
  | leafText alike inOrder => exact .inr ⟨alike, .inr ⟨rfl, .inr ⟨rfl, inOrder⟩⟩⟩
  | @nodeText _ _ junction _ asMany inOrder =>
      exact .inr ⟨rfl, .inr ⟨by cases junction <;> rfl, .inr ⟨asMany, inOrder⟩⟩⟩

theorem mayPrecede_of_sortKey_le {left right : Tree} (ordered : left.sortKey ≤ right.sortKey) :
    MayPrecede left right := by
  obtain negates | ⟨alike, ordered⟩ := (sortKey_le_iff left right).mp ordered
  · obtain ⟨plain, negated⟩ := Bool.lt_iff.mp negates
    exact .plain (negation_iff.mpr plain) (negation_iff.mpr negated)
  · match left, right with
    | .leaf comparison, .leaf comparison' =>
        exact .leafText alike (by simpa [rank, childCount, Tree.text] using ordered)
    | .leaf comparison, .node junction children negate => exact .comparison junction children alike
    | .node junction children negate, .leaf comparison =>
        cases junction <;> simp [rank] at ordered
    | .node .any children negate, .node .all children' negate' => simp [rank] at ordered
    | .node .all children negate, .node .any children' negate' =>
        obtain rfl : negate = negate' := alike
        exact .conjunction children children' negate
    | .node .all children negate, .node .all children' negate'
    | .node .any children negate, .node .any children' negate' =>
        obtain rfl : negate = negate' := alike
        obtain fewer | ⟨asMany, inOrder⟩ := by simpa only [rank, lt_irrefl, false_or, true_and] using ordered
        · exact .fewer _ negate fewer
        · exact .nodeText asMany inOrder

/-- What the sort compares stands for the kinds, the numbers and the texts. -/
theorem precedes_iff_mayPrecede {left right : Tree} :
    precedes left right = true ↔ MayPrecede left right :=
  (precedes_iff left right).trans ⟨mayPrecede_of_sortKey_le, MayPrecede.sortKey_le⟩

theorem mergeSort_mayPrecede (trees : List Tree) :
    (trees.mergeSort precedes).Pairwise MayPrecede :=
  (precedes_pairwise trees).imp mayPrecede_of_sortKey_le

/-- Where no two children have the same text there is only one order. -/
theorem mergeSort_eq_of_sorted {trees sorted : List Tree} (permuted : trees.Perm sorted)
    (inOrder : sorted.Pairwise fun left right => precedes left right = true)
    (distinct : (sorted.map text).Nodup) : trees.mergeSort precedes = sorted := by
  refine List.Perm.eq_of_pairwise ?_ (precedes_pairwise trees)
    (inOrder.imp (precedes_iff _ _).mp) ((List.mergeSort_perm trees precedes).trans permuted)
  intro left right inLeft inRight before after
  have sameText : left.text = right.text := by
    rw [text_eq_sortKey, text_eq_sortKey, before.antisymm after]
  exact List.inj_on_of_nodup_map distinct
    (permuted.mem_iff.mp (List.mem_mergeSort.mp inLeft)) inRight sameText

theorem ordered_canonical (tree : Tree) : tree.canonical.Ordered := by
  induction tree using induction with
  | leaf comparison => exact .leaf comparison
  | node junction children negate ih =>
      rw [canonical, canonicals_eq]
      refine .node negate (mergeSort_mayPrecede _) fun form member => ?_
      obtain ⟨child, inChildren, rfl⟩ := List.mem_map.mp (List.mem_mergeSort.mp member)
      exact ih child inChildren

theorem Ordered.canonical_eq {tree : Tree} (ordered : tree.Ordered) : tree.canonical = tree := by
  induction ordered with
  | leaf comparison => rfl
  | @node junction children negate sorted _ ih =>
      have kept : children.map canonical = children := by
        rw [List.map_congr_left ih, List.map_id']
      have inOrder : children.Pairwise fun left right => precedes left right = true :=
        sorted.imp precedes_iff_mayPrecede.mpr
      rw [canonical, canonicals_eq, kept, List.mergeSort_of_pairwise inOrder]

/-- Just the trees in canonical order are their own canonical forms. -/
theorem canonical_eq_self_iff {tree : Tree} : tree.canonical = tree ↔ tree.Ordered := by
  constructor
  · intro same
    exact same ▸ tree.ordered_canonical
  · exact Ordered.canonical_eq

theorem reordered_canonical (tree : Tree) : Reordered false tree tree.canonical := by
  refine Reordered.of_canonical ?_
  -- Both have the same canonical form.
  rw [tree.ordered_canonical.canonical_eq]
  exact .refl false tree.canonical

/-- What reordered trees are expanded to has one canonical text. -/
theorem Reordered.text_canonical_expand {engine : Template.Engine} {row : Row}
    {left right expanded : Tree} (reordered : Reordered false left right)
    (expands : left.expand engine row = .ok expanded) :
    ∃ expanded', right.expand engine row = .ok expanded' ∧
      expanded'.canonical.text = expanded.canonical.text := by
  obtain ⟨expanded', expands', results⟩ := reordered.expand expands
  exact ⟨expanded', expands', results.text_canonical.symm⟩

/-- The canonical form has the children of the filter's nodes in canonical order and is
    otherwise the same: it accepts the same rows, is its own canonical form, and can be
    expanded wherever the filter can, to a filter with the same canonical text. -/
theorem canonical_normal_form (tree : Tree) :
    Reordered false tree tree.canonical ∧
    (∀ truth, tree.canonical.holds truth = tree.holds truth) ∧
    tree.canonical.canonical = tree.canonical ∧
    tree.canonical.Ordered ∧
    ∀ (engine : Template.Engine) (row : Row) (expanded : Tree),
      tree.expand engine row = .ok expanded →
        ∃ expanded', tree.canonical.expand engine row = .ok expanded' ∧
          expanded'.canonical.text = expanded.canonical.text := by
  have reordered := tree.reordered_canonical
  refine ⟨reordered, fun truth => (reordered.holds truth).symm,
    tree.ordered_canonical.canonical_eq, tree.ordered_canonical, ?_⟩
  intro engine row expanded expands
  exact reordered.text_canonical_expand expands

end Tree

/-! A filter that declares its children just the wrong way round.  In canonical order the
template of `x` comes before the one of `y`, but its value after the other one. -/

namespace Sample

def isNull (column : String) (negate : Bool) : Tree := .leaf ⟨column, .null, none, negate⟩

def equals (column : String) (operand : Operand) : Tree := .leaf ⟨column, .equal, some operand, false⟩

def pair : Tree := .node .all [isNull "f" false, isNull "e" false] false

def triple : Tree := .node .all [isNull "c" false, isNull "b" false, isNull "a" false] false

def choice : Tree := .node .any [isNull "d" false] false

def unsorted (first second : Operand) : Tree :=
  .node .all [isNull "a" true, choice, triple, pair, equals "a" first, equals "a" second] false

def sorted (first second : Operand) : Tree :=
  .node .all [equals "a" second, equals "a" first,
    .node .all [isNull "e" false, isNull "f" false] false,
    .node .all [isNull "a" false, isNull "b" false, isNull "c" false] false,
    choice, isNull "a" true] false

def ofX : Operand := .template "\x7b\x7bx\x7d\x7d"

def ofY : Operand := .template "\x7b\x7by\x7d\x7d"

def descending : Row := [("x", .string "2"), ("y", .string "1")]

theorem canonical_of_reversed {junction : Junction} {children forms : List Tree} {negate : Bool}
    (canonicals : children.map Tree.canonical = forms.reverse)
    (inOrder : forms.Pairwise fun left right => Tree.precedes left right = true)
    (distinct : (forms.map Tree.text).Nodup) :
    (Tree.node junction children negate).canonical = .node junction forms negate := by
  rw [Tree.canonical, Tree.canonicals_eq, canonicals,
    Tree.mergeSort_eq_of_sorted (List.reverse_perm forms) inOrder distinct]

theorem canonical_choice : choice.canonical = choice :=
  canonical_of_reversed rfl (by decide +kernel) (by decide +kernel)

theorem canonical_pair : pair.canonical = .node .all [isNull "e" false, isNull "f" false] false :=
  canonical_of_reversed rfl (by decide +kernel) (by decide +kernel)

theorem canonical_triple : triple.canonical =
    .node .all [isNull "a" false, isNull "b" false, isNull "c" false] false :=
  canonical_of_reversed rfl (by decide +kernel) (by decide +kernel)

theorem canonical_unsorted : (unsorted ofY ofX).canonical = sorted ofY ofX := by
  refine canonical_of_reversed ?_ (by decide +kernel) (by decide +kernel)
  simp only [List.map_cons, List.map_nil, canonical_choice, canonical_triple, canonical_pair]
  rfl

theorem canonical_normal_form_templates :
    (unsorted ofY ofX).canonical = sorted ofY ofX ∧
    Tree.Reordered false (unsorted ofY ofX) (unsorted ofY ofX).canonical ∧
    (∀ truth, (unsorted ofY ofX).canonical.holds truth = (unsorted ofY ofX).holds truth) ∧
    (unsorted ofY ofX).canonical.canonical = (unsorted ofY ofX).canonical ∧
    (unsorted ofY ofX).canonical.Ordered ∧
    (unsorted ofY ofX).expand Template.braces descending =
      .ok (unsorted (.expanded "1") (.expanded "2")) ∧
    ∃ expanded, (unsorted ofY ofX).canonical.expand Template.braces descending = .ok expanded ∧
      expanded.canonical.text = (unsorted (.expanded "1") (.expanded "2")).canonical.text := by
  have expands : (unsorted ofY ofX).expand Template.braces descending =
      .ok (unsorted (.expanded "1") (.expanded "2")) :=
    toOption_eq_some.mp (by decide +kernel)
  obtain ⟨reordered, accepts, settled, ordered, expansion⟩ :=
    Tree.canonical_normal_form (unsorted ofY ofX)
  exact ⟨canonical_unsorted, reordered, accepts, settled, ordered, expands,
    expansion Template.braces descending _ expands⟩

end Sample

end PathQuery.Filter
