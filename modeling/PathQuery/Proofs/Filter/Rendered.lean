import PathQuery.Proofs.Filter.WrittenBack
import PathQuery.Proofs.Path.Formula
import PathQuery.Proofs.Path.Grammar

namespace PathQuery

/-! # Filters read off their clauses

The clause of a filter is one factor of the grammar.  A node is the expression that joins
the factors of its children, in parentheses unless it is that of an only child, so the
factor has the comparisons of the filter as its leaves and holds when the filter does.
-/

namespace Grammar

def Conj.joined : Factor → List Factor → Conj
  | factor, [] => .last factor
  | factor, next :: later => .more factor (joined next later)

/-- Factors with the mark of a junction between them. -/
def Expr.joined (junction : Filter.Junction) : Factor → List Factor → Expr
  | factor, [] => .last (.last factor)
  | factor, next :: later =>
    match junction with
    | .all => .last (.joined factor (next :: later))
    | .any => .more (.last factor) (joined .any next later)

/-- Which of some factors hold, where the leaves of the first one are numbered from
    `first` on. -/
def Factor.eachHolds (truth : Nat → Bool) : List Factor → (first : Nat) → List Bool
  | [], _ => []
  | factor :: later, first =>
    factor.holds truth first :: eachHolds truth later (first + factor.leaves.length)

namespace Conj

theorem text_joined (factor : Factor) (later : List Factor) :
    (joined factor later).text = ['&'].intercalate ((factor :: later).map Factor.text) := by
  induction later generalizing factor with
  | nil => simp [joined, text]
  | cons next later ih => simp [joined, text, ih, Text.intercalate_cons_eq]

theorem leaves_joined (factor : Factor) (later : List Factor) :
    (joined factor later).leaves = (factor :: later).flatMap Factor.leaves := by
  induction later generalizing factor with
  | nil => simp [joined, leaves]
  | cons next later ih => simp [joined, leaves, ih]

theorem holds_joined (truth : Nat → Bool) (factor : Factor) (later : List Factor) (first : Nat) :
    (joined factor later).holds truth first =
      (Factor.eachHolds truth (factor :: later) first).all id := by
  induction later generalizing factor first with
  | nil => simp [joined, holds, Factor.eachHolds]
  | cons next later ih => simp [joined, holds, Factor.eachHolds, ih]

end Conj

namespace Expr

variable (junction : Filter.Junction)

theorem text_joined (factor : Factor) (later : List Factor) :
    (joined junction factor later).text =
      [junction.mark].intercalate ((factor :: later).map Factor.text) := by
  induction later generalizing factor with
  | nil => simp [joined, text, Conj.text]
  | cons next later ih =>
      cases junction with
      | all => exact Conj.text_joined factor (next :: later)
      | any => simp [joined, text, Conj.text, ih, Text.intercalate_cons_eq, Filter.Junction.mark]

theorem leaves_joined (factor : Factor) (later : List Factor) :
    (joined junction factor later).leaves = (factor :: later).flatMap Factor.leaves := by
  induction later generalizing factor with
  | nil => simp [joined, leaves, Conj.leaves]
  | cons next later ih =>
      cases junction with
      | all => exact Conj.leaves_joined factor (next :: later)
      | any => simp [joined, leaves, Conj.leaves, ih]

theorem holds_joined (truth : Nat → Bool) (factor : Factor) (later : List Factor) (first : Nat) :
    (joined junction factor later).holds truth first =
      junction.combine (Factor.eachHolds truth (factor :: later) first) := by
  induction later generalizing factor first with
  | nil =>
      cases junction <;> simp [joined, holds, Conj.holds, Factor.eachHolds,
        Filter.Junction.combine]
  | cons next later ih =>
      cases junction with
      | all => exact Conj.holds_joined truth factor (next :: later) first
      | any =>
          simp [joined, holds, Conj.holds, Conj.leaves, ih, Factor.eachHolds,
            Filter.Junction.combine]

end Expr

end Grammar

namespace Filter

open Grammar

def Leaf.comparison (leaf : Leaf) : Comparison :=
  ⟨.column none leaf.column, leaf.operator, leaf.operand.map Operand.text⟩

/-- Nothing in a comparison is a mark of the grammar. -/
theorem Leaf.body_plain (leaf : Leaf) : ∀ c ∈ leaf.body, isMark c = false := by
  have encoded : ∀ text : String, ∀ c ∈ (Text.percentEncode text).toList, isMark c = false := by
    intro text c member
    have isEncoded := Text.percentEncode_isEncoded member
    simp only [isMark, Bool.or_eq_false_iff, beq_eq_false_iff_ne]
    refine ⟨⟨⟨⟨?_, ?_⟩, ?_⟩, ?_⟩, ?_⟩ <;> rintro rfl <;> revert isEncoded <;> decide
  have operators : ∀ operator ∈ Operator.all,
      operator.text.toList.all (fun c => !isMark c) = true := by decide
  intro c member
  rw [body, List.mem_append, List.mem_append] at member
  rcases member with inColumn | inOperator | inOperand
  · exact encoded _ c inColumn
  · have plain := List.all_eq_true.mp (operators _ (Operator.mem_all _)) c inOperator
    rwa [Bool.not_eq_true'] at plain
  · split at inOperand
    · exact encoded _ c inOperand
    · exact absurd inOperand List.not_mem_nil

def Leaf.run (leaf : Leaf) : Run where
  chars := leaf.body
  nonempty := by
    obtain ⟨c, rest, opened, -⟩ := leaf.body_opens
    rw [opened]
    exact List.cons_ne_nil c rest
  plain := leaf.body_plain

/-- The run of a comparison is read as the comparison. -/
theorem Leaf.Filled.reads {leaf : Leaf} (filled : leaf.Filled) :
    Reading.readComparison leaf.body = some (.comparison leaf.comparison) := by
  obtain ⟨text, -, operand⟩ := filled
  have spelled : (leaf.operator.text, leaf.operator) ∈ Reading.spellings :=
    List.mem_append_left _ (List.mem_map_of_mem (Operator.mem_all leaf.operator))
  have ends : (Text.percentEncode text).toList.head? ≠ some '=' := fun same =>
    absurd (Text.percentEncode_isEncoded (List.mem_of_head? same)) (by decide)
  cases takes : leaf.operator.takesOperand with
  | false =>
      rw [takes, if_neg Bool.false_ne_true] at operand
      rw [body, operand, Reading.readComparison_column leaf.column spelled (by simp), takes,
        comparison, operand]
      rfl
  | true =>
      rw [takes, if_pos rfl] at operand
      rw [body, operand]
      change Reading.readComparison (_ ++ (_ ++ (Text.percentEncode text).toList)) = _
      rw [Reading.readComparison_column leaf.column spelled ends, if_pos takes,
        Reading.readOperand_value, comparison, operand]
      rfl

theorem Leaf.Filled.clause {leaf : Leaf} (filled : leaf.Filled) {table : Table}
    (known : (table.column? leaf.column).isSome) :
    leaf.clause table = .ok (String.ofList
      (if leaf.negate then '!' :: '(' :: (leaf.body ++ [')']) else leaf.body)) := by
  obtain ⟨column, found⟩ := Option.isSome_iff_exists.mp known
  obtain ⟨text, -, operand⟩ := filled
  have written : leaf.clause table = .ok
      (if leaf.negate then negated (String.ofList leaf.body) else String.ofList leaf.body) := by
    cases takes : leaf.operator.takesOperand with
    | false =>
        rw [takes, if_neg Bool.false_ne_true] at operand
        simp [Leaf.clause, found, operand, body]
    | true =>
        rw [takes, if_pos rfl] at operand
        simp [Leaf.clause, found, operand, body, Operand.text, String.append_assoc]
  rw [written]
  split
  · exact congrArg Except.ok (String.toList_injective (by simp [negated]))
  · rfl

namespace Tree

mutual

/-- The comparisons of a filter from left to right. -/
def leaves : Tree → List Leaf
  | leaf comparison => [comparison]
  | node _ children _ => leavesOf children

def leavesOf : List Tree → List Leaf
  | [] => []
  | tree :: trees => leaves tree ++ leavesOf trees

end

mutual

/-- Whether a filter holds if `truth` says which of its comparisons do, which are numbered
    from left to right, here from `first` on. -/
def holdsAt (truth : Nat → Bool) : Tree → (first : Nat) → Bool
  | leaf comparison, first => comparison.negate ^^ truth first
  | node junction children negate, first =>
    negate ^^ junction.combine (eachHoldsAt truth children first)

def eachHoldsAt (truth : Nat → Bool) : List Tree → (first : Nat) → List Bool
  | [], _ => []
  | tree :: trees, first =>
    holdsAt truth tree first :: eachHoldsAt truth trees (first + (leaves tree).length)

end

theorem leavesOf_eq (trees : List Tree) : leavesOf trees = trees.flatMap leaves := by
  induction trees with
  | nil => rfl
  | cons tree trees ih => rw [leavesOf, ih, List.flatMap_cons]

/-- A filter accepts the rows of which its comparisons hold as they have to. -/
theorem holds_eq_holdsAt (tree : Tree) (truth : Truth) (numbered : Nat → Bool) :
    ∀ first, (∀ index (inside : index < tree.leaves.length),
      numbered (first + index) = truth (tree.leaves[index]).comparison) →
      tree.holds truth = tree.holdsAt numbered first := by
  induction tree using induction with
  | leaf comparison =>
      intro first agree
      rw [holds, holdsAt, ← Nat.add_zero first, agree 0 Nat.zero_lt_one]
      rfl
  | node junction children negate ih =>
      intro first agree
      rw [holds, holdsAt]
      congr 2
      rw [leaves] at agree
      clear negate
      induction children generalizing first with
      | nil => rfl
      | cons child later ihLater =>
          obtain ⟨ihChild, ihRest⟩ := List.forall_mem_cons.mp ih
          rw [eachHolds, eachHoldsAt, ihChild first, ihLater ihRest]
          · intro index inside
            have within : child.leaves.length + index < (leavesOf (child :: later)).length := by
              rw [leavesOf, List.length_append]
              omega
            rw [Nat.add_assoc, agree _ within]
            simp [leavesOf]
          · intro index inside
            have within : index < (leavesOf (child :: later)).length := by
              rw [leavesOf, List.length_append]
              omega
            rw [agree _ within]
            simp [leavesOf, List.getElem_append_left inside]

/-- The text is the clause of the filter, and the factor is how the grammar reads it: its
    runs are the comparisons of the filter, and it holds when the filter does. -/
structure WrittenAs (table : Table) (tree : Tree) (text : String) (factor : Factor) : Prop where
  written : tree.clause table = .ok text
  reads : factor.text = text.toList
  leaves : List.Forall₂
    (fun run leaf => Reading.readComparison run = some (.comparison (Leaf.comparison leaf)))
    factor.leaves tree.leaves
  holds : ∀ truth first, factor.holds truth first = tree.holdsAt truth first

variable {table : Table}

theorem writtenAs_leaf {leaf : Leaf} (filled : leaf.Filled)
    (known : (table.column? leaf.column).isSome) :
    ∃ text factor, WrittenAs table (.leaf leaf) text factor := by
  have written := filled.clause known
  have run : List.Forall₂ (fun run leaf =>
      Reading.readComparison run = some (.comparison (Leaf.comparison leaf)))
      [leaf.body] [leaf] := .cons filled.reads .nil
  cases negate : leaf.negate with
  | false =>
      rw [negate, if_neg Bool.false_ne_true] at written
      refine ⟨_, .leaf leaf.run, written, String.toList_ofList.symm, run, fun truth first => ?_⟩
      rw [Factor.holds, holdsAt, negate, Bool.false_xor]
  | true =>
      rw [negate, if_pos rfl] at written
      refine ⟨_, .negated (.last (.last (.leaf leaf.run))), written, String.toList_ofList.symm, run,
        fun truth first => ?_⟩
      rw [Factor.holds, Expr.holds, Conj.holds, Factor.holds, holdsAt, negate, Bool.true_xor]

/-- How the children of a node are written, side by side. -/
structure EachWrittenAs (table : Table) (trees : List Tree) (texts : List String)
    (factors : List Factor) : Prop where
  written : clauses table trees = .ok texts
  reads : factors.map Factor.text = texts.map String.toList
  leaves : List.Forall₂
    (fun run leaf => Reading.readComparison run = some (.comparison (Leaf.comparison leaf)))
    (factors.flatMap Factor.leaves) (leavesOf trees)
  holds : ∀ truth first, Factor.eachHolds truth factors first = eachHoldsAt truth trees first

theorem each_writtenAs {trees : List Tree}
    (each : ∀ tree ∈ trees, ∃ text factor, WrittenAs table tree text factor) :
    ∃ texts factors, EachWrittenAs table trees texts factors := by
  induction trees with
  | nil => exact ⟨[], [], rfl, rfl, .nil, fun _ _ => rfl⟩
  | cons tree trees ih =>
      obtain ⟨⟨text, factor, first⟩, others⟩ := List.forall_mem_cons.mp each
      obtain ⟨texts, factors, later⟩ := ih others
      refine ⟨text :: texts, factor :: factors, ?_, ?_, ?_, ?_⟩
      · rw [clauses, first.written, ok_bind, later.written]
        rfl
      · rw [List.map_cons, List.map_cons, first.reads, later.reads]
      · rw [List.flatMap_cons, leavesOf]
        exact List.rel_append first.leaves later.leaves
      · intro truth start
        rw [Factor.eachHolds, eachHoldsAt, first.holds, first.leaves.length_eq, later.holds]

theorem toList_separated (junction : Junction) (clauses : List String) :
    (junction.separator.intercalate clauses).toList =
      [junction.mark].intercalate (clauses.map String.toList) := by
  rw [String.toList_intercalate, junction.separator_toList]

theorem EachWrittenAs.factors_cons {trees : List Tree} {texts : List String} {factors : List Factor}
    (each : EachWrittenAs table trees texts factors) (nonempty : trees ≠ []) :
    ∃ factor later, factors = factor :: later ∧ texts.length = later.length + 1 := by
  have counted := (clauses_eq_ok.mp each.written).length_eq
  have paired : factors.length = texts.length := by
    simpa using congrArg List.length each.reads
  cases factors with
  | nil => exact absurd (List.eq_nil_of_length_eq_zero (counted.trans paired.symm)) nonempty
  | cons factor later => exact ⟨factor, later, rfl, paired.symm⟩

theorem EachWrittenAs.text_joined {trees : List Tree} {texts : List String} {factor : Factor}
    {later : List Factor} (each : EachWrittenAs table trees texts (factor :: later))
    (junction : Junction) :
    (Expr.joined junction factor later).text = (junction.separator.intercalate texts).toList := by
  rw [Expr.text_joined, each.reads, toList_separated]

theorem EachWrittenAs.holds_joined {trees : List Tree} {texts : List String} {factor : Factor}
    {later : List Factor} (each : EachWrittenAs table trees texts (factor :: later))
    (junction : Junction) (truth : Nat → Bool) (first : Nat) :
    (Expr.joined junction factor later).holds truth first =
      junction.combine (eachHoldsAt truth trees first) := by
  rw [Expr.holds_joined, each.holds]

theorem writtenAs_node {junction : Junction} {children : List Tree} {negate : Bool}
    (nonempty : children ≠ [])
    (each : ∀ child ∈ children, ∃ text factor, WrittenAs table child text factor) :
    ∃ text factor, WrittenAs table (.node junction children negate) text factor := by
  obtain ⟨texts, factors, allWritten⟩ := each_writtenAs each
  obtain ⟨factor, later, rfl, counted⟩ := allWritten.factors_cons nonempty
  have written : ∀ text, joinClauses junction negate texts = text →
      (Tree.node junction children negate).clause table = .ok text := by
    rintro _ rfl
    rw [Tree.clause, allWritten.written]
    rfl
  have read := allWritten.text_joined junction
  have holds := allWritten.holds_joined junction
  have leaves := allWritten.leaves
  rw [← Expr.leaves_joined junction] at leaves
  cases negate with
  | true =>
      refine ⟨_, .negated (.joined junction factor later), written _ rfl, ?_, leaves, ?_⟩
      · rw [joinClauses, if_pos rfl, Factor.text, read]
        simp [negated]
      · intro truth first
        rw [Factor.holds, holds, holdsAt, Bool.true_xor]
  | false =>
      -- An only child stands without parentheses, so its own factor is that of the node.
      cases later with
      | nil =>
          refine ⟨_, factor, written _ rfl, ?_, leaves, ?_⟩
          · rw [joinClauses, if_neg Bool.false_ne_true, if_pos (by simpa using counted)]
            exact read
          · intro truth first
            rw [holdsAt, Bool.false_xor, ← holds]
            rfl
      | cons next later =>
          refine ⟨_, .group (.joined junction factor (next :: later)), written _ rfl, ?_, leaves,
            ?_⟩
          · have several : texts.length ≠ 1 := by simp [counted]
            rw [joinClauses, if_neg Bool.false_ne_true, if_neg several, Factor.text, read]
            simp
          · intro truth first
            rw [Factor.holds, holds, holdsAt, Bool.false_xor]

theorem Filled.writtenAs {tree : Tree} (filled : tree.Filled)
    (known : ∀ leaf ∈ tree.leaves, (table.column? leaf.column).isSome) :
    ∃ text factor, WrittenAs table tree text factor := by
  induction filled with
  | leaf filled => exact writtenAs_leaf filled (known _ (List.mem_singleton_self _))
  | node nonempty _ ih =>
      refine writtenAs_node nonempty fun child member => ih child member fun leaf inside => ?_
      refine known leaf ?_
      rw [leaves, leavesOf_eq]
      exact List.mem_flatMap.mpr ⟨child, member, inside⟩

/-- A filter that was declared and expanded is written as one factor, which is the only way
    to read the text.  The factor has the comparisons of the filter as its leaves and holds
    when the filter does, so it accepts the same rows. -/
theorem clause_reads_as_filter {value : Json} {engine : Template.Engine} {row : Row}
    {declared tree : Tree} {table : Table} (isDeclared : ofJson value = .ok declared)
    (expands : declared.expand engine row = .ok tree)
    (known : ∀ leaf ∈ tree.leaves, (table.column? leaf.column).isSome) :
    ∃ text factor, tree.clause table = .ok text ∧
      (∀ expr : Expr, expr.text = text.toList ↔ expr = .last (.last factor)) ∧
      factor.leaves = runs text.toList ∧
      List.Forall₂
        (fun run leaf => Reading.readComparison run = some (.comparison (Leaf.comparison leaf)))
        factor.leaves tree.leaves ∧
      (∀ truth, factor.holds truth 0 = tree.holdsAt truth 0) ∧
      ∀ (truth : Truth) (numbered : Nat → Bool),
        (∀ index (inside : index < tree.leaves.length),
          numbered index = truth (tree.leaves[index]).comparison) →
        factor.holds numbered 0 = tree.holds truth := by
  have filled := (ofJson_declared _ isDeclared).filled expands
  obtain ⟨text, factor, isWritten⟩ := filled.writtenAs known
  refine ⟨text, factor, isWritten.written, fun expr => ⟨fun same => ?_, ?_⟩, ?_, isWritten.leaves,
    fun truth => isWritten.holds truth 0, fun truth numbered agree => ?_⟩
  · exact Expr.text_injective (same.trans isWritten.reads.symm)
  · rintro rfl
    exact isWritten.reads
  · rw [Factor.leaves_eq, isWritten.reads]
  · rw [isWritten.holds, tree.holds_eq_holdsAt truth numbered 0]
    exact fun index inside => (congrArg numbered index.zero_add).trans (agree index inside)

end Tree

namespace Sample

/-- A negated node within one with two children, which is the only child of another. -/
def nested : Json := .object [("and", .array [.object [("or", .array [
  .object [("filter", .string "a;b"), ("operand_pattern", .string "\x7b\x7bx\x7d\x7d")],
  .object [("and", .array [.object [("filter", .string "c"), ("operator", .string "::null::")]]),
    ("negate", .bool true)],
  .object [("filter", .string "c"), ("operator", .string "::gt::"),
    ("operand_pattern", .string "x&y"), ("negate", .bool true)]])]])]

def nestedTemplate : Tree := .node .all [.node .any [
  .leaf ⟨"a;b", .equal, some (.template "\x7b\x7bx\x7d\x7d"), false⟩,
  .node .all [.leaf ⟨"c", .null, none, false⟩] true,
  .leaf ⟨"c", .greater, some (.template "x&y"), true⟩] false] false

def nestedTree : Tree := .node .all [.node .any [
  .leaf ⟨"a;b", .equal, some (.expanded "(1)"), false⟩,
  .node .all [.leaf ⟨"c", .null, none, false⟩] true,
  .leaf ⟨"c", .greater, some (.expanded "x&y"), true⟩] false] false

def nestedTable : Table :=
  ⟨"s", "t", [⟨"a;b", .text, true⟩, ⟨"c", .text, true⟩], [], [], [], []⟩

theorem clause_reads_as_filter_nested :
    ∃ factor, nestedTree.clause nestedTable =
        .ok "(a%3Bb=%281%29;!(c::null::);!(c::gt::x%26y))" ∧
      (∀ expr : Expr, expr.text =
        "(a%3Bb=%281%29;!(c::null::);!(c::gt::x%26y))".toList ↔ expr = .last (.last factor)) ∧
      ∀ truth, factor.holds truth 0 = (truth 0 || !truth 1 || !truth 2) := by
  have known : ∀ leaf ∈ nestedTree.leaves, (nestedTable.column? leaf.column).isSome := by
    decide +kernel
  have written : nestedTree.clause nestedTable =
      .ok "(a%3Bb=%281%29;!(c::null::);!(c::gt::x%26y))" :=
    toOption_eq_some.mp (by decide +kernel)
  have declared := toOption_eq_some.mp (rfl : (Tree.ofJson nested).toOption = some nestedTemplate)
  have expands := toOption_eq_some.mp (by decide +kernel :
    (nestedTemplate.expand Template.braces [("x", .string "(1)")]).toOption = some nestedTree)
  obtain ⟨text, factor, isWritten, unique, -, -, holds, -⟩ :=
    Tree.clause_reads_as_filter declared expands known
  obtain rfl := Except.ok.inj (written.symm.trans isWritten)
  refine ⟨factor, written, unique, fun truth => (holds truth).trans ?_⟩
  simp [nestedTree, Tree.holdsAt, Tree.eachHoldsAt, Junction.combine, Tree.leaves, Tree.leavesOf,
    Bool.or_assoc]

end Sample

end Filter

end PathQuery
