import PathQuery.Proofs.Outcome
import PathQuery.Proofs.Text.Percent
import PathQuery.Proofs.Text.Separated
import PathQuery.Proofs.Filter.Reordering

namespace PathQuery.Filter

/-! # Filters read off their texts

The text of a declared filter says what it is: a column ends where its operator starts,
no operator is the beginning of another one, and an operand ends where a child of a node
does.  Only the junction of a node with one child leaves no trace.
-/

namespace Operator

theorem mem_all (operator : Operator) : operator ∈ all := by
  cases operator <;> decide

theorem text_prefix_free : ∀ left ∈ all, ∀ right ∈ all,
    left.text.toList <+: right.text.toList → left = right := by
  decide

theorem text_opens (operator : Operator) :
    ∃ c rest, operator.text.toList = c :: rest ∧ Text.isEncoded c = false ∧ c ≠ '(' ∧ c ≠ '!' := by
  cases operator <;> exact ⟨_, _, rfl, by decide, by decide, by decide⟩

theorem text_unambiguous {left right : Operator} {rest rest' : List Char}
    (same : left.text.toList ++ rest = right.text.toList ++ rest') :
    left = right ∧ rest = rest' := by
  have operators : left = right := by
    have inLeft : left.text.toList <+: left.text.toList ++ rest := List.prefix_append _ _
    have inRight : right.text.toList <+: left.text.toList ++ rest :=
      same ▸ List.prefix_append _ _
    rcases List.prefix_or_prefix_of_prefix inLeft inRight with first | second
    · exact text_prefix_free left (mem_all left) right (mem_all right) first
    · exact (text_prefix_free right (mem_all right) left (mem_all left) second).symm
  subst operators
  exact ⟨rfl, List.append_cancel_left same⟩

end Operator

/-- What may follow the text of a tree: nothing, or what stands between or after the
    children of a node. -/
def Ends (rest : List Char) : Prop := ∀ c ∈ rest.head?, c = ')' ∨ c = '&' ∨ c = ';'

theorem Ends.not_encoded {rest : List Char} (ends : Ends rest) :
    ∀ c ∈ rest.head?, Text.isEncoded c = false := by
  intro c member
  obtain rfl | rfl | rfl := ends c member <;> decide

theorem Ends.close (rest : List Char) : Ends (')' :: rest) := by
  intro c member
  exact .inl (Option.some.inj member).symm

def Junction.mark : Junction → Char
  | all => '&'
  | any => ';'

theorem Junction.separator_toList (junction : Junction) :
    junction.separator.toList = [junction.mark] := by
  cases junction <;> rfl

theorem Junction.mark_ne_close (junction : Junction) : junction.mark ≠ ')' := by
  cases junction <;> decide

theorem Junction.mark_injective {left right : Junction} (same : left.mark = right.mark) :
    left = right := by
  cases left <;> cases right <;> first | rfl | exact absurd same (by decide)

theorem Ends.mark (junction : Junction) (rest : List Char) : Ends (junction.mark :: rest) := by
  intro c member
  obtain rfl := Option.some.inj member
  cases junction <;> decide

/-- A comparison has an operand, not yet expanded, where its operator takes one. -/
def Leaf.Declared (leaf : Leaf) : Prop :=
  ∃ template, leaf.operand = if leaf.operator.takesOperand then some (.template template) else none

/-- The text of a comparison that is not negated. -/
def Leaf.body (leaf : Leaf) : List Char :=
  (Text.percentEncode leaf.column).toList ++ (leaf.operator.text.toList ++
    match leaf.operand with
    | some operand => (Text.percentEncode operand.text).toList
    | none => [])

theorem Leaf.body_opens (leaf : Leaf) :
    ∃ c rest, leaf.body = c :: rest ∧ c ≠ '(' ∧ c ≠ '!' := by
  obtain ⟨mark, tail, operator, -, notOpen, notNegated⟩ := leaf.operator.text_opens
  unfold Leaf.body
  cases column : (Text.percentEncode leaf.column).toList with
  | nil => exact ⟨mark, _, by rw [operator]; rfl, notOpen, notNegated⟩
  | cons c rest =>
      have encoded : Text.isEncoded c = true :=
        Text.percentEncode_isEncoded (column ▸ List.mem_cons_self)
      refine ⟨c, _, rfl, ?_, ?_⟩
      · rintro rfl
        exact absurd encoded (by decide)
      · rintro rfl
        exact absurd encoded (by decide)

theorem Leaf.body_unambiguous {left right : Leaf} (declared : left.Declared)
    (declared' : right.Declared) {rest rest' : List Char} (ends : Ends rest)
    (ends' : Ends rest') (same : left.body ++ rest = right.body ++ rest') :
    left.column = right.column ∧ left.operator = right.operator ∧
      left.operand = right.operand ∧ rest = rest' := by
  simp only [Leaf.body, List.append_assoc] at same
  have afterColumn : ∀ (operator : Operator) (tail : List Char),
      ∀ c ∈ (operator.text.toList ++ tail).head?, Text.isEncoded c = false := by
    intro operator tail c member
    obtain ⟨mark, rest, opened, other, -, -⟩ := operator.text_opens
    rw [opened] at member
    obtain rfl := Option.some.inj member
    exact other
  obtain ⟨columns, same⟩ := Text.percentEncode_unambiguous (afterColumn left.operator _)
    (afterColumn right.operator _) same
  obtain ⟨operators, same⟩ := Operator.text_unambiguous same
  obtain ⟨template, operand⟩ := declared
  obtain ⟨template', operand'⟩ := declared'
  rw [← operators] at operand'
  rw [operand, operand'] at same ⊢
  cases takes : left.operator.takesOperand with
  | false =>
      simp only [takes, Bool.false_eq_true, if_false, List.nil_append] at same
      exact ⟨columns, operators, rfl, same⟩
  | true =>
      simp only [takes, if_true, Operand.text] at same
      obtain ⟨templates, ended⟩ :=
        Text.percentEncode_unambiguous ends.not_encoded ends'.not_encoded same
      exact ⟨columns, operators, by rw [templates], ended⟩

theorem Ends.later (junction : Junction) (children : List Tree) (rest : List Char) :
    Ends (children.flatMap (fun child => junction.mark :: child.text.toList) ++ ')' :: rest) := by
  cases children with
  | nil => exact Ends.close rest
  | cons child children => exact Ends.mark junction _

namespace Tree

/-- The text of a tree without its negation. -/
def body : Tree → List Char
  | leaf comparison => comparison.body
  | node junction children _ =>
    '(' :: ([junction.mark].intercalate (children.map fun child => child.text.toList) ++ [')'])

theorem toList_text (tree : Tree) :
    tree.text.toList =
      if tree.negate then '!' :: '(' :: (tree.body ++ [')']) else tree.body := by
  cases tree with
  | leaf comparison =>
      obtain ⟨column, operator, operand, negate⟩ := comparison
      cases operand <;> cases negate <;>
        simp [text, Leaf.text, body, Leaf.body, negated, Tree.negate]
  | node junction children negate =>
      cases negate <;>
        simp [text, texts_eq, body, negated, Tree.negate, String.toList_intercalate,
          Junction.separator_toList, Function.comp_def]

theorem body_opens (tree : Tree) : ∃ c rest, tree.body = c :: rest ∧ c ≠ '!' := by
  cases tree with
  | leaf comparison =>
      obtain ⟨c, rest, opened, -, other⟩ := comparison.body_opens
      exact ⟨c, rest, opened, other⟩
  | node junction children negate => exact ⟨'(', _, rfl, by decide⟩

/-- A negation shows, and what is left of the texts is the same. -/
theorem body_of_text {left right : Tree} {rest rest' : List Char} (ends : Ends rest)
    (ends' : Ends rest') (same : left.text.toList ++ rest = right.text.toList ++ rest') :
    left.negate = right.negate ∧ ∃ tail tail', Ends tail ∧ Ends tail' ∧
      left.body ++ tail = right.body ++ tail' ∧ (tail = tail' → rest = rest') := by
  obtain ⟨c, opened, body, other⟩ := left.body_opens
  obtain ⟨c', opened', body', other'⟩ := right.body_opens
  rw [toList_text, toList_text] at same
  cases negates : left.negate with
  | false =>
      cases negates' : right.negate with
      | false =>
          simp only [negates, negates', Bool.false_eq_true, if_false] at same
          exact ⟨rfl, rest, rest', ends, ends', same, id⟩
      | true =>
          simp only [negates, negates', Bool.false_eq_true, if_false, if_true, body] at same
          exact absurd (List.cons.inj same).1 other
  | true =>
      cases negates' : right.negate with
      | false =>
          simp only [negates, negates', Bool.false_eq_true, if_false, if_true, body'] at same
          exact absurd (List.cons.inj same).1.symm other'
      | true =>
          simp only [negates, negates', if_true, List.cons_append, List.append_assoc,
            List.nil_append, List.cons.injEq, true_and] at same
          exact ⟨rfl, _, _, Ends.close rest, Ends.close rest', same, fun h => (List.cons.inj h).2⟩

/-- Every comparison of the tree has the operand it needs, and every node has a child. -/
inductive Declared : Tree → Prop
  | leaf {comparison : Leaf} (declared : comparison.Declared) : Declared (.leaf comparison)
  | node {junction : Junction} {children : List Tree} {negate : Bool}
      (nonempty : children ≠ []) (declared : ∀ child ∈ children, Declared child) :
      Declared (.node junction children negate)

/-- Trees with the same text differ at most in the junctions of only children. -/
theorem Declared.text_unambiguous {left : Tree} (declared : Declared left) :
    ∀ right, Declared right → ∀ rest rest', Ends rest → Ends rest' →
      left.text.toList ++ rest = right.text.toList ++ rest' →
        Reordered true left right ∧ rest = rest' := by
  induction declared with
  | @leaf comparison declared =>
      intro right declared' rest rest' ends ends' same
      obtain ⟨negates, tail, tail', ends, ends', same, ended⟩ := body_of_text ends ends' same
      cases declared' with
      | @leaf comparison' declared' =>
          obtain ⟨columns, operators, operands, tails⟩ :=
            Leaf.body_unambiguous declared declared' ends ends' same
          obtain rfl : comparison = comparison' := by
            obtain ⟨column, operator, operand, negate⟩ := comparison
            obtain ⟨column', operator', operand', negate'⟩ := comparison'
            simp only at columns operators operands
            rw [columns, operators, operands, show negate = negate' from negates]
          exact ⟨.leaf comparison, ended tails⟩
      | node nonempty declared' =>
          obtain ⟨c, opened, body, other, -⟩ := comparison.body_opens
          simp only [Tree.body, body] at same
          exact absurd (List.cons.inj same).1 other
  | @node junction children negate nonempty declared ih =>
      intro right declared' rest rest' ends ends' same
      obtain ⟨negates, tail, tail', ends, ends', same, ended⟩ := body_of_text ends ends' same
      cases declared' with
      | @leaf comparison' declared' =>
          obtain ⟨c, opened, body, other, -⟩ := comparison'.body_opens
          simp only [Tree.body, body] at same
          exact absurd (List.cons.inj same).1.symm other
      | @node junction' children' negate' nonempty' declared' =>
          obtain rfl : negate = negate' := negates
          obtain ⟨first, later, rfl⟩ := List.exists_cons_of_ne_nil nonempty
          obtain ⟨first', later', rfl⟩ := List.exists_cons_of_ne_nil nonempty'
          simp only [Tree.body, List.map_cons, Text.intercalate_cons_eq, List.flatMap_map,
            List.cons_append, List.append_assoc, List.nil_append, List.cons.injEq,
            true_and] at same
          obtain ⟨firsts, same⟩ := ih first List.mem_cons_self first'
            (declared' first' List.mem_cons_self) _ _ (Ends.later junction later tail)
            (Ends.later junction' later' tail') same
          obtain ⟨laters, tails, joined⟩ := Text.separated_eq (Junction.mark_ne_close junction)
            (Junction.mark_ne_close junction') (Ends.mark junction) (Ends.mark junction') Ends.close
            (fun child inLater child' inLater' => ih child (List.mem_cons_of_mem _ inLater) child'
              (declared' child' (List.mem_cons_of_mem _ inLater'))) same
          refine ⟨.node negate ?_ (.refl _) (.cons firsts laters), ended tails⟩
          -- The mark shows between two children, so an only child leaves the junction open.
          rcases joined with rfl | marks
          · exact .inr ⟨rfl, rfl⟩
          · exact .inl (Junction.mark_injective marks)

theorem Declared.canonical {tree : Tree} (declared : Declared tree) :
    Declared tree.canonical := by
  induction declared with
  | leaf declared => exact .leaf declared
  | @node junction children negate nonempty _ ih =>
      rw [Tree.canonical, canonicals_eq]
      refine .node ?_ ?_
      · intro empty
        have length := congrArg List.length empty
        rw [List.length_mergeSort, List.length_map] at length
        exact nonempty (List.eq_nil_of_length_eq_zero length)
      · intro child member
        rw [List.mem_mergeSort] at member
        obtain ⟨original, inChildren, rfl⟩ := List.mem_map.mp member
        exact ih original inChildren

end Tree

theorem readOperand_template {fields : Json.Fields} {operand : Operand}
    (read : readOperand fields = .ok operand) : ∃ template, operand = .template template := by
  unfold readOperand at read
  split at read
  all_goals first
    | contradiction
    | exact ⟨_, (Except.ok.inj read).symm⟩

theorem readLeaf_declared {fields : Json.Fields} {negate : Bool} {leaf : Leaf}
    (read : readLeaf fields negate = .ok leaf) : leaf.Declared := by
  unfold readLeaf at read
  split at read
  · obtain ⟨operator, -, read⟩ := bind_eq_ok.mp read
    cases takes : operator.takesOperand with
    | false =>
        simp only [takes, Bool.false_eq_true, if_false] at read
        cases read
        exact ⟨"", by simp [takes]⟩
    | true =>
        simp only [takes, if_true] at read
        obtain ⟨operand, given, read⟩ := bind_eq_ok.mp read
        cases read
        cases value : readOperand fields with
        | error error => simp [value] at given
        | ok found =>
            simp only [value, except_map_ok, Except.ok.injEq] at given
            obtain ⟨template, rfl⟩ := readOperand_template value
            exact ⟨template, by simp [takes, ← given]⟩
  · contradiction

mutual

theorem ofJson_declared : ∀ (value : Json) {tree : Tree},
    Tree.ofJson value = .ok tree → tree.Declared
  | .object fields, tree, read => by
      rw [Tree.ofJson] at read
      obtain ⟨negate, -, read⟩ := bind_eq_ok.mp read
      by_cases kinds : (kindKeys.filter (Json.Fields.contains fields)).length ≠ 1
      · simp [kinds] at read
      simp only [if_neg kinds] at read
      cases inAll : childrenUnder .all fields with
      | some found =>
          simp only [inAll] at read
          obtain ⟨children, rfl, read⟩ := bind_eq_ok.mp read
          cases read
          obtain ⟨nonempty, declared⟩ := childrenUnder_declared .all fields inAll
          exact .node nonempty declared
      | none =>
          cases inAny : childrenUnder .any fields with
          | some found =>
              simp only [inAll, inAny] at read
              obtain ⟨children, rfl, read⟩ := bind_eq_ok.mp read
              cases read
              obtain ⟨nonempty, declared⟩ := childrenUnder_declared .any fields inAny
              exact .node nonempty declared
          | none =>
              simp only [inAll, inAny] at read
              cases comparison : readLeaf fields negate with
              | error error => simp [comparison] at read
              | ok leaf =>
                  simp only [comparison, except_map_ok, Except.ok.injEq] at read
                  exact read ▸ .leaf (readLeaf_declared comparison)
  | .null, _, read => by simp [Tree.ofJson] at read
  | .bool _, _, read => by simp [Tree.ofJson] at read
  | .number _, _, read => by simp [Tree.ofJson] at read
  | .string _, _, read => by simp [Tree.ofJson] at read
  | .array _, _, read => by simp [Tree.ofJson] at read

theorem childrenUnder_declared (junction : Junction) : ∀ (fields : List (String × Json))
    {children : List Tree}, childrenUnder junction fields = some (.ok children) →
      children ≠ [] ∧ ∀ child ∈ children, child.Declared
  | [], _, read => by simp [childrenUnder] at read
  | (key, value) :: fields, children, read => by
      rw [childrenUnder] at read
      split at read
      · exact readChildren_declared junction value (Option.some.inj read)
      · exact childrenUnder_declared junction fields read

theorem readChildren_declared (junction : Junction) : ∀ (value : Json)
    {children : List Tree}, readChildren junction value = .ok children →
      children ≠ [] ∧ ∀ child ∈ children, child.Declared
  | .array (item :: items), children, read => by
      rw [readChildren] at read
      obtain ⟨lengths, declared⟩ := readTrees_declared (item :: items) read
      exact ⟨List.ne_nil_of_length_eq_add_one lengths, declared⟩
  | .array [], _, read => by simp [readChildren] at read
  | .null, _, read => by simp [readChildren] at read
  | .bool _, _, read => by simp [readChildren] at read
  | .number _, _, read => by simp [readChildren] at read
  | .string _, _, read => by simp [readChildren] at read
  | .object _, _, read => by simp [readChildren] at read

theorem readTrees_declared : ∀ (items : List Json) {trees : List Tree},
    readTrees items = .ok trees → trees.length = items.length ∧ ∀ tree ∈ trees, tree.Declared
  | [], trees, read => by
      cases read
      exact ⟨rfl, nofun⟩
  | item :: items, trees, read => by
      rw [readTrees] at read
      obtain ⟨tree, first, read⟩ := bind_eq_ok.mp read
      obtain ⟨later, rest, read⟩ := bind_eq_ok.mp read
      cases read
      obtain ⟨lengths, declared⟩ := readTrees_declared items rest
      refine ⟨congrArg _ lengths, fun tree' member => ?_⟩
      obtain rfl | member := List.mem_cons.mp member
      · exact ofJson_declared item first
      · exact declared tree' member

end

end PathQuery.Filter
