import PathQuery.Constraint.Basic
import PathQuery.Proofs.Outcome
import PathQuery.Proofs.Filter.Reordering
import PathQuery.Proofs.Path.Reading

namespace PathQuery.Reading

/-! # Clauses that can be read

Whatever is written as a filter can be read as one: the filters of a source, on the
table that they were written for, and the constraints of a facet, on any column that can
be addressed.
-/

variable {scope : Scope} {target : String}

theorem Clause.test (column : Target scope target) {operator : String}
    (known : operator ∈ comparisons) : Clause scope (target ++ operator) := by
  have empty : Operand "" := .value (by intro c member; simp at member)
  have clause := Clause.comparison column known empty
  rwa [String.append_empty] at clause

theorem mem_comparisons (operator : Filter.Operator) : operator.text ∈ comparisons := by
  cases operator <;> decide

theorem leaf_clause {table : Table} {aliases : List (String × Table)} {leaf : Filter.Leaf}
    {clause : String} (written : leaf.clause table = .ok clause) :
    Clause ⟨table, aliases⟩ clause := by
  unfold Filter.Leaf.clause at written
  split at written
  · contradiction
  · rename_i column found
    have named : column.name = leaf.column := by simpa using List.find?_some found
    have target : Target ⟨table, aliases⟩ (Text.percentEncode leaf.column) :=
      named ▸ .column (List.mem_of_find?_eq_some found)
    have known := mem_comparisons leaf.operator
    have negates : ∀ {text : String}, Clause ⟨table, aliases⟩ text →
        Clause ⟨table, aliases⟩ (if leaf.negate then Filter.negated text else text) := by
      intro text inner
      split
      · exact .negated inner
      · exact inner
    dsimp only at written
    split at written
    · cases written
      rw [String.append_empty]
      exact negates (.test target known)
    · cases written
      exact negates (.comparison target known (.value (.percentEncode _)))
    · contradiction

theorem mem_clauses {table : Table} {trees : List Filter.Tree} {clauses : List String}
    (written : Filter.Tree.clauses table trees = .ok clauses) :
    ∀ clause ∈ clauses, ∃ tree ∈ trees, tree.clause table = .ok clause := by
  induction trees generalizing clauses with
  | nil =>
      cases written
      exact nofun
  | cons tree trees ih =>
      rw [Filter.Tree.clauses] at written
      obtain ⟨first, firstWritten, written⟩ := bind_eq_ok.mp written
      obtain ⟨later, laterWritten, written⟩ := bind_eq_ok.mp written
      cases written
      intro clause listed
      obtain rfl | listed := List.mem_cons.mp listed
      · exact ⟨tree, List.mem_cons_self, firstWritten⟩
      · obtain ⟨child, member, childWritten⟩ := ih laterWritten clause listed
        exact ⟨child, List.mem_cons_of_mem _ member, childWritten⟩

/-- The clause of a filter can be read at the table that it was written for. -/
theorem tree_clause {table : Table} {aliases : List (String × Table)} {tree : Filter.Tree} :
    ∀ {clause : String}, tree.clause table = .ok clause → Clause ⟨table, aliases⟩ clause := by
  induction tree using Filter.Tree.induction with
  | leaf comparison => exact fun written => leaf_clause written
  | node junction children negate ih =>
      intro clause written
      rw [Filter.Tree.clause] at written
      obtain ⟨clauses, childrenWritten, written⟩ := bind_eq_ok.mp written
      cases written
      have joined : Clause ⟨table, aliases⟩ (junction.separator.intercalate clauses) := by
        refine .joined (by cases junction <;> decide) fun clause listed => ?_
        obtain ⟨child, member, childWritten⟩ := mem_clauses childrenWritten clause listed
        exact ih child member childWritten
      unfold Filter.joinClauses
      dsimp only
      split
      · exact .negated joined
      · split
        · exact joined
        · exact .grouped joined

theorem isEncoded_distinctTexts (values : List Json) :
    ∀ text ∈ Constraint.distinctTexts values, IsEncoded text := by
  unfold Constraint.distinctTexts
  have kept : ∀ (values : List Json) (texts : List String), (∀ text ∈ texts, IsEncoded text) →
      ∀ text ∈ values.foldl (fun texts value =>
        if value.isNull || texts.contains (Constraint.encodedText value) then texts
        else texts ++ [Constraint.encodedText value]) texts, IsEncoded text := by
    intro values
    induction values with
    | nil => exact fun _ encoded => encoded
    | cons value values ih =>
        intro texts encoded
        rw [List.foldl_cons]
        apply ih
        split
        · exact encoded
        · intro text listed
          rcases List.mem_append.mp listed with old | new
          · exact encoded text old
          · rw [List.mem_singleton.mp new]
            exact .percentEncode _
  exact kept values [] nofun

theorem choicesClause (column : Target scope target) (values : List Json) (quantified : Bool) :
    Clause scope (Constraint.choicesClause target values quantified) := by
  unfold Constraint.choicesClause
  refine .joined (.inr rfl) fun clause listed => ?_
  rcases List.mem_append.mp listed with isChoice | isNull
  · split at isChoice
    · rw [List.mem_singleton.mp isChoice]
      have equal : "=any(" = "=" ++ ("any" ++ "(") := by decide
      rw [equal]
      have clause := Clause.comparison column (by decide : "=" ∈ comparisons)
        (.values (.inl rfl) (isEncoded_distinctTexts values))
      simpa only [String.append_assoc] using clause
    · obtain ⟨text, isText, rfl⟩ := List.mem_map.mp isChoice
      exact .comparison column (by decide) (.value (isEncoded_distinctTexts values text isText))
  · split at isNull
    · rw [List.mem_singleton.mp isNull]
      exact .test column (by decide)
    · contradiction

theorem rangeClause {clause : String} (column : Target scope target) {range : Range}
    (written : Constraint.rangeClause? target range = some clause) : Clause scope clause := by
  obtain ⟨low, high, lowExclusive, highExclusive⟩ := range
  have above : ∀ exclusive : Bool, (if exclusive then ">" else ">=") ∈ comparisons := by decide
  have below : ∀ exclusive : Bool, (if exclusive then "<" else "<=") ∈ comparisons := by decide
  obtain ⟨-, written⟩ := Option.ite_none_left_eq_some.mp written
  cases written
  refine .joined (.inl rfl) fun clause listed => ?_
  rcases List.mem_append.mp listed with isLow | isHigh
  · cases low with
    | none => contradiction
    | some low =>
        rw [List.mem_singleton.mp isLow]
        exact .comparison column (above lowExclusive) (.value (.percentEncode _))
  · cases high with
    | none => contradiction
    | some high =>
        rw [List.mem_singleton.mp isHigh]
        exact .comparison column (below highExclusive) (.value (.percentEncode _))

theorem isEncoded_encodedPatterns {term : String} :
    ∀ pattern ∈ Search.encodedPatterns term, IsEncoded pattern := by
  intro pattern listed
  obtain ⟨token, -, rfl⟩ := List.mem_map.mp listed
  exact .percentEncode _

theorem termClause {term clause : String} {quantified : Bool} (column : Target scope target)
    (written : Search.termClause term target quantified = some clause) :
    Clause scope clause := by
  have encoded := @isEncoded_encodedPatterns term
  unfold Search.termClause at written
  split at written
  · contradiction
  · split at written
    · cases written
      have matchesAll : "::ciregexp::all(" = "::ciregexp::" ++ ("all" ++ "(") := by decide
      rw [matchesAll]
      have clause := Clause.comparison column (by decide : "::ciregexp::" ∈ comparisons)
        (.values (.inr rfl) encoded)
      simpa only [String.append_assoc] using clause
    · cases written
      refine .joined (.inl rfl) fun clause listed => ?_
      obtain ⟨pattern, isPattern, rfl⟩ := List.mem_map.mp listed
      exact .comparison column (by decide) (.value (encoded pattern isPattern))

theorem notNullClause (column : Target scope target) (type : ColumnType) :
    Clause scope (Constraint.notNullClause target type) := by
  have hasValue : Clause scope (Filter.negated (target ++ "::null::")) :=
    .negated (.test column (by decide))
  have literal : IsEncoded "null" := List.all_eq_true.mp (by decide)
  have noLiteral : Clause scope (Filter.negated (target ++ "=" ++ "null")) :=
    .negated (.comparison column (by decide) (.value literal))
  unfold Constraint.notNullClause
  split
  · have both : "!(" ++ target ++ "::null::)" ++ ("&!(" ++ target ++ "=null)") =
        Filter.Junction.all.separator.intercalate
          [Filter.negated (target ++ "::null::"), Filter.negated (target ++ "=" ++ "null")] := by
      apply String.toList_inj.mp
      simp [Filter.negated, Filter.Junction.separator]
    rw [both]
    refine .joined (.inl rfl) fun clause listed => ?_
    obtain rfl | listed := List.mem_cons.mp listed
    · exact hasValue
    · rw [List.mem_singleton.mp listed]
      exact noLiteral
  · have same : "!(" ++ target ++ "::null::)" ++ "" = Filter.negated (target ++ "::null::") := by
      apply String.toList_inj.mp
      simp [Filter.negated]
    rw [same]
    exact hasValue

theorem constraint_clause {constraint : Constraint} {column : Column}
    {capabilities : Capabilities} {clause : String}
    (member : column ∈ scope.table.columns)
    (written : constraint.clause column capabilities = .ok clause) : Clause scope clause := by
  have target := Target.column member
  cases constraint with
  | choices values =>
      cases written
      exact choicesClause target values _
  | ranges items =>
      simp only [Constraint.clause, Constraint.rangesClause] at written
      split at written
      · contradiction
      · cases written
        refine .joined (.inr rfl) fun clause listed => ?_
        obtain ⟨range, -, rangeWritten⟩ := List.mem_filterMap.mp listed
        exact rangeClause target rangeWritten
  | search terms =>
      simp only [Constraint.clause, Constraint.searchClause] at written
      split at written
      · contradiction
      · cases written
        refine .joined (.inr rfl) fun clause listed => ?_
        obtain ⟨term, -, termWritten⟩ := List.mem_filterMap.mp listed
        exact termClause target termWritten
  | notNull =>
      cases written
      exact notNullClause target _

theorem mapM_mem {convert : α → Except ε β} {items : List α} {results : List β}
    (converted : items.mapM convert = .ok results) :
    ∀ result ∈ results, ∃ item ∈ items, convert item = .ok result := by
  induction items generalizing results with
  | nil =>
      cases converted
      exact nofun
  | cons item items ih =>
      rw [List.mapM_cons] at converted
      obtain ⟨first, firstConverted, converted⟩ := bind_eq_ok.mp converted
      obtain ⟨later, laterConverted, converted⟩ := bind_eq_ok.mp converted
      cases converted
      intro result listed
      obtain rfl | listed := List.mem_cons.mp listed
      · exact ⟨item, List.mem_cons_self, firstConverted⟩
      · obtain ⟨other, member, otherConverted⟩ := ih laterConverted result listed
        exact ⟨other, List.mem_cons_of_mem _ member, otherConverted⟩

theorem constraint_clauses {constraints : List Constraint} {column : Column}
    {capabilities : Capabilities} {clause : String}
    (member : column ∈ scope.table.columns)
    (written : Constraint.clauses constraints column capabilities = .ok clause) :
    Clause scope clause := by
  obtain ⟨clauses, converted, written⟩ := bind_eq_ok.mp written
  cases written
  refine .joined (.inr rfl) fun clause listed => ?_
  obtain ⟨constraint, -, constraintWritten⟩ := mapM_mem converted clause listed
  exact constraint_clause member constraintWritten

end PathQuery.Reading
