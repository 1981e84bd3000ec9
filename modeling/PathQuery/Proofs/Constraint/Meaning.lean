import PathQuery.Constraint.Basic
import PathQuery.Proofs.Path.Alternatives

namespace PathQuery.Constraint

open Reading

/-! # What constraints mean

A constraint is a Boolean combination of comparisons with its column.  A clause means what
it is read back as, and clauses that are put together mean what their parts mean.
-/

/-- The comparison of a column with a value. -/
def compares (column : Column) (operator : Filter.Operator) (value : String) : Comparison :=
  ⟨.column none column.name, operator, some value⟩

/-- The test that a column has no value. -/
def isAbsent (column : Column) : Comparison := ⟨.column none column.name, .null, none⟩

/-- A range with a bound holds of what is within its bounds, and one without holds of
    nothing. -/
def rangeHolds (truth : Truth) (column : Column) (range : Range) : Bool :=
  (range.min.isSome || range.max.isSome) &&
    (range.min.all fun min => truth
      (compares column (if range.minExclusive then .greater else .atLeast) min.plainText)) &&
    range.max.all fun max => truth
      (compares column (if range.maxExclusive then .less else .atMost) max.plainText)

/-- A search term with tokens holds of what each of them is found in. -/
def termHolds (truth : Truth) (column : Column) (term : Json) : Bool :=
  !(Search.tokens term.plainText).isEmpty &&
    (Search.tokens term.plainText).all fun token =>
      truth (compares column .regexpAnyCase (Search.pattern token))

/-- What a constraint says of a column. -/
def holds (truth : Truth) (column : Column) : Constraint → Bool
  | choices values =>
    ((values.filter fun value => !value.isNull).map Json.plainText).any
        (fun text => truth (compares column .equal text)) ||
      values.any Json.isNull && truth (isAbsent column)
  | ranges items => items.any (rangeHolds truth column)
  | search terms => terms.any (termHolds truth column)
  | notNull =>
    !truth (isAbsent column) &&
      !(column.type.hasNullLiteral && truth (compares column .equal "null"))

/-- The text is one condition with this meaning, with no more than so many parentheses in
    each other. -/
def IsCondition (bound : Nat) (text : String) (meaning : Truth → Bool) : Prop :=
  ∃ formula, Condition bound text formula ∧ ∀ truth, formula.holds truth = meaning truth

/-- The text is a clause with this meaning, with no more than so many parentheses in each
    other. -/
def Means (bound : Nat) (text : String) (meaning : Truth → Bool) : Prop :=
  ∃ formulas, Alternatives bound text formulas ∧
    ∀ truth, formulas.any (Formula.holds truth) = meaning truth

namespace Means

variable {bound : Nat}

theorem single {text : String} {meaning : Truth → Bool} (condition : IsCondition bound text meaning) :
    Means bound text meaning := by
  obtain ⟨formula, read, same⟩ := condition
  have written := Alternatives.of_alternatives (List.cons_ne_nil text [])
    (.cons (Alternative.single read) .nil)
  rw [String.intercalate_singleton] at written
  exact ⟨_, written, by simpa using same⟩

/-- Clauses with `;` between them mean that one of them holds. -/
theorem anyWritten {items : List α} {write : α → Option String} {means : α → Truth → Bool}
    (given : items.filterMap write ≠ [])
    (each : ∀ item ∈ items, ∀ text, write item = some text → Means bound text (means item))
    (absent : ∀ item ∈ items, write item = none → ∀ truth, means item truth = false) :
    Means bound (";".intercalate (items.filterMap write)) fun truth => items.any (means · truth) := by
  have lists : ∃ lists : List (List Formula),
      List.Forall₂ (Alternatives bound) (items.filterMap write) lists ∧
      ∀ truth, lists.flatten.any (Formula.holds truth) = items.any (means · truth) := by
    clear given
    induction items with
    | nil => exact ⟨[], .nil, fun _ => rfl⟩
    | cons item items ih =>
        obtain ⟨lists, later, same⟩ := ih
          (fun item member => each item (List.mem_cons_of_mem _ member))
          (fun item member => absent item (List.mem_cons_of_mem _ member))
        cases written : write item with
        | none =>
            rw [List.filterMap_cons_none written]
            refine ⟨lists, later, fun truth => ?_⟩
            rw [same, List.any_cons, absent item List.mem_cons_self written, Bool.false_or]
        | some text =>
            rw [List.filterMap_cons_some written]
            obtain ⟨formulas, first, same'⟩ := each item List.mem_cons_self text written
            refine ⟨formulas :: lists, .cons first later, fun truth => ?_⟩
            rw [List.flatten_cons, List.any_append, same, same', List.any_cons]
  obtain ⟨lists, written, same⟩ := lists
  exact ⟨lists.flatten, .join given written, same⟩

theorem any {items : List α} {write : α → String} {means : α → Truth → Bool}
    (given : items ≠ []) (each : ∀ item ∈ items, Means bound (write item) (means item)) :
    Means bound (";".intercalate (items.map write)) fun truth => items.any (means · truth) := by
  rw [← List.filterMap_eq_map]
  refine anyWritten (by simpa using given) ?_ fun _ _ written => by contradiction
  rintro item member text ⟨⟩
  exact each item member

/-- Conditions with `&` between them mean that all of them hold. -/
theorem all {items : List α} {write : α → String} {means : α → Truth → Bool}
    (given : items ≠ []) (each : ∀ item ∈ items, IsCondition bound (write item) (means item)) :
    Means bound ("&".intercalate (items.map write)) fun truth => items.all (means · truth) := by
  have formulas : ∃ formulas : List Formula,
      List.Forall₂ (Condition bound) (items.map write) formulas ∧
      ∀ truth, formulas.all (Formula.holds truth) = items.all (means · truth) := by
    clear given
    induction items with
    | nil => exact ⟨[], .nil, fun _ => rfl⟩
    | cons item items ih =>
        obtain ⟨formula, read, same⟩ := each item List.mem_cons_self
        obtain ⟨formulas, read', same'⟩ := ih fun item member =>
          each item (List.mem_cons_of_mem _ member)
        refine ⟨formula :: formulas, .cons read read', fun truth => ?_⟩
        rw [List.all_cons, List.all_cons, same, same']
  obtain ⟨formulas, read, same⟩ := formulas
  have written := Alternatives.of_alternatives (List.cons_ne_nil _ [])
    (.cons (Alternative.of_conditions (by simpa using given) read) .nil)
  rw [String.intercalate_singleton] at written
  exact ⟨_, written, fun truth => by simpa using same truth⟩

theorem or {left right : String} {first second : Truth → Bool} (before : Means bound left first)
    (after : Means bound right second) :
    Means bound (left ++ ";" ++ right) fun truth => first truth || second truth := by
  obtain ⟨formulas, written, same⟩ := before
  obtain ⟨formulas', written', same'⟩ := after
  exact ⟨formulas ++ formulas', written.append written', fun truth => by
    rw [List.any_append, same, same']⟩

theorem and {left right : String} {first second : Truth → Bool}
    (before : IsCondition bound left first) (after : IsCondition bound right second) :
    Means bound (left ++ "&" ++ right) fun truth => first truth && second truth := by
  obtain ⟨formula, read, same⟩ := before
  obtain ⟨formula', read', same'⟩ := after
  have alternative := Alternative.of_conditions (List.cons_ne_nil left [right])
    (.cons read (.cons read' .nil))
  have written := Alternatives.of_alternatives (List.cons_ne_nil _ [])
    (.cons alternative .nil)
  rw [String.intercalate_singleton, String.intercalate_cons_cons, String.intercalate_singleton]
    at written
  exact ⟨_, written, fun truth => by simp [same, same']⟩

theorem nonempty {text : String} {meaning : Truth → Bool} (means : Means bound text meaning) :
    text ≠ "" := by
  obtain ⟨formulas, written, -⟩ := means
  exact written.nonempty

/-- A clause is read as something with its meaning. -/
theorem read_within {text : String} {meaning : Truth → Bool} (means : Means bound text meaning)
    (bounded : bound ≤ text.length) :
    ∃ formula, read text = some formula ∧ ∀ truth, formula.holds truth = meaning truth := by
  obtain ⟨formulas, written, same⟩ := means
  exact ⟨_, written.read_eq bounded, fun truth => by rw [Formula.holds_any, same]⟩

theorem read_eq {text : String} {meaning : Truth → Bool} (means : Means 1 text meaning) :
    ∃ formula, read text = some formula ∧ ∀ truth, formula.holds truth = meaning truth := by
  refine means.read_within (Nat.one_le_iff_ne_zero.mpr fun empty => ?_)
  exact means.nonempty (String.length_eq_zero_iff.mp empty)

theorem congr {text : String} {meaning meaning' : Truth → Bool} (means : Means bound text meaning)
    (same : ∀ truth, meaning truth = meaning' truth) : Means bound text meaning' := by
  obtain rfl : meaning = meaning' := funext same
  exact means

end Means

section

variable {bound : Nat} {subject : Subject} (addressable : subject.Addressable) {spelling : String}
  {operator : Filter.Operator}
include addressable

theorem isCondition_value (value : String) (spelled : (spelling, operator) ∈ spellings)
    (takes : operator.takesOperand = true) :
    IsCondition bound (subject.text ++ spelling ++ Text.percentEncode value)
      fun truth => truth ⟨subject, operator, some value⟩ :=
  ⟨_, .value addressable value spelled takes, fun _ => Formula.holds_comparison _ _⟩

theorem isCondition_absent :
    IsCondition bound (subject.text ++ "::null::") fun truth => truth ⟨subject, .null, none⟩ :=
  ⟨_, .test addressable (by decide : ("::null::", .null) ∈ spellings) rfl,
    fun _ => Formula.holds_comparison _ _⟩

theorem isCondition_anyOf {values : List String} (spelled : (spelling, operator) ∈ spellings)
    (takes : operator.takesOperand = true) (given : values ≠ []) :
    IsCondition bound (subject.text ++ spelling ++
        ("any(" ++ ",".intercalate (values.map Text.percentEncode) ++ ")"))
      fun truth => values.any fun value => truth ⟨subject, operator, some value⟩ :=
  ⟨_, .list addressable .any spelled takes given, fun truth => by
    simp [List.any_map, Function.comp_def]⟩

theorem isCondition_allOf {values : List String} (spelled : (spelling, operator) ∈ spellings)
    (takes : operator.takesOperand = true) (given : values ≠ []) :
    IsCondition bound (subject.text ++ spelling ++
        ("all(" ++ ",".intercalate (values.map Text.percentEncode) ++ ")"))
      fun truth => values.all fun value => truth ⟨subject, operator, some value⟩ :=
  ⟨_, .list addressable .all spelled takes given, fun truth => by
    simp [List.all_map, Function.comp_def]⟩

end

theorem addressable_column (column : Column) : (Subject.column none column.name).Addressable :=
  trivial

theorem isCondition_isAbsent {bound : Nat} (column : Column) :
    IsCondition bound (Text.percentEncode column.name ++ "::null::")
      fun truth => truth (isAbsent column) := by
  have test : IsCondition bound ((Subject.column none column.name).text ++ "::null::")
      fun truth => truth (isAbsent column) :=
    isCondition_absent (addressable_column column)
  exact test

theorem isCondition_grouped {bound : Nat} {text : String} {meaning : Truth → Bool}
    (inside : Means bound text meaning) :
    IsCondition (bound + 1) ("(" ++ text ++ ")") meaning := by
  obtain ⟨formulas, written, same⟩ := inside
  exact ⟨_, .grouped written, fun truth => by rw [Formula.holds_any, same]⟩

theorem isCondition_negated {bound : Nat} {text : String} {meaning : Truth → Bool}
    (inside : Means bound text meaning) :
    IsCondition (bound + 1) (Filter.negated text) fun truth => !meaning truth := by
  obtain ⟨formulas, written, same⟩ := inside
  exact ⟨_, .negated written, fun truth => by rw [Formula.holds_not, Formula.holds_any, same]⟩

end PathQuery.Constraint
