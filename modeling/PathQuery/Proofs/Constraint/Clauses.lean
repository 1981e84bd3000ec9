import PathQuery.Proofs.Constraint.Meaning

namespace PathQuery.Constraint

open Reading

/-! # What is written for constraints

The clause of some constraints is read back as their disjunction.  Whether lists of values
are used depends on the server, but not what the clause says.
-/

/-- The texts of choices stand for what the choices are. -/
theorem distinctTexts_eq (values : List Json) :
    ∃ texts : List String, distinctTexts values = texts.map Text.percentEncode ∧
      ∀ text, text ∈ texts ↔
        text ∈ (values.filter fun value => !value.isNull).map Json.plainText := by
  have further : ∀ (values : List Json) (known : List String), ∃ texts : List String,
      values.foldl (fun texts value =>
        if value.isNull || texts.contains (encodedText value) then texts
        else texts ++ [encodedText value]) (known.map Text.percentEncode) =
        texts.map Text.percentEncode ∧
      ∀ text, text ∈ texts ↔ text ∈ known ∨
        text ∈ (values.filter fun value => !value.isNull).map Json.plainText := by
    intro values
    induction values with
    | nil => exact fun known => ⟨known, rfl, by simp⟩
    | cons value values ih =>
        intro known
        rw [List.foldl_cons]
        cases absent : value.isNull with
        | true =>
            obtain ⟨texts, same, listed⟩ := ih known
            exact ⟨texts, by simpa using same, fun text => by simp [listed, absent]⟩
        | false =>
            by_cases old : value.plainText ∈ known
            · have contained : (known.map Text.percentEncode).contains (encodedText value) = true := by
                rw [List.contains_iff_mem]
                exact List.mem_map_of_mem old
              obtain ⟨texts, same, listed⟩ := ih known
              refine ⟨texts, by simpa only [contained, Bool.or_true, if_true] using same,
                fun text => ?_⟩
              rw [listed, List.filter_cons_of_pos (by simp [absent]), List.map_cons, List.mem_cons]
              constructor
              · exact fun member => member.imp_right .inr
              · rintro (member | rfl | member)
                · exact .inl member
                · exact .inl old
                · exact .inr member
            · have fresh : (known.map Text.percentEncode).contains (encodedText value) = false := by
                rw [← Bool.not_eq_true, List.contains_iff_mem]
                intro member
                obtain ⟨text, inKnown, same⟩ := List.mem_map.mp member
                exact old (Text.percentEncode_injective same ▸ inKnown)
              obtain ⟨texts, same, listed⟩ := ih (known ++ [value.plainText])
              rw [fresh]
              refine ⟨texts, by simpa [encodedText] using same, fun text => ?_⟩
              rw [listed, List.filter_cons_of_pos (by simp [absent]), List.map_cons, List.mem_cons,
                List.mem_append, List.mem_singleton, or_assoc]
  simpa [distinctTexts] using further values []

/-- Choices that are not null are compared with one by one, or with all of them at once. -/
def equalClauses (column : String) (texts : List String) (quantified : Bool) : List String :=
  if quantified && texts.length > 1 then
    [column ++ "=" ++ ("any(" ++ ",".intercalate (texts.map Text.percentEncode) ++ ")")]
  else texts.map fun text => column ++ "=" ++ Text.percentEncode text

theorem equalClauses_means (column : Column) {texts : List String} (given : texts ≠ [])
    (quantified : Bool) :
    Means 1 (";".intercalate (equalClauses (Text.percentEncode column.name) texts quantified))
      fun truth => texts.any fun text => truth (compares column .equal text) := by
  have spelled : ("=", .equal) ∈ spellings := by decide
  unfold equalClauses
  split
  · rw [String.intercalate_singleton]
    exact .single (isCondition_anyOf (addressable_column column) spelled rfl given)
  · exact .any given fun text _ => .single (isCondition_value (addressable_column column) text spelled rfl)

theorem choicesClause_eq {values : List Json} {texts : List String}
    (encoded : distinctTexts values = texts.map Text.percentEncode) (column : String)
    (quantified : Bool) :
    choicesClause column values quantified =
      ";".intercalate (equalClauses column texts quantified ++
        if values.any Json.isNull then [column ++ "::null::"] else []) := by
  have spelled : "=any(" = "=" ++ "any(" := by decide
  rw [choicesClause, encoded, equalClauses, List.length_map, List.map_map, spelled]
  simp only [String.append_assoc, Function.comp_def]

theorem choicesClause_means (column : Column) {values : List Json} (given : values ≠ [])
    (quantified : Bool) :
    Means 1 (choicesClause (Text.percentEncode column.name) values quantified) fun truth =>
      (choices values).holds truth column := by
  obtain ⟨texts, encoded, listed⟩ := distinctTexts_eq values
  have equal : ∀ truth : Truth, (texts.any fun text => truth (compares column .equal text)) =
      ((values.filter fun value => !value.isNull).map Json.plainText).any
        fun text => truth (compares column .equal text) := by
    intro truth
    rw [Bool.eq_iff_iff, List.any_eq_true, List.any_eq_true]
    simp only [listed]
  have present : ∀ value ∈ values, value.isNull = false → value.plainText ∈ texts := by
    intro value member notNull
    rw [listed]
    exact List.mem_map_of_mem (List.mem_filter.mpr ⟨member, by rw [notNull]; rfl⟩)
  have clauses : texts ≠ [] → equalClauses (Text.percentEncode column.name) texts quantified ≠ [] := by
    intro given
    unfold equalClauses
    split
    · exact List.cons_ne_nil _ _
    · simpa using given
  rw [choicesClause_eq encoded]
  cases absent : values.any Json.isNull with
  | false =>
      have some : texts ≠ [] := by
        obtain ⟨value, later, rfl⟩ := List.exists_cons_of_ne_nil given
        rw [List.any_cons, Bool.or_eq_false_iff] at absent
        exact List.ne_nil_of_mem (present value List.mem_cons_self absent.1)
      rw [if_neg Bool.false_ne_true, List.append_nil]
      exact (equalClauses_means column some quantified).congr fun truth => by
        simp only [holds, absent, equal, Bool.false_and, Bool.or_false]
  | true =>
      have null : Means 1 (Text.percentEncode column.name ++ "::null::") fun truth =>
          truth (isAbsent column) :=
        .single (isCondition_isAbsent column)
      rw [if_pos rfl]
      by_cases none : texts = []
      · have noClauses : equalClauses (Text.percentEncode column.name) texts quantified = [] := by
          rw [none, equalClauses, List.length_nil]
          simp
        rw [noClauses, List.nil_append, String.intercalate_singleton]
        refine null.congr fun truth => ?_
        rw [holds, ← equal, none, absent]
        rfl
      · rw [String.intercalate_append_of_ne_nil (clauses none) (List.cons_ne_nil _ _),
          String.intercalate_singleton]
        refine ((equalClauses_means column none quantified).or null).congr fun truth => ?_
        rw [holds, ← equal, absent, Bool.true_and]

/-- The bounds of a range, each with the operator that it is compared by. -/
def bounds (range : Range) : List (String × Filter.Operator × Json) :=
  (range.min.toList.map fun min =>
    (if range.minExclusive then ">" else ">=", if range.minExclusive then .greater else .atLeast,
      min)) ++
  range.max.toList.map fun max =>
    (if range.maxExclusive then "<" else "<=", if range.maxExclusive then .less else .atMost, max)

theorem bounds_spelled (range : Range) :
    ∀ bound ∈ bounds range, (bound.1, bound.2.1) ∈ spellings ∧ bound.2.1.takesOperand = true := by
  have above : ∀ exclusive : Bool, (if exclusive then ">" else ">=",
      if exclusive then Filter.Operator.greater else .atLeast) ∈ spellings ∧
      (if exclusive then Filter.Operator.greater else .atLeast).takesOperand = true := by decide
  have below : ∀ exclusive : Bool, (if exclusive then "<" else "<=",
      if exclusive then Filter.Operator.less else .atMost) ∈ spellings ∧
      (if exclusive then Filter.Operator.less else .atMost).takesOperand = true := by decide
  intro bound listed
  rcases List.mem_append.mp listed with isLow | isHigh
  · obtain ⟨min, -, rfl⟩ := List.mem_map.mp isLow
    exact above range.minExclusive
  · obtain ⟨max, -, rfl⟩ := List.mem_map.mp isHigh
    exact below range.maxExclusive

theorem rangeClause?_eq (column : String) (range : Range) :
    rangeClause? column range = if (bounds range).isEmpty then none else
      some ("&".intercalate ((bounds range).map fun bound =>
        column ++ bound.1 ++ encodedText bound.2.2)) := by
  obtain ⟨min, max, minExclusive, maxExclusive⟩ := range
  cases min <;> cases max <;> cases minExclusive <;> cases maxExclusive <;> rfl

theorem rangeHolds_eq (truth : Truth) (column : Column) (range : Range) :
    rangeHolds truth column range = (!(bounds range).isEmpty &&
      (bounds range).all fun bound =>
        truth (compares column bound.2.1 bound.2.2.plainText)) := by
  obtain ⟨min, max, minExclusive, maxExclusive⟩ := range
  cases min <;> cases max <;> cases minExclusive <;> cases maxExclusive <;>
    simp [rangeHolds, bounds]

theorem rangesClause_means (column : Column) {items : List Range} {clause : String}
    (written : rangesClause (Text.percentEncode column.name) items = .ok clause) :
    Means 1 clause fun truth => (ranges items).holds truth column := by
  simp only [rangesClause] at written
  split at written
  · contradiction
  · rename_i given
    cases written
    refine .anyWritten (by simpa using given) ?_ ?_
    · intro range _ text written
      rw [rangeClause?_eq, Option.ite_none_left_eq_some] at written
      obtain ⟨bounded, written⟩ := written
      cases written
      have within : Means 1 ("&".intercalate ((bounds range).map fun bound =>
          Text.percentEncode column.name ++ bound.1 ++ encodedText bound.2.2)) fun truth =>
          (bounds range).all fun bound =>
            truth (compares column bound.2.1 bound.2.2.plainText) := by
        refine .all (by simpa using bounded) fun bound listed => ?_
        obtain ⟨spelled, takes⟩ := bounds_spelled range bound listed
        exact isCondition_value (addressable_column column) bound.2.2.plainText spelled takes
      refine within.congr fun truth => ?_
      rw [rangeHolds_eq, Bool.eq_false_iff.mpr bounded]
      rfl
    · intro range _ written truth
      rw [rangeClause?_eq] at written
      split at written
      · rename_i unbounded
        rw [rangeHolds_eq, unbounded]
        rfl
      · contradiction

theorem termClause_eq (term column : String) (quantified : Bool) :
    Search.termClause term column quantified =
      if Search.tokens term = [] then none
      else if quantified && (Search.tokens term).length > 1 then
        some (column ++ "::ciregexp::" ++ ("all(" ++ ",".intercalate
          (((Search.tokens term).map Search.pattern).map Text.percentEncode) ++ ")"))
      else some ("&".intercalate ((Search.tokens term).map fun token =>
        column ++ "::ciregexp::" ++ Text.percentEncode (Search.pattern token))) := by
  unfold Search.termClause Search.encodedPatterns
  cases Search.tokens term with
  | nil => rfl
  | cons token tokens =>
      rw [if_neg (List.cons_ne_nil _ _)]
      simp only [List.map_cons, List.length_cons, List.length_map, List.map_map,
        Function.comp_def]
      have spelled : "::ciregexp::all(" = "::ciregexp::" ++ "all(" := by decide
      split
      · rw [spelled]
        simp only [String.append_assoc]
      · rfl

theorem termClause_eq_none {term column : String} {quantified : Bool} :
    Search.termClause term column quantified = none ↔ Search.tokens term = [] := by
  rw [termClause_eq]
  split
  · simp_all
  · split <;> simp_all

/-- Each token of a term, of which there are some, is found in one of the subjects. -/
def termFound (truth : Truth) (subjects : List Subject) (term : Json) : Bool :=
  !(Search.tokens term.plainText).isEmpty &&
    (Search.tokens term.plainText).all fun token => subjects.any fun subject =>
      truth ⟨subject, .regexpAnyCase, some (Search.pattern token)⟩

theorem termFound_eq {term : Json} (given : Search.tokens term.plainText ≠ []) (truth : Truth)
    (subjects : List Subject) :
    termFound truth subjects term =
      (Search.tokens term.plainText).all fun token => subjects.any fun subject =>
        truth ⟨subject, .regexpAnyCase, some (Search.pattern token)⟩ := by
  rw [termFound, List.isEmpty_eq_false_iff.mpr given]
  rfl

theorem termFound_of_no_tokens {term : Json} (none : Search.tokens term.plainText = [])
    (truth : Truth) (subjects : List Subject) : termFound truth subjects term = false := by
  rw [termFound, none]
  rfl

theorem termFound_column (truth : Truth) (column : Column) (term : Json) :
    termFound truth [.column none column.name] term = termHolds truth column term := by
  simp [termFound, termHolds, compares]

theorem mem_spellings_regexp : ("::ciregexp::", Filter.Operator.regexpAnyCase) ∈ spellings := by
  decide

theorem termClause_means {subject : Subject} (addressable : subject.Addressable) {term : Json}
    {quantified : Bool} {clause : String}
    (written : Search.termClause term.plainText subject.text quantified = some clause) :
    Means 1 clause fun truth => termFound truth [subject] term := by
  rw [termClause_eq, Option.ite_none_left_eq_some] at written
  obtain ⟨given, written⟩ := written
  have found : ∀ truth : Truth, ((Search.tokens term.plainText).all fun token =>
      truth ⟨subject, .regexpAnyCase, some (Search.pattern token)⟩) =
      termFound truth [subject] term := by
    intro truth
    simp only [termFound_eq given, List.any_cons, List.any_nil, Bool.or_false]
  split at written
  · cases written
    refine (Means.single (isCondition_allOf addressable mem_spellings_regexp rfl
      (by simpa using given))).congr fun truth => ?_
    rw [← found, List.all_map]
    rfl
  · cases written
    refine (Means.all given fun token _ => ?_).congr found
    exact isCondition_value addressable (Search.pattern token) mem_spellings_regexp rfl

theorem termClauses_means {subject : Subject} (addressable : subject.Addressable)
    {terms : List Json} {quantified : Bool}
    (given : (terms.filterMap fun term =>
      Search.termClause term.plainText subject.text quantified) ≠ []) :
    Means 1 (";".intercalate (terms.filterMap fun term =>
        Search.termClause term.plainText subject.text quantified)) fun truth =>
      terms.any (termFound truth [subject]) := by
  refine .anyWritten given ?_ ?_
  · intro term _ text written
    exact termClause_means addressable written
  · intro term _ written truth
    exact termFound_of_no_tokens (termClause_eq_none.mp written) truth [subject]

theorem searchClause_means (column : Column) {terms : List Json} {quantified : Bool}
    {clause : String}
    (written : searchClause (Text.percentEncode column.name) terms quantified = .ok clause) :
    Means 1 clause fun truth => (search terms).holds truth column := by
  simp only [searchClause] at written
  split at written
  · contradiction
  · rename_i given
    cases written
    have means := termClauses_means (addressable_column column) (List.isEmpty_iff.not.mp given)
    refine means.congr fun truth => ?_
    rw [holds, funext (termFound_column truth column)]

theorem searchClause_isOk {column : String} {terms : List Json} {quantified : Bool}
    {text : String} (written : searchClause column terms quantified = .ok text) (other : Bool) :
    ∃ text, searchClause column terms other = .ok text := by
  simp only [searchClause] at written ⊢
  split at written
  · contradiction
  · rename_i given
    rw [if_neg]
    · exact ⟨_, rfl⟩
    · simp only [List.isEmpty_iff, List.filterMap_eq_nil_iff, termClause_eq_none] at given ⊢
      exact given

theorem notNullClause_means (column : Column) :
    Means 1 (notNullClause (Text.percentEncode column.name) column.type) fun truth =>
      notNull.holds truth column := by
  have spelled : ("=", .equal) ∈ spellings := by decide
  have absent : IsCondition 1 (Filter.negated (Text.percentEncode column.name ++ "::null::"))
      fun truth => !truth (isAbsent column) :=
    isCondition_negated (.single (isCondition_isAbsent column))
  have literal : IsCondition 1
      (Filter.negated (Text.percentEncode column.name ++ "=" ++ Text.percentEncode "null"))
      fun truth => !truth (compares column .equal "null") :=
    isCondition_negated
      (.single (isCondition_value (addressable_column column) "null" spelled rfl))
  cases known : column.type.hasNullLiteral with
  | false =>
      have written : notNullClause (Text.percentEncode column.name) column.type =
          Filter.negated (Text.percentEncode column.name ++ "::null::") := by
        apply String.toList_inj.mp
        simp [notNullClause, known, Filter.negated]
      rw [written]
      exact (Means.single absent).congr fun truth => by simp [holds, known]
  | true =>
      have plain : Text.percentEncode "null" = "null" := by decide
      have written : notNullClause (Text.percentEncode column.name) column.type =
          Filter.negated (Text.percentEncode column.name ++ "::null::") ++ "&" ++
            Filter.negated (Text.percentEncode column.name ++ "=" ++ Text.percentEncode "null") := by
        apply String.toList_inj.mp
        simp [notNullClause, known, Filter.negated, plain]
      rw [written]
      exact (Means.and absent literal).congr fun truth => by simp [holds, known]

/-- What a facet can declare as a constraint. -/
inductive Declared : Constraint → Prop
  | choices {value : Json} {constraint : Constraint}
      (read : readChoices value = .ok constraint) : Declared constraint
  | ranges {value : Json} {constraint : Constraint}
      (read : readRanges value = .ok constraint) : Declared constraint
  | search {value : Json} {constraint : Constraint}
      (read : readSearch value = .ok constraint) : Declared constraint
  | notNull : Declared .notNull

theorem Declared.choices_ne_nil {values : List Json} (declared : Declared (.choices values)) :
    values ≠ [] := by
  cases declared with
  | @choices value _ read =>
      unfold readChoices Json.nonEmptyArray? at read
      split at read
      · contradiction
      · rename_i items array
        split at array
        · split at read
          · contradiction
          · cases array
            cases read
            exact List.cons_ne_nil _ _
        · contradiction
  | @ranges value _ read =>
      unfold readRanges at read
      split at read
      · contradiction
      · rename_i items _
        cases each : readEachRange items with
        | error error => rw [each] at read; contradiction
        | ok ranges =>
            rw [each, except_map_ok] at read
            cases read
  | @search value _ read =>
      unfold readSearch at read
      split at read
      · contradiction
      · split at read
        · contradiction
        · cases read

/-- A constraint that is written is written with its meaning. -/
theorem clause_means {constraint : Constraint} (declared : constraint.Declared) {column : Column}
    {capabilities : Capabilities} {text : String}
    (written : constraint.clause column capabilities = .ok text) :
    Means 1 text fun truth => constraint.holds truth column := by
  cases constraint with
  | choices values =>
      cases written
      exact choicesClause_means column declared.choices_ne_nil _
  | ranges items => exact rangesClause_means column written
  | search terms => exact searchClause_means column written
  | notNull =>
      cases written
      exact notNullClause_means column

theorem clauses_means {constraints : List Constraint} (given : constraints ≠ [])
    (declared : ∀ constraint ∈ constraints, constraint.Declared) {column : Column}
    {capabilities : Capabilities} {text : String}
    (written : clauses constraints column capabilities = .ok text) :
    Means 1 text fun truth => constraints.any fun constraint => constraint.holds truth column := by
  obtain ⟨texts, converted, written⟩ := bind_eq_ok.mp written
  cases written
  obtain ⟨each, rfl⟩ := mapM_eq_ok.mp converted
  refine .anyWritten ?_ ?_ ?_
  · obtain ⟨first, later, rfl⟩ := List.exists_cons_of_ne_nil given
    obtain ⟨text, written⟩ := each first List.mem_cons_self
    exact List.ne_nil_of_mem (List.mem_filterMap.mpr
      ⟨first, List.mem_cons_self, toOption_eq_some.mpr written⟩)
  · intro constraint member text written
    exact clause_means (declared constraint member) (toOption_eq_some.mp written)
  · intro constraint member unwritten
    obtain ⟨text, written⟩ := each constraint member
    rw [written] at unwritten
    contradiction

/-- Whether a constraint can be written does not depend on the server. -/
theorem clause_isOk {constraint : Constraint} {column : Column} {capabilities : Capabilities}
    {text : String} (written : constraint.clause column capabilities = .ok text)
    (other : Capabilities) : ∃ text, constraint.clause column other = .ok text := by
  cases constraint with
  | choices values => exact ⟨_, rfl⟩
  | ranges items => exact ⟨text, written⟩
  | search terms => exact searchClause_isOk written _
  | notNull => exact ⟨text, written⟩

theorem clauses_isOk {constraints : List Constraint} {column : Column}
    {capabilities : Capabilities} {text : String}
    (written : clauses constraints column capabilities = .ok text) (other : Capabilities) :
    ∃ text, clauses constraints column other = .ok text := by
  obtain ⟨texts, converted, -⟩ := bind_eq_ok.mp written
  have converts : ∀ constraint ∈ constraints,
      ∃ text, constraint.clause column other = .ok text := by
    intro constraint member
    obtain ⟨text, written⟩ := (mapM_eq_ok.mp converted).1 constraint member
    exact clause_isOk written other
  exact ⟨_, bind_eq_ok.mpr ⟨_, mapM_eq_ok.mpr ⟨converts, rfl⟩, rfl⟩⟩

/-- The clause of some constraints is never empty, and it is read as saying that one of them
    holds.  It can be written for every server, and for every server it says the same. -/
theorem clauses_read_as_constraints {constraints : List Constraint} (given : constraints ≠ [])
    (declared : ∀ constraint ∈ constraints, constraint.Declared) {column : Column}
    {capabilities : Capabilities} {text : String}
    (written : clauses constraints column capabilities = .ok text) :
    text ≠ "" ∧ ∃ formula, read text = some formula ∧
      (∀ truth, formula.holds truth =
        constraints.any fun constraint => constraint.holds truth column) ∧
      ∀ other : Capabilities, ∃ otherText otherFormula,
        clauses constraints column other = .ok otherText ∧ read otherText = some otherFormula ∧
        ∀ truth, otherFormula.holds truth = formula.holds truth := by
  have means := clauses_means given declared written
  obtain ⟨formula, same, reading⟩ := means.read_eq
  refine ⟨means.nonempty, formula, same, reading, fun other => ?_⟩
  obtain ⟨otherText, otherWritten⟩ := clauses_isOk written other
  obtain ⟨otherFormula, otherSame, otherReading⟩ :=
    (clauses_means given declared otherWritten).read_eq
  exact ⟨otherText, otherFormula, otherWritten, otherSame, fun truth => by
    rw [otherReading, reading]⟩

namespace Sample

/-- Constraints of every kind, with a null and a repetition among the choices. -/
def constraints : List Constraint := [
  .choices [.string "x;y", .null, .string "z", .string "x;y"],
  .ranges [⟨some (.string "a"), some (.string "b"), true, false⟩, ⟨none, none, false, false⟩],
  .search [.string "p \"q r\"", .string " "],
  .notNull]

def column : Column := ⟨"doc a", .jsonb, true⟩

theorem constraints_declared : ∀ constraint ∈ constraints, constraint.Declared := by
  simp only [constraints, List.forall_mem_cons]
  refine ⟨?_, ?_, ?_, .notNull, nofun⟩
  · exact .choices (rfl : readChoices (.array
      [.string "x;y", .null, .string "z", .string "x;y"]) = .ok _)
  · exact .ranges (rfl : readRanges (.array [
      .object [("min", .string "a"), ("max", .string "b"), ("min_exclusive", .bool true)],
      .object []]) = .ok _)
  · exact .search (rfl : readSearch (.array [.string "p \"q r\"", .string " "]) = .ok _)

theorem clauses_read_as_constraints_mixed :
    ∃ formula, read ("doc%20a=any(x%3By,z);doc%20a::null::;doc%20a>a&doc%20a<=b;" ++
        "doc%20a::ciregexp::all(q%20r,p);!(doc%20a::null::)&!(doc%20a=null)") = some formula ∧
      (∀ truth, formula.holds truth =
        constraints.any fun constraint => constraint.holds truth column) ∧
      ∀ other : Capabilities, ∃ otherText otherFormula,
        clauses constraints column other = .ok otherText ∧ read otherText = some otherFormula ∧
        ∀ truth, otherFormula.holds truth = formula.holds truth :=
  (clauses_read_as_constraints (by decide) constraints_declared (toOption_eq_some.mp
    (by decide +kernel : (clauses constraints column fun _ => true).toOption = some _))).2

end Sample

end PathQuery.Constraint
