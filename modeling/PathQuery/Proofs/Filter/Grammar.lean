import PathQuery.Proofs.Filter.Unambiguous
import PathQuery.Proofs.Json.Fields

namespace PathQuery

/-! # Which values declare a filter

A filter is declared by an object with just one of the keys `filter`, `and` and `or`: a
comparison names a column, a junction has a non-empty array of filters.  Both may be negated.
These values are read as filters, and no others are.
-/

namespace Filter

open Json

variable {fields : Json.Fields} {value : Json} {junction : Junction}

/-- The object compares a column with an operand, which does not count where the operator takes
    none. -/
structure Compares (fields : Json.Fields) : Prop where
  column : fields.Has columnKey IsText
  operator : fields.MayHave operatorKey fun value =>
    ∃ operator : Operator, value = .string operator.text
  operand : fields.lookup operatorKey = some (.string Operator.null.text) ∨
    fields.MayHave operandKey IsScalar

/-- The keys of an object that make it a filter. -/
def kinds (fields : Json.Fields) : List String := kindKeys.filter fields.contains

inductive DeclaresTree : Json → Prop
  | comparison {fields : Json.Fields} (negate : fields.MayHave negateKey IsBoolean)
      (kind : kinds fields = [columnKey]) (compares : Compares fields) : DeclaresTree (.object fields)
  | junction {fields : Json.Fields} {junction : Junction} {items : List Json}
      (negate : fields.MayHave negateKey IsBoolean) (kind : kinds fields = [junction.key])
      (found : fields.lookup junction.key = some (.array items)) (nonempty : items ≠ [])
      (each : ∀ item ∈ items, DeclaresTree item) : DeclaresTree (.object fields)

theorem Operator.ofText?_eq_some {operator : Operator} {text : String} :
    Operator.ofText? text = some operator ↔ operator.text = text := by
  constructor
  · intro found
    simpa using List.find?_some found
  · rintro rfl
    cases operator <;> decide

theorem readNegate_isOk :
    (∃ negate, readNegate fields = .ok negate) ↔ fields.MayHave negateKey IsBoolean := by
  unfold readNegate
  cases found : fields.lookup negateKey with
  | none => exact iff_of_true ⟨false, rfl⟩ (Fields.mayHave_of_none found)
  | some value =>
      rw [Fields.mayHave_iff found]
      cases value <;> simp [IsBoolean]

/-- Without an operator the comparison asks for equality. -/
theorem readOperator_eq_ok {operator : Operator} :
    readOperator fields = .ok operator ↔
      fields.lookup operatorKey = some (.string operator.text) ∨
        fields.lookup operatorKey = none ∧ operator = .equal := by
  unfold readOperator
  cases found : fields.lookup operatorKey with
  | none => simp [eq_comm]
  | some value =>
      cases value with
      | string text =>
          have isText := @Operator.ofText?_eq_some operator text
          cases named : Operator.ofText? text with
          | none => simpa [named, eq_comm] using isText
          | some other => simpa [named, eq_comm] using isText
      | _ => simp

theorem readOperator_isOk :
    (∃ operator, readOperator fields = .ok operator) ↔
      fields.MayHave operatorKey fun value =>
        ∃ operator : Operator, value = .string operator.text := by
  simp only [readOperator_eq_ok]
  cases found : fields.lookup operatorKey with
  | none => exact iff_of_true ⟨.equal, .inr ⟨rfl, rfl⟩⟩ (Fields.mayHave_of_none found)
  | some value =>
      rw [Fields.mayHave_iff found]
      simp

theorem readOperand_isOk :
    (∃ operand, readOperand fields = .ok operand) ↔ fields.MayHave operandKey IsScalar := by
  unfold readOperand
  cases found : fields.lookup operandKey with
  | none => exact iff_of_true ⟨.template "", rfl⟩ (Fields.mayHave_of_none found)
  | some value =>
      rw [Fields.mayHave_iff found]
      cases value <;> simp [IsScalar]

theorem Operator.takesOperand_iff {operator : Operator} :
    operator.takesOperand = true ↔ operator ≠ .null := by
  cases operator <;> decide

theorem readLeaf_compares {negate : Bool} {leaf : Leaf} (read : readLeaf fields negate = .ok leaf) :
    Compares fields := by
  unfold readLeaf at read
  split at read
  · rename_i column named
    obtain ⟨operator, isOperator, read⟩ := bind_eq_ok.mp read
    refine ⟨⟨_, named, column, rfl⟩, readOperator_isOk.mp ⟨operator, isOperator⟩, ?_⟩
    by_cases isNull : operator = .null
    · obtain given | ⟨-, isEqual⟩ := readOperator_eq_ok.mp isOperator
      · exact .inl (isNull ▸ given)
      · rw [isNull] at isEqual
        contradiction
    · rw [if_pos (Operator.takesOperand_iff.mpr isNull)] at read
      cases template : readOperand fields with
      | ok template => exact .inr (readOperand_isOk.mp ⟨_, template⟩)
      | error error => simp [template] at read
  · contradiction

theorem Compares.read (compares : Compares fields) (negate : Bool) :
    ∃ leaf, readLeaf fields negate = .ok leaf := by
  obtain ⟨⟨_, named, column, rfl⟩, operator, operand⟩ := compares
  obtain ⟨operator, isOperator⟩ := readOperator_isOk.mpr operator
  unfold readLeaf
  simp only [named, isOperator, ok_bind]
  by_cases isNull : operator = .null
  · exact ⟨⟨column, .null, none, negate⟩, by rw [isNull]; rfl⟩
  · have scalar : fields.MayHave operandKey IsScalar := by
      rcases operand with given | scalar
      · have isNull' : readOperator fields = .ok .null := readOperator_eq_ok.mpr (.inl given)
        rw [isOperator] at isNull'
        exact absurd (Except.ok.inj isNull') isNull
      · exact scalar
    obtain ⟨template, isTemplate⟩ := readOperand_isOk.mpr scalar
    rw [if_pos (Operator.takesOperand_iff.mpr isNull), isTemplate]
    exact ⟨_, rfl⟩

theorem mem_kinds {key : String} :
    key ∈ kinds fields ↔ key ∈ kindKeys ∧ (fields.lookup key).isSome = true := by
  simp [kinds, Fields.contains]

theorem childrenUnder_eq (junction : Junction) (fields : Json.Fields) :
    childrenUnder junction fields = (fields.lookup junction.key).map (readChildren junction) := by
  induction fields with
  | nil => rfl
  | cons field fields ih =>
      obtain ⟨key, value⟩ := field
      rw [childrenUnder, List.lookup_cons, ih, BEq.comm]
      cases junction.key == key <;> rfl

theorem readChildren_eq_ok {value : Json} {children : List Tree} :
    readChildren junction value = .ok children ↔
      ∃ items, value = .array items ∧ items ≠ [] ∧ readTrees items = .ok children := by
  cases value with
  | array items => cases items <;> simp [readChildren]
  | _ => simp [readChildren]

theorem readTrees_eq_mapM (items : List Json) : readTrees items = items.mapM Tree.ofJson := by
  induction items with
  | nil => rfl
  | cons item items ih =>
      rw [readTrees, ih, List.mapM_cons]

theorem absent_of_kind {key other : String} (kind : kinds fields = [key]) (apart : other ≠ key)
    (isKind : other ∈ kindKeys) : fields.lookup other = none := by
  cases found : fields.lookup other with
  | none => rfl
  | some value =>
      have member : other ∈ kinds fields := mem_kinds.mpr ⟨isKind, by rw [found]; rfl⟩
      rw [kind] at member
      exact absurd (List.mem_singleton.mp member) apart

theorem ofJson_comparison (kind : kinds fields = [columnKey]) :
    Tree.ofJson (.object fields) =
      readNegate fields >>= fun negate => Tree.leaf <$> readLeaf fields negate := by
  have noAll : fields.lookup Junction.all.key = none := absent_of_kind kind (by decide) (by decide)
  have noAny : fields.lookup Junction.any.key = none := absent_of_kind kind (by decide) (by decide)
  have one : (kindKeys.filter fields.contains).length = 1 := congrArg List.length kind
  rw [Tree.ofJson]
  simp [one, childrenUnder_eq, noAll, noAny]

theorem ofJson_junction {value : Json} (kind : kinds fields = [junction.key])
    (found : fields.lookup junction.key = some value) :
    Tree.ofJson (.object fields) = readNegate fields >>= fun negate =>
      readChildren junction value >>= fun children => pure (.node junction children negate) := by
  have one : (kindKeys.filter fields.contains).length = 1 := congrArg List.length kind
  rw [Tree.ofJson]
  cases junction with
  | all => simp [one, childrenUnder_eq, found]
  | any =>
      have noAll : fields.lookup Junction.all.key = none :=
        absent_of_kind kind (by decide) (by decide)
      simp [one, childrenUnder_eq, found, noAll]

theorem kinds_of_read {tree : Tree} (read : Tree.ofJson (.object fields) = .ok tree) :
    kinds fields = [columnKey] ∨ ∃ junction : Junction, kinds fields = [junction.key] := by
  rw [Tree.ofJson] at read
  obtain ⟨negate, -, read⟩ := bind_eq_ok.mp read
  by_cases one : (kindKeys.filter fields.contains).length = 1
  · obtain ⟨key, kind⟩ := List.length_eq_one_iff.mp one
    have member : key ∈ kindKeys := by
      have within : key ∈ kinds fields := by
        rw [kinds, kind]
        exact List.mem_singleton_self key
      exact (mem_kinds.mp within).1
    simp only [kindKeys, List.mem_cons, List.not_mem_nil, or_false] at member
    obtain rfl | rfl | rfl := member
    · exact .inl kind
    · exact .inr ⟨.all, kind⟩
    · exact .inr ⟨.any, kind⟩
  · simp [one] at read

/-- A filter that was read was either a comparison, or it joins what its items were read as. -/
theorem ofJson_cases {tree : Tree} (read : Tree.ofJson value = .ok tree) :
    ∃ fields, value = .object fields ∧ Fields.MayHave fields negateKey IsBoolean ∧
      ((kinds fields = [columnKey] ∧ Compares fields ∧ ∃ leaf, tree = .leaf leaf) ∨
        ∃ junction items children negate, kinds fields = [Junction.key junction] ∧
          fields.lookup junction.key = some (.array items) ∧ items ≠ [] ∧
          items.mapM Tree.ofJson = .ok children ∧ tree = .node junction children negate) := by
  cases value with
  | object fields =>
      obtain kind | ⟨junction, kind⟩ := kinds_of_read read
      · rw [ofJson_comparison kind] at read
        obtain ⟨negate, isNegate, read⟩ := bind_eq_ok.mp read
        cases isLeaf : readLeaf fields negate with
        | error error => simp [isLeaf] at read
        | ok leaf =>
            rw [isLeaf] at read
            cases read
            exact ⟨fields, rfl, readNegate_isOk.mp ⟨negate, isNegate⟩,
              .inl ⟨kind, readLeaf_compares isLeaf, leaf, rfl⟩⟩
      · have within : junction.key ∈ kinds fields := kind ▸ List.mem_singleton_self junction.key
        obtain ⟨value, found⟩ := Option.isSome_iff_exists.mp (mem_kinds.mp within).2
        rw [ofJson_junction kind found] at read
        obtain ⟨negate, isNegate, read⟩ := bind_eq_ok.mp read
        obtain ⟨children, areChildren, same⟩ := bind_eq_ok.mp read
        obtain ⟨items, rfl, nonempty, each⟩ := readChildren_eq_ok.mp areChildren
        exact ⟨fields, rfl, readNegate_isOk.mp ⟨negate, isNegate⟩,
          .inr ⟨junction, items, children, negate, kind, found, nonempty,
            readTrees_eq_mapM items ▸ each, (Except.ok.inj same).symm⟩⟩
  | _ => simp [Tree.ofJson] at read

theorem DeclaresTree.of_read {tree : Tree} (read : Tree.ofJson value = .ok tree) : DeclaresTree value := by
  -- The items are no part of the value by its constructors, but their trees are of the tree.
  induction ofJson_declared value read generalizing value with
  | leaf declared =>
      obtain ⟨fields, rfl, negate, ⟨kind, compares, -⟩ | ⟨_, _, _, _, _, _, _, _, isNode⟩⟩ :=
        ofJson_cases read
      · exact .comparison negate kind compares
      · contradiction
  | @node junction children _ _ _ ih =>
      obtain ⟨fields, rfl, negate, ⟨_, _, _, isLeaf⟩ | ⟨_, items, _, _, kind, found, nonempty,
        areChildren, same⟩⟩ := ofJson_cases read
      · contradiction
      · cases same
        obtain ⟨each, same⟩ := mapM_eq_ok.mp areChildren
        refine .junction negate kind found nonempty fun item member => ?_
        obtain ⟨child, isChild⟩ := each item member
        have inChildren : child ∈ children :=
          same ▸ List.mem_filterMap.mpr ⟨item, member, toOption_eq_some.mpr isChild⟩
        exact ih child inChildren isChild

theorem DeclaresTree.reads (declares : DeclaresTree value) : ∃ tree, Tree.ofJson value = .ok tree := by
  induction declares with
  | comparison negate kind compares =>
      obtain ⟨negate, isNegate⟩ := readNegate_isOk.mpr negate
      obtain ⟨leaf, isLeaf⟩ := compares.read negate
      rw [ofJson_comparison kind, isNegate, ok_bind, isLeaf]
      exact ⟨_, rfl⟩
  | @junction fields junction items negate kind found nonempty each ih =>
      obtain ⟨negate, isNegate⟩ := readNegate_isOk.mpr negate
      have areChildren : items.mapM Tree.ofJson = .ok _ := mapM_eq_ok.mpr ⟨ih, rfl⟩
      rw [← readTrees_eq_mapM] at areChildren
      have isRead : readChildren junction (.array items) = .ok _ :=
        readChildren_eq_ok.mpr ⟨items, rfl, nonempty, areChildren⟩
      rw [ofJson_junction kind found, isNegate, ok_bind, isRead]
      exact ⟨_, rfl⟩

/-- Just the values that declare a filter are read as one. -/
theorem ofJson_isOk : (∃ tree, Tree.ofJson value = .ok tree) ↔ DeclaresTree value := by
  constructor
  · rintro ⟨tree, read⟩
    exact DeclaresTree.of_read read
  · exact DeclaresTree.reads

/-- The keys that count in the declaration of a filter. -/
def ownKeys : List String := kindKeys ++ [operatorKey, operandKey, negateKey]

theorem ofJson_congr {fields' : Json.Fields}
    (same : ∀ key ∈ ownKeys, fields.lookup key = fields'.lookup key) :
    Tree.ofJson (.object fields) = Tree.ofJson (.object fields') := by
  have column := same columnKey (by decide)
  have all := same Junction.all.key (by decide)
  have any := same Junction.any.key (by decide)
  have operator : readOperator fields = readOperator fields' := by
    rw [readOperator, readOperator, same operatorKey (by decide)]
  have operand : readOperand fields = readOperand fields' := by
    rw [readOperand, readOperand, same operandKey (by decide)]
  have negate : readNegate fields = readNegate fields' := by
    rw [readNegate, readNegate, same negateKey (by decide)]
  have leaf : ∀ negate, readLeaf fields negate = readLeaf fields' negate := by
    intro negate
    rw [readLeaf, readLeaf, column, operator, operand]
  have kinds : kindKeys.filter fields.contains = kindKeys.filter fields'.contains := by
    refine List.filter_congr fun key isKind => ?_
    rw [Fields.contains, Fields.contains, same key (List.mem_append_left _ isKind)]
  rw [Tree.ofJson, Tree.ofJson, negate, kinds]
  simp only [childrenUnder_eq, all, any, leaf]

end Filter
end PathQuery
