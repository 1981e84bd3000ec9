import PathQuery.Source.Identity
import PathQuery.Proofs.Json.Unambiguous
import PathQuery.Proofs.Filter.Unambiguous
import PathQuery.Proofs.Source.Grounded

namespace PathQuery.Source

/-! # What a canonical text identifies

The canonical text of a source is the text of a value without numbers, in which the
filters stand as strings.  So it determines the source, except for the order of the
children of a filter's nodes, the junctions of only children, and the order in which the
columns of a foreign key are paired.
-/

/-- The same foreign key, with its column pairs in any order. -/
inductive HopTarget.Reordered : HopTarget → HopTarget → Prop
  | constraint (schema name : String) :
      Reordered (.constraint schema name) (.constraint schema name)
  | columns (remote : TableName) {localColumns remoteColumns localColumns' remoteColumns' :
        List String}
      (pairs : (localColumns.zip remoteColumns).Perm (localColumns'.zip remoteColumns')) :
      Reordered (.columns remote localColumns remoteColumns)
        (.columns remote localColumns' remoteColumns')

/-- The same step, up to the order of a filter's children and of column pairs. -/
inductive Step.Reordered (loose : Bool) : Step → Step → Prop
  | sourcekey (key : String) : Reordered loose (.sourcekey key) (.sourcekey key)
  | filter {tree tree' : Filter.Tree} (trees : Filter.Tree.Reordered loose tree tree') :
      Reordered loose (.filter tree) (.filter tree')
  | hop (direction : Direction) (aliasName : Option String) {target target' : HopTarget}
      (targets : target.Reordered target') :
      Reordered loose (.hop ⟨direction, target, aliasName⟩) (.hop ⟨direction, target', aliasName⟩)

/-- The same column after the same steps, each up to the order of its parts. -/
structure Spec.Reordered (loose : Bool) (left right : Spec) : Prop where
  steps : List.Forall₂ (Step.Reordered loose) left.steps right.steps
  column : left.column = right.column

theorem pairPrecedes_iff (left right : String × String) :
    pairPrecedes left right = true ↔ toLex left ≤ toLex right := by
  rw [Prod.Lex.toLex_le_toLex, pairPrecedes]
  by_cases same : left.1 = right.1
  · simp [same]
  · simp [same, le_iff_lt_or_eq]

/-- Sorted pairs say which pairs there are, and nothing else. -/
theorem sortedPairs_eq_iff {left right : List (String × String)} :
    left.mergeSort pairPrecedes = right.mergeSort pairPrecedes ↔ left.Perm right := by
  constructor
  · intro same
    exact (List.mergeSort_perm left pairPrecedes).symm.trans
      (same ▸ List.mergeSort_perm right pairPrecedes)
  · intro permuted
    have sorted : ∀ pairs : List (String × String), (pairs.mergeSort pairPrecedes).Pairwise
        fun first second => pairPrecedes first second = true := by
      refine List.pairwise_mergeSort ?_ ?_
      · intro first second third before after
        rw [pairPrecedes_iff] at before after ⊢
        exact before.trans after
      · intro first second
        rw [Bool.or_eq_true, pairPrecedes_iff, pairPrecedes_iff]
        exact le_total _ _
    refine List.Perm.eq_of_pairwise ?_ (sorted left) (sorted right)
      ((List.mergeSort_perm left _).trans (permuted.trans (List.mergeSort_perm right _).symm))
    intro first second _ _ before after
    rw [pairPrecedes_iff] at before after
    exact toLex_inj.mp (le_antisymm before after)

def mappingJson (pairs : List (String × String)) : Json :=
  .object ((pairs.mergeSort pairPrecedes).map fun pair => (pair.1, .string pair.2))

def HopTarget.canonicalJson : HopTarget → Json
  | .constraint schema name => .array [.string schema, .string name]
  | .columns remote localColumns remoteColumns =>
    .object [(remoteSchemaKey, .string remote.schema), (remoteTableKey, .string remote.table),
      (columnMappingKey, mappingJson (localColumns.zip remoteColumns))]

def aliasFields (aliasName : Option String) : Json.Fields :=
  aliasName.toList.map fun name => (aliasKey, .string name)

/-- The step as the value whose text identifies it. -/
def Step.canonicalJson : Step → Json
  | sourcekey key => .object [(sourcekeyKey, .string key)]
  | filter tree => .object [(Filter.columnKey, .string tree.canonical.text)]
  | hop step =>
    .object ((step.direction.text, step.target.canonicalJson) :: aliasFields step.aliasName)

def Spec.canonicalJson (spec : Spec) : Json :=
  .array (spec.steps.map Step.canonicalJson ++ [.string spec.column])

theorem HopTarget.canonicalJson_text (target : HopTarget) :
    target.canonicalJson.text = target.canonicalText := by
  cases target with
  | constraint schema name =>
      change _ = "[" ++ Json.quote schema ++ "," ++ Json.quote name ++ "]"
      simp only [canonicalJson, Json.text_array, List.map_cons, List.map_nil,
        String.intercalate_cons_cons, String.intercalate_singleton, String.append_assoc]
      rfl
  | columns remote localColumns remoteColumns =>
      have schemaField : "\x7b\"remote_schema\":" =
          "\x7b" ++ (Json.quote remoteSchemaKey ++ ":") := by decide
      have tableField : ",\"remote_table\":" = "," ++ (Json.quote remoteTableKey ++ ":") := by
        decide
      have mappingField : ",\"local_to_remote_columns\":\x7b" =
          "," ++ (Json.quote columnMappingKey ++ (":" ++ "\x7b")) := by decide
      have closing : "\x7d\x7d" = "\x7d" ++ "\x7d" := by decide
      change _ = "\x7b\"remote_schema\":" ++ Json.quote remote.schema ++
        ",\"remote_table\":" ++ Json.quote remote.table ++
        ",\"local_to_remote_columns\":\x7b" ++
        ",".intercalate (((localColumns.zip remoteColumns).mergeSort pairPrecedes).map
          fun pair => Json.quote pair.1 ++ ":" ++ Json.quote pair.2) ++ "\x7d\x7d"
      simp only [canonicalJson, mappingJson, Json.text_object, List.map_cons, List.map_nil,
        List.map_map, String.intercalate_cons_cons, String.intercalate_singleton,
        String.append_assoc, schemaField, tableField, mappingField, closing]
      rfl

theorem Step.canonicalJson_text (step : Step) :
    step.canonicalJson.text = step.canonicalText := by
  cases step with
  | sourcekey key =>
      have field : "\x7b\"sourcekey\":" = "\x7b" ++ (Json.quote sourcekeyKey ++ ":") := by decide
      simp only [canonicalJson, canonicalText, Json.text_object, List.map_cons, List.map_nil,
        String.intercalate_singleton, String.append_assoc, field]
      rfl
  | filter tree =>
      have field : "\x7b\"filter\":" = "\x7b" ++ (Json.quote Filter.columnKey ++ ":") := by decide
      simp only [canonicalJson, canonicalText, Json.text_object, List.map_cons, List.map_nil,
        String.intercalate_singleton, String.append_assoc, field]
      rfl
  | hop hop =>
      obtain ⟨direction, target, aliasName⟩ := hop
      have field : ",\"alias\":" = "," ++ (Json.quote aliasKey ++ ":") := by decide
      cases aliasName with
      | none =>
          simp only [canonicalJson, canonicalText, aliasFields, Json.text_object, List.map_cons,
            List.map_nil, Option.toList_none, String.intercalate_singleton, String.append_assoc,
            HopTarget.canonicalJson_text, String.append_empty]
      | some name =>
          simp only [canonicalJson, canonicalText, aliasFields, Json.text_object, List.map_cons,
            List.map_nil, Option.toList_some, String.intercalate_cons_cons,
            String.intercalate_singleton, String.append_assoc, HopTarget.canonicalJson_text, field]
          rfl

theorem Spec.canonicalJson_text (spec : Spec) :
    spec.canonicalJson.text = spec.canonicalText := by
  simp only [canonicalJson, canonicalText, Json.text_array, List.map_append, List.map_map,
    List.map_cons, List.map_nil, Function.comp_def, Step.canonicalJson_text]
  rfl

theorem HopTarget.canonicalJson_numberless (target : HopTarget) :
    target.canonicalJson.Numberless := by
  cases target with
  | constraint schema name =>
      refine .array fun item member => ?_
      simp only [List.mem_cons, List.not_mem_nil, or_false] at member
      rcases member with rfl | rfl <;> exact .string _
  | columns remote localColumns remoteColumns =>
      refine .object fun field member => ?_
      simp only [List.mem_cons, List.not_mem_nil, or_false] at member
      rcases member with rfl | rfl | rfl
      · exact .string _
      · exact .string _
      · refine .object fun field member => ?_
        obtain ⟨pair, -, rfl⟩ := List.mem_map.mp member
        exact .string _

theorem Step.canonicalJson_numberless (step : Step) : step.canonicalJson.Numberless := by
  cases step with
  | sourcekey key =>
      refine .object fun field member => ?_
      rw [List.mem_singleton.mp member]
      exact .string key
  | filter tree =>
      refine .object fun field member => ?_
      rw [List.mem_singleton.mp member]
      exact .string tree.canonical.text
  | hop hop =>
      refine .object fun field member => ?_
      obtain rfl | member := List.mem_cons.mp member
      · exact hop.target.canonicalJson_numberless
      · obtain ⟨name, -, rfl⟩ := List.mem_map.mp member
        exact .string name

theorem Spec.canonicalJson_numberless (spec : Spec) : spec.canonicalJson.Numberless := by
  refine .array fun item member => ?_
  rcases List.mem_append.mp member with member | member
  · obtain ⟨step, -, rfl⟩ := List.mem_map.mp member
    exact step.canonicalJson_numberless
  · rw [List.mem_singleton.mp member]
    exact .string _

theorem Spec.canonicalJson_of_text {left right : Spec}
    (same : left.canonicalText = right.canonicalText) :
    left.steps.map Step.canonicalJson = right.steps.map Step.canonicalJson ∧
      left.column = right.column := by
  rw [← canonicalJson_text, ← canonicalJson_text] at same
  have values := Json.array.inj (left.canonicalJson_numberless.text_injective
    right.canonicalJson_numberless same)
  obtain ⟨steps, column⟩ := List.append_inj' values rfl
  exact ⟨steps, Json.string.inj (List.cons.inj column).1⟩

theorem Step.eq_sourcekey_of_canonicalJson {step : Step} {key : String}
    (same : step.canonicalJson = (sourcekey key).canonicalJson) : step = sourcekey key := by
  cases step with
  | sourcekey other => simpa [canonicalJson] using same
  | filter tree => simp [canonicalJson, Filter.columnKey, sourcekeyKey] at same
  | hop hop =>
      obtain ⟨direction, target, aliasName⟩ := hop
      cases direction <;> simp [canonicalJson, Direction.text, sourcekeyKey] at same

theorem Spec.sourcekey?_of_canonicalJson {left right : Spec} {key : String}
    (same : left.steps.map Step.canonicalJson = right.steps.map Step.canonicalJson)
    (leads : left.sourcekey? = some key) : right.sourcekey? = some key := by
  obtain ⟨later, steps⟩ := Spec.sourcekey?_eq_some.mp leads
  rw [steps, List.map_cons] at same
  obtain ⟨first, rest, steps', first', -⟩ := List.map_eq_cons_iff.mp same.symm
  rw [Step.eq_sourcekey_of_canonicalJson first'] at steps'
  exact Spec.sourcekey?_eq_some.mpr ⟨rest, steps'⟩

/-- The canonical text tells what a source continues. -/
theorem Spec.sourcekey?_of_canonicalText {left right : Spec}
    (same : left.canonicalText = right.canonicalText) : left.sourcekey? = right.sourcekey? := by
  have steps := (canonicalJson_of_text same).1
  refine Option.ext fun key => ?_
  exact ⟨sourcekey?_of_canonicalJson steps, sourcekey?_of_canonicalJson steps.symm⟩

theorem HopTarget.canonicalJson_eq_iff {left right : HopTarget} :
    left.canonicalJson = right.canonicalJson ↔ left.Reordered right := by
  constructor
  · intro same
    cases left with
    | constraint schema name =>
        cases right with
        | constraint schema' name' =>
            simp only [canonicalJson, Json.array.injEq, List.cons.injEq, Json.string.injEq,
              and_true] at same
            obtain ⟨rfl, rfl⟩ := same
            exact .constraint schema name
        | columns remote localColumns remoteColumns => simp [canonicalJson] at same
    | columns remote localColumns remoteColumns =>
        cases right with
        | constraint schema name => simp [canonicalJson] at same
        | columns remote' localColumns' remoteColumns' =>
            simp only [canonicalJson, mappingJson, Json.object.injEq, List.cons.injEq,
              Prod.mk.injEq, Json.string.injEq, true_and, and_true] at same
            obtain ⟨schemas, tables, mappings⟩ := same
            obtain rfl : remote = remote' := by
              cases remote
              cases remote'
              exact congrArg₂ TableName.mk schemas tables
            have paired : Function.Injective fun pair : String × String =>
                (pair.1, Json.string pair.2) := by
              intro pair pair' same
              simpa [Prod.ext_iff] using same
            exact .columns remote (sortedPairs_eq_iff.mp (paired.list_map mappings))
  · intro reordered
    cases reordered with
    | constraint schema name => rfl
    | columns remote pairs =>
        simp only [canonicalJson, mappingJson, sortedPairs_eq_iff.mpr pairs]

theorem Step.Reordered.canonicalJson_eq {left right : Step} (reordered : left.Reordered false right) :
    left.canonicalJson = right.canonicalJson := by
  cases reordered with
  | sourcekey key => rfl
  | filter trees => simp only [canonicalJson, trees.text_canonical]
  | hop direction aliasName targets =>
      simp only [canonicalJson, HopTarget.canonicalJson_eq_iff.mpr targets]

/-- A filter step holds a filter that was declared. -/
def Step.Declared : Step → Prop
  | filter tree => tree.Declared
  | _ => True

theorem Step.reordered_of_canonicalJson {left right : Step} (declared : left.Declared)
    (declared' : right.Declared) (same : left.canonicalJson = right.canonicalJson) :
    left.Reordered true right := by
  cases left with
  | sourcekey key =>
      cases right with
      | sourcekey key' =>
          simp only [canonicalJson, Json.object.injEq, List.cons.injEq, Prod.mk.injEq,
            Json.string.injEq, true_and, and_true] at same
          exact same ▸ .sourcekey key
      | filter tree' => simp [canonicalJson, sourcekeyKey, Filter.columnKey] at same
      | hop hop' =>
          obtain ⟨direction', target', aliasName'⟩ := hop'
          cases direction' <;> simp [canonicalJson, sourcekeyKey, Direction.text] at same
  | filter tree =>
      cases right with
      | sourcekey key' => simp [canonicalJson, sourcekeyKey, Filter.columnKey] at same
      | filter tree' =>
          simp only [canonicalJson, Json.object.injEq, List.cons.injEq, Prod.mk.injEq,
            Json.string.injEq, true_and, and_true] at same
          have texts := declared.canonical.text_unambiguous _ declared'.canonical [] [] nofun nofun
            (by rw [same])
          exact .filter texts.1.of_canonical
      | hop hop' =>
          obtain ⟨direction', target', aliasName'⟩ := hop'
          cases direction' <;> simp [canonicalJson, Filter.columnKey, Direction.text] at same
  | hop hop =>
      obtain ⟨direction, target, aliasName⟩ := hop
      cases right with
      | sourcekey key' =>
          cases direction <;> simp [canonicalJson, sourcekeyKey, Direction.text] at same
      | filter tree' =>
          cases direction <;> simp [canonicalJson, Filter.columnKey, Direction.text] at same
      | hop hop' =>
          obtain ⟨direction', target', aliasName'⟩ := hop'
          simp only [canonicalJson, Json.object.injEq, List.cons.injEq, Prod.mk.injEq] at same
          obtain ⟨⟨directions, targets⟩, aliases⟩ := same
          obtain rfl : direction = direction' := by
            cases direction <;> cases direction' <;>
              first | rfl | exact absurd directions (by decide)
          obtain rfl : aliasName = aliasName' := by
            cases aliasName <;> cases aliasName' <;> simp_all [aliasFields]
          exact .hop direction aliasName (HopTarget.canonicalJson_eq_iff.mp targets)

theorem readHop_cases {fields : Json.Fields} {direction : Direction} {target : Json}
    {step : Step} (read : readHop fields direction target = .ok step) :
    ∃ hop : HopStep, readTarget target = .ok hop.target ∧ step = .hop hop := by
  obtain ⟨aliasName, -, read⟩ := bind_eq_ok.mp read
  obtain ⟨target, isTarget, read⟩ := bind_eq_ok.mp read
  cases read
  exact ⟨_, isTarget, rfl⟩

/-- A step that was read is a sourcekey, a filter or a hop, of which the filter and the target of
    the hop were read. -/
theorem Step.ofJson_cases {value : Json} {step : Step} (read : Step.ofJson value = .ok step) :
    (∃ key, step = .sourcekey key) ∨
    (∃ tree, Filter.Tree.ofJson value = .ok tree ∧ step = .filter tree) ∨
    ∃ hop : HopStep, ∃ target, readTarget target = .ok hop.target ∧ step = .hop hop := by
  unfold Step.ofJson at read
  split at read
  · split at read
    · cases read
      exact .inl ⟨_, rfl⟩
    · contradiction
    · split at read
      · split at read
        · rename_i tree found
          cases read
          exact .inr (.inl ⟨tree, found, rfl⟩)
        · contradiction
      · split at read
        · obtain ⟨hop, isTarget, same⟩ := readHop_cases read
          exact .inr (.inr ⟨hop, _, isTarget, same⟩)
        · obtain ⟨hop, isTarget, same⟩ := readHop_cases read
          exact .inr (.inr ⟨hop, _, isTarget, same⟩)
        · contradiction
  · contradiction

theorem readSteps_eq_mapM (items : List Json) : readSteps items = items.mapM Step.ofJson := by
  induction items with
  | nil => rfl
  | cons item items ih =>
      rw [readSteps, ih, List.mapM_cons]

theorem readSteps_eq_ok {items : List Json} {steps : List Step} : readSteps items = .ok steps ↔
    List.Forall₂ (fun item step => Step.ofJson item = .ok step) items steps := by
  rw [readSteps_eq_mapM, mapM_eq_ok_iff_forall₂]

theorem readSteps_mem {items : List Json} {steps : List Step}
    (read : readSteps items = .ok steps) :
    ∀ step ∈ steps, ∃ item, Step.ofJson item = .ok step := by
  rw [readSteps_eq_mapM] at read
  obtain ⟨-, rfl⟩ := mapM_eq_ok.mp read
  intro step member
  obtain ⟨item, -, isStep⟩ := List.mem_filterMap.mp member
  exact ⟨item, toOption_eq_some.mp isStep⟩

/-- Every step of a source that was read was read by itself. -/
theorem Spec.ofJson_mem {value : Json} {spec : Spec} (read : Spec.ofJson value = .ok spec) :
    ∀ step ∈ spec.steps, ∃ item, Step.ofJson item = .ok step := by
  unfold Spec.ofJson at read
  split at read
  · cases read
    exact nofun
  · split at read
    · contradiction
    · obtain ⟨steps, found, read⟩ := bind_eq_ok.mp read
      cases read
      exact readSteps_mem found
    · contradiction
  · contradiction

theorem Spec.ofJson_declared {value : Json} {spec : Spec} (read : Spec.ofJson value = .ok spec) :
    ∀ step ∈ spec.steps, step.Declared := by
  intro step member
  obtain ⟨item, isStep⟩ := Spec.ofJson_mem read step member
  obtain ⟨key, rfl⟩ | ⟨tree, isTree, rfl⟩ | ⟨hop, target, -, rfl⟩ := Step.ofJson_cases isStep
  · trivial
  · exact Filter.ofJson_declared _ isTree
  · trivial

/-- Two sources that were read have the same canonical text if they differ only in the
    order of filter children and of column pairs, and only if they differ in no more than
    that and the junctions of only children. -/
theorem canonicalText_identifies {value value' : Json} {spec spec' : Spec}
    (read : Spec.ofJson value = .ok spec) (read' : Spec.ofJson value' = .ok spec') :
    (spec.Reordered false spec' → spec.canonicalText = spec'.canonicalText) ∧
      (spec.canonicalText = spec'.canonicalText → spec.Reordered true spec') := by
  constructor
  · rintro ⟨steps, column⟩
    have values : spec.steps.map Step.canonicalJson = spec'.steps.map Step.canonicalJson := by
      rw [← List.forall₂_eq_eq_eq, List.forall₂_map_left_iff, List.forall₂_map_right_iff]
      exact steps.imp fun _ _ reordered => reordered.canonicalJson_eq
    rw [← Spec.canonicalJson_text, ← Spec.canonicalJson_text, Spec.canonicalJson,
      Spec.canonicalJson, values, column]
  · intro same
    obtain ⟨steps, column⟩ := Spec.canonicalJson_of_text same
    rw [← List.forall₂_eq_eq_eq, List.forall₂_map_left_iff, List.forall₂_map_right_iff] at steps
    exact ⟨forall₂_imp_mem steps fun step member step' member' =>
        Step.reordered_of_canonicalJson (Spec.ofJson_declared read step member)
          (Spec.ofJson_declared read' step' member'), column⟩

/-- Two comparisons under `and`, and two column pairs, declared in either order. -/
def swappedSource (first second : String) : Json :=
  .array [
    .object [("and", .array [.object [("filter", .string first)],
      .object [("filter", .string second)]])],
    .object [("outbound", .object [("remote_schema", .string "s"), ("remote_table", .string "t"),
      ("local_columns", .array [.string first, .string second]),
      ("remote_columns", .array [.string first, .string second])])],
    .string "id"]

def swappedSpec (first second : String) : Spec where
  steps := [
    .filter (.node .all [.leaf ⟨first, .equal, some (.template ""), false⟩,
      .leaf ⟨second, .equal, some (.template ""), false⟩] false),
    .hop ⟨.outbound, .columns ⟨"s", "t"⟩ [first, second] [first, second], none⟩]
  column := "id"

theorem swappedSpec_reordered (first second : String) :
    (swappedSpec first second).Reordered false (swappedSpec second first) := by
  refine ⟨.cons (.filter ?_) (.cons (.hop .outbound none (.columns _ ?_)) .nil), rfl⟩
  · exact .node false (.inl rfl) (.swap _ _ _) (.cons (.leaf _) (.cons (.leaf _) .nil))
  · exact .swap _ _ _

theorem canonicalText_identifies_swapped :
    Spec.ofJson (swappedSource "a" "b") = .ok (swappedSpec "a" "b") ∧
      Spec.ofJson (swappedSource "b" "a") = .ok (swappedSpec "b" "a") ∧
      (swappedSpec "a" "b").canonicalText = (swappedSpec "b" "a").canonicalText ∧
      (swappedSpec "a" "b").Reordered true (swappedSpec "b" "a") := by
  have read : ∀ first second, Spec.ofJson (swappedSource first second) =
      .ok (swappedSpec first second) := fun _ _ => rfl
  obtain ⟨forward, backward⟩ := canonicalText_identifies (read "a" "b") (read "b" "a")
  have texts := forward (swappedSpec_reordered "a" "b")
  exact ⟨read "a" "b", read "b" "a", texts, backward texts⟩

end PathQuery.Source
