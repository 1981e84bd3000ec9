import PathQuery.Proofs.Filter.WrittenBack
import PathQuery.Proofs.Json.Fields
import PathQuery.Proofs.Path.Reversal
import PathQuery.Proofs.Source.Equivalence

namespace PathQuery.Source

/-! # Sources written back

A source is written with the columns of a hop as an object from local to remote ones.  So of
the pairs with one local column, which two lists of columns can declare, only the last one is
written.  A source without such pairs is read back from what it is written as.
-/

variable {value : Json} {target : HopTarget} {step : Step} {spec : Spec}

/-- The target with its columns as a mapping has them: each local column once, with the last
    remote one that it is paired with. -/
def HopTarget.asMapping : HopTarget → HopTarget
  | .constraint schema name => .constraint schema name
  | .columns remote localColumns remoteColumns =>
    let pairs := Json.Fields.latest (localColumns.zip remoteColumns)
    .columns remote (pairs.map Prod.fst) (pairs.map Prod.snd)

/-- No local column is given twice. -/
def HopTarget.Distinct : HopTarget → Prop
  | .constraint .. => True
  | .columns _ localColumns _ => localColumns.Nodup

theorem readTarget_nonempty {remote : TableName} {localColumns remoteColumns : List String}
    (read : readTarget value = .ok (.columns remote localColumns remoteColumns)) :
    localColumns ≠ [] := by
  obtain ⟨schema, name, -, isConstraint⟩ | ⟨fields, -, read⟩ := readTarget_cases read
  · contradiction
  · obtain ⟨schema, table, columns, -, -, -, nonempty, -, same⟩ := readColumnTarget_eq_ok.mp read
    cases same
    exact nonempty

/-- What a paired target loses as a mapping are pairs with a local column that is given twice. -/
theorem HopTarget.asMapping_eq_self_iff (paired : target.Paired) :
    target.asMapping = target ↔ target.Distinct := by
  cases target with
  | constraint schema name => exact iff_of_true rfl trivial
  | columns remote localColumns remoteColumns =>
      have even : localColumns.length = remoteColumns.length := paired
      have locals : (localColumns.zip remoteColumns).map Prod.fst = localColumns :=
        List.map_fst_zip even.le
      have remotes : (localColumns.zip remoteColumns).map Prod.snd = remoteColumns :=
        List.map_snd_zip even.ge
      constructor
      · intro same
        obtain ⟨-, first, -⟩ := HopTarget.columns.inj same
        rw [Json.Fields.keys_latest, locals] at first
        rw [Distinct, ← first]
        exact Json.Fields.nodup_eraseDups _
      · intro distinct
        have same : Json.Fields.latest (localColumns.zip remoteColumns) =
            localColumns.zip remoteColumns :=
          Json.Fields.latest_eq_self_iff.mpr (locals.symm ▸ distinct)
        rw [asMapping, same, locals, remotes]

theorem HopTarget.asMapping_distinct (target : HopTarget) : target.asMapping.Distinct := by
  cases target with
  | constraint schema name => trivial
  | columns remote localColumns remoteColumns =>
      rw [asMapping, Distinct, Json.Fields.keys_latest]
      exact Json.Fields.nodup_eraseDups _

theorem readTarget_columns {remote : TableName} {localColumns remoteColumns : List String}
    (given : localColumns ≠ []) (even : localColumns.length = remoteColumns.length) :
    readTarget (HopTarget.columns remote localColumns remoteColumns).toJson =
      .ok (HopTarget.columns remote localColumns remoteColumns).asMapping := by
  let pairs := Json.Fields.latest (localColumns.zip remoteColumns)
  have nonempty : pairs.map Prod.fst ≠ [] := by
    obtain ⟨column, later, rfl⟩ := List.exists_cons_of_ne_nil given
    rw [Json.Fields.keys_latest, List.map_fst_zip even.le]
    exact List.ne_nil_of_mem (List.mem_eraseDups.mpr List.mem_cons_self)
  have written : Json.Fields.ofList ((localColumns.zip remoteColumns).map fun pair =>
      (pair.1, Json.string pair.2)) = pairs.map fun pair => (pair.1, Json.string pair.2) := by
    rw [Json.Fields.ofList_eq_latest, Json.Fields.latest_map]
  have uneven : ((pairs.map Prod.fst).isEmpty ||
      decide ((pairs.map Prod.fst).length ≠ (pairs.map Prod.snd).length)) = false := by
    simpa using nonempty
  have columns : readColumns [(remoteSchemaKey, .string remote.schema),
      (remoteTableKey, .string remote.table),
      (columnMappingKey, .object (pairs.map fun pair => (pair.1, Json.string pair.2)))] =
        .ok (pairs.map Prod.fst, pairs.map Prod.snd) := by
    rw [← List.unzip_eq_map]
    simp [readColumns, List.lookup_cons, remoteSchemaKey, remoteTableKey, columnMappingKey,
      readMapping_eq_ok.mpr rfl]
  rw [HopTarget.toJson, written, readTarget, readColumnTarget]
  simp only [columns, ok_bind, uneven]
  rfl

/-- A target that was read is read back as a mapping has it. -/
theorem readTarget_toJson (read : readTarget value = .ok target) :
    readTarget target.toJson = .ok target.asMapping := by
  cases target with
  | constraint schema name => rfl
  | columns remote localColumns remoteColumns =>
      exact readTarget_columns (readTarget_nonempty read) (readTarget_paired read)

def Step.asMapping : Step → Step
  | .hop step => .hop { step with target := step.target.asMapping }
  | step => step

def Step.Distinct : Step → Prop
  | .hop step => step.target.Distinct
  | _ => True

theorem Step.asMapping_eq_self_iff (paired : step.Paired) :
    step.asMapping = step ↔ step.Distinct := by
  cases step with
  | hop hop =>
      obtain ⟨direction, target, aliasName⟩ := hop
      have targets : target.asMapping = target ↔ target.Distinct :=
        HopTarget.asMapping_eq_self_iff paired
      simpa [asMapping, Distinct] using targets
  | filter tree => exact iff_of_true rfl trivial
  | sourcekey key => exact iff_of_true rfl trivial

theorem Step.ofJson_hop {hop : HopStep} (read : readTarget hop.target.toJson = .ok target) :
    Step.ofJson (Step.hop hop).toJson = .ok (.hop { hop with target }) := by
  obtain ⟨direction, written, aliasName⟩ := hop
  have reads : ∀ fields, readAlias fields = .ok aliasName →
      readHop fields direction written.toJson = .ok (.hop ⟨direction, target, aliasName⟩) := by
    intro fields named
    rw [readHop, named, ok_bind, read]
    rfl
  cases direction <;> cases aliasName <;> exact reads _ rfl

/-- A step that was read is read back, the columns of a hop as a mapping has them. -/
theorem Step.ofJson_toJson (read : Step.ofJson value = .ok step) :
    Step.ofJson step.toJson = .ok step.asMapping := by
  obtain ⟨key, rfl⟩ | ⟨tree, isTree, rfl⟩ | ⟨hop, target, isTarget, rfl⟩ := Step.ofJson_cases read
  · rfl
  · exact Step.ofJson_filter (Filter.ofJson_declared _ isTree).ofJson_toJson
  · exact Step.ofJson_hop (readTarget_toJson isTarget)

theorem Step.asMapping_distinct (step : Step) : step.asMapping.Distinct := by
  cases step with
  | hop step => exact step.target.asMapping_distinct
  | filter tree => trivial
  | sourcekey key => trivial

theorem readSteps_toJson {steps : List Step}
    (each : ∀ step ∈ steps, Step.ofJson step.toJson = .ok step.asMapping) :
    readSteps (steps.map Step.toJson) = .ok (steps.map Step.asMapping) := by
  rw [readSteps_eq_ok, List.forall₂_map_left_iff, List.forall₂_map_right_iff, List.forall₂_same]
  exact each

namespace Spec

def asMapping (spec : Spec) : Spec := { spec with steps := spec.steps.map Step.asMapping }

/-- No hop gives a local column twice. -/
def Distinct (spec : Spec) : Prop := ∀ step ∈ spec.steps, step.Distinct

theorem asMapping_eq_self_iff (paired : ∀ step ∈ spec.steps, step.Paired) :
    spec.asMapping = spec ↔ spec.Distinct := by
  obtain ⟨steps, column⟩ := spec
  have each : steps.map Step.asMapping = steps ↔ ∀ step ∈ steps, step.asMapping = step := by
    rw [← List.map_inj_left, List.map_id']
  have steps : asMapping ⟨steps, column⟩ = ⟨steps, column⟩ ↔ steps.map Step.asMapping = steps := by
    simp [asMapping]
  rw [steps, each]
  exact forall₂_congr fun step member => Step.asMapping_eq_self_iff (paired step member)

theorem asMapping_distinct (spec : Spec) : spec.asMapping.Distinct := by
  intro step member
  obtain ⟨written, -, rfl⟩ := List.mem_map.mp member
  exact written.asMapping_distinct

/-- A source that was read is read back, with the columns of its hops as mappings. -/
theorem ofJson_toJson (read : Spec.ofJson value = .ok spec) :
    Spec.ofJson spec.toJson = .ok spec.asMapping := by
  have each : ∀ step ∈ spec.steps, Step.ofJson step.toJson = .ok step.asMapping := by
    intro step member
    obtain ⟨item, isItem⟩ := ofJson_mem read step member
    exact Step.ofJson_toJson isItem
  obtain ⟨steps, column⟩ := spec
  cases steps with
  | nil => rfl
  | cons step steps => exact Spec.ofJson_steps (readSteps_toJson each) column

end Spec

/-- With the same canonical text a mapping has as many pairs as the columns that it stands for. -/
theorem HopTarget.distinct_of_reordered (paired : target.Paired)
    (reordered : target.asMapping.Reordered target) : target.Distinct := by
  cases target with
  | constraint schema name => trivial
  | columns remote localColumns remoteColumns =>
      have even : localColumns.length = remoteColumns.length := paired
      let pairs := Json.Fields.latest (localColumns.zip remoteColumns)
      cases reordered with
      | columns _ permuted =>
          have whole : (pairs.map Prod.fst).zip (pairs.map Prod.snd) = pairs := by
            rw [← List.unzip_fst, ← List.unzip_snd, List.zip_unzip]
          have locals := (whole ▸ permuted).map Prod.fst
          rw [Json.Fields.keys_latest, List.map_fst_zip even.le] at locals
          exact locals.nodup_iff.mp (Json.Fields.nodup_eraseDups _)

theorem Step.distinct_of_canonicalJson (paired : step.Paired)
    (same : step.asMapping.canonicalJson = step.canonicalJson) : step.Distinct := by
  cases step with
  | hop hop =>
      simp only [asMapping, canonicalJson, Json.object.injEq, List.cons.injEq, Prod.mk.injEq,
        true_and, and_true] at same
      exact HopTarget.distinct_of_reordered paired (HopTarget.canonicalJson_eq_iff.mp same)
  | filter tree => trivial
  | sourcekey key => trivial

theorem Spec.distinct_of_canonicalText (paired : ∀ step ∈ spec.steps, step.Paired)
    (same : spec.asMapping.canonicalText = spec.canonicalText) : spec.Distinct := by
  have steps := (Spec.canonicalJson_of_text same).1
  rw [asMapping, List.map_map, List.map_inj_left] at steps
  exact fun step member => Step.distinct_of_canonicalJson (paired step member) (steps step member)

/-- A source that was read can be written and read again.  It comes back as it was just if no hop
    gives a local column twice, and so does its canonical text; what comes back otherwise lacks
    the other pairs of such a column, and stays the same from then on. -/
theorem written_source_read_back (read : Spec.ofJson value = .ok spec) :
    Spec.ofJson spec.toJson = .ok spec.asMapping ∧
    (Spec.ofJson spec.toJson = .ok spec ↔ spec.Distinct) ∧
    (spec.asMapping.canonicalText = spec.canonicalText ↔ spec.Distinct) ∧
    Spec.ofJson spec.asMapping.toJson = .ok spec.asMapping := by
  have paired := Spec.ofJson_paired read
  have back := Spec.ofJson_toJson read
  have same := Spec.asMapping_eq_self_iff paired
  refine ⟨back, ?_, ?_, ?_⟩
  · rw [back, Except.ok.injEq, same]
  · exact ⟨Spec.distinct_of_canonicalText paired, fun distinct => by rw [same.mpr distinct]⟩
  · have again := Spec.ofJson_toJson back
    rwa [(Spec.asMapping_eq_self_iff (Spec.ofJson_paired back)).mpr spec.asMapping_distinct] at again

/-- A local column that is related to two remote ones. -/
def repeatedSource : Json :=
  .array [
    .object [("outbound", .object [("remote_schema", .string "s"), ("remote_table", .string "t"),
      ("local_columns", .array [.string "a", .string "a"]),
      ("remote_columns", .array [.string "x", .string "y"])])],
    .string "id"]

def repeatedSpec (localColumns remoteColumns : List String) : Spec where
  steps := [.hop ⟨.outbound, .columns ⟨"s", "t"⟩ localColumns remoteColumns, none⟩]
  column := "id"

theorem written_source_read_back_repeated :
    Spec.ofJson repeatedSource = .ok (repeatedSpec ["a", "a"] ["x", "y"]) ∧
    let spec := repeatedSpec ["a", "a"] ["x", "y"]
    Spec.ofJson spec.toJson = .ok spec.asMapping ∧
    (Spec.ofJson spec.toJson = .ok spec ↔ spec.Distinct) ∧
    (spec.asMapping.canonicalText = spec.canonicalText ↔ spec.Distinct) ∧
    Spec.ofJson spec.asMapping.toJson = .ok spec.asMapping :=
  have read : Spec.ofJson repeatedSource = .ok (repeatedSpec ["a", "a"] ["x", "y"]) := rfl
  ⟨read, written_source_read_back read⟩

/-- The last pair stands for both, and not only the source changes but also its text. -/
theorem repeated_column_lost :
    Spec.ofJson repeatedSource = .ok (repeatedSpec ["a", "a"] ["x", "y"]) ∧
    Spec.ofJson (repeatedSpec ["a", "a"] ["x", "y"]).toJson = .ok (repeatedSpec ["a"] ["y"]) ∧
    repeatedSpec ["a"] ["y"] ≠ repeatedSpec ["a", "a"] ["x", "y"] ∧
    (repeatedSpec ["a"] ["y"]).canonicalText ≠
      (repeatedSpec ["a", "a"] ["x", "y"]).canonicalText := by
  refine ⟨rfl, rfl, by decide, fun same => ?_⟩
  have paired : ∀ step ∈ (repeatedSpec ["a", "a"] ["x", "y"]).steps, step.Paired :=
    List.forall_mem_singleton.mpr rfl
  have distinct := Spec.distinct_of_canonicalText paired same
  exact absurd (List.forall_mem_singleton.mp distinct) (by decide : ¬["a", "a"].Nodup)

end PathQuery.Source
