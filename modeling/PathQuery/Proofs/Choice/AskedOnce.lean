import PathQuery.Proofs.Choice.Batching
import PathQuery.Proofs.Constraint.Clauses
import PathQuery.Proofs.Json.Fields

namespace PathQuery.Choice

/-! # Each choice is asked for once

The filters of some choices, read back one after the other, name their texts: each text once, in
the order in which they first come up, and as many at a time as the limit allows.  A null is not
asked for.
-/

open Reading Constraint

/-- The texts of the values that are not null, each where it first comes up. -/
def choiceTexts (values : List Json) : List String :=
  ((values.filter fun value => !value.isNull).map Json.plainText).eraseDups

theorem choiceTexts_concat (values : List Json) (value : Json) :
    choiceTexts (values ++ [value]) =
      if value.isNull = true ∨ value.plainText ∈ choiceTexts values then choiceTexts values
      else choiceTexts values ++ [value.plainText] := by
  rw [choiceTexts, List.filter_append, List.map_append]
  cases absent : value.isNull with
  | true =>
      rw [if_pos (.inl rfl), List.filter_cons_of_neg (by simp [absent]), List.filter_nil,
        List.map_nil, List.append_nil]
      rfl
  | false =>
      rw [List.filter_cons_of_pos (by simp [absent]), List.filter_nil, List.map_singleton,
        Json.Fields.eraseDups_concat]
      simp only [choiceTexts, List.mem_eraseDups, Bool.false_eq_true, false_or]

/-- The choices that are looked up have the texts of all choices, each text once. -/
theorem texts_distinct {values : List Json} (discrete : ∀ value ∈ values, isDiscrete value = true) :
    (distinct values).map Json.plainText = choiceTexts values := by
  induction values using List.reverseRecOn with
  | nil => rfl
  | append_singleton values value ih =>
      have before := ih fun other member => discrete other (List.mem_append_left _ member)
      have isDiscrete := discrete value (List.mem_append_right _ (List.mem_singleton_self value))
      have known : (value.isNull || (distinct values).any fun choice => sameChoice choice value) =
          true ↔ value.isNull = true ∨ value.plainText ∈ choiceTexts values := by
        simp only [← before, Bool.or_eq_true, List.any_eq_true, sameChoice_iff isDiscrete,
          List.mem_map]
      have step : distinct (values ++ [value]) = addChoice (distinct values) value :=
        List.foldl_concat ..
      rw [choiceTexts_concat, step, addChoice, ← before]
      by_cases old : value.isNull = true ∨ value.plainText ∈ choiceTexts values
      · rw [if_pos (known.mpr old), if_pos (before ▸ old)]
      · rw [if_neg (mt known.mp old), if_neg (before ▸ old), List.map_append, List.map_singleton]

/-- The items are cut into runs, which but for the last one are all of the full size. -/
structure IsCut (size : Nat) (items : List α) (runs : List (List α)) : Prop where
  whole : runs.flatten = items
  bounded : ∀ run ∈ runs, 1 ≤ run.length ∧ run.length ≤ size
  full : ∀ run ∈ runs.dropLast, run.length = size

theorem IsCut.map {size : Nat} {items : List α} {runs : List (List α)} (cut : IsCut size items runs)
    (f : α → β) : IsCut size (items.map f) (runs.map (List.map f)) where
  whole := by rw [← List.map_flatten, cut.whole]
  bounded := by
    rw [List.forall_mem_map]
    simpa only [List.length_map] using cut.bounded
  full := by
    rw [← List.map_dropLast, List.forall_mem_map]
    simpa only [List.length_map] using cut.full

theorem isCut_batches (size : Nat) (choices : List Json) :
    IsCut (max 1 size) choices (batches size choices) := by
  refine ⟨flatten_batches size choices, ?_, ?_⟩
  · induction choices using batches.induct size with
    | case1 => simp [batches]
    | case2 choice later ih =>
        rw [batches, List.forall_mem_cons]
        refine ⟨?_, ih⟩
        rw [List.length_cons, List.length_take]
        omega
  · induction choices using batches.induct size with
    | case1 => simp [batches]
    | case2 choice later ih =>
        rw [batches]
        cases rest : later.drop (size - 1) with
        | nil => simp [batches]
        | cons next others =>
            have more := congrArg List.length rest
            rw [List.length_drop, List.length_cons] at more
            rw [rest, batches] at ih
            rw [batches, List.dropLast_cons_of_ne_nil (List.cons_ne_nil _ _), List.forall_mem_cons]
            refine ⟨?_, ih⟩
            rw [List.length_cons, List.length_take]
            omega

mutual

/-- The values that the formula names, if it says that the column has one of some values and
    nothing else. -/
def namedBy (column : String) : Formula → Option (List String)
  | .comparison single =>
    match single with
    | ⟨.column none name, .equal, some value⟩ => if name = column then some [value] else none
    | _ => none
  | .join .any parts => (namedByEach column parts).map List.flatten
  | .join .all parts =>
    match namedByEach column parts with
    | some [values] => some values
    | _ => none
  | .not _ => none

def namedByEach (column : String) : List Formula → Option (List (List String))
  | [] => some []
  | part :: parts =>
    match namedBy column part, namedByEach column parts with
    | some values, some others => some (values :: others)
    | _, _ => none

end

/-- The values that a filter names, if it is read as the choices of a column and nothing else. -/
def named (column filter : String) : Option (List String) := (read filter).bind (namedBy column)

theorem namedBy_compares (column : Column) (value : String) :
    namedBy column.name (.comparison (compares column .equal value)) = some [value] := by
  rw [compares, namedBy, if_pos rfl]

theorem namedBy_any {column : String} {parts : List Formula} {lists : List (List String)}
    (each : List.Forall₂ (fun part values => namedBy column part = some values) parts lists) :
    namedBy column (.join .any parts) = some lists.flatten := by
  have lists : namedByEach column parts = some lists := by
    induction each with
    | nil => rfl
    | cons first _ ih => rw [namedByEach, first, ih]
  rw [namedBy, lists, Option.map_some]

theorem namedBy_all {column : String} {part : Formula} {values : List String}
    (names : namedBy column part = some values) :
    namedBy column (.join .all [part]) = some values := by
  rw [namedBy, namedByEach, names, namedByEach]

theorem namedBy_each {column : String} {formula : String → Formula} (values : List String)
    (names : ∀ value, namedBy column (formula value) = some [value]) :
    namedBy column (.join .any (values.map formula)) = some values := by
  have each : List.Forall₂ (fun part named => namedBy column part = some named)
      (values.map formula) (values.map fun value => [value]) := by
    rw [List.forall₂_map_left_iff, List.forall₂_map_right_iff, List.forall₂_same]
    exact fun value _ => names value
  rw [namedBy_any each, ← List.flatMap_def, List.flatMap_singleton']

/-- A filter names what its alternatives do. -/
theorem named_of_written {column filter : String} {formulas : List Formula}
    (written : Alternatives 0 filter formulas) :
    named column filter = namedBy column (.join .any formulas) := by
  rw [named, written.read_eq (Nat.zero_le _), Option.bind_some]

/-- What is written for some texts names them, be it as a list or one by one. -/
theorem named_equalClauses (column : Column) {texts : List String} (given : texts ≠ [])
    (quantified : Bool) :
    named column.name (";".intercalate
      (equalClauses (Text.percentEncode column.name) texts quantified)) = some texts := by
  have spelled : ("=", .equal) ∈ spellings := by decide
  have addressable := addressable_column column
  unfold equalClauses
  split
  · have condition : Condition 0 (Text.percentEncode column.name ++ "=" ++
        ("any(" ++ ",".intercalate (texts.map Text.percentEncode) ++ ")"))
        (.join .any (texts.map fun text => .comparison (compares column .equal text))) :=
      Condition.list addressable .any spelled rfl given
    have names := namedBy_all (namedBy_each texts (namedBy_compares column))
    rw [named_of_written (.of_alternatives (List.cons_ne_nil _ []) (.cons (.single condition) .nil)),
      namedBy_any (.cons names .nil), List.flatten_singleton]
  · have each : List.Forall₂ (Alternative 0)
        (texts.map fun text => Text.percentEncode column.name ++ "=" ++ Text.percentEncode text)
        (texts.map fun text => .join .all [.comparison (compares column .equal text)]) := by
      rw [List.forall₂_map_left_iff, List.forall₂_map_right_iff, List.forall₂_same]
      exact fun text _ => Alternative.single (Condition.value addressable text spelled rfl)
    rw [named_of_written (.of_alternatives (by simpa using given) each)]
    exact namedBy_each texts fun text => namedBy_all (namedBy_compares column text)

/-- Choices with different texts, none of which is null. -/
structure IsBatch (batch : List Json) : Prop where
  given : batch ≠ []
  present : ∀ choice ∈ batch, choice.isNull = false
  texts : (batch.map Json.plainText).Nodup

/-- The encoder drops none of the choices of a batch. -/
theorem IsBatch.distinctTexts_eq {batch : List Json} (isBatch : IsBatch batch) :
    distinctTexts batch = (batch.map Json.plainText).map Text.percentEncode := by
  obtain ⟨-, present, texts⟩ := isBatch
  induction batch using List.reverseRecOn with
  | nil => rfl
  | append_singleton batch choice ih =>
      rw [List.map_append, List.map_singleton] at texts ⊢
      obtain ⟨before, -, apart⟩ := List.nodup_append.mp texts
      have earlier := ih (fun other member => present other (List.mem_append_left _ member)) before
      have fresh : encodedText choice ∉ distinctTexts batch := by
        rw [earlier]
        intro known
        obtain ⟨text, isText, same⟩ := List.mem_map.mp known
        exact apart text isText _ (List.mem_singleton_self _) (Text.percentEncode_injective same)
      have notNull := present choice (List.mem_append_right _ (List.mem_singleton_self _))
      rw [List.map_append, List.map_singleton, ← earlier, distinctTexts, List.foldl_concat,
        ← distinctTexts, if_neg (by simp [notNull, fresh])]
      rfl

theorem isBatch_of_mem {values batch : List Json} {limits : Limits}
    (discrete : ∀ value ∈ values, isDiscrete value = true)
    (member : batch ∈ lookedUp limits values) : IsBatch batch := by
  obtain ⟨texts, among, -⟩ := isDistinct_distinct discrete
  have cut := isCut_batches limits.batchSize (distinct values)
  have within : ∀ choice ∈ batch, choice ∈ distinct values := by
    intro choice inBatch
    rw [← cut.whole]
    exact List.mem_flatten.mpr ⟨batch, member, inBatch⟩
  rw [← cut.whole, List.map_flatten, List.nodup_flatten] at texts
  refine ⟨List.length_pos_iff.mp (cut.bounded batch member).1, fun choice inBatch => ?_, ?_⟩
  · exact (among choice (within choice inBatch)).2
  · exact texts.1 _ (List.mem_map_of_mem member)

theorem choicesClause_batch {batch : List Json} (isBatch : IsBatch batch) (column : String)
    (quantified : Bool) :
    choicesClause column batch quantified =
      ";".intercalate (equalClauses column (batch.map Json.plainText) quantified) := by
  have noNull : ¬(batch.any Json.isNull) = true := by
    intro found
    obtain ⟨choice, member, isNull⟩ := List.any_eq_true.mp found
    rw [isBatch.present choice member] at isNull
    contradiction
  rw [choicesClause_eq isBatch.distinctTexts_eq, if_neg noNull, List.append_nil]

/-- What is written for some texts tests for nothing but these. -/
theorem noColon_equalClauses (column : String) (texts : List String) (quantified : Bool) :
    ':' ∉ (";".intercalate
      (equalClauses (Text.percentEncode column) texts quantified)).toList := by
  have encoded : ∀ text, ':' ∉ (Text.percentEncode text).toList := fun text member =>
    absurd (Text.percentEncode_isEncoded member) (by decide)
  have list : ':' ∉ (",".intercalate (texts.map Text.percentEncode)).toList :=
    not_mem_intercalate (by decide) (List.forall_mem_map.mpr fun text _ => encoded text)
  refine not_mem_intercalate (by decide) fun clause listed => ?_
  unfold equalClauses at listed
  split at listed
  · rw [List.mem_singleton.mp listed]
    simp only [String.toList_append, List.mem_append, not_or]
    exact ⟨⟨encoded column, by decide⟩, ⟨by decide, list⟩, by decide⟩
  · obtain ⟨text, -, rfl⟩ := List.mem_map.mp listed
    simp [encoded]

/-- The filters that are built for some choices name consecutive runs of their texts: each text
    once, where it first comes up, and nothing for a null.  No run is empty or longer than the
    limit, and all but the last one are as long as the limit allows. -/
theorem each_choice_asked_once {values : List Json}
    (discrete : ∀ value ∈ values, isDiscrete value = true) (column : Column)
    (capabilities : Capabilities) (limits : Limits) :
    (∃ runs, List.Forall₂ (fun filter run => named column.name filter = some run)
        (filters column capabilities limits values) runs ∧
      IsCut (max 1 limits.batchSize) (choiceTexts values) runs) ∧
    ∀ filter ∈ filters column capabilities limits values,
      ¬"::null::".toList <:+: filter.toList := by
  have written : ∀ batch ∈ lookedUp limits values,
      choicesClause (Text.percentEncode column.name) batch (capabilities column) =
        ";".intercalate (equalClauses (Text.percentEncode column.name) (batch.map Json.plainText)
          (capabilities column)) :=
    fun batch member => choicesClause_batch (isBatch_of_mem discrete member) _ _
  constructor
  · refine ⟨(lookedUp limits values).map (List.map Json.plainText), ?_, ?_⟩
    · rw [filters, ← lookedUp, List.forall₂_map_left_iff, List.forall₂_map_right_iff,
        List.forall₂_same]
      intro batch member
      rw [written batch member]
      exact named_equalClauses column
        (by simpa using (isBatch_of_mem discrete member).given) (capabilities column)
    · rw [← texts_distinct discrete]
      exact (isCut_batches limits.batchSize (distinct values)).map Json.plainText
  · intro filter isFilter null
    obtain ⟨batch, member, rfl⟩ := List.mem_map.mp isFilter
    rw [written batch member] at null
    exact noColon_equalClauses _ _ _ (null.mem (by decide))

namespace Sample

def mixedColumn : Column := ⟨"id", .text, true⟩

/-- Values of several types, with a null and with texts that come up again. -/
def mixed : List Json :=
  [.string "b", .null, .number (.integer 1), .string "1", .bool true, .string "b;c", .string "b"]

end Sample

/-- A limit of zero counts as one, and where lists are taken a run of one is none. -/
theorem each_choice_asked_once_mixed :
    (∀ value ∈ Sample.mixed, isDiscrete value = true) ∧
    choiceTexts Sample.mixed = ["b", "1", "true", "b;c"] ∧
    filters Sample.mixedColumn (fun _ => true) ⟨1, 3⟩ Sample.mixed =
      ["id=any(b,1,true)", "id=b%3Bc"] ∧
    (∃ runs, List.Forall₂ (fun filter run => named "id" filter = some run)
        ["id=any(b,1,true)", "id=b%3Bc"] runs ∧
      IsCut 3 ["b", "1", "true", "b;c"] runs) ∧
    ∃ runs, List.Forall₂ (fun filter run => named "id" filter = some run)
        (filters Sample.mixedColumn (fun _ => false) ⟨1, 0⟩ Sample.mixed) runs ∧
      IsCut 1 ["b", "1", "true", "b;c"] runs := by
  have discrete : ∀ value ∈ Sample.mixed, isDiscrete value = true := by
    simp [Sample.mixed, isDiscrete]
  have texts : choiceTexts Sample.mixed = ["b", "1", "true", "b;c"] := by decide +kernel
  have built : filters Sample.mixedColumn (fun _ => true) ⟨1, 3⟩ Sample.mixed =
      ["id=any(b,1,true)", "id=b%3Bc"] := by decide +kernel
  have listed := (each_choice_asked_once discrete Sample.mixedColumn (fun _ => true) ⟨1, 3⟩).1
  have single := (each_choice_asked_once discrete Sample.mixedColumn (fun _ => false) ⟨1, 0⟩).1
  rw [texts] at listed single
  rw [built] at listed
  exact ⟨discrete, texts, built, listed, single⟩

end PathQuery.Choice
