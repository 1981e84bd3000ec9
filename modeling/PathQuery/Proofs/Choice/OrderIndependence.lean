import PathQuery.Choice.Resolution
import PathQuery.Proofs.Choice.Batching
import PathQuery.Proofs.Choice.Turns

namespace PathQuery.Choice

/-! # Choices under any schedule

The rows of a batch have the texts of its choices, and no other batch has these.  So the row
behind a choice is found among the rows of its own batch, whatever comes before or after
them: the order in which the look-ups are done does not count.
-/

open Pool

variable {column : Column} {capabilities : Capabilities} {limits : Limits} {values : List Json}
  {value : Json} {lookup : String → Reply} {works : List Work} {own work : Work}

/-- The filter that looks up a batch. -/
def batchFilter (column : Column) (capabilities : Capabilities) (batch : List Json) : String :=
  Constraint.choicesClause (Text.percentEncode column.name) batch (capabilities column)

/-- What the look-up of a batch comes to. -/
def batchAnswer (lookup : String → Reply) (column : Column) (capabilities : Capabilities)
    (batch : List Json) : Except String (List Row) :=
  (lookup (batchFilter column capabilities batch)).answer

/-- The rows that are found for a batch have the text of one of its choices. -/
def Faithful (lookup : String → Reply) (column : Column) (capabilities : Capabilities)
    (batches : List (List Json)) : Prop :=
  ∀ batch ∈ batches, ∀ rows, batchAnswer lookup column capabilities batch = .ok rows →
    ∀ row ∈ rows, ∃ found, row.lookup column.name = some found ∧
      found.plainText ∈ batch.map Json.plainText

def hasText (column text : String) (row : Row) : Bool :=
  (row.lookup column).any fun found => found.plainText == text

theorem isRowOf_eq (discrete : isDiscrete value = true) (column : String) :
    isRowOf column value = hasText column value.plainText := by
  funext row
  rw [isRowOf, hasText]
  congr 1
  funext found
  rw [Bool.eq_iff_iff, sameChoice_iff discrete, beq_iff_eq]

theorem mem_works {filters : List String} :
    work ∈ Run.works lookup filters ↔
      ∃ filter, filters[work.batch]? = some filter ∧ work.answer = (lookup filter).answer := by
  simp only [Run.works, List.mem_map, Prod.exists]
  constructor
  · rintro ⟨filter, batch, member, rfl⟩
    exact ⟨filter, List.mem_zipIdx_iff_getElem?.mp member, rfl⟩
  · rintro ⟨filter, isFilter, same⟩
    refine ⟨filter, work.batch, List.mem_zipIdx_iff_getElem?.mpr isFilter, ?_⟩
    rw [← same]

/-- What is found in the rows of one look-up only is found there, whatever their order is. -/
theorem find?_rows {found : Row → Bool} (member : own ∈ works)
    (each : ∀ work ∈ works, work.rows.find? found = none ∨ work.rows = own.rows) :
    (works.flatMap Work.rows).find? found = own.rows.find? found := by
  rw [List.find?_flatMap]
  cases first : works.findSome? fun work => work.rows.find? found with
  | none => exact (List.findSome?_eq_none_iff.mp first own member).symm
  | some row =>
      obtain ⟨work, isWork, isRow⟩ := List.exists_of_findSome?_eq_some first
      obtain absent | same := each work isWork
      · rw [absent] at isRow
        contradiction
      · rw [← same, isRow]

/-- The look-ups of the batches of some values. -/
def batchWorks (lookup : String → Reply) (column : Column) (capabilities : Capabilities)
    (limits : Limits) (values : List Json) : List Work :=
  Run.works lookup (filters column capabilities limits values)

theorem mem_batchWorks :
    work ∈ batchWorks lookup column capabilities limits values ↔
      ∃ batch, (lookedUp limits values)[work.batch]? = some batch ∧
        work.answer = batchAnswer lookup column capabilities batch := by
  have filters : filters column capabilities limits values =
      (lookedUp limits values).map (batchFilter column capabilities) := rfl
  rw [batchWorks, mem_works, filters]
  simp only [List.getElem?_map, Option.map_eq_some_iff]
  constructor
  · rintro ⟨_, ⟨batch, isBatch, rfl⟩, same⟩
    exact ⟨batch, isBatch, same⟩
  · rintro ⟨batch, isBatch, same⟩
    exact ⟨_, ⟨batch, isBatch, rfl⟩, same⟩

theorem rows_eq {rows : List Row} (answered : work.answer = .ok rows) : work.rows = rows := by
  rw [Work.rows, answered]

/-- The look-up of another batch finds no row with a text of this one. -/
theorem find?_other {batch : List Json} {text : String}
    (faithful : Faithful lookup column capabilities (lookedUp limits values))
    (isBatch : batch ∈ lookedUp limits values)
    (answer : work.answer = batchAnswer lookup column capabilities batch)
    (other : text ∉ batch.map Json.plainText) :
    work.rows.find? (hasText column.name text) = none := by
  cases answered : work.answer with
  | error reason =>
      have empty : work.rows = [] := by rw [Work.rows, answered]
      rw [empty, List.find?_nil]
  | ok rows =>
      rw [rows_eq answered, List.find?_eq_none]
      intro row member hasIt
      obtain ⟨found, isFound, inBatch⟩ := faithful batch isBatch rows (answer ▸ answered) row member
      rw [hasText, isFound, Option.any_some, beq_iff_eq] at hasIt
      exact other (hasIt ▸ inBatch)

theorem find?_done (discrete : ∀ value ∈ values, isDiscrete value = true)
    (faithful : Faithful lookup column capabilities (lookedUp limits values))
    {batch : List Json} {rows : List Row} {text : String}
    (isBatch : batch ∈ lookedUp limits values) (inBatch : text ∈ batch.map Json.plainText)
    (answered : batchAnswer lookup column capabilities batch = .ok rows) {done : List Work}
    (all : done.Perm (batchWorks lookup column capabilities limits values)) :
    (done.flatMap Work.rows).find? (hasText column.name text) =
      rows.find? (hasText column.name text) := by
  obtain ⟨index, isIndex⟩ := List.mem_iff_getElem?.mp isBatch
  let own : Work := ⟨index, batchAnswer lookup column capabilities batch⟩
  have member : own ∈ done :=
    all.mem_iff.mpr (mem_batchWorks.mpr ⟨batch, isIndex, rfl⟩)
  have ownRows : own.rows = rows := rows_eq answered
  rw [← ownRows]
  refine find?_rows member fun work isWork => ?_
  obtain ⟨batch', isBatch', answer⟩ := mem_batchWorks.mp (all.mem_iff.mp isWork)
  have listed := List.mem_of_getElem? isBatch'
  by_cases shared : text ∈ batch'.map Json.plainText
  · obtain rfl := batch_unique discrete limits listed isBatch shared inBatch
    refine .inr ?_
    rw [Work.rows, Work.rows, answer]
  · exact .inl (find?_other faithful listed answer shared)

/-- What some values are resolved to by what the look-ups came to. -/
def assigned (column : Column) (values : List Json) :
    Except Failure (List Row) → Except Failure (List Resolved)
  | .ok rows => .ok (values.map (assign column.name rows))
  | .error failure => .error failure

theorem resolve_result : (resolve lookup column capabilities limits values).result =
    assigned column values (Run.outcome (Run.ofFilters (max 1 limits.concurrent) lookup
      (filters column capabilities limits values))) := by
  rw [resolve]
  obtain ⟨run, failure | _⟩ := Run.ofFilters (max 1 limits.concurrent) lookup
    (filters column capabilities limits values)
  · rfl
  · rfl

/-- Every schedule comes to an end and the values are resolved as wanted, whichever steps lead
    there, and so they are where the look-ups take turns. -/
structure Resolves (lookup : String → Reply) (column : Column) (capabilities : Capabilities)
    (limits : Limits) (values : List Json) (wanted : Except Failure (List Resolved) → Prop) :
    Prop where
  schedules : Ensures (max 1 limits.concurrent)
    (fun outcome => wanted (assigned column values outcome))
    ⟨batchWorks lookup column capabilities limits values, 0, []⟩
  each : ∀ pool outcome, Relation.ReflTransGen (Step (max 1 limits.concurrent))
      ⟨batchWorks lookup column capabilities limits values, 0, []⟩ pool →
    Ends pool outcome → wanted (assigned column values outcome)
  turns : wanted (resolve lookup column capabilities limits values).result

theorem Resolves.of_outcomes {wanted : Except Failure (List Resolved) → Prop}
    (each : ∀ outcome, IsOutcome (batchWorks lookup column capabilities limits values) outcome →
      wanted (assigned column values outcome)) :
    Resolves lookup column capabilities limits values wanted := by
  have positive : 0 < max 1 limits.concurrent := by omega
  have ensures := (ensures_outcome positive
    (batchWorks lookup column capabilities limits values)).mono each
  refine ⟨ensures, fun _ _ => ensures.of_schedule, ?_⟩
  rw [resolve_result]
  exact Run.ofFilters_ensured positive ensures

/-- A null has no row, and any other choice the first row with its text among those that were
    found for its batch. -/
structure Resolved.IsOwn (lookup : String → Reply) (column : Column) (capabilities : Capabilities)
    (batches : List (List Json)) (resolved : Resolved) : Prop where
  null : resolved.value.isNull = true → resolved.row = none
  present : resolved.value.isNull = false → ∃ batch ∈ batches, ∃ rows,
    resolved.value.plainText ∈ batch.map Json.plainText ∧
    batchAnswer lookup column capabilities batch = .ok rows ∧
    resolved.row = rows.find? (hasText column.name resolved.value.plainText)

section Batches

variable (discrete : ∀ value ∈ values, isDiscrete value = true)
  (faithful : Faithful lookup column capabilities (lookedUp limits values))
  (succeed : ∀ batch ∈ lookedUp limits values, ∃ rows,
    batchAnswer lookup column capabilities batch = .ok rows)

include discrete faithful succeed in
/-- The row behind a choice is that of its batch, in whatever order the look-ups are done. -/
theorem find?_value (member : value ∈ values) (present : value.isNull = false) :
    ∃ batch ∈ lookedUp limits values, ∃ rows, value.plainText ∈ batch.map Json.plainText ∧
      batchAnswer lookup column capabilities batch = .ok rows ∧
      ∀ done : List Work, done.Perm (batchWorks lookup column capabilities limits values) →
        (done.flatMap Work.rows).find? (isRowOf column.name value) =
          rows.find? (hasText column.name value.plainText) := by
  obtain ⟨batch, isBatch, inBatch⟩ := exists_batch discrete limits member present
  obtain ⟨rows, answered⟩ := succeed batch isBatch
  refine ⟨batch, isBatch, rows, inBatch, answered, fun done all => ?_⟩
  rw [isRowOf_eq (discrete value member)]
  exact find?_done discrete faithful isBatch inBatch answered all

include discrete faithful succeed in
theorem exists_resolved :
    ∃ entries : List Resolved, entries.map Resolved.value = values ∧
      (∀ entry ∈ entries, entry.IsOwn lookup column capabilities (lookedUp limits values)) ∧
      Resolves lookup column capabilities limits values fun result => result = .ok entries := by
  let works := batchWorks lookup column capabilities limits values
  refine ⟨values.map (assign column.name (works.flatMap Work.rows)), ?_, ?_, .of_outcomes ?_⟩
  · rw [List.map_map]
    exact List.map_id'' (fun _ => rfl) values
  · intro entry member
    obtain ⟨value, isValue, rfl⟩ := List.mem_map.mp member
    refine ⟨fun null => if_pos null, fun present => ?_⟩
    obtain ⟨batch, isBatch, rows, inBatch, answered, same⟩ :=
      find?_value discrete faithful succeed isValue present
    refine ⟨batch, isBatch, rows, inBatch, answered, ?_⟩
    exact (if_neg (Bool.eq_false_iff.mp present)).trans (same works (.refl works))
  · rintro _ (@⟨done, all, -⟩ | @⟨work, reason, member, fails⟩)
    · refine congrArg Except.ok (List.map_congr_left fun value member => ?_)
      rw [assign, assign]
      cases null : value.isNull with
      | true => rfl
      | false =>
          obtain ⟨_, -, _, -, -, same⟩ := find?_value discrete faithful succeed member null
          rw [same done all, same works (.refl works)]
    · obtain ⟨batch, isBatch, answer⟩ := mem_batchWorks.mp member
      obtain ⟨rows, answered⟩ := succeed batch (List.mem_of_getElem? isBatch)
      rw [answer, answered] at fails
      contradiction

end Batches

/-- Where a look-up fails there is no result, but an error that names such a look-up. -/
theorem resolves_error {batch : List Json} {reason : String}
    (isBatch : batch ∈ lookedUp limits values)
    (failed : batchAnswer lookup column capabilities batch = .error reason) :
    Resolves lookup column capabilities limits values fun result =>
      ∃ failure batch, result = .error failure ∧
        (lookedUp limits values)[failure.batch]? = some batch ∧
        batchAnswer lookup column capabilities batch = .error failure.reason := by
  refine .of_outcomes ?_
  rintro _ (@⟨done, all, succeeded⟩ | @⟨work, reason, member, fails⟩)
  · obtain ⟨index, isIndex⟩ := List.mem_iff_getElem?.mp isBatch
    obtain ⟨rows, answered⟩ := succeeded ⟨index, batchAnswer lookup column capabilities batch⟩
      (all.mem_iff.mpr (mem_batchWorks.mpr ⟨batch, isIndex, rfl⟩))
    rw [failed] at answered
    contradiction
  · obtain ⟨other, isOther, answer⟩ := mem_batchWorks.mp member
    exact ⟨_, other, rfl, isOther, answer ▸ fails⟩

/-- If no look-up fails, the choices are resolved in the same way under every schedule.  Else
    there is an error under every schedule, which names a batch whose look-up failed. -/
theorem choices_resolved_under_every_schedule (lookup : String → Reply) (column : Column)
    (capabilities : Capabilities) (limits : Limits) (values : List Json)
    (discrete : ∀ value ∈ values, isDiscrete value = true)
    (faithful : Faithful lookup column capabilities (lookedUp limits values)) :
    ((∀ batch ∈ lookedUp limits values, ∃ rows,
        batchAnswer lookup column capabilities batch = .ok rows) →
      ∃ entries : List Resolved, entries.map Resolved.value = values ∧
        (∀ entry ∈ entries, entry.IsOwn lookup column capabilities (lookedUp limits values)) ∧
        Resolves lookup column capabilities limits values fun result => result = .ok entries) ∧
    ((∃ batch ∈ lookedUp limits values, ∃ reason,
        batchAnswer lookup column capabilities batch = .error reason) →
      Resolves lookup column capabilities limits values fun result =>
        ∃ failure batch, result = .error failure ∧
          (lookedUp limits values)[failure.batch]? = some batch ∧
          batchAnswer lookup column capabilities batch = .error failure.reason) := by
  constructor
  · exact exists_resolved discrete faithful
  · rintro ⟨batch, isBatch, reason, failed⟩
    exact resolves_error isBatch failed

/-! Two batches of one choice each, the second of which is answered first. -/

namespace Sample

def idColumn : Column := ⟨"id", .text, true⟩

def oneEach : Limits := ⟨2, 1⟩

def repeated : List Json := [.string "b", .null, .number (.integer 1), .string "1"]

def row (text : String) : Row := [("id", .string text)]

def answering (second : Except String (List Row)) (filter : String) : Reply :=
  if filter = "id=b" then ⟨1, .ok [row "b"]⟩ else ⟨0, second⟩

theorem lookedUp_repeated :
    lookedUp oneEach repeated = [[.string "b"], [.number (.integer 1)]] := by
  have once : distinct repeated = [.string "b", .number (.integer 1)] := by
    have one : Int.repr 1 = "1" := by decide
    simp [distinct, repeated, addChoice, sameChoice, Json.sameValue, Json.isNull, Json.plainText,
      Json.text, Json.Number.text, one]
  rw [lookedUp, once]
  simp [batches, oneEach]

theorem batchAnswer_first (second : Except String (List Row)) :
    batchAnswer (answering second) idColumn (fun _ => false) [.string "b"] = .ok [row "b"] := by
  have filter : batchFilter idColumn (fun _ => false) [.string "b"] = "id=b" := by decide +kernel
  rw [batchAnswer, filter, answering, if_pos rfl]

theorem batchAnswer_second (second : Except String (List Row)) :
    batchAnswer (answering second) idColumn (fun _ => false) [.number (.integer 1)] = second := by
  have filter : batchFilter idColumn (fun _ => false) [.number (.integer 1)] = "id=1" := by
    decide +kernel
  rw [batchAnswer, filter, answering, if_neg (by decide)]

theorem faithful_answering {second : Except String (List Row)}
    (faithful : ∀ rows, second = .ok rows → rows = [row "1"]) :
    Faithful (answering second) idColumn (fun _ => false) (lookedUp oneEach repeated) := by
  rw [lookedUp_repeated]
  intro batch isBatch rows answered found isRow
  simp only [List.mem_cons, List.not_mem_nil, or_false] at isBatch
  obtain rfl | rfl := isBatch
  · rw [batchAnswer_first] at answered
    cases answered
    rw [List.mem_singleton.mp isRow]
    exact ⟨.string "b", rfl, List.mem_cons_self⟩
  · rw [batchAnswer_second] at answered
    rw [faithful rows answered] at isRow
    rw [List.mem_singleton.mp isRow]
    exact ⟨.string "1", rfl, by decide⟩

end Sample

theorem choices_resolved_under_every_schedule_repeated :
    (∃ entries : List Resolved, entries.map Resolved.value = Sample.repeated ∧
      (∀ entry ∈ entries, entry.IsOwn (Sample.answering (.ok [Sample.row "1"])) Sample.idColumn
        (fun _ => false) [[.string "b"], [.number (.integer 1)]]) ∧
      Resolves (Sample.answering (.ok [Sample.row "1"])) Sample.idColumn (fun _ => false)
        Sample.oneEach Sample.repeated fun result => result = .ok entries) ∧
    Resolves (Sample.answering (.error "gone")) Sample.idColumn (fun _ => false) Sample.oneEach
      Sample.repeated fun result => ∃ failure batch, result = .error failure ∧
        [[Json.string "b"], [.number (.integer 1)]][failure.batch]? = some batch ∧
        batchAnswer (Sample.answering (.error "gone")) Sample.idColumn (fun _ => false) batch =
          .error failure.reason := by
  have discrete : ∀ value ∈ Sample.repeated, isDiscrete value = true := by
    simp [Sample.repeated, isDiscrete]
  constructor
  · obtain ⟨resolved, -⟩ := choices_resolved_under_every_schedule
      (Sample.answering (.ok [Sample.row "1"])) Sample.idColumn (fun _ => false) Sample.oneEach
      Sample.repeated discrete (Sample.faithful_answering fun rows same => Except.ok.inj same.symm)
    rw [Sample.lookedUp_repeated] at resolved
    refine resolved fun batch isBatch => ?_
    simp only [List.mem_cons, List.not_mem_nil, or_false] at isBatch
    obtain rfl | rfl := isBatch
    · exact ⟨_, Sample.batchAnswer_first _⟩
    · exact ⟨_, Sample.batchAnswer_second _⟩
  · obtain ⟨-, failed⟩ := choices_resolved_under_every_schedule
      (Sample.answering (.error "gone")) Sample.idColumn (fun _ => false) Sample.oneEach
      Sample.repeated discrete (Sample.faithful_answering nofun)
    rw [Sample.lookedUp_repeated] at failed
    exact failed ⟨_, List.mem_cons_of_mem _ List.mem_cons_self, "gone", Sample.batchAnswer_second _⟩

end PathQuery.Choice
