import PathQuery.Proofs.Filter.Grammar
import PathQuery.Proofs.Source.CanonicalIdentity

namespace PathQuery.Source

open Json

/-! # Which values declare a source

A source is declared by a column name, or by an array of steps that ends in one.  A step is an
object of one kind: a sourcekey, a filter or a hop in one direction.  The reader looks for the
kinds in this order and keeps the first one that it finds, so it takes more than that: what an
object declares besides a sourcekey or besides a filter is dropped.  Only the two directions
exclude each other.
-/

variable {fields : Json.Fields} {value : Json}

/-- The object pairs columns, by a mapping or else by two lists. -/
inductive PairsColumns (fields : Json.Fields) : Prop
  | mapping {pairs : List (String × String)}
      (found : fields.lookup columnMappingKey =
        some (.object (pairs.map fun pair => (pair.1, .string pair.2))))
      (nonempty : pairs ≠ [])
  | lists {localColumns remoteColumns : List String}
      (noMapping : fields.lookup columnMappingKey = none)
      (isLocal : fields.lookup localColumnsKey = some (.array (localColumns.map .string)))
      (isRemote : fields.lookup remoteColumnsKey = some (.array (remoteColumns.map .string)))
      (nonempty : localColumns ≠ []) (even : localColumns.length = remoteColumns.length)

/-- The value names a foreign key. -/
inductive NamesTarget : Json → Prop
  | constraint (schema name : String) : NamesTarget (.array [.string schema, .string name])
  | columns {fields : Json.Fields} (schema : fields.Has remoteSchemaKey IsText)
      (table : fields.Has remoteTableKey IsText) (columns : PairsColumns fields) :
      NamesTarget (.object fields)

theorem readText_isOk {key : String} :
    (∃ text, readText fields key = .ok text) ↔ fields.Has key IsText := by
  unfold readText Fields.Has
  cases found : fields.lookup key with
  | none => simp
  | some value => cases value <;> simp [IsText]

theorem readStrings_eq_ok {key : String} {items : List Json} {texts : List String} :
    readStrings key items = .ok texts ↔ items = texts.map .string := by
  induction items generalizing texts with
  | nil => cases texts <;> simp [readStrings]
  | cons item items ih =>
      cases item with
      | string text =>
          rw [readStrings, bind_eq_ok]
          constructor
          · rintro ⟨later, isLater, same⟩
            cases same
            rw [ih.mp isLater, List.map_cons]
          · intro same
            obtain ⟨first, later, rfl, isFirst, isLater⟩ := List.map_eq_cons_iff.mp same.symm
            cases isFirst
            exact ⟨later, ih.mpr isLater.symm, rfl⟩
      | _ => cases texts <;> simp [readStrings]

theorem readColumnList_eq_ok {key : String} {texts : List String} :
    readColumnList fields key = .ok texts ↔
      fields.lookup key = some (.array (texts.map .string)) := by
  unfold readColumnList
  cases found : fields.lookup key with
  | none => simp
  | some value => cases value <;> simp [readStrings_eq_ok]

theorem readMapping_eq_ok {mapping : Json.Fields} {pairs : List (String × String)} :
    readMapping mapping = .ok pairs ↔
      mapping = pairs.map fun pair => (pair.1, .string pair.2) := by
  induction mapping generalizing pairs with
  | nil => cases pairs <;> simp [readMapping]
  | cons field mapping ih =>
      obtain ⟨column, value⟩ := field
      cases value with
      | string remote =>
          rw [readMapping, bind_eq_ok]
          constructor
          · rintro ⟨later, isLater, same⟩
            cases same
            rw [ih.mp isLater, List.map_cons]
          · intro same
            obtain ⟨first, later, rfl, isFirst, isLater⟩ := List.map_eq_cons_iff.mp same.symm
            cases isFirst
            exact ⟨later, ih.mpr isLater.symm, rfl⟩
      | _ => cases pairs <;> simp [readMapping]

theorem readColumns_eq_ok {columns : List String × List String} :
    readColumns fields = .ok columns ↔
      (∃ pairs : List (String × String), fields.lookup columnMappingKey =
          some (.object (pairs.map fun pair => (pair.1, .string pair.2))) ∧
        pairs.unzip = columns) ∨
      (fields.lookup columnMappingKey = none ∧
        fields.lookup localColumnsKey = some (.array (columns.1.map .string)) ∧
        fields.lookup remoteColumnsKey = some (.array (columns.2.map .string))) := by
  unfold readColumns
  cases found : fields.lookup columnMappingKey with
  | none =>
      simp only [bind_eq_ok, readColumnList_eq_ok, reduceCtorEq, false_and, exists_false, false_or,
        true_and]
      constructor
      · rintro ⟨localColumns, isLocal, remoteColumns, isRemote, same⟩
        cases same
        exact ⟨isLocal, isRemote⟩
      · rintro ⟨isLocal, isRemote⟩
        exact ⟨_, isLocal, _, isRemote, rfl⟩
  | some value =>
      cases value with
      | object mapping =>
          simp only [bind_eq_ok, readMapping_eq_ok, Option.some.injEq, Json.object.injEq,
            reduceCtorEq, false_and, or_false]
          constructor
          · rintro ⟨pairs, isMapping, same⟩
            exact ⟨pairs, isMapping, Except.ok.inj same⟩
          · rintro ⟨pairs, isMapping, same⟩
            exact ⟨pairs, isMapping, congrArg Except.ok same⟩
      | _ => simp

theorem pairsColumns_iff : PairsColumns fields ↔ ∃ columns, readColumns fields = .ok columns ∧
    columns.1 ≠ [] ∧ columns.1.length = columns.2.length := by
  simp only [readColumns_eq_ok]
  constructor
  · rintro (⟨found, nonempty⟩ | ⟨noMapping, isLocal, isRemote, nonempty, even⟩)
    · exact ⟨_, .inl ⟨_, found, rfl⟩, by simpa using nonempty, by simp⟩
    · exact ⟨(_, _), .inr ⟨noMapping, isLocal, isRemote⟩, nonempty, even⟩
  · rintro ⟨columns, ⟨pairs, found, rfl⟩ | ⟨noMapping, isLocal, isRemote⟩, nonempty, even⟩
    · exact .mapping found (by simpa using nonempty)
    · exact .lists noMapping isLocal isRemote nonempty even

theorem readColumnTarget_eq_ok {target : HopTarget} : readColumnTarget fields = .ok target ↔
    ∃ schema table columns, readText fields remoteSchemaKey = .ok schema ∧
      readText fields remoteTableKey = .ok table ∧ readColumns fields = .ok columns ∧
      columns.1 ≠ [] ∧ columns.1.length = columns.2.length ∧
      target = .columns ⟨schema, table⟩ columns.1 columns.2 := by
  unfold readColumnTarget
  constructor
  · intro read
    obtain ⟨schema, isSchema, read⟩ := bind_eq_ok.mp read
    obtain ⟨table, isTable, read⟩ := bind_eq_ok.mp read
    obtain ⟨⟨localColumns, remoteColumns⟩, areColumns, read⟩ := bind_eq_ok.mp read
    dsimp only at read
    split at read
    · contradiction
    · rename_i uneven
      obtain ⟨nonempty, even⟩ : localColumns ≠ [] ∧ localColumns.length = remoteColumns.length := by
        simpa using uneven
      exact ⟨schema, table, _, isSchema, isTable, areColumns, nonempty, even,
        (Except.ok.inj read).symm⟩
  · rintro ⟨schema, table, columns, isSchema, isTable, areColumns, nonempty, even, rfl⟩
    have paired : (columns.1.isEmpty || decide (columns.1.length ≠ columns.2.length)) = false := by
      simpa using ⟨nonempty, even⟩
    rw [isSchema, isTable, areColumns]
    simp only [ok_bind, paired]
    rfl

theorem readColumnTarget_isOk : (∃ target, readColumnTarget fields = .ok target) ↔
    fields.Has remoteSchemaKey IsText ∧ fields.Has remoteTableKey IsText ∧
      PairsColumns fields := by
  simp only [← readText_isOk, pairsColumns_iff, readColumnTarget_eq_ok]
  constructor
  · rintro ⟨_, schema, table, columns, isSchema, isTable, areColumns, nonempty, even, rfl⟩
    exact ⟨⟨schema, isSchema⟩, ⟨table, isTable⟩, columns, areColumns, nonempty, even⟩
  · rintro ⟨⟨schema, isSchema⟩, ⟨table, isTable⟩, columns, areColumns, nonempty, even⟩
    exact ⟨_, schema, table, columns, isSchema, isTable, areColumns, nonempty, even, rfl⟩

theorem readTarget_cases {target : HopTarget} (read : readTarget value = .ok target) :
    (∃ schema name, value = .array [.string schema, .string name] ∧
      target = .constraint schema name) ∨
    ∃ fields, value = .object fields ∧ readColumnTarget fields = .ok target := by
  unfold readTarget at read
  split at read
  · cases read
    exact .inl ⟨_, _, rfl, rfl⟩
  · contradiction
  · exact .inr ⟨_, rfl, read⟩
  · contradiction

theorem readTarget_isOk : (∃ target, readTarget value = .ok target) ↔ NamesTarget value := by
  constructor
  · rintro ⟨target, read⟩
    obtain ⟨schema, name, rfl, -⟩ | ⟨fields, rfl, read⟩ := readTarget_cases read
    · exact .constraint schema name
    · obtain ⟨schema, table, columns⟩ := readColumnTarget_isOk.mp ⟨target, read⟩
      exact .columns schema table columns
  · intro names
    cases names with
    | constraint schema name => exact ⟨_, rfl⟩
    | columns schema table columns => exact readColumnTarget_isOk.mpr ⟨schema, table, columns⟩

inductive StepKind where
  | sourcekey
  | filter
  | hop (direction : Direction)
  deriving DecidableEq

namespace StepKind

/-- The kinds in the order in which they are looked for. -/
def all : List StepKind := [sourcekey, filter, hop .outbound, hop .inbound]

/-- The keys that declare a step of the kind. -/
def keys : StepKind → List String
  | sourcekey => [sourcekeyKey]
  | filter => Filter.kindKeys
  | hop direction => [direction.text]

def carriedBy (fields : Json.Fields) (kind : StepKind) : Bool := kind.keys.any fields.contains

end StepKind

/-- The kinds of step that an object declares. -/
def kindsOf (fields : Json.Fields) : List StepKind :=
  StepKind.all.filter (StepKind.carriedBy fields)

/-- The object is a step of the kind, whatever else it declares. -/
def WellFormed (fields : Json.Fields) : StepKind → Prop
  | .sourcekey => fields.Has sourcekeyKey IsText
  | .filter => Filter.DeclaresTree (.object fields)
  | .hop direction => fields.Has direction.text NamesTarget ∧ fields.MayHave aliasKey IsText

def Step.kind : Step → StepKind
  | sourcekey _ => .sourcekey
  | filter _ => .filter
  | hop step => .hop step.direction

/-- The step is an object of one kind. -/
inductive OneKind : Json → Prop
  | intro {fields : Json.Fields} {kind : StepKind} (only : kindsOf fields = [kind])
      (formed : WellFormed fields kind) : OneKind (.object fields)

/-- The step is an object that is well formed as the first kind that it declares.  It does not
    declare both directions and nothing else. -/
inductive Taken : Json → Prop
  | intro {fields : Json.Fields} {kind : StepKind} {others : List StepKind}
      (first : kindsOf fields = kind :: others) (formed : WellFormed fields kind)
      (oneWay : kindsOf fields ≠ [.hop .outbound, .hop .inbound]) : Taken (.object fields)

theorem readAlias_isOk :
    (∃ aliasName, readAlias fields = .ok aliasName) ↔ fields.MayHave aliasKey IsText := by
  unfold readAlias
  cases found : fields.lookup aliasKey with
  | none => exact iff_of_true ⟨none, rfl⟩ (Fields.mayHave_of_none found)
  | some value =>
      rw [Fields.mayHave_iff found]
      cases value <;> simp [IsText]

/-- Read an object as a step of the kind, whatever else it declares. -/
def StepKind.read (fields : Json.Fields) : StepKind → Except SpecError Step
  | sourcekey =>
    match fields.lookup sourcekeyKey with
    | some (.string key) => .ok (.sourcekey key)
    | _ => .error (.invalidShape .sourcekeyNotText)
  | filter =>
    match Filter.Tree.ofJson (.object fields) with
    | .ok tree => .ok (.filter tree)
    | .error error => .error (.filter error)
  | hop direction =>
    match fields.lookup direction.text with
    | some target => readHop fields direction target
    | none => .error (.invalidShape (.missingAttribute direction.text))

theorem readHop_isOk {direction : Direction} {target : Json} :
    (∃ step, readHop fields direction target = .ok step) ↔
      NamesTarget target ∧ fields.MayHave aliasKey IsText := by
  rw [← readTarget_isOk, ← readAlias_isOk]
  unfold readHop
  cases readAlias fields with
  | error error => simp
  | ok aliasName => cases readTarget target <;> simp [pure, Except.pure]

theorem StepKind.read_isOk {kind : StepKind} :
    (∃ step, kind.read fields = .ok step) ↔ WellFormed fields kind := by
  unfold StepKind.read WellFormed
  cases kind with
  | sourcekey =>
      unfold Fields.Has
      cases found : fields.lookup sourcekeyKey with
      | none => simp
      | some value => cases value <;> simp [IsText]
  | filter =>
      rw [← Filter.ofJson_isOk]
      cases Filter.Tree.ofJson (.object fields) <;> simp
  | hop direction =>
      unfold Fields.Has
      cases found : fields.lookup direction.text with
      | none => simp [found]
      | some target => simp [found, readHop_isOk]

theorem StepKind.kind_of_read {kind : StepKind} {step : Step} (read : kind.read fields = .ok step) :
    step.kind = kind := by
  unfold StepKind.read at read
  split at read
  all_goals split at read
  · cases read
    rfl
  · contradiction
  · cases read
    rfl
  · contradiction
  · obtain ⟨aliasName, -, read⟩ := bind_eq_ok.mp read
    obtain ⟨target, -, read⟩ := bind_eq_ok.mp read
    cases read
    rfl
  · contradiction

/-- A step is read as the first kind that the object declares. -/
theorem Step.ofJson_object (fields : Json.Fields) : Step.ofJson (.object fields) =
    match kindsOf fields with
    | [] | [.hop .outbound, .hop .inbound] =>
      .error (.invalidShape (.notOneKindOfStep (.object fields)))
    | kind :: _ => kind.read fields := by
  have isFilter : StepKind.carriedBy fields .filter = Filter.isDeclaredBy fields := rfl
  have isSourcekey : StepKind.carriedBy fields .sourcekey =
      (fields.lookup sourcekeyKey).isSome := by
    simp [StepKind.carriedBy, StepKind.keys, Fields.contains]
  have isHop : ∀ direction : Direction, StepKind.carriedBy fields (.hop direction) =
      (fields.lookup direction.text).isSome := by
    simp [StepKind.carriedBy, StepKind.keys, Fields.contains]
  unfold Step.ofJson kindsOf StepKind.all
  cases sourcekey : fields.lookup sourcekeyKey with
  | some value =>
      rw [List.filter_cons_of_pos (by rw [isSourcekey, sourcekey]; rfl)]
      cases value <;> simp [StepKind.read, sourcekey]
  | none =>
      rw [List.filter_cons_of_neg (by rw [isSourcekey, sourcekey]; decide)]
      cases filter : Filter.isDeclaredBy fields with
      | true =>
          rw [List.filter_cons_of_pos (by rw [isFilter, filter])]
          cases tree : Filter.Tree.ofJson (.object fields) <;>
            simp [StepKind.read, sourcekey, filter, tree]
      | false =>
          rw [List.filter_cons_of_neg (by rw [isFilter, filter]; decide)]
          cases outbound : fields.lookup Direction.outbound.text <;>
            cases inbound : fields.lookup Direction.inbound.text <;>
              simp [isHop, sourcekey, filter, outbound, inbound, StepKind.read]

theorem Step.ofJson_eq_ok {step : Step} : Step.ofJson value = .ok step ↔
    ∃ fields others, value = .object fields ∧ kindsOf fields = step.kind :: others ∧
      kindsOf fields ≠ [.hop .outbound, .hop .inbound] ∧ step.kind.read fields = .ok step := by
  cases value with
  | object fields =>
      rw [ofJson_object]
      constructor
      · intro read
        split at read
        · contradiction
        · contradiction
        · rename_i kind others other kinds
          obtain rfl := StepKind.kind_of_read read
          exact ⟨fields, others, rfl, kinds, by rw [kinds]; simpa using other, read⟩
      · rintro ⟨_, others, same, kinds, oneWay, read⟩
        cases same
        rw [kinds] at oneWay ⊢
        split
        · contradiction
        · contradiction
        · rename_i same
          cases same
          exact read
  | _ => simp [Step.ofJson]

theorem Step.ofJson_isOk : (∃ step, Step.ofJson value = .ok step) ↔ Taken value := by
  constructor
  · rintro ⟨step, read⟩
    obtain ⟨fields, others, rfl, first, oneWay, read⟩ := Step.ofJson_eq_ok.mp read
    exact .intro first (StepKind.read_isOk.mp ⟨step, read⟩) oneWay
  · intro taken
    cases taken with
    | intro first formed oneWay =>
        obtain ⟨step, read⟩ := StepKind.read_isOk.mpr formed
        obtain rfl := StepKind.kind_of_read read
        exact ⟨step, Step.ofJson_eq_ok.mpr ⟨_, _, rfl, first, oneWay, read⟩⟩

theorem oneKind_iff : OneKind value ↔
    Taken value ∧ ∀ fields, value = .object fields → (kindsOf fields).length = 1 := by
  constructor
  · intro one
    cases one with
    | intro only formed =>
        refine ⟨.intro only formed ?_, ?_⟩
        · rw [only]
          simp
        · rintro _ ⟨⟩
          rw [only]
          rfl
  · rintro ⟨taken, one⟩
    cases taken with
    | intro first formed oneWay =>
        have length := one _ rfl
        rw [first] at length
        obtain rfl := List.eq_nil_of_length_eq_zero (Nat.succ.inj length)
        exact .intro first formed

namespace StepKind

variable {kind other : StepKind} {others : List StepKind} {key : String}

/-- The keys that count in a step of the kind. -/
def ownKeys : StepKind → List String
  | sourcekey => [sourcekeyKey]
  | filter => Filter.ownKeys
  | hop direction => [direction.text, aliasKey]

theorem keys_subset (kind : StepKind) : kind.keys ⊆ kind.ownKeys := by
  rcases kind with _ | _ | _ | _ <;> decide

/-- What declares a step of one kind counts in no step of another. -/
theorem eq_of_key (own : key ∈ kind.ownKeys) (ofOther : key ∈ other.keys) : kind = other := by
  have apart : ∀ kind ∈ all, ∀ other ∈ all, ∀ key ∈ kind.ownKeys, key ∈ other.keys →
      kind = other := by
    decide
  have isKind : ∀ kind : StepKind, kind ∈ all := by
    intro kind
    rcases kind with _ | _ | _ | _ <;> decide
  exact apart kind (isKind kind) other (isKind other) key own ofOther

theorem ownKeys_kept (apart : kind ∉ others) (own : key ∈ kind.ownKeys) :
    key ∉ others.flatMap keys := by
  intro dropped
  obtain ⟨other, isOther, ofOther⟩ := List.mem_flatMap.mp dropped
  exact apart (eq_of_key own ofOther ▸ isOther)

theorem read_congr {fields' : Json.Fields}
    (same : ∀ key ∈ kind.ownKeys, fields.lookup key = fields'.lookup key) :
    kind.read fields = kind.read fields' := by
  cases kind with
  | sourcekey => rw [read, read, same sourcekeyKey (by decide)]
  | filter => rw [read, read, Filter.ofJson_congr same]
  | hop direction =>
      have named : readAlias fields = readAlias fields' := by
        rw [readAlias, readAlias, same aliasKey (by simp [ownKeys])]
      rw [read, read, same direction.text (by simp [ownKeys])]
      simp only [readHop, named]

theorem read_without (apart : kind ∉ others) :
    kind.read (fields.without (others.flatMap keys)) = kind.read fields :=
  read_congr fun _ own => Fields.lookup_without_of_not_mem (ownKeys_kept apart own)

theorem carriedBy_without : carriedBy (fields.without (others.flatMap keys)) kind =
    (decide (kind ∉ others) && carriedBy fields kind) := by
  unfold carriedBy
  by_cases isOther : kind ∈ others
  · have absent : ∀ key ∈ kind.keys, (fields.without (others.flatMap keys)).contains key = false :=
      fun key own => Fields.contains_without_of_mem (List.mem_flatMap.mpr ⟨kind, isOther, own⟩)
    simpa [isOther] using absent
  · have kept : ∀ key ∈ kind.keys,
        (fields.without (others.flatMap keys)).contains key = fields.contains key := by
      intro key own
      rw [Fields.contains, Fields.contains,
        Fields.lookup_without_of_not_mem (ownKeys_kept isOther (kind.keys_subset own))]
    rw [Bool.eq_iff_iff, Bool.and_eq_true, decide_eq_true_iff, and_iff_right isOther,
      List.any_eq_true, List.any_eq_true]
    exact exists_congr fun key => and_congr_right fun own => by rw [kept key own]

end StepKind

theorem first_apart {kind : StepKind} {others : List StepKind}
    (kinds : kindsOf fields = kind :: others) : kind ∉ others := by
  have distinct : (kindsOf fields).Nodup := List.Nodup.filter _ (by decide)
  rw [kinds] at distinct
  exact (List.nodup_cons.mp distinct).1

theorem kindsOf_without {kind : StepKind} {others : List StepKind}
    (kinds : kindsOf fields = kind :: others) :
    kindsOf (fields.without (others.flatMap StepKind.keys)) = [kind] := by
  have others_dropped : others.filter (fun kind => decide (kind ∉ others)) = [] :=
    List.filter_eq_nil_iff.mpr fun other isOther kept => of_decide_eq_true kept isOther
  calc kindsOf (fields.without (others.flatMap StepKind.keys))
      = StepKind.all.filter (fun kind => decide (kind ∉ others) && kind.carriedBy fields) :=
        List.filter_congr fun _ _ => StepKind.carriedBy_without
    _ = (kindsOf fields).filter fun kind => decide (kind ∉ others) := (List.filter_filter ..).symm
    _ = [kind] := by
        rw [kinds, List.filter_cons_of_pos (by simpa using first_apart kinds), others_dropped]

/-- The object declares the same step without the kinds that it declares besides the first one. -/
theorem Step.ofJson_without {others : List StepKind} {step : Step}
    (kinds : kindsOf fields = step.kind :: others)
    (read : Step.ofJson (.object fields) = .ok step) :
    Step.ofJson (.object (fields.without (others.flatMap StepKind.keys))) = .ok step := by
  obtain ⟨_, _, same, -, -, read⟩ := Step.ofJson_eq_ok.mp read
  cases same
  rw [← StepKind.read_without (first_apart kinds)] at read
  have one := kindsOf_without kinds
  exact Step.ofJson_eq_ok.mpr ⟨_, [], rfl, one, by simp [one], read⟩

/-- The value is a column name, or an array of steps that ends in one. -/
inductive Shaped (isStep : Json → Prop) : Json → Prop
  | column (name : String) : Shaped isStep (.string name)
  | path {steps : List Json} (each : ∀ step ∈ steps, isStep step) (column : String) :
      Shaped isStep (.array (steps ++ [.string column]))

/-- The items of the array before the last one. -/
def stepsOf : Json → List Json
  | .array items => items.dropLast
  | _ => []

theorem Spec.ofJson_concat (items : List Json) (last : Json) :
    Spec.ofJson (.array (items ++ [last])) =
      match last with
      | .string column => items.mapM Step.ofJson >>= fun steps => .ok ⟨steps, column⟩
      | last => .error (.invalidShape (.endsInNoColumn last)) := by
  simp only [Spec.ofJson, List.getLast?_concat, List.dropLast_concat, readSteps_eq_mapM]
  cases last <;> rfl

theorem Spec.ofJson_eq_ok {spec : Spec} : Spec.ofJson value = .ok spec ↔
    value = .string spec.column ∧ spec.steps = [] ∨ ∃ items,
      value = .array (items ++ [.string spec.column]) ∧
        items.mapM Step.ofJson = .ok spec.steps := by
  obtain ⟨steps, column⟩ := spec
  cases value with
  | string name => simp [Spec.ofJson, and_comm, eq_comm]
  | array items =>
      obtain rfl | ⟨items, last, rfl⟩ := items.eq_nil_or_concat
      · simp [Spec.ofJson]
      · rw [List.concat_eq_append, Spec.ofJson_concat]
        cases last with
        | string name =>
            rw [bind_eq_ok]
            constructor
            · rintro ⟨steps, areSteps, same⟩
              cases same
              exact .inr ⟨items, rfl, areSteps⟩
            · rintro (⟨absurd, -⟩ | ⟨items, same, areSteps⟩)
              · contradiction
              · obtain ⟨rfl, last⟩ := List.append_inj' (Json.array.inj same) rfl
                cases last
                exact ⟨steps, areSteps, rfl⟩
        | _ => simp
  | _ => simp [Spec.ofJson]

theorem Spec.ofJson_isOk : (∃ spec, Spec.ofJson value = .ok spec) ↔ Shaped Taken value := by
  constructor
  · rintro ⟨spec, read⟩
    obtain ⟨rfl, -⟩ | ⟨items, rfl, areSteps⟩ := Spec.ofJson_eq_ok.mp read
    · exact .column spec.column
    · exact .path (fun item member => Step.ofJson_isOk.mp ((mapM_eq_ok.mp areSteps).1 item member))
        spec.column
  · intro shaped
    cases shaped with
    | column name => exact ⟨⟨[], name⟩, rfl⟩
    | path each column =>
        have areSteps := mapM_eq_ok.mpr
          ⟨fun item member => Step.ofJson_isOk.mpr (each item member), rfl⟩
        exact ⟨⟨_, column⟩, Spec.ofJson_eq_ok.mpr (.inr ⟨_, rfl, areSteps⟩)⟩

theorem shaped_oneKind_iff : Shaped OneKind value ↔ Shaped Taken value ∧
    ∀ fields, .object fields ∈ stepsOf value → (kindsOf fields).length = 1 := by
  constructor
  · intro shaped
    cases shaped with
    | column name => exact ⟨.column name, by simp [stepsOf]⟩
    | path each column =>
        refine ⟨.path (fun step member => (oneKind_iff.mp (each step member)).1) column, ?_⟩
        intro fields member
        rw [stepsOf, List.dropLast_concat] at member
        exact (oneKind_iff.mp (each _ member)).2 fields rfl
  · rintro ⟨shaped, one⟩
    cases shaped with
    | column name => exact .column name
    | path each column =>
        refine .path (fun step member => oneKind_iff.mpr ⟨each step member, ?_⟩) column
        rintro fields rfl
        exact one fields (by rwa [stepsOf, List.dropLast_concat])

/-- A source is read from what declares it with steps that are well formed as the first kind that
    they declare.  Just where each step declares one kind, that is all that was declared; of another
    step all but the first kind is dropped. -/
theorem source_grammar (value : Json) :
    ((∃ spec, Spec.ofJson value = .ok spec) ↔ Shaped Taken value) ∧
      (Shaped OneKind value ↔ Shaped Taken value ∧
        ∀ fields, .object fields ∈ stepsOf value → (kindsOf fields).length = 1) ∧
      ∀ spec, Spec.ofJson value = .ok spec →
        List.Forall₂ (fun item step => ∃ fields others, item = .object fields ∧
          kindsOf fields = step.kind :: others ∧
          Step.ofJson (.object (fields.without (others.flatMap StepKind.keys))) = .ok step)
          (stepsOf value) spec.steps := by
  refine ⟨Spec.ofJson_isOk, shaped_oneKind_iff, ?_⟩
  intro spec read
  have eachStep : List.Forall₂ (fun item step => Step.ofJson item = .ok step) (stepsOf value)
      spec.steps := by
    obtain ⟨rfl, noSteps⟩ | ⟨items, rfl, areSteps⟩ := Spec.ofJson_eq_ok.mp read
    · rw [noSteps]
      exact .nil
    · rw [stepsOf, List.dropLast_concat]
      exact mapM_eq_ok_iff_forall₂.mp areSteps
  refine eachStep.imp fun item step isStep => ?_
  obtain ⟨fields, others, rfl, kinds, -, -⟩ := Step.ofJson_eq_ok.mp isStep
  exact ⟨fields, others, rfl, kinds, Step.ofJson_without kinds isStep⟩

/-- A step that continues the path "owner" and follows a foreign key as well. -/
def doubleStep : Json.Fields :=
  [(sourcekeyKey, .string "owner"),
    (Direction.outbound.text, .array [.string "s", .string "guest"])]

/-- The step is read as the sourcekey, and the foreign key is dropped. -/
theorem second_kind_dropped :
    Spec.ofJson (.array [.object doubleStep, .string "name"]) = .ok ⟨[.sourcekey "owner"], "name"⟩ ∧
      ¬ Shaped OneKind (.array [.object doubleStep, .string "name"]) := by
  refine ⟨rfl, fun shaped => ?_⟩
  have one := (shaped_oneKind_iff.mp shaped).2 doubleStep List.mem_cons_self
  exact absurd one (by decide)

end PathQuery.Source
